import OramEvictor.Word
import Mathlib.Data.List.Nodup
import Mathlib.Data.Nat.ModEq

/-!
# Reverse-lexicographic branch selection

`deterministic_get_next_branch_to_evict h t` returns the `t`-th leaf of a tree
whose leaves are `h` bits below the root, the path bits read least significant
first. For `h ≤ 63` it never panics, its value is `leafOfIteration h t`, and
over one period `t < 2 ^ h` it visits each of the `2 ^ h` leaves once; the node `j`
levels down its path reads only `t mod 2 ^ j` (`leafOfIteration_div`). For `h ≥ 64` the
shift `1u64 << h` always panics. The `random_child_at_height`
selector draws from an external RNG and is not modelled.
-/

namespace OramEvictor

/-- `deterministic_get_next_branch_to_evict(num_bits_to_be_reversed, iteration)`. -/
def deterministicGetNextBranchToEvict (numBitsToBeReversed : BitVec 32)
    (iteration : BitVec 64) : Option (BitVec 64) :=
  if numBitsToBeReversed = 0 then some 1 else do
    let leafSignificantIndex ← checkedShl 1 numBitsToBeReversed
    let shift ← checkedSub 64 numBitsToBeReversed
    let shifted ← checkedShr (reverseBits iteration) shift
    let testPosition ← checkedRem shifted leafSignificantIndex
    checkedAdd leafSignificantIndex testPosition

/-- The leaf the selector should return: `2 ^ h + reverse_h (t mod 2 ^ h)`. -/
def leafOfIteration (h t : Nat) : Nat := 2 ^ h + revBits h (t % 2 ^ h)

theorem leafOfIteration_ge (h t : Nat) : 2 ^ h ≤ leafOfIteration h t :=
  Nat.le_add_right _ _

theorem leafOfIteration_lt (h t : Nat) : leafOfIteration h t < 2 ^ (h + 1) := by
  have := revBits_lt h (t % 2 ^ h)
  rw [leafOfIteration, Nat.pow_succ]
  omega

theorem leafOfIteration_mod (h t : Nat) : leafOfIteration h (t % 2 ^ h) = leafOfIteration h t := by
  rw [leafOfIteration, leafOfIteration, Nat.mod_mod]

theorem leafOfIteration_injOn {h t t' : Nat} (ht : t < 2 ^ h) (ht' : t' < 2 ^ h)
    (he : leafOfIteration h t = leafOfIteration h t') : t = t' := by
  rw [leafOfIteration, leafOfIteration, Nat.mod_eq_of_lt ht, Nat.mod_eq_of_lt ht'] at he
  rw [← revBits_revBits ht, ← revBits_revBits ht', Nat.add_left_cancel he]

/-- Two iterations name the same leaf exactly when they agree modulo `2 ^ h`. -/
theorem leafOfIteration_eq_iff {h a b : Nat} :
    leafOfIteration h a = leafOfIteration h b ↔ a % 2 ^ h = b % 2 ^ h := by
  refine ⟨fun he => ?_, fun he => by rw [← leafOfIteration_mod h a, he, leafOfIteration_mod]⟩
  rw [← leafOfIteration_mod h a, ← leafOfIteration_mod h b] at he
  have hlt : ∀ x, x % 2 ^ h < 2 ^ h := fun x => Nat.mod_lt _ (Nat.two_pow_pos h)
  exact leafOfIteration_injOn (hlt a) (hlt b) he

theorem leafOfIteration_surjOn {h l : Nat} (hl : 2 ^ h ≤ l) (hl' : l < 2 ^ (h + 1)) :
    leafOfIteration h (revBits h (l - 2 ^ h)) = l := by
  have : l - 2 ^ h < 2 ^ h := by rw [Nat.pow_succ] at hl'; omega
  rw [leafOfIteration, Nat.mod_eq_of_lt (revBits_lt _ _), revBits_revBits this]
  omega

/-- Any `2 ^ h` consecutive iterations name each leaf at height `h` once. -/
theorem leafOfIteration_window_perm (h c : Nat) :
    ((List.range (2 ^ h)).map fun j => leafOfIteration h ((c + j) % 2 ^ h)).Perm
      ((List.range (2 ^ h)).map (2 ^ h + ·)) := by
  have hN := Nat.two_pow_pos h
  apply List.Subperm.perm_of_length_le _ (by simp)
  apply List.subperm_of_subset
  · refine List.Nodup.map_on (fun x hx y hy he => ?_) (List.nodup_range _)
    rw [List.mem_range] at hx hy
    have hxy := Nat.ModEq.add_left_cancel' c
      (leafOfIteration_injOn (Nat.mod_lt _ hN) (Nat.mod_lt _ hN) he)
    rwa [Nat.ModEq, Nat.mod_eq_of_lt hx, Nat.mod_eq_of_lt hy] at hxy
  · intro a ha
    simp only [List.mem_map, List.mem_range] at ha ⊢
    obtain ⟨j, -, rfl⟩ := ha
    have hlo := leafOfIteration_ge h ((c + j) % 2 ^ h)
    have hhi := leafOfIteration_lt h ((c + j) % 2 ^ h)
    rw [Nat.pow_succ] at hhi
    exact ⟨_, by omega, Nat.add_sub_cancel' hlo⟩

/-- The node `j` levels down the path of iteration `t` is iteration `t`'s node at height `j`. -/
theorem leafOfIteration_div {j h : Nat} (hj : j ≤ h) (t : Nat) :
    leafOfIteration h t / 2 ^ (h - j) = leafOfIteration j t := by
  obtain ⟨d, rfl⟩ := Nat.exists_eq_add_of_le hj
  have hr := revBits_lt d (t % 2 ^ (j + d) / 2 ^ j)
  have hlow : revBits j (t % 2 ^ (j + d)) = revBits j (t % 2 ^ j) := by
    rw [← revBits_mod j (t % 2 ^ (j + d)), Nat.mod_mod_of_dvd t (Nat.pow_dvd_pow 2 hj)]
  rw [Nat.add_sub_cancel_left, leafOfIteration, leafOfIteration, revBits_add,
    show 2 ^ (j + d) + (revBits j (t % 2 ^ (j + d)) * 2 ^ d + revBits d (t % 2 ^ (j + d) / 2 ^ j)) =
      revBits d (t % 2 ^ (j + d) / 2 ^ j) + (2 ^ j + revBits j (t % 2 ^ (j + d))) * 2 ^ d by
        rw [Nat.pow_add]; ring,
    Nat.add_mul_div_right _ _ (Nat.two_pow_pos d), Nat.div_eq_of_lt hr, Nat.zero_add, hlow]

/-- `reverse_bits(t) >> (64 - h)` is the reversal of the low `h` bits of `t`. -/
theorem reverseBits_shift {h : Nat} (hh : h ≤ 64) (t : BitVec 64) :
    (reverseBits t).toNat / 2 ^ (64 - h) = revBits h t.toNat := by
  have hsplit := revBits_add h (64 - h) t.toNat
  rw [Nat.add_sub_cancel' hh] at hsplit
  rw [reverseBits, BitVec.toNat_ofNat, Nat.mod_eq_of_lt (revBits_lt _ _), hsplit,
    Nat.add_comm, Nat.add_mul_div_right _ _ (Nat.two_pow_pos _),
    Nat.div_eq_of_lt (revBits_lt _ _), Nat.zero_add]

/-- For every height up to 63 the selector returns `leafOfIteration`, without a panic. -/
theorem deterministicGetNextBranchToEvict_eq {h : BitVec 32} (hh : h.toNat ≤ 63)
    (t : BitVec 64) :
    deterministicGetNextBranchToEvict h t =
      some (BitVec.ofNat 64 (leafOfIteration h.toNat t.toNat)) := by
  by_cases h0 : h = 0
  · subst h0
    rfl
  have hpos : h.toNat ≠ 0 := fun e => h0 (BitVec.eq_of_toNat_eq e)
  have hpow : 2 ^ h.toNat < 2 ^ 64 := Nat.pow_lt_pow_right (by decide) (by omega)
  have hrev := revBits_lt h.toNat t.toNat
  have hleaf := leafOfIteration_lt h.toNat t.toNat
  have hleaf' : 2 ^ (h.toNat + 1) ≤ 2 ^ 64 := Nat.pow_le_pow_right (by decide) (by omega)
  have hsig : ((1 : BitVec 64) <<< h.toNat).toNat = 2 ^ h.toNat := by
    simp only [BitVec.toNat_shiftLeft, BitVec.toNat_ofNat, Nat.shiftLeft_eq]
    simpa using hpow
  have hsub : ((64 : BitVec 32) - h).toNat = 64 - h.toNat := by
    rw [BitVec.toNat_sub]; simp; omega
  have hshr : (reverseBits t >>> ((64 : BitVec 32) - h).toNat).toNat = revBits h.toNat t.toNat := by
    rw [BitVec.toNat_ushiftRight, hsub, Nat.shiftRight_eq_div_pow, reverseBits_shift (by omega)]
  rw [deterministicGetNextBranchToEvict, if_neg h0]
  simp only [Option.bind_eq_bind, checkedShl_of_lt (show h.toNat < 64 by omega), Option.some_bind,
    checkedSub_of_le (show h.toNat ≤ (64 : BitVec 32).toNat by simp; omega),
    checkedShr_of_lt (show ((64 : BitVec 32) - h).toNat < 64 by omega),
    checkedRem_of_ne (show ((1 : BitVec 64) <<< h.toNat).toNat ≠ 0 by omega)]
  have hval : ((1 : BitVec 64) <<< h.toNat).toNat +
      ((reverseBits t >>> ((64 : BitVec 32) - h).toNat) % ((1 : BitVec 64) <<< h.toNat)).toNat =
      leafOfIteration h.toNat t.toNat := by
    rw [BitVec.toNat_umod, hsig, hshr, Nat.mod_eq_of_lt hrev, leafOfIteration, revBits_mod]
  rw [checkedAdd_of_lt (by omega)]
  exact congrArg some (BitVec.eq_of_toNat_eq (by
    rw [BitVec.toNat_add, hval, BitVec.toNat_ofNat]))

/-- From `h = 64` on, `1u64 << h` overflows. -/
theorem deterministicGetNextBranchToEvict_of_ge {h : BitVec 32} (hh : 64 ≤ h.toNat)
    (t : BitVec 64) : deterministicGetNextBranchToEvict h t = none := by
  have h0 : h ≠ 0 := by
    rintro rfl
    exact absurd hh (by decide)
  rw [deterministicGetNextBranchToEvict, if_neg h0, checkedShl, if_neg (by omega)]
  rfl

/-- The selector panics exactly when `1u64 << num_bits_to_be_reversed` overflows. -/
theorem deterministicGetNextBranchToEvict_eq_none_iff (h : BitVec 32) (t : BitVec 64) :
    deterministicGetNextBranchToEvict h t = none ↔ 64 ≤ h.toNat := by
  refine ⟨fun hnone => Nat.le_of_not_lt fun hh => ?_, fun hh =>
    deterministicGetNextBranchToEvict_of_ge hh t⟩
  rw [deterministicGetNextBranchToEvict_eq (by omega)] at hnone
  exact Option.some_ne_none _ hnone

theorem toNat_leafOfIteration {h : Nat} (hh : h ≤ 63) (t : Nat) :
    (BitVec.ofNat 64 (leafOfIteration h t)).toNat = leafOfIteration h t :=
  Nat.mod_eq_of_lt (Nat.lt_of_lt_of_le (leafOfIteration_lt h t)
    (Nat.pow_le_pow_right (by decide) (by omega)))

/-- The selector's law: value, range, period, and one period as a bijection onto the leaves. -/
theorem deterministicGetNextBranchToEvict_reverse_lexicographic (h : BitVec 32)
    (hh : h.toNat ≤ 63) :
    (∀ t : BitVec 64, (deterministicGetNextBranchToEvict h t).map BitVec.toNat =
      some (2 ^ h.toNat + revBits h.toNat (t.toNat % 2 ^ h.toNat))) ∧
    (∀ t : BitVec 64, ∃ l, deterministicGetNextBranchToEvict h t = some l ∧
      2 ^ h.toNat ≤ l.toNat ∧ l.toNat < 2 ^ (h.toNat + 1)) ∧
    (∀ t t' : BitVec 64, t.toNat % 2 ^ h.toNat = t'.toNat % 2 ^ h.toNat →
      deterministicGetNextBranchToEvict h t = deterministicGetNextBranchToEvict h t') ∧
    (∀ l : BitVec 64, 2 ^ h.toNat ≤ l.toNat → l.toNat < 2 ^ (h.toNat + 1) →
      ∃! t : BitVec 64, t.toNat < 2 ^ h.toNat ∧ deterministicGetNextBranchToEvict h t = some l) := by
  have hleaf := toNat_leafOfIteration hh
  refine ⟨fun t => ?_, fun t => ?_, fun t t' ht => ?_, fun l hl hl' => ?_⟩
  · rw [deterministicGetNextBranchToEvict_eq hh, Option.map_some', hleaf, leafOfIteration]
  · refine ⟨_, deterministicGetNextBranchToEvict_eq hh t, ?_⟩
    rw [hleaf]
    exact ⟨leafOfIteration_ge _ _, leafOfIteration_lt _ _⟩
  · rw [deterministicGetNextBranchToEvict_eq hh, deterministicGetNextBranchToEvict_eq hh,
      ← leafOfIteration_mod, ht, leafOfIteration_mod]
  · have hpow : 2 ^ h.toNat ≤ 2 ^ 64 := Nat.pow_le_pow_right (by decide) (by omega)
    have hr := revBits_lt h.toNat (l.toNat - 2 ^ h.toNat)
    refine ⟨BitVec.ofNat 64 (revBits h.toNat (l.toNat - 2 ^ h.toNat)), ⟨?_, ?_⟩, ?_⟩
    · rw [BitVec.toNat_ofNat, Nat.mod_eq_of_lt (by omega)]
      exact hr
    · rw [deterministicGetNextBranchToEvict_eq hh, BitVec.toNat_ofNat, Nat.mod_eq_of_lt (by omega),
        leafOfIteration_surjOn hl hl', BitVec.ofNat_toNat, BitVec.setWidth_eq]
    · rintro t ⟨ht, he⟩
      rw [deterministicGetNextBranchToEvict_eq hh, Option.some.injEq] at he
      have he' := congrArg BitVec.toNat he
      rw [hleaf, ← leafOfIteration_surjOn hl hl'] at he'
      apply BitVec.eq_of_toNat_eq
      rw [leafOfIteration_injOn ht (revBits_lt _ _) he', BitVec.toNat_ofNat,
        Nat.mod_eq_of_lt (by omega)]

theorem deterministicGetNextBranchToEvict_height_three :
    (3 : BitVec 32).toNat ≤ 63 ∧
      ∃! t : BitVec 64, t.toNat < 2 ^ 3 ∧ deterministicGetNextBranchToEvict 3 t = some 12 :=
  ⟨by decide,
    (deterministicGetNextBranchToEvict_reverse_lexicographic 3 (by decide)).2.2.2 12
      (by decide) (by decide)⟩

example : (List.range 9).map (fun t => deterministicGetNextBranchToEvict 3 (BitVec.ofNat 64 t)) =
    [some 8, some 12, some 10, some 14, some 9, some 13, some 11, some 15, some 8] := by
  decide

end OramEvictor
