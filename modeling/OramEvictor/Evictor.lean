import OramEvictor.BranchSelector
import Mathlib.Data.Nat.Bitwise

/-!
# The deterministic evictor and its factory

`PathOramDeterministicEvictor` keeps a call counter `branches_evicted` that wraps at
`tree_breadth`, and each call of `get_next_branch_to_evict` asks the selector for the leaf
of the counter's old value. `new` sets `tree_breadth` to `2 ^ tree_height`, where `^` is the
exclusive or of Rust: the breadth is `2 XOR h`, which is `0` at `h = 2`, and the first call
then takes a remainder by zero. Runs are followed from any state and from `new`, and set
against the period `2 ^ h` the selector is written for. The eviction strategy's calls into
the branch checkout, and the random evictor's RNG, are external and not modelled.
-/

namespace OramEvictor

/-- `PathOramDeterministicEvictor`. -/
structure PathOramDeterministicEvictor where
  numberOfAdditionalBranchesToEvict : Nat
  branchesEvicted : BitVec 64
  treeHeight : BitVec 32
  treeBreadth : BitVec 64
deriving DecidableEq, Repr

namespace PathOramDeterministicEvictor

/-- `PathOramDeterministicEvictor::new`; `2u64 ^ (tree_height as u64)` is an exclusive or. -/
def new (numberOfAdditionalBranchesToEvict : Nat) (treeHeight : BitVec 32) :
    PathOramDeterministicEvictor where
  numberOfAdditionalBranchesToEvict := numberOfAdditionalBranchesToEvict
  treeHeight := treeHeight
  treeBreadth := 2 ^^^ treeHeight.setWidth 64
  branchesEvicted := 0

/-- `BranchSelector::get_next_branch_to_evict`: the leaf and the next state. -/
def getNextBranchToEvict (e : PathOramDeterministicEvictor) :
    Option (BitVec 64 × PathOramDeterministicEvictor) := do
  let iteration := e.branchesEvicted
  let next ← checkedAdd e.branchesEvicted 1
  let branchesEvicted ← checkedRem next e.treeBreadth
  let leaf ← deterministicGetNextBranchToEvict e.treeHeight iteration
  pure (leaf, { e with branchesEvicted })

/-- `BranchSelector::get_number_of_additional_branches_to_evict`. -/
def getNumberOfAdditionalBranchesToEvict (e : PathOramDeterministicEvictor) : Nat :=
  e.numberOfAdditionalBranchesToEvict

/-- The leaves of `m` successive calls, and the state after them. -/
def getNextBranches : Nat → PathOramDeterministicEvictor →
    Option (List (BitVec 64) × PathOramDeterministicEvictor)
  | 0, e => some ([], e)
  | m + 1, e => do
    let (leaf, e') ← e.getNextBranchToEvict
    let (leaves, e'') ← getNextBranches m e'
    pure (leaf :: leaves, e'')

theorem new_treeBreadth (k : Nat) (h : BitVec 32) :
    (new k h).treeBreadth = 2 ^^^ h.setWidth 64 := rfl

@[simp] theorem new_branchesEvicted (k : Nat) (h : BitVec 32) :
    (new k h).branchesEvicted = 0 := rfl

@[simp] theorem new_branchesEvicted_toNat (k : Nat) (h : BitVec 32) :
    (new k h).branchesEvicted.toNat = 0 := rfl

@[simp] theorem new_treeHeight (k : Nat) (h : BitVec 32) : (new k h).treeHeight = h := rfl

/-- A zero breadth makes every call panic on the remainder. -/
theorem getNextBranchToEvict_breadth_zero {e : PathOramDeterministicEvictor}
    (h : e.treeBreadth = 0) : e.getNextBranchToEvict = none := by
  simp only [getNextBranchToEvict, h, checkedRem_zero]
  cases checkedAdd e.branchesEvicted 1 <;> rfl

/-- A call panics whenever the selector does. -/
theorem getNextBranchToEvict_of_selector_none {e : PathOramDeterministicEvictor}
    (h : deterministicGetNextBranchToEvict e.treeHeight e.branchesEvicted = none) :
    e.getNextBranchToEvict = none := by
  simp [getNextBranchToEvict, h]

/-- One call from a counter below a nonzero breadth. -/
theorem getNextBranchToEvict_eq {e : PathOramDeterministicEvictor}
    (hh : e.treeHeight.toNat ≤ 63) (hc : e.branchesEvicted.toNat < e.treeBreadth.toNat) :
    e.getNextBranchToEvict =
      some (BitVec.ofNat 64 (leafOfIteration e.treeHeight.toNat e.branchesEvicted.toNat),
        { e with branchesEvicted :=
            BitVec.ofNat 64 ((e.branchesEvicted.toNat + 1) % e.treeBreadth.toNat) }) := by
  have hb := e.treeBreadth.isLt
  have hone : (1 : BitVec 64).toNat = 1 := rfl
  have hadd : checkedAdd e.branchesEvicted 1 = some (e.branchesEvicted + 1) :=
    checkedAdd_of_lt (by rw [hone]; omega)
  have hsum : (e.branchesEvicted + 1).toNat = e.branchesEvicted.toNat + 1 := by
    rw [BitVec.toNat_add, hone, Nat.mod_eq_of_lt (by omega)]
  have hrem : checkedRem (e.branchesEvicted + 1) e.treeBreadth =
      some (BitVec.ofNat 64 ((e.branchesEvicted.toNat + 1) % e.treeBreadth.toNat)) := by
    rw [checkedRem_of_ne (by omega)]
    congr 1
    apply BitVec.eq_of_toNat_eq
    rw [BitVec.toNat_umod, hsum, BitVec.toNat_ofNat,
      Nat.mod_eq_of_lt (Nat.lt_trans (Nat.mod_lt _ (by omega)) hb)]
  simp only [getNextBranchToEvict, hadd, hrem, Option.bind_eq_bind, Option.some_bind,
    deterministicGetNextBranchToEvict_eq hh]
  rfl

/-- The run lemma: `m` calls from counter `c < b` answer iterations `c, c + 1, …` modulo `b`. -/
theorem getNextBranches_eq (m : Nat) {e : PathOramDeterministicEvictor}
    (hh : e.treeHeight.toNat ≤ 63) (hc : e.branchesEvicted.toNat < e.treeBreadth.toNat) :
    getNextBranches m e =
      some ((List.range m).map fun j => BitVec.ofNat 64
          (leafOfIteration e.treeHeight.toNat ((e.branchesEvicted.toNat + j) % e.treeBreadth.toNat)),
        { e with branchesEvicted :=
            BitVec.ofNat 64 ((e.branchesEvicted.toNat + m) % e.treeBreadth.toNat) }) := by
  induction m generalizing e with
  | zero =>
    simp only [getNextBranches, List.range_zero, List.map_nil, Nat.add_zero,
      Nat.mod_eq_of_lt hc, BitVec.ofNat_toNat, BitVec.setWidth_eq]
  | succ m ih =>
    have hlt : (e.branchesEvicted.toNat + 1) % e.treeBreadth.toNat < e.treeBreadth.toNat :=
      Nat.mod_lt _ (by omega)
    have hc' : (BitVec.ofNat 64 ((e.branchesEvicted.toNat + 1) % e.treeBreadth.toNat)).toNat =
        (e.branchesEvicted.toNat + 1) % e.treeBreadth.toNat :=
      Nat.mod_eq_of_lt (Nat.lt_trans hlt e.treeBreadth.isLt)
    have hnext := @ih { e with branchesEvicted := BitVec.ofNat 64 _ } hh (hc' ▸ hlt)
    simp only [hc', Nat.mod_add_mod] at hnext
    simp only [getNextBranches, getNextBranchToEvict_eq hh hc, Option.bind_eq_bind,
      Option.some_bind, hnext, List.range_succ_eq_map, List.map_cons, List.map_map,
      Nat.add_zero, Option.some.injEq, Prod.mk.injEq, List.cons.injEq]
    simp only [Nat.mod_eq_of_lt hc, Function.comp_def, Nat.succ_eq_add_one, Nat.add_assoc,
      Nat.add_comm 1]
    rfl

/-- With `tree_breadth = 2 ^ tree_height`, any `2 ^ h` calls return each leaf once. -/
theorem getNextBranches_perm_leaves {e : PathOramDeterministicEvictor}
    (hh : e.treeHeight.toNat ≤ 63) (hb : e.treeBreadth.toNat = 2 ^ e.treeHeight.toNat)
    (hc : e.branchesEvicted.toNat < e.treeBreadth.toNat) :
    ∃ leaves e', getNextBranches (2 ^ e.treeHeight.toNat) e = some (leaves, e') ∧
      (leaves.map BitVec.toNat).Perm
        ((List.range (2 ^ e.treeHeight.toNat)).map (2 ^ e.treeHeight.toNat + ·)) := by
  refine ⟨_, _, getNextBranches_eq _ hh hc, ?_⟩
  simp only [List.map_map, Function.comp_def, toNat_leafOfIteration hh, hb]
  exact leafOfIteration_window_perm _ _

theorem getNextBranches_perm_leaves_height_two :
    ∃ leaves e', getNextBranches (2 ^ 2) ⟨0, 0, 2, 4⟩ = some (leaves, e') ∧
      (leaves.map BitVec.toNat).Perm ((List.range (2 ^ 2)).map (2 ^ 2 + ·)) :=
  @getNextBranches_perm_leaves ⟨0, 0, 2, 4⟩ (by decide) (by decide) (by decide)

/-- With breadth `2 ^ h`, any `2 ^ j` calls pass once through each node `j` levels down. -/
theorem getNextBranches_perm_subtrees {e : PathOramDeterministicEvictor}
    (hh : e.treeHeight.toNat ≤ 63) (hb : e.treeBreadth.toNat = 2 ^ e.treeHeight.toNat)
    (hc : e.branchesEvicted.toNat < e.treeBreadth.toNat) {j : Nat}
    (hj : j ≤ e.treeHeight.toNat) :
    ∃ leaves e', getNextBranches (2 ^ j) e = some (leaves, e') ∧
      (leaves.map fun l => l.toNat / 2 ^ (e.treeHeight.toNat - j)).Perm
        ((List.range (2 ^ j)).map (2 ^ j + ·)) := by
  have hmod : ∀ t, leafOfIteration j (t % 2 ^ e.treeHeight.toNat) = leafOfIteration j (t % 2 ^ j) :=
    fun t => by rw [← leafOfIteration_mod j, Nat.mod_mod_of_dvd t (Nat.pow_dvd_pow 2 hj)]
  refine ⟨_, _, getNextBranches_eq _ hh hc, ?_⟩
  simp only [List.map_map, Function.comp_def, toNat_leafOfIteration hh, leafOfIteration_div hj, hb,
    hmod]
  exact leafOfIteration_window_perm _ _

theorem getNextBranches_perm_subtrees_height_three :
    ∃ leaves e', getNextBranches (2 ^ 2) ⟨0, 5, 3, 8⟩ = some (leaves, e') ∧
      (leaves.map fun l => l.toNat / 2 ^ ((3 : BitVec 32).toNat - 2)).Perm
        ((List.range (2 ^ 2)).map (2 ^ 2 + ·)) :=
  @getNextBranches_perm_subtrees ⟨0, 5, 3, 8⟩ (by decide) (by decide) (by decide) 2 (by decide)

theorem new_treeBreadth_toNat (k : Nat) (h : BitVec 32) :
    (new k h).treeBreadth.toNat = 2 ^^^ h.toNat := by
  rw [new_treeBreadth, BitVec.toNat_xor, BitVec.toNat_setWidth,
    Nat.mod_eq_of_lt (Nat.lt_trans h.isLt (by decide))]
  rfl

/-- Away from `h = 2` the breadth `2 XOR h` is positive, so the fresh counter is below it. -/
theorem new_branchesEvicted_lt (k : Nat) {h : BitVec 32} (h2 : h ≠ 2) :
    (new k h).branchesEvicted.toNat < (new k h).treeBreadth.toNat := by
  rw [new_treeBreadth_toNat, new_branchesEvicted_toNat]
  refine Nat.pos_of_ne_zero fun e => h2 (BitVec.eq_of_toNat_eq ?_)
  exact (Nat.xor_eq_zero.mp e).symm

/-- For `h ≤ 63`, `h ≠ 2`, no call of `new k h` panics and the counter wraps at `2 XOR h`. -/
theorem new_getNextBranches (k : Nat) {h : BitVec 32} (hh : h.toNat ≤ 63) (h2 : h ≠ 2)
    (m : Nat) :
    (getNextBranches m (new k h)).map Prod.fst =
      some ((List.range m).map fun j =>
        BitVec.ofNat 64 (leafOfIteration h.toNat (j % (2 ^^^ h.toNat)))) := by
  rw [getNextBranches_eq m hh (new_branchesEvicted_lt k h2), new_treeBreadth_toNat]
  simp

theorem new_getNextBranches_height_five :
    (getNextBranches 3 (new 0 5)).map Prod.fst =
      some ((List.range 3).map fun j =>
        BitVec.ofNat 64 (leafOfIteration (5 : BitVec 32).toNat (j % (2 ^^^ (5 : BitVec 32).toNat)))) :=
  new_getNextBranches 0 (by decide) (by decide) 3

/-- `tree_breadth = 2 XOR h`: at `h = 2` the first call panics on a remainder by zero;
at `h = 3` the counter never leaves `0`, so the second call returns leaf `8` where the
selector's iteration `1` is leaf `12`. -/
theorem new_tree_breadth_xor (k : Nat) :
    (new k 2).getNextBranchToEvict = none ∧
    (getNextBranches 2 (new k 3)).map Prod.fst = some [8, 8] ∧
    deterministicGetNextBranchToEvict 3 1 = some 12 := by
  refine ⟨getNextBranchToEvict_breadth_zero (by rw [new_treeBreadth]; decide), ?_, by decide⟩
  rw [getNextBranches_eq 2 (by rw [new_treeHeight]; decide) (new_branchesEvicted_lt k (by decide)),
    new_treeBreadth_toNat, new_branchesEvicted_toNat, new_treeHeight]
  rfl

theorem xor_two_mod_pow_ne_zero {h : Nat} (h1 : 1 ≤ h) (hh : h ≤ 63) (h2 : h ≠ 2) :
    (2 ^^^ h) % 2 ^ h ≠ 0 := by
  by_cases hs : h < 7
  · exact (by decide : ∀ h < 7, h ≠ 0 → h ≠ 2 → (2 ^^^ h) % 2 ^ h ≠ 0) h hs (by omega) h2
  · have hx : 2 ^^^ h < 2 ^ 6 := Nat.xor_lt_two_pow (by decide) (by omega)
    have hp : 2 ^ 7 ≤ 2 ^ h := Nat.pow_le_pow_right (by decide) (by omega)
    rw [Nat.mod_eq_of_lt (by omega)]
    exact fun e => h2 (Nat.xor_eq_zero.mp e).symm

/-- Call `m + 1` of `new k h` gives the selector's leaf for iteration `m mod 2 ^ h` exactly when
`m mod (2 XOR h)` and `m` agree modulo `2 ^ h`. -/
theorem getNextBranches_new_last_iff (k m : Nat) {h : BitVec 32} (hh : h.toNat ≤ 63) (h2 : h ≠ 2) :
    (getNextBranches (m + 1) (new k h)).map (fun r => r.1.getLast?) =
        some (deterministicGetNextBranchToEvict h (BitVec.ofNat 64 (m % 2 ^ h.toNat))) ↔
      m % (2 ^^^ h.toNat) % 2 ^ h.toNat = m % 2 ^ h.toNat := by
  have hlt : m % 2 ^ h.toNat < 2 ^ 64 := Nat.lt_of_lt_of_le (Nat.mod_lt _ (Nat.two_pow_pos _))
    (Nat.pow_le_pow_right (by decide) (by omega))
  rw [getNextBranches_eq _ hh (new_branchesEvicted_lt k h2), new_treeBreadth_toNat,
    deterministicGetNextBranchToEvict_eq hh, BitVec.toNat_ofNat, Nat.mod_eq_of_lt hlt]
  simp only [Option.map_some', List.getLast?_map, List.getLast?_range, Nat.add_sub_cancel,
    Nat.add_one_ne_zero, if_false, Option.some.injEq, new_branchesEvicted_toNat,
    new_treeHeight, Nat.zero_add]
  rw [BitVec.toNat_eq, toNat_leafOfIteration hh, toNat_leafOfIteration hh, leafOfIteration_eq_iff,
    Nat.mod_mod]

/-- For `h ≤ 63`, `h ≠ 2`, call `m + 1` of `new k h` returns the selector's leaf for
iteration `m mod 2 ^ h` exactly when `m mod (2 XOR h)` and `m` agree modulo `2 ^ h`; from
`h = 1` on, call `(2 XOR h) + 1` does not. -/
theorem new_period_law_iff (k : Nat) {h : BitVec 32} (hh : h.toNat ≤ 63) (h2 : h ≠ 2) :
    (∀ m, (getNextBranches (m + 1) (new k h)).map (fun r => r.1.getLast?) =
        some (deterministicGetNextBranchToEvict h (BitVec.ofNat 64 (m % 2 ^ h.toNat))) ↔
      m % (2 ^^^ h.toNat) % 2 ^ h.toNat = m % 2 ^ h.toNat) ∧
    (1 ≤ h.toNat →
      (getNextBranches ((2 ^^^ h.toNat) + 1) (new k h)).map (fun r => r.1.getLast?) ≠
        some (deterministicGetNextBranchToEvict h
          (BitVec.ofNat 64 ((2 ^^^ h.toNat) % 2 ^ h.toNat)))) := by
  refine ⟨fun m => getNextBranches_new_last_iff k m hh h2, fun h1 e => ?_⟩
  -- at `m = 2 XOR h` the law would make `2 XOR h` a multiple of `2 ^ h`
  have hm := (getNextBranches_new_last_iff k _ hh h2).1 e
  rw [Nat.mod_self, Nat.zero_mod] at hm
  exact xor_two_mod_pow_ne_zero h1 hh (fun e' => h2 (BitVec.eq_of_toNat_eq e')) hm.symm

theorem new_period_law_iff_height_one :
    (∀ m, (getNextBranches (m + 1) (new 0 1)).map (fun r => r.1.getLast?) =
        some (deterministicGetNextBranchToEvict 1
          (BitVec.ofNat 64 (m % 2 ^ (1 : BitVec 32).toNat))) ↔
      m % (2 ^^^ (1 : BitVec 32).toNat) % 2 ^ (1 : BitVec 32).toNat =
        m % 2 ^ (1 : BitVec 32).toNat) ∧
    (1 ≤ (1 : BitVec 32).toNat →
      (getNextBranches ((2 ^^^ (1 : BitVec 32).toNat) + 1) (new 0 1)).map (fun r => r.1.getLast?) ≠
        some (deterministicGetNextBranchToEvict 1
          (BitVec.ofNat 64 ((2 ^^^ (1 : BitVec 32).toNat) % 2 ^ (1 : BitVec 32).toNat)))) :=
  new_period_law_iff 0 (by decide) (by decide)

/-- A run from `new k h` panics at some call exactly when `h = 2` or `h ≥ 64`. -/
theorem getNextBranches_new_none_iff (k : Nat) (h : BitVec 32) :
    (∃ m, getNextBranches m (new k h) = none) ↔ h = 2 ∨ 64 ≤ h.toNat := by
  constructor
  · rintro ⟨m, hm⟩
    refine Classical.or_iff_not_imp_left.2 fun h2 => Nat.le_of_not_lt fun hh => ?_
    rw [getNextBranches_eq m (show h.toNat ≤ 63 by omega) (new_branchesEvicted_lt k h2)] at hm
    exact Option.noConfusion hm
  · intro hc
    have hz : (new k h).getNextBranchToEvict = none := by
      rcases hc with rfl | hc
      · exact getNextBranchToEvict_breadth_zero (by rw [new_treeBreadth]; decide)
      · exact getNextBranchToEvict_of_selector_none (deterministicGetNextBranchToEvict_of_ge hc _)
    exact ⟨1, by simp [getNextBranches, hz]⟩

/-- For `3 ≤ h ≤ 63`, every run of `new k h` stays in its first `2 XOR h < 2 ^ h` leaves. -/
theorem new_getNextBranches_leaves (k : Nat) {h : BitVec 32} (h3 : 3 ≤ h.toNat)
    (hh : h.toNat ≤ 63) :
    ∃ leaves e, getNextBranches (2 ^^^ h.toNat) (new k h) = some (leaves, e) ∧ leaves.Nodup ∧
      leaves.length < 2 ^ h.toNat ∧
      ∀ m leaves' e', getNextBranches m (new k h) = some (leaves', e') → ∀ l ∈ leaves',
        l ∈ leaves := by
  have h2 : h ≠ 2 := by
    rintro rfl
    exact absurd h3 (by decide)
  have hpos := new_branchesEvicted_lt k h2
  rw [new_branchesEvicted_toNat, new_treeBreadth_toNat] at hpos
  have hb : 2 ^^^ h.toNat < 2 ^ h.toNat := Nat.xor_lt_two_pow
    (Nat.lt_of_lt_of_le (by decide) (Nat.pow_le_pow_right (by decide) (by omega) : 2 ^ 2 ≤ _))
    (Nat.lt_two_pow _)
  have hrun := fun m => getNextBranches_eq m (e := new k h) hh (new_branchesEvicted_lt k h2)
  simp only [new_branchesEvicted_toNat, new_treeBreadth_toNat, new_treeHeight,
    Nat.zero_add] at hrun
  refine ⟨_, _, hrun _, ?_, by simpa using hb, fun m leaves' e' hm l hl => ?_⟩
  · refine List.Nodup.map_on (fun x hx y hy he => ?_) (List.nodup_range _)
    rw [List.mem_range] at hx hy
    have he' := congrArg BitVec.toNat he
    rw [toNat_leafOfIteration hh, toNat_leafOfIteration hh, Nat.mod_eq_of_lt hx,
      Nat.mod_eq_of_lt hy] at he'
    exact leafOfIteration_injOn (by omega) (by omega) he'
  · rw [hrun m, Option.some.injEq, Prod.mk.injEq] at hm
    obtain ⟨rfl, -⟩ := hm
    obtain ⟨j, -, rfl⟩ := List.mem_map.1 hl
    exact List.mem_map.2 ⟨j % (2 ^^^ h.toNat), List.mem_range.2 (Nat.mod_lt _ hpos),
      by rw [Nat.mod_mod]⟩

theorem new_getNextBranches_leaves_height_four :
    ∃ leaves e, getNextBranches (2 ^^^ (4 : BitVec 32).toNat) (new 0 4) = some (leaves, e) ∧
      leaves.Nodup ∧ leaves.length < 2 ^ (4 : BitVec 32).toNat ∧
      ∀ m leaves' e', getNextBranches m (new 0 4) = some (leaves', e') → ∀ l ∈ leaves',
        l ∈ leaves :=
  new_getNextBranches_leaves 0 (by decide) (by decide)

end PathOramDeterministicEvictor

/-- `PathOramDeterministicEvictorCreator`. -/
structure PathOramDeterministicEvictorCreator where
  numberOfAdditionalBranchesToEvict : Nat
deriving DecidableEq, Repr

/-- `EvictorCreator::create` of `PathOramDeterministicEvictorCreator`. -/
def PathOramDeterministicEvictorCreator.create (c : PathOramDeterministicEvictorCreator)
    (height : BitVec 32) : PathOramDeterministicEvictor :=
  PathOramDeterministicEvictor.new c.numberOfAdditionalBranchesToEvict height

end OramEvictor
