import OramEvictor.PrepareTarget

/-!
# The Circuit ORAM plan of a branch

`prepare_target` run on the output of `prepare_deepest`: which blocks its moves take, and
when it takes one out of the stash. The pass that executes a plan is not in the source:
`runPass` is the stash-to-leaf pass Circuit ORAM runs on it, holding at most one block, on
destinations alone.
-/

namespace OramEvictor

section

variable (legal : BitVec 64 → BitVec 64 → Nat → Nat) (stashMeta : List Meta)
  (branchMeta : List (List Meta)) (leaf : BitVec 64)

theorem deepestWellFormed_prepareDeepest (hn : branchMeta.length < floorIndex) :
    DeepestWellFormed (prepareDeepest legal stashMeta branchMeta leaf) branchMeta := by
  intro b hb
  obtain ⟨hpos, hneg⟩ := @prepareDeepest_getD legal stashMeta branchMeta leaf hn b hb
  by_cases hc : CanDescend legal stashMeta branchMeta leaf b
  · exact Or.inr ⟨(hpos hc).1, (hpos hc).2.1⟩
  · exact Or.inl (hneg hc)

theorem prepareDeepest_getD_ne_iff (hn : branchMeta.length < floorIndex) {i : Nat}
    (hi : i ≤ branchMeta.length) :
    (prepareDeepest legal stashMeta branchMeta leaf).getD i floorIndex ≠ floorIndex ↔
      CanDescend legal stashMeta branchMeta leaf i := by
  obtain ⟨hpos, hneg⟩ := @prepareDeepest_getD legal stashMeta branchMeta leaf hn i hi
  refine ⟨fun h => Classical.byContradiction fun hc => h (hneg hc), fun hc => ?_⟩
  have := (hpos hc).2.1
  omega

/-- The block `deepest[t]` names for level `t` may descend to every level it passes. -/
theorem deepestNested_prepareDeepest (hn : branchMeta.length < floorIndex) :
    DeepestNested (prepareDeepest legal stashMeta branchMeta leaf) := by
  intro t j htj hjt hdt
  have ht : t ≤ branchMeta.length := Nat.le_of_not_lt fun ht =>
    hdt (List.getD_eq_default _ _ (by rw [prepareDeepest_length hn]; omega))
  obtain ⟨x, hx, hxt⟩ := exists_holds_of_deepestSpec (prepareDeepest_getD hn ht) hdt
  have hvn := holds_le_length hx
  exact (prepareDeepest_getD_ne_iff legal stashMeta branchMeta leaf hn (by omega)).2
    ⟨_, x, hjt, hx, Nat.le_trans hxt htj⟩

/-- A source at every level from `t` up to the root is a block that may descend to each. -/
theorem sourced_iff_canDescend (hn : branchMeta.length < floorIndex) (t : Nat) :
    (∀ j, t ≤ j → j < branchMeta.length →
      (prepareDeepest legal stashMeta branchMeta leaf).getD j floorIndex ≠ floorIndex) ↔
      ∀ j, t ≤ j → j < branchMeta.length → CanDescend legal stashMeta branchMeta leaf j :=
  forall_congr' fun _ => forall_congr' fun _ => forall_congr' fun hj =>
    prepareDeepest_getD_ne_iff legal stashMeta branchMeta leaf hn (Nat.le_of_lt hj)

/-- Every move takes from its level a non-vacant slot legal at the move's destination. -/
theorem prepareDeepest_prepareTarget_legal (hn : branchMeta.length < floorIndex) :
    ∃ targetMeta,
      prepareTarget (prepareDeepest legal stashMeta branchMeta leaf) branchMeta = some targetMeta ∧
      targetMeta.length = branchMeta.length + 1 ∧
      ∀ i ≤ branchMeta.length, ∀ t, targetMeta.getD i floorIndex = t → t ≠ floorIndex →
        t < i ∧ (prepareDeepest legal stashMeta branchMeta leaf).getD t floorIndex = i ∧
        ∃ x ∈ levelMeta stashMeta branchMeta i, x.isVacant = false ∧
          legal x.leafNum leaf branchMeta.length ≤ t := by
  obtain ⟨T, hT, hs⟩ := prepareTarget_sound hn (prepareDeepest_length hn)
    (deepestWellFormed_prepareDeepest legal stashMeta branchMeta leaf hn)
  refine ⟨T, hT, hs.length, fun i hi t hTi ht => ?_⟩
  obtain ⟨hti, -, hdt, -⟩ := hs.move t i ht hTi
  obtain ⟨hpos, hneg⟩ := @prepareDeepest_getD legal stashMeta branchMeta leaf hn t
    (Nat.le_trans (Nat.le_of_lt hti) hi)
  rw [hdt] at hpos hneg
  have hc : CanDescend legal stashMeta branchMeta leaf t := by
    by_contra hc
    exact absurd (hneg hc) (Nat.ne_of_lt (Nat.lt_of_le_of_lt hi hn))
  obtain ⟨-, -, x, hx, hmin⟩ := hpos hc
  obtain ⟨s, y, hts, hy, hyt⟩ := hc
  exact ⟨hti, hdt, x, hx.1, hx.2, Nat.le_trans (hmin s y hts hy).1 hyt⟩

end

theorem prepareDeepest_prepareTarget_legal_stash_only :
    ∃ targetMeta,
      prepareTarget (prepareDeepest (fun _ _ _ => 0) [⟨5, false⟩] [[⟨4, true⟩]] 2) [[⟨4, true⟩]] =
        some targetMeta ∧
      targetMeta.length = 1 + 1 ∧
      ∀ i ≤ 1, ∀ t, targetMeta.getD i floorIndex = t → t ≠ floorIndex →
        t < i ∧ (prepareDeepest (fun _ _ _ => 0) [⟨5, false⟩] [[⟨4, true⟩]] 2).getD t floorIndex = i ∧
        ∃ x ∈ levelMeta [⟨5, false⟩] [[⟨4, true⟩]] i, x.isVacant = false ∧
          (fun _ _ _ => 0) x.leafNum (2 : BitVec 64) [[(⟨4, true⟩ : Meta)]].length ≤ t :=
  prepareDeepest_prepareTarget_legal _ _ _ _ (by decide)

/-- The plan takes a block from the stash exactly when a vacant bucket is reachable from above. -/
theorem prepareDeepest_prepareTarget_stash_iff (legal : BitVec 64 → BitVec 64 → Nat → Nat)
    (stashMeta : List Meta) (branchMeta : List (List Meta)) (leaf : BitVec 64)
    (hn : branchMeta.length < floorIndex) :
    ∃ targetMeta,
      prepareTarget (prepareDeepest legal stashMeta branchMeta leaf) branchMeta = some targetMeta ∧
      (targetMeta.getD branchMeta.length floorIndex ≠ floorIndex ↔
        ∃ t < branchMeta.length, (∃ m ∈ branchMeta.getD t [], m.isVacant = true) ∧
          ∀ j, t ≤ j → j < branchMeta.length → CanDescend legal stashMeta branchMeta leaf j) := by
  obtain ⟨T, hT, hiff⟩ := prepareTarget_stash_iff hn (prepareDeepest_length hn)
    (deepestWellFormed_prepareDeepest legal stashMeta branchMeta leaf hn)
    (deepestNested_prepareDeepest legal stashMeta branchMeta leaf hn)
  exact ⟨T, hT, hiff.trans (exists_congr fun t => and_congr_right fun _ =>
    and_congr_right fun _ => sourced_iff_canDescend legal stashMeta branchMeta leaf hn t)⟩

theorem prepareDeepest_prepareTarget_stash_iff_one_bucket :
    ∃ targetMeta,
      prepareTarget (prepareDeepest (fun _ _ _ => 0) [⟨5, false⟩] [[⟨4, true⟩]] 2) [[⟨4, true⟩]] =
        some targetMeta ∧
      (targetMeta.getD 1 floorIndex ≠ floorIndex ↔
        ∃ t < 1, (∃ m ∈ [[(⟨4, true⟩ : Meta)]].getD t [], m.isVacant = true) ∧
          ∀ j, t ≤ j → j < 1 → CanDescend (fun _ _ _ => 0) [⟨5, false⟩] [[⟨4, true⟩]] 2 j) :=
  prepareDeepest_prepareTarget_stash_iff _ _ _ _ (by decide)

/- A chain: the stash block may only go down to the full bucket `1`, whose block may go
down to the vacant leaf bucket, and the plan still takes a block out of the stash. -/
example :
    prepareTarget (prepareDeepest (fun q _ _ => q.toNat) [⟨1, false⟩] [[⟨0, true⟩], [⟨0, false⟩]] 0)
      [[⟨0, true⟩], [⟨0, false⟩]] = some [floorIndex, 0, 1] := by
  decide

/-- One level of the stash-to-leaf pass a plan is made for, in Circuit ORAM's order; the
source has no such pass. The held block is set aside when this level is its destination,
a block is picked up when `target` names a destination for this level, and the set-aside
block is written into a vacant slot or the one just emptied. `none` is a pick-up while a
block is still held, or a write into a bucket with neither. -/
def passLevel (branchMeta : List (List Meta)) (targetMeta : List Nat) (hold : Option Nat)
    (i : Nat) : Option (Option Nat) :=
  let toWrite := hold = some i
  let held := if toWrite then none else hold
  let pick := targetMeta.getD i floorIndex ≠ floorIndex
  if pick ∧ held ≠ none then none
  else if toWrite ∧ ¬((∃ m ∈ branchMeta.getD i [], m.isVacant = true) ∨ pick) then none
  else some (if pick then some (targetMeta.getD i floorIndex) else held)

/-- The pass over the stash and then buckets `n - 1, …, 0`, returning what it still holds. -/
def runPass (branchMeta : List (List Meta)) (targetMeta : List Nat) : Option (Option Nat) :=
  (List.range (branchMeta.length + 1)).reverse.foldlM (passLevel branchMeta targetMeta) none

/-- Before level `k` the pass holds `t` exactly when a move from a level `≥ k` goes to `t < k`. -/
def HoldsFor (targetMeta : List Nat) (k : Nat) (hold : Option Nat) : Prop :=
  ∀ t, hold = some t ↔ t ≠ floorIndex ∧ t < k ∧ ∃ i, k ≤ i ∧ targetMeta.getD i floorIndex = t

section Pass

variable {deepestMeta : List Nat} {branchMeta : List (List Meta)} {targetMeta : List Nat}

/-- Setting aside the block for level `i` leaves the block of a move across level `i`. -/
theorem holdsFor_setAside {i : Nat} {hold : Option Nat} (h : HoldsFor targetMeta (i + 1) hold)
    (t : Nat) :
    (if hold = some i then none else hold) = some t ↔
      t ≠ floorIndex ∧ t < i ∧ ∃ i', i < i' ∧ targetMeta.getD i' floorIndex = t := by
  by_cases hw : hold = some i
  · rw [if_pos hw]
    refine ⟨fun e => Option.noConfusion e, fun ⟨ht, hti, i', hi', hT⟩ => ?_⟩
    have e := (h t).2 ⟨ht, by omega, i', hi', hT⟩
    rw [hw, Option.some.injEq] at e
    omega
  · rw [if_neg hw, h t]
    constructor
    · rintro ⟨ht, hti, i', hi', hT⟩
      have hne : t ≠ i := by
        rintro rfl
        exact hw ((h t).2 ⟨ht, hti, i', hi', hT⟩)
      exact ⟨ht, by omega, i', hi', hT⟩
    · rintro ⟨ht, hti, i', hi', hT⟩
      exact ⟨ht, by omega, i', hi', hT⟩

/-- The step lemma: on a sound plan, a level neither fails nor loses track of the held block. -/
theorem passLevel_of_holdsFor (hs : PlanSound deepestMeta branchMeta targetMeta) {i : Nat}
    {hold : Option Nat} (h : HoldsFor targetMeta (i + 1) hold) :
    ∃ hold', passLevel branchMeta targetMeta hold i = some hold' ∧
      HoldsFor targetMeta i hold' := by
  have hheld := holdsFor_setAside h
  generalize hH : (if hold = some i then none else hold) = held at hheld
  -- a block set aside here came down a move into level `i`, which has room
  have hroom : hold = some i →
      (∃ m ∈ branchMeta.getD i [], m.isVacant = true) ∨
        targetMeta.getD i floorIndex ≠ floorIndex := fun hw => by
    obtain ⟨hi, -, i', hi', hT⟩ := (h i).1 hw
    exact (hs.move i i' hi hT).2.2.2
  simp only [passLevel, hH]
  by_cases hpick : targetMeta.getD i floorIndex = floorIndex
  · have hno : ¬(targetMeta.getD i floorIndex ≠ floorIndex ∧ held ≠ none) := fun h' => h'.1 hpick
    refine ⟨held, by rw [if_neg hno, if_neg fun h' => h'.2 (hroom h'.1), if_neg (not_not.mpr hpick)],
      fun t => (hheld t).trans ⟨fun ⟨ht, hti, i', hi', hT⟩ => ⟨ht, hti, i', Nat.le_of_lt hi', hT⟩,
        fun ⟨ht, hti, i', hi', hT⟩ => ⟨ht, hti, i', Nat.lt_of_le_of_ne hi' ?_, hT⟩⟩⟩
    rintro rfl
    exact ht (hT.symm.trans hpick)
  · -- no move crosses a level that is the source of a move
    have hnone : held = none := by
      cases held with
      | none => rfl
      | some t =>
        obtain ⟨ht, hti, i', hi', hT⟩ := (hheld t).1 rfl
        exact absurd (hs.disjoint t i' i ht hT hti hi').1 hpick
    have hyes : targetMeta.getD i floorIndex ≠ floorIndex ∧ held ≠ none ↔ False :=
      ⟨fun h' => h'.2 hnone, False.elim⟩
    refine ⟨some (targetMeta.getD i floorIndex), ?_, fun t => ⟨?_, ?_⟩⟩
    · rw [if_neg (hyes.1 ·), if_neg fun h' => h'.2 (Or.inr hpick), if_pos hpick]
    · rintro ⟨⟩
      exact ⟨hpick, (hs.move _ i hpick rfl).1, i, Nat.le_refl i, rfl⟩
    · rintro ⟨ht, hti, i', hi', hT⟩
      rcases Nat.eq_or_lt_of_le hi' with rfl | hi'
      · rw [hT]
      · exact absurd (hs.disjoint t i' i ht hT hti hi').1 hpick

/-- The run lemma: the levels below `k` run to the end and leave nothing held. -/
theorem foldlM_passLevel (hs : PlanSound deepestMeta branchMeta targetMeta) :
    ∀ k hold, HoldsFor targetMeta k hold →
      (List.range k).reverse.foldlM (passLevel branchMeta targetMeta) hold = some none
  | 0, hold, h => by
    cases hold with
    | none => rfl
    | some t => exact absurd ((h t).1 rfl).2.1 (Nat.not_lt_zero t)
  | k + 1, hold, h => by
    obtain ⟨hold', hstep, h'⟩ := passLevel_of_holdsFor hs h
    rw [List.range_succ, List.reverse_append, List.reverse_cons, List.reverse_nil,
      List.nil_append, List.singleton_append, List.foldlM_cons, hstep]
    exact foldlM_passLevel hs k hold' h'

theorem runPass_of_planSound (hs : PlanSound deepestMeta branchMeta targetMeta) :
    runPass branchMeta targetMeta = some none :=
  foldlM_passLevel hs _ none fun t => ⟨fun e => Option.noConfusion e,
    fun ⟨ht, _, i, hi, hT⟩ => absurd (hT.symm.trans
      (List.getD_eq_default _ _ (by rw [hs.length]; exact hi))) ht⟩

end Pass

/-- A single stash-to-leaf pass holding one block carries out every plan of `prepare_target`. -/
theorem prepareTarget_runPass (deepestMeta : List Nat) (branchMeta : List (List Meta))
    (hn : branchMeta.length < floorIndex) (hlen : deepestMeta.length = branchMeta.length + 1)
    (hwf : DeepestWellFormed deepestMeta branchMeta) :
    ∃ targetMeta, prepareTarget deepestMeta branchMeta = some targetMeta ∧
      runPass branchMeta targetMeta = some none := by
  obtain ⟨T, hT, hs⟩ := prepareTarget_sound hn hlen hwf
  exact ⟨T, hT, runPass_of_planSound hs⟩

theorem prepareTarget_runPass_one_bucket :
    ∃ targetMeta, prepareTarget [1, floorIndex] [[⟨0, true⟩]] = some targetMeta ∧
      runPass [[⟨0, true⟩]] targetMeta = some none :=
  prepareTarget_runPass _ _ (by decide) rfl (by unfold DeepestWellFormed; decide)

/-- A move from the stash into a full leaf bucket stops the pass. -/
example : runPass [[⟨3, false⟩]] [floorIndex, 0] = none := by decide

/- The fixed tree of the crate's test, branch `16` of a height-4 tree; the legal index
of a leaf at that height is the number of levels at which its path and `16`'s differ. -/
set_option maxRecDepth 4000 in
example :
    let legal : BitVec 64 → BitVec 64 → Nat → Nat := fun q l _ =>
      (List.range 5).countP fun j => q.toNat / 2 ^ j != l.toNat / 2 ^ j
    let vacant : Meta := ⟨0, true⟩
    let stashMeta : List Meta := [⟨26, false⟩, ⟨23, false⟩, ⟨21, false⟩, ⟨21, false⟩]
    let branchMeta : List (List Meta) :=
      [[vacant, vacant, vacant, vacant], [vacant, vacant, vacant, vacant],
        [⟨19, false⟩, vacant, vacant, vacant], [⟨18, false⟩, ⟨20, false⟩, vacant, vacant],
        [⟨24, false⟩, ⟨27, false⟩, ⟨31, false⟩, ⟨30, false⟩]]
    prepareDeepest legal stashMeta branchMeta 16 = [floorIndex, floorIndex, 3, 5, 5, floorIndex] ∧
    prepareTarget (prepareDeepest legal stashMeta branchMeta 16) branchMeta =
      some [floorIndex, floorIndex, floorIndex, 2, floorIndex, 3] := by
  decide

end OramEvictor
