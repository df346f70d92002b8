import OramEvictor.PrepareDeepest

/-!
# The leaf-to-root scan `prepare_target`

The scan keeps at most one pending move: a level `dest` with room and the level
`src = deepest[dest]` that will fill it. When it reaches `src` it writes
`target[src] = dest` and frees the pending move; a level has room when it has a vacant
slot and no move is pending, or when a block has just been dispatched from it, and then
it adopts `deepest[level]` as its source. After the branch the stash is level `n`. The
invariant speaks of the plan's moves, written or pending, and holds for every `deepest`
array with `FLOOR_INDEX` or a higher level in each entry.
-/

namespace OramEvictor

/-- The state of the scan: `target_meta`, `dest` and `src`. -/
structure TargetScan where
  targetMeta : List Nat
  dest : Nat
  src : Nat
deriving DecidableEq, Repr

/-- One bucket of the loop of `prepare_target`. -/
def prepareTargetStep (deepestMeta : List Nat) (branchMeta : List (List Meta))
    (st : TargetScan) (bucketNum : Nat) : TargetScan :=
  let shouldSetTarget := bucketNum == st.src
  let targetMeta := if shouldSetTarget then st.targetMeta.set bucketNum st.dest else st.targetMeta
  let dest := if shouldSetTarget then floorIndex else st.dest
  let src := if shouldSetTarget then floorIndex else st.src
  let bucketHasEmptySlot := bucketHasEmptySlot (branchMeta.getD bucketNum [])
  let isThereAVacancy := (dest == floorIndex && bucketHasEmptySlot) || shouldSetTarget
  let isThisAFutureTarget :=
    isThereAVacancy && !(deepestMeta.getD bucketNum floorIndex == floorIndex)
  { targetMeta
    src := if isThisAFutureTarget then deepestMeta.getD bucketNum floorIndex else src
    dest := if isThisAFutureTarget then bucketNum else dest }

/-- `prepare_target`; `none` is the `debug_assert!` on the two lengths failing. -/
def prepareTarget (deepestMeta : List Nat) (branchMeta : List (List Meta)) : Option (List Nat) :=
  let metaLen := branchMeta.length
  let targetMeta := List.replicate (metaLen + 1) floorIndex
  if targetMeta.length = deepestMeta.length then
    let st := (List.range metaLen).foldl (prepareTargetStep deepestMeta branchMeta)
      ⟨targetMeta, floorIndex, floorIndex⟩
    some (if metaLen == st.src then st.targetMeta.set metaLen st.dest else st.targetMeta)
  else none

/-- The oblivious scan after buckets `0, …, b - 1`. -/
def prepareTargetScan (deepestMeta : List Nat) (branchMeta : List (List Meta)) (b : Nat) :
    TargetScan :=
  (List.range b).foldl (prepareTargetStep deepestMeta branchMeta)
    ⟨List.replicate (branchMeta.length + 1) floorIndex, floorIndex, floorIndex⟩

section Spec

variable (deepestMeta : List Nat) (branchMeta : List (List Meta))

/-- Each `deepest[b]` is `FLOOR_INDEX` or a level above `b`, as `prepare_deepest` leaves it. -/
def DeepestWellFormed : Prop :=
  ∀ b ≤ branchMeta.length, deepestMeta.getD b floorIndex = floorIndex ∨
    b < deepestMeta.getD b floorIndex ∧ deepestMeta.getD b floorIndex ≤ branchMeta.length

/-- A level between `t` and its source `deepest[t]` has a source too. -/
def DeepestNested : Prop :=
  ∀ t j, t ≤ j → j < deepestMeta.getD t floorIndex →
    deepestMeta.getD t floorIndex ≠ floorIndex → deepestMeta.getD j floorIndex ≠ floorIndex

/-- Bucket `t` has a vacant slot, or the plan moves a block out of it. -/
def HasRoom (targetMeta : List Nat) (t : Nat) : Prop :=
  (∃ m ∈ branchMeta.getD t [], m.isVacant = true) ∨ targetMeta.getD t floorIndex ≠ floorIndex

/-- A move of one block from level `i` down to level `t`, written or pending. -/
def IsMove (st : TargetScan) (t i : Nat) : Prop :=
  t ≠ floorIndex ∧ (st.targetMeta.getD i floorIndex = t ∨ st.dest = t ∧ st.src = i)

/-- The scan after it has read buckets `0, …, k - 1`. -/
structure TargetInv (k : Nat) (st : TargetScan) : Prop where
  length : st.targetMeta.length = branchMeta.length + 1
  untouched : ∀ i, k ≤ i → st.targetMeta.getD i floorIndex = floorIndex
  pending : st.dest = floorIndex ∧ st.src = floorIndex ∨ st.dest ≠ floorIndex ∧ k ≤ st.src
  move : ∀ t i, IsMove st t i → t < i ∧ i ≤ branchMeta.length ∧ t < k ∧
    deepestMeta.getD t floorIndex = i ∧ HasRoom branchMeta st.targetMeta t
  disjoint : ∀ t i m, IsMove st t i → t < m → m < i → m < k →
    st.targetMeta.getD m floorIndex = floorIndex ∧ ∀ t' i', IsMove st t' i' → t' ≠ m
  covered : ∀ t < k, deepestMeta.getD t floorIndex ≠ floorIndex →
    HasRoom branchMeta st.targetMeta t →
    IsMove st t (deepestMeta.getD t floorIndex) ∨ ∃ t' i', IsMove st t' i' ∧ t' < t ∧ t < i'

/-- What the finished plan satisfies: each move goes down from the level `deepest` names
for it into a level with room, no move starts or ends strictly inside another, and a
level with room and a source is filled or lies inside a move. -/
structure PlanSound (targetMeta : List Nat) : Prop where
  length : targetMeta.length = branchMeta.length + 1
  move : ∀ t i, t ≠ floorIndex → targetMeta.getD i floorIndex = t →
    t < i ∧ i ≤ branchMeta.length ∧ deepestMeta.getD t floorIndex = i ∧
      HasRoom branchMeta targetMeta t
  disjoint : ∀ t i m, t ≠ floorIndex → targetMeta.getD i floorIndex = t → t < m → m < i →
    targetMeta.getD m floorIndex = floorIndex ∧ ∀ j, targetMeta.getD j floorIndex ≠ m
  covered : ∀ t < branchMeta.length, deepestMeta.getD t floorIndex ≠ floorIndex →
    HasRoom branchMeta targetMeta t →
    targetMeta.getD (deepestMeta.getD t floorIndex) floorIndex = t ∨
      ∃ i t', targetMeta.getD i floorIndex = t' ∧ t' ≠ floorIndex ∧ t' < t ∧ t < i

end Spec

section Step

variable {deepestMeta : List Nat} {branchMeta : List (List Meta)}

/-- Whether the step at `k` adopts `deepest[k]` as the source of a move into `k`. -/
def Adopts (deepestMeta : List Nat) (branchMeta : List (List Meta)) (st : TargetScan) (k : Nat) :
    Prop :=
  (k = st.src ∨ st.dest = floorIndex ∧ bucketHasEmptySlot (branchMeta.getD k []) = true) ∧
    deepestMeta.getD k floorIndex ≠ floorIndex

/-- The four things a step does: dispatch and adopt, dispatch, adopt, or nothing. -/
theorem prepareTargetStep_eq (st : TargetScan) (k : Nat) :
    prepareTargetStep deepestMeta branchMeta st k =
      if k = st.src then
        if deepestMeta.getD k floorIndex = floorIndex then
          ⟨st.targetMeta.set k st.dest, floorIndex, floorIndex⟩
        else ⟨st.targetMeta.set k st.dest, k, deepestMeta.getD k floorIndex⟩
      else if st.dest = floorIndex ∧ bucketHasEmptySlot (branchMeta.getD k []) = true ∧
          deepestMeta.getD k floorIndex ≠ floorIndex then
        ⟨st.targetMeta, k, deepestMeta.getD k floorIndex⟩
      else st := by
  obtain ⟨T, d, s⟩ := st
  simp only [prepareTargetStep]
  generalize deepestMeta.getD k floorIndex = dk
  generalize bucketHasEmptySlot (branchMeta.getD k []) = e
  by_cases hk : k = s
  · subst hk
    by_cases hd : dk = floorIndex <;> simp [hd]
  · by_cases hd : dk = floorIndex <;> by_cases he : d = floorIndex <;> cases e <;>
      simp [hk, hd, he]

theorem prepareTargetStep_targetMeta (st : TargetScan) (k : Nat) :
    (prepareTargetStep deepestMeta branchMeta st k).targetMeta =
      if k = st.src then st.targetMeta.set k st.dest else st.targetMeta := by
  rw [prepareTargetStep_eq]
  split_ifs <;> rfl

theorem prepareTargetStep_of_adopts {st : TargetScan} {k : Nat}
    (h : Adopts deepestMeta branchMeta st k) :
    (prepareTargetStep deepestMeta branchMeta st k).dest = k ∧
      (prepareTargetStep deepestMeta branchMeta st k).src = deepestMeta.getD k floorIndex := by
  obtain ⟨hv, hd⟩ := h
  rw [prepareTargetStep_eq]
  by_cases hk : k = st.src
  · rw [if_pos hk, if_neg hd]
    exact ⟨rfl, rfl⟩
  · rw [if_neg hk, if_pos ⟨(hv.resolve_left hk).1, (hv.resolve_left hk).2, hd⟩]
    exact ⟨rfl, rfl⟩

theorem prepareTargetStep_of_not_adopts {st : TargetScan} {k : Nat}
    (h : ¬Adopts deepestMeta branchMeta st k) :
    (prepareTargetStep deepestMeta branchMeta st k).dest =
        (if k = st.src then floorIndex else st.dest) ∧
      (prepareTargetStep deepestMeta branchMeta st k).src =
        (if k = st.src then floorIndex else st.src) := by
  rw [prepareTargetStep_eq]
  by_cases hk : k = st.src
  · rw [if_pos hk, if_pos (not_not.mp fun hd => h ⟨Or.inl hk, hd⟩), if_pos hk, if_pos hk]
    exact ⟨rfl, rfl⟩
  · rw [if_neg hk, if_neg fun hc : _ ∧ _ ∧ _ => h ⟨Or.inr ⟨hc.1, hc.2.1⟩, hc.2.2⟩, if_neg hk,
      if_neg hk]
    exact ⟨rfl, rfl⟩

end Step

section Invariant

variable {deepestMeta : List Nat} {branchMeta : List (List Meta)}

theorem prepareTargetStep_getD {st : TargetScan} {k : Nat} (hk : k < st.targetMeta.length)
    (j : Nat) :
    (prepareTargetStep deepestMeta branchMeta st k).targetMeta.getD j floorIndex =
      if k = st.src ∧ j = k then st.dest else st.targetMeta.getD j floorIndex := by
  rw [prepareTargetStep_targetMeta]
  by_cases hs : k = st.src
  · by_cases hj : j = k
    · subst hj
      rw [if_pos hs, getD_set, if_pos ⟨rfl, hk⟩, if_pos ⟨hs, rfl⟩]
    · rw [if_pos hs, getD_set_ne _ _ _ (Ne.symm hj), if_neg fun h => hj h.2]
  · rw [if_neg hs, if_neg fun h => hs h.1]

theorem prepareTargetStep_getD_ne {st : TargetScan} {k : Nat} (hk : k < st.targetMeta.length)
    {j : Nat} (hj : j ≠ k) :
    (prepareTargetStep deepestMeta branchMeta st k).targetMeta.getD j floorIndex =
      st.targetMeta.getD j floorIndex := by
  rw [prepareTargetStep_getD hk, if_neg fun h => hj h.2]

theorem hasRoom_step_ne {st : TargetScan} {k : Nat} (hk : k < st.targetMeta.length) {t : Nat}
    (ht : t ≠ k) :
    HasRoom branchMeta (prepareTargetStep deepestMeta branchMeta st k).targetMeta t ↔
      HasRoom branchMeta st.targetMeta t := by
  rw [HasRoom, HasRoom, prepareTargetStep_getD_ne hk ht]

/-- The moves after a step: those before it, and the one it adopts. -/
theorem isMove_step {k : Nat} {st : TargetScan} (hn : branchMeta.length < floorIndex)
    (hk : k < branchMeta.length) (hinv : TargetInv deepestMeta branchMeta k st) {t i : Nat} :
    IsMove (prepareTargetStep deepestMeta branchMeta st k) t i ↔
      IsMove st t i ∨ Adopts deepestMeta branchMeta st k ∧ t = k ∧
        i = deepestMeta.getD k floorIndex := by
  have hlen : k < st.targetMeta.length := by rw [hinv.length]; omega
  have hTk := hinv.untouched k (Nat.le_refl k)
  constructor
  · rintro ⟨ht, hT | ⟨hd, hs⟩⟩
    · rw [prepareTargetStep_getD hlen] at hT
      split_ifs at hT with hki
      · exact Or.inl ⟨ht, Or.inr ⟨hT, hki.1.symm.trans hki.2.symm⟩⟩
      · exact Or.inl ⟨ht, Or.inl hT⟩
    · by_cases ha : Adopts deepestMeta branchMeta st k
      · obtain ⟨h1, h2⟩ := prepareTargetStep_of_adopts ha
        exact Or.inr ⟨ha, h1 ▸ hd.symm, h2 ▸ hs.symm⟩
      · obtain ⟨h1, h2⟩ := prepareTargetStep_of_not_adopts ha
        by_cases hset : k = st.src
        · rw [h1, if_pos hset] at hd
          exact absurd hd.symm ht
        · rw [h1, if_neg hset] at hd
          rw [h2, if_neg hset] at hs
          exact Or.inl ⟨ht, Or.inr ⟨hd, hs⟩⟩
  · rintro (⟨ht, hT | ⟨hd, hs⟩⟩ | ⟨ha, rfl, rfl⟩)
    · have hik : i ≠ k := by rintro rfl; exact ht (hT.symm.trans hTk)
      refine ⟨ht, Or.inl ?_⟩
      rw [prepareTargetStep_getD_ne hlen hik, hT]
    · by_cases hset : k = st.src
      · refine ⟨ht, Or.inl ?_⟩
        rw [prepareTargetStep_getD hlen, if_pos ⟨hset, (hset.trans hs).symm⟩, hd]
      · have ha : ¬Adopts deepestMeta branchMeta st k :=
          fun ha => ha.1.elim hset fun h => ht (hd ▸ h.1)
        obtain ⟨h1, h2⟩ := prepareTargetStep_of_not_adopts ha
        rw [if_neg hset] at h1 h2
        exact ⟨ht, Or.inr ⟨h1.trans hd, h2.trans hs⟩⟩
    · obtain ⟨h1, h2⟩ := prepareTargetStep_of_adopts ha
      exact ⟨Nat.ne_of_lt (Nat.lt_trans hk hn), Or.inr ⟨h1, h2⟩⟩

/-- The step lemma: reading bucket `k` keeps the invariant. -/
theorem targetInv_step {k : Nat} {st : TargetScan} (hn : branchMeta.length < floorIndex)
    (hk : k < branchMeta.length) (hwf : DeepestWellFormed deepestMeta branchMeta)
    (hinv : TargetInv deepestMeta branchMeta k st) :
    TargetInv deepestMeta branchMeta (k + 1) (prepareTargetStep deepestMeta branchMeta st k) := by
  have hlen : k < st.targetMeta.length := by rw [hinv.length]; omega
  have hkf : k ≠ floorIndex := Nat.ne_of_lt (Nat.lt_trans hk hn)
  have hmove := fun {t i : Nat} => isMove_step (t := t) (i := i) hn hk hinv
  have hwfk : deepestMeta.getD k floorIndex ≠ floorIndex →
      k < deepestMeta.getD k floorIndex ∧ deepestMeta.getD k floorIndex ≤ branchMeta.length :=
    (hwf k (Nat.le_of_lt hk)).resolve_left
  refine ⟨?_, fun i hi => ?_, ?_, fun t i hm => ?_, fun t i m hm htm hmi hmk => ?_,
    fun t ht hd hr => ?_⟩
  · rw [prepareTargetStep_targetMeta]
    split <;> simp [hinv.length]
  · rw [prepareTargetStep_getD_ne hlen (by omega)]
    exact hinv.untouched i (by omega)
  · by_cases ha : Adopts deepestMeta branchMeta st k
    · obtain ⟨h1, h2⟩ := prepareTargetStep_of_adopts ha
      rw [h1, h2]
      exact Or.inr ⟨hkf, (hwfk ha.2).1⟩
    · obtain ⟨h1, h2⟩ := prepareTargetStep_of_not_adopts ha
      rw [h1, h2]
      by_cases hset : k = st.src
      · rw [if_pos hset, if_pos hset]
        exact Or.inl ⟨rfl, rfl⟩
      · rw [if_neg hset, if_neg hset]
        rcases hinv.pending with h | ⟨hd, hs⟩
        · exact Or.inl h
        · exact Or.inr ⟨hd, by omega⟩
  · rcases hmove.mp hm with hm | ⟨ha, rfl, rfl⟩
    · obtain ⟨h1, h2, h3, h4, h5⟩ := hinv.move t i hm
      exact ⟨h1, h2, by omega, h4, (hasRoom_step_ne hlen (by omega)).mpr h5⟩
    · refine ⟨(hwfk ha.2).1, (hwfk ha.2).2, Nat.lt_succ_self t, rfl, ?_⟩
      rcases ha.1 with hset | ⟨-, he⟩
      · refine Or.inr ?_
        rw [prepareTargetStep_getD hlen, if_pos ⟨hset, rfl⟩]
        rcases hinv.pending with ⟨-, hs⟩ | ⟨hd, -⟩
        · exact absurd (hset.trans hs) hkf
        · exact hd
      · exact Or.inl ((bucketHasEmptySlot_iff _).1 he)
  · rcases hmove.mp hm with hm0 | ⟨-, rfl, -⟩
    · rcases Nat.lt_or_ge m k with hmk' | hmk'
      · obtain ⟨h1, h2⟩ := hinv.disjoint t i m hm0 htm hmi hmk'
        refine ⟨(prepareTargetStep_getD_ne hlen (by omega)).trans h1, fun t' i' hm' => ?_⟩
        rcases hmove.mp hm' with hm' | ⟨-, rfl, -⟩
        · exact h2 t' i' hm'
        · omega
      · obtain rfl : m = k := by omega
        obtain ⟨ht, hT | ⟨hd, hs⟩⟩ := hm0
        · exact absurd (hT.symm.trans (hinv.untouched i (by omega))) ht
        · have hna : ¬Adopts deepestMeta branchMeta st m :=
            fun ha => ha.1.elim (fun h => by omega) (fun h => ht (hd ▸ h.1))
          refine ⟨?_, fun t' i' hm' => ?_⟩
          · rw [prepareTargetStep_getD hlen, if_neg fun h => by omega]
            exact hinv.untouched m (Nat.le_refl m)
          · rcases hmove.mp hm' with hm' | ⟨ha, -, -⟩
            · exact Nat.ne_of_lt (hinv.move t' i' hm').2.2.1
            · exact absurd ha hna
    · omega
  · rcases Nat.lt_or_ge t k with htk | htk
    · rcases hinv.covered t htk hd ((hasRoom_step_ne hlen (by omega)).mp hr) with h | ⟨t', i', hm, h1, h2⟩
      · exact Or.inl (hmove.mpr (Or.inl h))
      · exact Or.inr ⟨t', i', hmove.mpr (Or.inl hm), h1, h2⟩
    · obtain rfl : t = k := by omega
      by_cases ha : Adopts deepestMeta branchMeta st t
      · exact Or.inl (hmove.mpr (Or.inr ⟨ha, rfl, rfl⟩))
      · have hset : t ≠ st.src := fun h => ha ⟨Or.inl h, hd⟩
        have he : bucketHasEmptySlot (branchMeta.getD t []) = true := by
          refine (bucketHasEmptySlot_iff _).2 (hr.resolve_right fun h => h ?_)
          rw [prepareTargetStep_getD hlen, if_neg fun h => hset h.1]
          exact hinv.untouched t (Nat.le_refl t)
        have hdest : st.dest ≠ floorIndex := fun h => ha ⟨Or.inr ⟨h, he⟩, hd⟩
        rcases hinv.pending with ⟨h, -⟩ | ⟨-, hs⟩
        · exact absurd h hdest
        · have hm : IsMove st st.dest st.src := ⟨hdest, Or.inr ⟨rfl, rfl⟩⟩
          exact Or.inr ⟨st.dest, st.src, hmove.mpr (Or.inl hm), (hinv.move _ _ hm).2.2.1,
            by omega⟩

theorem targetInv_init :
    TargetInv deepestMeta branchMeta 0
      ⟨List.replicate (branchMeta.length + 1) floorIndex, floorIndex, floorIndex⟩ := by
  have hno : ∀ t i, ¬IsMove ⟨List.replicate (branchMeta.length + 1) floorIndex, floorIndex,
      floorIndex⟩ t i := by
    rintro t i ⟨ht, h | ⟨h, -⟩⟩
    · exact ht (h.symm.trans (getD_replicate_self _ _ _))
    · exact ht h.symm
  exact ⟨List.length_replicate _ _, fun _ _ => getD_replicate_self _ _ _, Or.inl ⟨rfl, rfl⟩,
    fun t i hm => absurd hm (hno t i), fun t i _ hm => absurd hm (hno t i),
    fun _ ht => absurd ht (Nat.not_lt_zero _)⟩

/-- The run lemma: the scan of buckets `0, …, k - 1` keeps the invariant. -/
theorem targetInv_scan (hn : branchMeta.length < floorIndex)
    (hwf : DeepestWellFormed deepestMeta branchMeta) :
    ∀ k, k ≤ branchMeta.length → TargetInv deepestMeta branchMeta k
      ((List.range k).foldl (prepareTargetStep deepestMeta branchMeta)
        ⟨List.replicate (branchMeta.length + 1) floorIndex, floorIndex, floorIndex⟩)
  | 0, _ => targetInv_init
  | k + 1, hk => by
    rw [List.range_succ, List.foldl_append, List.foldl_cons, List.foldl_nil]
    exact targetInv_step hn hk hwf (targetInv_scan hn hwf k (Nat.le_of_succ_le hk))

/-- After the branch, dispatching the pending move into the stash finishes the plan. -/
theorem planSound_of_targetInv {st : TargetScan} (hn : branchMeta.length < floorIndex)
    (hinv : TargetInv deepestMeta branchMeta branchMeta.length st) :
    PlanSound deepestMeta branchMeta
      (if branchMeta.length = st.src then st.targetMeta.set branchMeta.length st.dest
        else st.targetMeta) := by
  have hlen : branchMeta.length < st.targetMeta.length := by rw [hinv.length]; omega
  have hread : ∀ j, (if branchMeta.length = st.src then st.targetMeta.set branchMeta.length st.dest
      else st.targetMeta).getD j floorIndex =
        if branchMeta.length = st.src ∧ j = branchMeta.length then st.dest
        else st.targetMeta.getD j floorIndex := fun j => by
    by_cases hs : branchMeta.length = st.src
    · rw [if_pos hs, getD_set]
      by_cases hj : j = branchMeta.length
      · rw [if_pos ⟨hj.symm, hlen⟩, if_pos ⟨hs, hj⟩]
      · rw [if_neg fun h => hj h.1.symm, if_neg fun h => hj h.2]
    · rw [if_neg hs, if_neg fun h => hs h.1]
  have hother : ∀ j, j ≠ branchMeta.length → (if branchMeta.length = st.src then
      st.targetMeta.set branchMeta.length st.dest else st.targetMeta).getD j floorIndex =
        st.targetMeta.getD j floorIndex := fun j hj => by rw [hread, if_neg fun h => hj h.2]
  -- the written moves of the finished plan are the moves of the last scan state
  have hiff : ∀ t i, t ≠ floorIndex → ((if branchMeta.length = st.src then
      st.targetMeta.set branchMeta.length st.dest else st.targetMeta).getD i floorIndex = t ↔
        IsMove st t i) := fun t i ht => by
    rw [hread]
    constructor
    · intro h
      split_ifs at h with hs
      · exact ⟨ht, Or.inr ⟨h, hs.1.symm.trans hs.2.symm⟩⟩
      · exact ⟨ht, Or.inl h⟩
    · rintro ⟨-, h | ⟨hd, hs⟩⟩
      · have hi : i ≠ branchMeta.length := by
          rintro rfl; exact ht (h.symm.trans (hinv.untouched _ (Nat.le_refl _)))
        rw [if_neg fun h => hi h.2, h]
      · have hsrc : st.src = branchMeta.length :=
          Nat.le_antisymm (hs ▸ (hinv.move t i ⟨ht, Or.inr ⟨hd, hs⟩⟩).2.1)
            (hinv.pending.resolve_left fun h => ht (hd ▸ h.1)).2
        rw [if_pos ⟨hsrc.symm, hs.symm.trans hsrc⟩, hd]
  have hroom : ∀ t, t < branchMeta.length → (HasRoom branchMeta (if branchMeta.length = st.src then
      st.targetMeta.set branchMeta.length st.dest else st.targetMeta) t ↔
        HasRoom branchMeta st.targetMeta t) := fun t ht => by
    rw [HasRoom, HasRoom, hother t (Nat.ne_of_lt ht)]
  refine ⟨?_, fun t i ht hT => ?_, fun t i m ht hT htm hmi => ?_, fun t ht hd hr => ?_⟩
  · split <;> simp [hinv.length]
  · obtain ⟨h1, h2, h3, h4, h5⟩ := hinv.move t i ((hiff t i ht).mp hT)
    exact ⟨h1, h2, h4, (hroom t h3).mpr h5⟩
  · have hm := (hiff t i ht).mp hT
    have hmn : m < branchMeta.length := Nat.lt_of_lt_of_le hmi (hinv.move t i hm).2.1
    obtain ⟨h1, h2⟩ := hinv.disjoint t i m hm htm hmi hmn
    refine ⟨(hother m (Nat.ne_of_lt hmn)).trans h1, fun j hj => ?_⟩
    have hmf : m ≠ floorIndex := Nat.ne_of_lt (Nat.lt_trans hmn hn)
    exact h2 m j ((hiff m j hmf).mp hj) rfl
  · rcases hinv.covered t ht hd ((hroom t ht).mp hr) with h | ⟨t', i', hm, h1, h2⟩
    · exact Or.inl ((hiff t _ h.1).mpr h)
    · exact Or.inr ⟨i', t', (hiff t' i' hm.1).mpr hm, hm.1, h1, h2⟩

end Invariant

section Scan

variable {deepestMeta : List Nat} {branchMeta : List (List Meta)}

theorem prepareTargetScan_succ (b : Nat) :
    prepareTargetScan deepestMeta branchMeta (b + 1) =
      prepareTargetStep deepestMeta branchMeta (prepareTargetScan deepestMeta branchMeta b) b := by
  rw [prepareTargetScan, List.range_succ, List.foldl_append, List.foldl_cons, List.foldl_nil]
  rfl

/-- While a move is pending, the buckets below its source change nothing. -/
theorem prepareTargetScan_pending {b j : Nat}
    (hd : (prepareTargetScan deepestMeta branchMeta b).dest ≠ floorIndex) (hbj : b ≤ j)
    (hjs : j ≤ (prepareTargetScan deepestMeta branchMeta b).src) :
    prepareTargetScan deepestMeta branchMeta j = prepareTargetScan deepestMeta branchMeta b := by
  induction j, hbj using Nat.le_induction with
  | base => rfl
  | succ j _ ih =>
    rw [prepareTargetScan_succ, ih (by omega), prepareTargetStep_eq, if_neg (by omega),
      if_neg fun h => hd h.1]

theorem prepareTarget_eq_scan (hlen : deepestMeta.length = branchMeta.length + 1) :
    prepareTarget deepestMeta branchMeta =
      some (if branchMeta.length = (prepareTargetScan deepestMeta branchMeta branchMeta.length).src
        then (prepareTargetScan deepestMeta branchMeta branchMeta.length).targetMeta.set
          branchMeta.length (prepareTargetScan deepestMeta branchMeta branchMeta.length).dest
        else (prepareTargetScan deepestMeta branchMeta branchMeta.length).targetMeta) := by
  simp only [prepareTarget, List.length_replicate, hlen, beq_iff_eq, if_true]
  rfl

/-- A level with a source keeps a move pending above a pending move or a taken vacancy. -/
theorem prepareTargetScan_pending_succ (hn : branchMeta.length < floorIndex)
    (hwf : DeepestWellFormed deepestMeta branchMeta) {j : Nat} (hj : j < branchMeta.length)
    (hd : deepestMeta.getD j floorIndex ≠ floorIndex)
    (h : (prepareTargetScan deepestMeta branchMeta j).dest ≠ floorIndex ∧
        j ≤ (prepareTargetScan deepestMeta branchMeta j).src ∨
      (prepareTargetScan deepestMeta branchMeta j).dest = floorIndex ∧
        bucketHasEmptySlot (branchMeta.getD j []) = true) :
    (prepareTargetScan deepestMeta branchMeta (j + 1)).dest ≠ floorIndex ∧
      j + 1 ≤ (prepareTargetScan deepestMeta branchMeta (j + 1)).src := by
  have hdj := ((hwf j (Nat.le_of_lt hj)).resolve_left hd).1
  rw [prepareTargetScan_succ]
  by_cases ha : Adopts deepestMeta branchMeta (prepareTargetScan deepestMeta branchMeta j) j
  · obtain ⟨h1, h2⟩ := prepareTargetStep_of_adopts ha
    rw [h1, h2]
    exact ⟨by omega, hdj⟩
  · obtain ⟨h1, h2⟩ := prepareTargetStep_of_not_adopts ha
    rcases h with ⟨hdest, hsrc⟩ | ⟨hdest, hvac⟩
    · have hs : j ≠ (prepareTargetScan deepestMeta branchMeta j).src := fun e => ha ⟨Or.inl e, hd⟩
      rw [h1, h2, if_neg hs, if_neg hs]
      exact ⟨hdest, by omega⟩
    · exact absurd ⟨Or.inr ⟨hdest, hvac⟩, hd⟩ ha

/-- The run lemma of a chain: from a vacant `t` with sources up to `k`, a move is pending at `k`. -/
theorem prepareTargetScan_of_chain (hn : branchMeta.length < floorIndex)
    (hwf : DeepestWellFormed deepestMeta branchMeta) {t : Nat}
    (hvac : bucketHasEmptySlot (branchMeta.getD t []) = true) :
    ∀ k, t < k → k ≤ branchMeta.length →
      (∀ j, t ≤ j → j < k → deepestMeta.getD j floorIndex ≠ floorIndex) →
      (prepareTargetScan deepestMeta branchMeta k).dest ≠ floorIndex ∧
        k ≤ (prepareTargetScan deepestMeta branchMeta k).src
  | k + 1, htk, hk, hsrc => by
    refine prepareTargetScan_pending_succ hn hwf hk (hsrc k (by omega) (by omega)) ?_
    rcases Nat.lt_succ_iff_lt_or_eq.1 htk with htk | rfl
    · exact Or.inl (prepareTargetScan_of_chain hn hwf hvac k htk (by omega)
        fun j htj hjk => hsrc j htj (by omega))
    · rcases (targetInv_scan hn hwf t (by omega)).pending with ⟨hd, -⟩ | ⟨hd, hs⟩
      · exact Or.inr ⟨hd, hvac⟩
      · exact Or.inl ⟨hd, hs⟩

/-- Conversely, a pending move tops such a chain. -/
theorem prepareTargetScan_chain (hn : branchMeta.length < floorIndex)
    (hwf : DeepestWellFormed deepestMeta branchMeta) (hnest : DeepestNested deepestMeta) :
    ∀ k, k ≤ branchMeta.length → (prepareTargetScan deepestMeta branchMeta k).dest ≠ floorIndex →
      ∃ t < k, bucketHasEmptySlot (branchMeta.getD t []) = true ∧
        ∀ j, t ≤ j → j < k → deepestMeta.getD j floorIndex ≠ floorIndex
  | 0, _, hd => (hd rfl).elim
  | k + 1, hk, hd => by
    have hinv : TargetInv deepestMeta branchMeta k (prepareTargetScan deepestMeta branchMeta k) :=
      targetInv_scan hn hwf k (by omega)
    have ih := prepareTargetScan_chain hn hwf hnest k (by omega)
    rw [prepareTargetScan_succ] at hd
    by_cases ha : Adopts deepestMeta branchMeta (prepareTargetScan deepestMeta branchMeta k) k
    · obtain ⟨hv | ⟨-, hvac⟩, hdk⟩ := ha
      · -- the pending move reaches its source, which passes it on
        have hdest : (prepareTargetScan deepestMeta branchMeta k).dest ≠ floorIndex :=
          hinv.pending.elim (fun h => absurd (hv.trans h.2) (by omega)) (·.1)
        obtain ⟨t, htk, hvac, hsrc⟩ := ih hdest
        refine ⟨t, by omega, hvac, fun j htj hjk => ?_⟩
        rcases Nat.lt_succ_iff_lt_or_eq.1 hjk with hjk | rfl
        exacts [hsrc j htj hjk, hdk]
      · -- a move into the vacant level `k` starts
        exact ⟨k, Nat.lt_succ_self k, hvac, fun j hkj hjk => (show j = k by omega) ▸ hdk⟩
    · obtain ⟨h1, -⟩ := prepareTargetStep_of_not_adopts ha
      by_cases hs : k = (prepareTargetScan deepestMeta branchMeta k).src
      · rw [h1, if_pos hs] at hd
        exact (hd rfl).elim
      · -- the pending move passes level `k` on its way down from its source
        rw [h1, if_neg hs] at hd
        obtain ⟨t, htk, hvac, hsrc⟩ := ih hd
        have hks := (hinv.pending.resolve_left fun h => hd h.1).2
        obtain ⟨-, hsn, hdk, hds, -⟩ := hinv.move _ _ ⟨hd, Or.inr ⟨rfl, rfl⟩⟩
        have hk' : deepestMeta.getD k floorIndex ≠ floorIndex :=
          hnest _ k (Nat.le_of_lt hdk) (by omega) (by omega)
        refine ⟨t, by omega, hvac, fun j htj hjk => ?_⟩
        rcases Nat.lt_succ_iff_lt_or_eq.1 hjk with hjk | rfl
        exacts [hsrc j htj hjk, hk']

/-- The plan takes from the stash exactly when a vacant level has sources up to the root. -/
theorem prepareTarget_stash_iff (hn : branchMeta.length < floorIndex)
    (hlen : deepestMeta.length = branchMeta.length + 1)
    (hwf : DeepestWellFormed deepestMeta branchMeta) (hnest : DeepestNested deepestMeta) :
    ∃ targetMeta, prepareTarget deepestMeta branchMeta = some targetMeta ∧
      (targetMeta.getD branchMeta.length floorIndex ≠ floorIndex ↔
        ∃ t < branchMeta.length, (∃ m ∈ branchMeta.getD t [], m.isVacant = true) ∧
          ∀ j, t ≤ j → j < branchMeta.length → deepestMeta.getD j floorIndex ≠ floorIndex) := by
  simp only [← bucketHasEmptySlot_iff]
  have hinv : TargetInv deepestMeta branchMeta branchMeta.length
      (prepareTargetScan deepestMeta branchMeta branchMeta.length) :=
    targetInv_scan hn hwf _ (Nat.le_refl _)
  have hT := hinv.untouched _ (Nat.le_refl _)
  refine ⟨_, prepareTarget_eq_scan hlen, fun h => ?_, fun ⟨t, ht, hvac, hsrc⟩ => ?_⟩
  · -- only the move pending after the branch can start in the stash
    refine prepareTargetScan_chain hn hwf hnest _ (Nat.le_refl _) fun hd => h ?_
    split
    · rw [getD_set, hd, hT, ite_self]
    · exact hT
  · obtain ⟨hd, hs⟩ := prepareTargetScan_of_chain hn hwf hvac _ ht (Nat.le_refl _) hsrc
    have hsn := (hinv.move _ _ ⟨hd, Or.inr ⟨rfl, rfl⟩⟩).2.1
    rw [if_pos (Nat.le_antisymm hs hsn), getD_set, if_pos ⟨rfl, by rw [hinv.length]; omega⟩]
    exact hd

end Scan

/-- On every well-formed `deepest` of the right length, `prepare_target` returns a sound plan. -/
theorem prepareTarget_sound {deepestMeta : List Nat} {branchMeta : List (List Meta)}
    (hn : branchMeta.length < floorIndex) (hlen : deepestMeta.length = branchMeta.length + 1)
    (hwf : DeepestWellFormed deepestMeta branchMeta) :
    ∃ targetMeta, prepareTarget deepestMeta branchMeta = some targetMeta ∧
      PlanSound deepestMeta branchMeta targetMeta := by
  refine ⟨_, ?_, planSound_of_targetInv hn (targetInv_scan hn hwf _ (Nat.le_refl _))⟩
  simp only [prepareTarget, List.length_replicate, hlen, beq_iff_eq, if_true]

/-- Each move goes down into a level with room; no move starts or ends strictly inside it. -/
theorem prepareTarget_moves_executable (deepestMeta : List Nat) (branchMeta : List (List Meta))
    (hn : branchMeta.length < floorIndex) (hlen : deepestMeta.length = branchMeta.length + 1)
    (hwf : DeepestWellFormed deepestMeta branchMeta) :
    ∃ targetMeta, prepareTarget deepestMeta branchMeta = some targetMeta ∧
      targetMeta.length = branchMeta.length + 1 ∧
      (∀ i ≤ branchMeta.length, ∀ t, targetMeta.getD i floorIndex = t → t ≠ floorIndex →
        t < i ∧
        ((∃ m ∈ branchMeta.getD t [], m.isVacant = true) ∨
          targetMeta.getD t floorIndex ≠ floorIndex) ∧
        ∀ k, t < k → k < i → targetMeta.getD k floorIndex = floorIndex ∧
          ∀ j, targetMeta.getD j floorIndex ≠ k) ∧
      (∀ i j, targetMeta.getD i floorIndex = targetMeta.getD j floorIndex →
        targetMeta.getD i floorIndex ≠ floorIndex → i = j) := by
  obtain ⟨T, hT, hs⟩ := prepareTarget_sound hn hlen hwf
  refine ⟨T, hT, hs.length, fun i _ t hi ht => ⟨(hs.move t i ht hi).1, (hs.move t i ht hi).2.2.2,
    fun k h1 h2 => hs.disjoint t i k ht hi h1 h2⟩, fun i j he hf => ?_⟩
  have inside : ∀ i j, T.getD i floorIndex = T.getD j floorIndex →
      T.getD i floorIndex ≠ floorIndex → ¬i < j := fun i j he hf hij =>
    hf (hs.disjoint _ j i hf he.symm (hs.move _ i hf rfl).1 hij).1
  rcases Nat.lt_trichotomy i j with hij | rfl | hij
  · exact absurd hij (inside i j he hf)
  · rfl
  · exact absurd hij (inside j i he.symm (he ▸ hf))

theorem prepareTarget_moves_executable_one_bucket :
    ∃ targetMeta, prepareTarget [1, floorIndex] [[⟨0, true⟩]] = some targetMeta ∧
      targetMeta.length = 1 + 1 ∧
      (∀ i ≤ 1, ∀ t, targetMeta.getD i floorIndex = t → t ≠ floorIndex →
        t < i ∧
        ((∃ m ∈ ([[⟨0, true⟩]] : List (List Meta)).getD t [], m.isVacant = true) ∨
          targetMeta.getD t floorIndex ≠ floorIndex) ∧
        ∀ k, t < k → k < i → targetMeta.getD k floorIndex = floorIndex ∧
          ∀ j, targetMeta.getD j floorIndex ≠ k) ∧
      (∀ i j, targetMeta.getD i floorIndex = targetMeta.getD j floorIndex →
        targetMeta.getD i floorIndex ≠ floorIndex → i = j) :=
  prepareTarget_moves_executable _ _ (by decide) rfl (by unfold DeepestWellFormed; decide)

/-- A level with room and a source is filled from `deepest[t]` or lies inside a move. -/
theorem prepareTarget_no_room_unplanned (deepestMeta : List Nat) (branchMeta : List (List Meta))
    (hn : branchMeta.length < floorIndex) (hlen : deepestMeta.length = branchMeta.length + 1)
    (hwf : DeepestWellFormed deepestMeta branchMeta) :
    ∃ targetMeta, prepareTarget deepestMeta branchMeta = some targetMeta ∧
      ∀ t < branchMeta.length, deepestMeta.getD t floorIndex ≠ floorIndex →
        ((∃ m ∈ branchMeta.getD t [], m.isVacant = true) ∨
          targetMeta.getD t floorIndex ≠ floorIndex) →
        targetMeta.getD (deepestMeta.getD t floorIndex) floorIndex = t ∨
          ∃ i t', targetMeta.getD i floorIndex = t' ∧ t' < t ∧ t < i := by
  obtain ⟨T, hT, hs⟩ := prepareTarget_sound hn hlen hwf
  refine ⟨T, hT, fun t ht hd hr => ?_⟩
  rcases hs.covered t ht hd hr with h | ⟨i, t', h1, -, h2, h3⟩
  · exact Or.inl h
  · exact Or.inr ⟨i, t', h1, h2, h3⟩

theorem prepareTarget_no_room_unplanned_one_bucket :
    ∃ targetMeta, prepareTarget [1, floorIndex] [[⟨0, true⟩]] = some targetMeta ∧
      ∀ t < 1, [1, floorIndex].getD t floorIndex ≠ floorIndex →
        ((∃ m ∈ ([[⟨0, true⟩]] : List (List Meta)).getD t [], m.isVacant = true) ∨
          targetMeta.getD t floorIndex ≠ floorIndex) →
        targetMeta.getD ([1, floorIndex].getD t floorIndex) floorIndex = t ∨
          ∃ i t', targetMeta.getD i floorIndex = t' ∧ t' < t ∧ t < i :=
  prepareTarget_no_room_unplanned _ _ (by decide) rfl (by unfold DeepestWellFormed; decide)

end OramEvictor
