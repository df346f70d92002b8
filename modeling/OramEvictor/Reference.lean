import OramEvictor.PrepareTarget

/-!
# The references of the tests

The tests check `prepare_deepest` against `prepare_deepest_non_oblivious_for_testing`,
which for each level scans the levels above it for the least legal index, ties going to
the higher level, and reads no vacancy flag. They check `prepare_target` against
`prepare_target_nonoblivious_for_testing`, a `while` loop that jumps from a level with room
straight to its source and writes the move there, and overwrites with `FLOOR_INDEX` a move
whose source has no source of its own. Each reference is related to its oblivious scan
level by level, and the two differ only where those details do.
-/

namespace OramEvictor

/-- `LowestHeightAndSource`. -/
structure LowestHeightAndSource where
  sourceBucket : Nat
  destinationBucket : Nat
deriving DecidableEq, Repr

section Reference

variable (legal : BitVec 64 → BitVec 64 → Nat → Nat)

/-- One slot of the loops of `find_source_for_deepest_elem_in_stash_non_oblivious_for_testing`. -/
def findSourceStep (leaf : BitVec 64) (metaLen bucketNum : Nat) (acc : LowestHeightAndSource)
    (srcMeta : Meta) : LowestHeightAndSource :=
  let elemDestination := legal srcMeta.leafNum leaf metaLen
  if elemDestination < acc.destinationBucket then ⟨bucketNum, elemDestination⟩ else acc

/-- `find_source_for_deepest_elem_in_stash_non_oblivious_for_testing`. -/
def findSourceForDeepestElemInStashNonObliviousForTesting (stashMeta : List Meta)
    (branchMeta : List (List Meta)) (leaf : BitVec 64) (testLevel : Nat) :
    LowestHeightAndSource :=
  let metaLen := branchMeta.length
  let acc := stashMeta.foldl (findSourceStep legal leaf metaLen metaLen) ⟨floorIndex, floorIndex⟩
  ((List.range metaLen).drop testLevel).reverse.foldl (fun acc bucketNum =>
    (branchMeta.getD bucketNum []).foldl (findSourceStep legal leaf metaLen bucketNum) acc) acc

/-- `prepare_deepest_non_oblivious_for_testing`; its `debug_assert!` gives `none`. -/
def prepareDeepestNonObliviousForTesting (deepestMeta : List Nat) (stashMeta : List Meta)
    (branchMeta : List (List Meta)) (leaf : BitVec 64) : Option (List Nat) :=
  if deepestMeta.length = branchMeta.length + 1 then
    some (deepestMeta.mapIdx fun i _ =>
      let deepestTest :=
        findSourceForDeepestElemInStashNonObliviousForTesting legal stashMeta branchMeta leaf (i + 1)
      if deepestTest.destinationBucket ≤ i ∧ deepestTest.sourceBucket > i then
        deepestTest.sourceBucket
      else floorIndex)
  else none

end Reference

/-- `x` is a slot of a level `s ≥ k`, vacant or not. -/
def InLevel (stashMeta : List Meta) (branchMeta : List (List Meta)) (k s : Nat) (x : Meta) :
    Prop :=
  k ≤ s ∧ x ∈ levelMeta stashMeta branchMeta s

section Scan

variable {legal : BitVec 64 → BitVec 64 → Nat → Nat} {stashMeta : List Meta}
  {branchMeta : List (List Meta)} {leaf : BitVec 64}

theorem inLevel_iff {k t : Nat} {x : Meta} :
    InLevel stashMeta branchMeta k t x ↔
      InLevel stashMeta branchMeta (k + 1) t x ∨ t = k ∧ x ∈ levelMeta stashMeta branchMeta k := by
  constructor
  · rintro ⟨hkt, hx⟩
    rcases Nat.eq_or_lt_of_le hkt with rfl | hkt
    · exact Or.inr ⟨rfl, hx⟩
    · exact Or.inl ⟨hkt, hx⟩
  · rintro (⟨hkt, hx⟩ | ⟨rfl, hx⟩)
    · exact ⟨Nat.le_of_succ_le hkt, hx⟩
    · exact ⟨Nat.le_refl _, hx⟩

/-- Reading the slots of level `k` after those of every level above it. -/
theorem best_findSourceStep {k : Nat} (hk : k < floorIndex) {acc : LowestHeightAndSource}
    (h : Best (legalIndex legal branchMeta leaf) (InLevel stashMeta branchMeta (k + 1))
      acc.destinationBucket acc.sourceBucket) :
    let r := (levelMeta stashMeta branchMeta k).foldl
      (findSourceStep legal leaf branchMeta.length k) acc
    Best (legalIndex legal branchMeta leaf) (InLevel stashMeta branchMeta k)
      r.destinationBucket r.sourceBucket := by
  obtain ⟨hle, hmin, hlast⟩ := foldl_runningMin LowestHeightAndSource.destinationBucket
    LowestHeightAndSource.sourceBucket (findSourceStep legal leaf branchMeta.length k)
    (legalIndex legal branchMeta leaf) (fun _ => True) k
    (fun _ _ _ hd => by simp only [legalIndex] at hd ⊢; simp [findSourceStep, hd])
    (fun _ _ h => if_neg fun hd => h ⟨trivial, hd⟩) (levelMeta stashMeta branchMeta k) acc
  exact best_level hk (fun _ _ h => h.1)
    (fun _ _ => by rw [inLevel_iff, and_true]) h hle hmin hlast

theorem findSource_of_le {k : Nat} (hk : branchMeta.length ≤ k) :
    findSourceForDeepestElemInStashNonObliviousForTesting legal stashMeta branchMeta leaf k =
      stashMeta.foldl (findSourceStep legal leaf branchMeta.length branchMeta.length)
        ⟨floorIndex, floorIndex⟩ := by
  rw [findSourceForDeepestElemInStashNonObliviousForTesting,
    List.drop_of_length_le (by rw [List.length_range]; exact hk)]
  rfl

theorem findSource_of_lt {k : Nat} (hk : k < branchMeta.length) :
    findSourceForDeepestElemInStashNonObliviousForTesting legal stashMeta branchMeta leaf k =
      (branchMeta.getD k []).foldl (findSourceStep legal leaf branchMeta.length k)
        (findSourceForDeepestElemInStashNonObliviousForTesting legal stashMeta branchMeta leaf
          (k + 1)) := by
  simp only [findSourceForDeepestElemInStashNonObliviousForTesting,
    @List.drop_eq_getElem_cons _ k (List.range branchMeta.length) (by simpa using hk),
    List.getElem_range, List.reverse_cons, List.foldl_append, List.foldl_cons, List.foldl_nil]

/-- The run lemma: the search from level `k` finds the best over the slots of levels `≥ k`. -/
theorem best_findSource (hn : branchMeta.length < floorIndex) :
    ∀ j k, k + j = branchMeta.length →
      Best (legalIndex legal branchMeta leaf) (InLevel stashMeta branchMeta k)
        (findSourceForDeepestElemInStashNonObliviousForTesting legal stashMeta branchMeta leaf
          k).destinationBucket
        (findSourceForDeepestElemInStashNonObliviousForTesting legal stashMeta branchMeta leaf
          k).sourceBucket
  | 0, k, h => by
    obtain rfl : k = branchMeta.length := h
    have hnone : Best (legalIndex legal branchMeta leaf)
        (InLevel stashMeta branchMeta (branchMeta.length + 1)) floorIndex floorIndex :=
      ⟨fun _ _ ⟨hs, hx⟩ => absurd (le_length_of_mem_levelMeta hx) (by omega), Or.inl ⟨rfl, rfl⟩⟩
    have hstash :=
      @best_findSourceStep legal stashMeta branchMeta leaf _ hn ⟨floorIndex, floorIndex⟩ hnone
    rw [levelMeta_length] at hstash
    rwa [findSource_of_le (Nat.le_refl _)]
  | j + 1, k, h => by
    rw [findSource_of_lt (by omega), ← levelMeta_of_lt stashMeta (by omega)]
    exact best_findSourceStep (by omega) (best_findSource hn j (k + 1) (by omega))

end Scan

section Agreement

variable {legal : BitVec 64 → BitVec 64 → Nat → Nat} {stashMeta : List Meta}
  {branchMeta : List (List Meta)} {leaf : BitVec 64}

/-- No vacant slot may legally sit below its own level. -/
def VacantStaysUp (legal : BitVec 64 → BitVec 64 → Nat → Nat) (stashMeta : List Meta)
    (branchMeta : List (List Meta)) (leaf : BitVec 64) : Prop :=
  ∀ s, ∀ x ∈ levelMeta stashMeta branchMeta s, x.isVacant = true →
    s ≤ legalIndex legal branchMeta leaf x

theorem vacantStaysUp_of_buckets
    (hstash : ∀ x ∈ stashMeta, x.isVacant = true →
      branchMeta.length ≤ legal x.leafNum leaf branchMeta.length)
    (hbranch : ∀ s < branchMeta.length, ∀ x ∈ branchMeta.getD s [], x.isVacant = true →
      s ≤ legal x.leafNum leaf branchMeta.length) :
    VacantStaysUp legal stashMeta branchMeta leaf := by
  intro s x hx hv
  rcases Nat.lt_trichotomy s branchMeta.length with hs | rfl | hs
  · rw [levelMeta_of_lt stashMeta hs] at hx
    exact hbranch s hs x hx hv
  · rw [levelMeta_length] at hx
    exact hstash x hx hv
  · rw [levelMeta_of_gt hs] at hx
    cases hx

theorem holds_of_legalIndex_lt (hvac : VacantStaysUp legal stashMeta branchMeta leaf) {s : Nat}
    {x : Meta} (hx : x ∈ levelMeta stashMeta branchMeta s)
    (hd : legalIndex legal branchMeta leaf x < s) : Holds stashMeta branchMeta s x :=
  ⟨hx, Bool.eq_false_iff.mpr fun hv => Nat.not_le_of_lt hd (hvac s x hx hv)⟩

/-- The reference's entry for a level `i < n`, from the best over the slots above `i`. -/
theorem deepestSpec_of_best (hvac : VacantStaysUp legal stashMeta branchMeta leaf) {i g s : Nat}
    (hi : i < floorIndex)
    (h : Best (legalIndex legal branchMeta leaf) (InLevel stashMeta branchMeta (i + 1)) g s) :
    DeepestSpec legal stashMeta branchMeta leaf i (if g ≤ i ∧ s > i then s else floorIndex) := by
  refine ⟨fun ⟨t, y, hit, hy, hyi⟩ => ?_, fun hno => if_neg ?_⟩
  · have hgi : g ≤ i := Nat.le_trans (h.1 t y ⟨hit, hy.1⟩).1 hyi
    rcases h.2 with ⟨rfl, -⟩ | ⟨x, ⟨hsx, hx⟩, hxg⟩
    · exact absurd hgi (Nat.not_le_of_lt hi)
    rw [if_pos ⟨hgi, hsx⟩]
    refine ⟨hsx, le_length_of_mem_levelMeta hx, x, holds_of_legalIndex_lt hvac hx (by omega),
      fun t' y' ht' hy' => ?_⟩
    obtain ⟨h1, h2⟩ := h.1 t' y' ⟨ht', hy'.1⟩
    exact ⟨hxg ▸ h1, fun he => h2 (he.trans hxg)⟩
  · rintro ⟨hgi, hsi⟩
    rcases h.2 with ⟨rfl, -⟩ | ⟨x, ⟨hsx, hx⟩, hxg⟩
    · exact Nat.not_le_of_lt hi hgi
    · exact hno ⟨s, x, hsx, holds_of_legalIndex_lt hvac hx (by omega), hxg ▸ hgi⟩

/-- The reference's entry for the stash level `n` is `FLOOR_INDEX`, as the spec asks. -/
theorem deepestSpec_of_best_length (hn : branchMeta.length < floorIndex) {g s : Nat}
    (h : Best (legalIndex legal branchMeta leaf) (InLevel stashMeta branchMeta branchMeta.length)
      g s) :
    DeepestSpec legal stashMeta branchMeta leaf branchMeta.length
      (if g ≤ branchMeta.length ∧ s > branchMeta.length then s else floorIndex) := by
  rw [if_neg]
  · exact ⟨fun ⟨_, _, hs, hy, _⟩ => absurd (holds_le_length hy) (Nat.not_le_of_lt hs), fun _ => rfl⟩
  · rintro ⟨hg, hs⟩
    rcases h.2 with ⟨rfl, -⟩ | ⟨x, ⟨-, hx⟩, -⟩
    · omega
    · exact Nat.not_le_of_lt hs (le_length_of_mem_levelMeta hx)

theorem deepestSpec_findSource (hn : branchMeta.length < floorIndex)
    (hvac : VacantStaysUp legal stashMeta branchMeta leaf) {i : Nat} (hi : i ≤ branchMeta.length) :
    let t := findSourceForDeepestElemInStashNonObliviousForTesting legal stashMeta branchMeta leaf
      (i + 1)
    DeepestSpec legal stashMeta branchMeta leaf i
      (if t.destinationBucket ≤ i ∧ t.sourceBucket > i then t.sourceBucket else floorIndex) := by
  rcases Nat.eq_or_lt_of_le hi with rfl | hi
  · have e := (@findSource_of_le legal stashMeta branchMeta leaf _ (Nat.le_succ _)).trans
      (findSource_of_le (Nat.le_refl _)).symm
    simp only [e]
    exact deepestSpec_of_best_length hn (best_findSource hn 0 _ rfl)
  · exact deepestSpec_of_best hvac (by omega) (best_findSource hn (branchMeta.length - (i + 1)) (i + 1) (by omega))

end Agreement

/-- With no vacant slot legal below its level, the reference returns `prepare_deepest`. -/
theorem prepareDeepestNonObliviousForTesting_eq_prepareDeepest
    (legal : BitVec 64 → BitVec 64 → Nat → Nat) (deepestMeta : List Nat) (stashMeta : List Meta)
    (branchMeta : List (List Meta)) (leaf : BitVec 64) (hn : branchMeta.length < floorIndex)
    (hlen : deepestMeta.length = branchMeta.length + 1)
    (hstash : ∀ x ∈ stashMeta, x.isVacant = true →
      branchMeta.length ≤ legal x.leafNum leaf branchMeta.length)
    (hbranch : ∀ s < branchMeta.length, ∀ x ∈ branchMeta.getD s [], x.isVacant = true →
      s ≤ legal x.leafNum leaf branchMeta.length) :
    prepareDeepestNonObliviousForTesting legal deepestMeta stashMeta branchMeta leaf =
      some (prepareDeepest legal stashMeta branchMeta leaf) := by
  have hlen' := @prepareDeepest_length legal stashMeta branchMeta leaf hn
  rw [prepareDeepestNonObliviousForTesting, if_pos hlen, Option.some.injEq]
  refine List.ext_getElem (by rw [List.length_mapIdx, hlen, hlen']) fun i h1 h2 => ?_
  have hi : i ≤ branchMeta.length := by rw [hlen'] at h2; omega
  rw [List.getElem_mapIdx, ← List.getD_eq_getElem _ floorIndex h2]
  exact deepestSpec_unique
    (deepestSpec_findSource hn (vacantStaysUp_of_buckets hstash hbranch) hi)
    (prepareDeepest_getD hn hi)

theorem prepareDeepestNonObliviousForTesting_eq_prepareDeepest_vacant_leaf :
    prepareDeepestNonObliviousForTesting (fun _ _ _ => 0) [floorIndex, floorIndex] [⟨5, false⟩]
        [[⟨0, true⟩]] 2 =
      some (prepareDeepest (fun _ _ _ => 0) [⟨5, false⟩] [[⟨0, true⟩]] 2) :=
  prepareDeepestNonObliviousForTesting_eq_prepareDeepest _ _ _ _ _ (by decide) rfl
    (by decide) (by decide)

/-- A vacant stash slot that may sit at level `0` is picked by the reference only. -/
example :
    prepareDeepestNonObliviousForTesting (fun _ _ _ => 0) [floorIndex, floorIndex] [⟨0, true⟩]
        [[]] 2 = some [1, floorIndex] ∧
      prepareDeepest (fun _ _ _ => 0) [⟨0, true⟩] [[]] 2 = [floorIndex, floorIndex] := by
  decide

/-- The state of the loop of `prepare_target_nonoblivious_for_testing`. -/
structure NonobliviousTargetScan where
  i : Nat
  hasVacancy : Bool
  targetMeta : List Nat
deriving DecidableEq, Repr

section TargetReference

variable (deepestMeta : List Nat) (branchMeta : List (List Meta))

/-- One round of that loop; `none` is an index out of bounds. -/
def nonobliviousTargetStep (st : NonobliviousTargetScan) : Option NonobliviousTargetScan :=
  let hasVacancy := st.hasVacancy || bucketHasEmptySlot (branchMeta.getD st.i [])
  match deepestMeta[st.i]? with
  | none => none
  | some d =>
    if d = floorIndex then
      if st.i < st.targetMeta.length then
        some ⟨st.i + 1, false, st.targetMeta.set st.i floorIndex⟩
      else none
    else if hasVacancy then
      if d < st.targetMeta.length then some ⟨d, hasVacancy, st.targetMeta.set d st.i⟩ else none
    else some ⟨st.i + 1, hasVacancy, st.targetMeta⟩

/-- The loop, one unit of `fuel` per test of `i < branch_meta.len()`. -/
def nonobliviousTargetLoop : Nat → NonobliviousTargetScan → Option (List Nat)
  | 0, _ => none
  | fuel + 1, st =>
    if st.i < branchMeta.length then
      (nonobliviousTargetStep deepestMeta branchMeta st).bind (nonobliviousTargetLoop fuel)
    else some st.targetMeta

end TargetReference

/-- `prepare_target_nonoblivious_for_testing` on the `target_meta` it is given. Its control
flow reads only `i` and `has_vacancy`, so a run that meets a pair twice never ends and one
that ends makes at most `2 n` rounds: `2 n + 1` tests of the loop condition cover it. -/
def prepareTargetNonobliviousForTesting (targetMeta deepestMeta : List Nat)
    (branchMeta : List (List Meta)) : Option (List Nat) :=
  nonobliviousTargetLoop deepestMeta branchMeta (2 * branchMeta.length + 1) ⟨0, false, targetMeta⟩

/-- `target[s]`, the move out of a level `s < n` dropped when `deepest[s]` is `FLOOR_INDEX`. -/
def dropUnsourced (deepestMeta : List Nat) (n s t : Nat) : Nat :=
  if s < n ∧ deepestMeta.getD s floorIndex = floorIndex then floorIndex else t

/-- The reference loop at `st.i` against the oblivious scan of the buckets below it: no
move is pending and no vacancy is carried, or the loop has just jumped to the source of
the pending move and written that move. Apart from it, `target_meta` is the oblivious one
with the moves out of levels without a source dropped. -/
structure TargetSim (deepestMeta : List Nat) (branchMeta : List (List Meta))
    (st : NonobliviousTargetScan) : Prop where
  le : st.i ≤ branchMeta.length
  length : st.targetMeta.length = branchMeta.length + 1
  mode : (prepareTargetScan deepestMeta branchMeta st.i).dest = floorIndex ∧
      (prepareTargetScan deepestMeta branchMeta st.i).src = floorIndex ∧
        st.hasVacancy = false ∨
    (prepareTargetScan deepestMeta branchMeta st.i).dest ≠ floorIndex ∧
      (prepareTargetScan deepestMeta branchMeta st.i).src = st.i ∧ st.hasVacancy = true
  read : ∀ s, st.targetMeta.getD s floorIndex =
    if (prepareTargetScan deepestMeta branchMeta st.i).src = st.i ∧ s = st.i then
      (prepareTargetScan deepestMeta branchMeta st.i).dest
    else dropUnsourced deepestMeta branchMeta.length s
      ((prepareTargetScan deepestMeta branchMeta st.i).targetMeta.getD s floorIndex)

section TargetAgreement

variable {deepestMeta : List Nat} {branchMeta : List (List Meta)}

theorem nonobliviousTargetStep_of_floor {st : NonobliviousTargetScan}
    (hi : st.i < deepestMeta.length) (hd : deepestMeta.getD st.i floorIndex = floorIndex)
    (ht : st.i < st.targetMeta.length) :
    nonobliviousTargetStep deepestMeta branchMeta st =
      some ⟨st.i + 1, false, st.targetMeta.set st.i floorIndex⟩ := by
  rw [List.getD_eq_getElem _ _ hi] at hd
  simp [nonobliviousTargetStep, List.getElem?_eq_getElem hi, hd, ht]

theorem nonobliviousTargetStep_of_vacancy {st : NonobliviousTargetScan}
    (hi : st.i < deepestMeta.length) (hd : deepestMeta.getD st.i floorIndex ≠ floorIndex)
    (hv : (st.hasVacancy || bucketHasEmptySlot (branchMeta.getD st.i [])) = true)
    (ht : deepestMeta.getD st.i floorIndex < st.targetMeta.length) :
    nonobliviousTargetStep deepestMeta branchMeta st =
      some ⟨deepestMeta.getD st.i floorIndex, true,
        st.targetMeta.set (deepestMeta.getD st.i floorIndex) st.i⟩ := by
  rw [List.getD_eq_getElem _ _ hi] at hd ht ⊢
  simp only [nonobliviousTargetStep, List.getElem?_eq_getElem hi, if_neg hd, hv, if_true,
    if_pos ht]

theorem nonobliviousTargetStep_of_no_vacancy {st : NonobliviousTargetScan}
    (hi : st.i < deepestMeta.length) (hd : deepestMeta.getD st.i floorIndex ≠ floorIndex)
    (hv : (st.hasVacancy || bucketHasEmptySlot (branchMeta.getD st.i [])) = false) :
    nonobliviousTargetStep deepestMeta branchMeta st =
      some ⟨st.i + 1, false, st.targetMeta⟩ := by
  rw [List.getD_eq_getElem _ _ hi] at hd
  simp only [nonobliviousTargetStep, List.getElem?_eq_getElem hi, if_neg hd, hv]
  rfl

theorem targetSim_of_clear (hn : branchMeta.length < floorIndex) {st : NonobliviousTargetScan}
    (hle : st.i ≤ branchMeta.length) (hlen : st.targetMeta.length = branchMeta.length + 1)
    (hd : (prepareTargetScan deepestMeta branchMeta st.i).dest = floorIndex)
    (hs : (prepareTargetScan deepestMeta branchMeta st.i).src = floorIndex)
    (hv : st.hasVacancy = false)
    (hread : ∀ s, st.targetMeta.getD s floorIndex = dropUnsourced deepestMeta branchMeta.length s
      ((prepareTargetScan deepestMeta branchMeta st.i).targetMeta.getD s floorIndex)) :
    TargetSim deepestMeta branchMeta st :=
  ⟨hle, hlen, Or.inl ⟨hd, hs, hv⟩, fun s => by rw [hread, if_neg fun h => by omega]⟩

theorem targetSim_of_landing {st : NonobliviousTargetScan} (hle : st.i ≤ branchMeta.length)
    (hlen : st.targetMeta.length = branchMeta.length + 1)
    (hd : (prepareTargetScan deepestMeta branchMeta st.i).dest ≠ floorIndex)
    (hs : (prepareTargetScan deepestMeta branchMeta st.i).src = st.i)
    (hv : st.hasVacancy = true)
    (hread : ∀ s, st.targetMeta.getD s floorIndex =
      if s = st.i then (prepareTargetScan deepestMeta branchMeta st.i).dest
      else dropUnsourced deepestMeta branchMeta.length s
        ((prepareTargetScan deepestMeta branchMeta st.i).targetMeta.getD s floorIndex)) :
    TargetSim deepestMeta branchMeta st :=
  ⟨hle, hlen, Or.inr ⟨hd, hs, hv⟩, fun s => by rw [hread, hs]; simp only [true_and]⟩

theorem targetSim_init (hn : branchMeta.length < floorIndex) :
    TargetSim deepestMeta branchMeta ⟨0, false, List.replicate (branchMeta.length + 1) floorIndex⟩ :=
  targetSim_of_clear hn (Nat.zero_le _) (List.length_replicate _ _) rfl rfl rfl fun s => by
    show (List.replicate (branchMeta.length + 1) floorIndex).getD s floorIndex =
      dropUnsourced deepestMeta branchMeta.length s
        ((List.replicate (branchMeta.length + 1) floorIndex).getD s floorIndex)
    rw [getD_replicate_self, dropUnsourced]
    split <;> rfl

/-- A level without a source: the reference writes `FLOOR_INDEX` over any move out of it. -/
theorem targetSim_step_floor (hn : branchMeta.length < floorIndex) {st : NonobliviousTargetScan}
    (h : TargetSim deepestMeta branchMeta st) (hi : st.i < branchMeta.length)
    (hd : deepestMeta.getD st.i floorIndex = floorIndex) :
    TargetSim deepestMeta branchMeta ⟨st.i + 1, false, st.targetMeta.set st.i floorIndex⟩ := by
  have hread := h.read
  have hnext : (prepareTargetScan deepestMeta branchMeta (st.i + 1)).dest = floorIndex ∧
      (prepareTargetScan deepestMeta branchMeta (st.i + 1)).src = floorIndex ∧
      ∀ s, s ≠ st.i → (prepareTargetScan deepestMeta branchMeta (st.i + 1)).targetMeta.getD s
        floorIndex = (prepareTargetScan deepestMeta branchMeta st.i).targetMeta.getD s floorIndex := by
    rw [prepareTargetScan_succ, prepareTargetStep_eq]
    rcases h.mode with ⟨hd0, hs0, -⟩ | ⟨-, hs0, -⟩
    · rw [if_neg (by omega), if_neg fun h' => h'.2.2 hd]
      exact ⟨hd0, hs0, fun _ _ => rfl⟩
    · rw [if_pos hs0.symm, if_pos hd]
      exact ⟨rfl, rfl, fun s hs => getD_set_ne _ _ _ (Ne.symm hs)⟩
  obtain ⟨hd1, hs1, hT1⟩ := hnext
  refine targetSim_of_clear hn hi (by simp [h.length]) hd1 hs1 rfl fun s => ?_
  show (st.targetMeta.set st.i floorIndex).getD s floorIndex = _
  rw [getD_set]
  by_cases hs : s = st.i
  · subst hs
    rw [if_pos ⟨rfl, by rw [h.length]; omega⟩, dropUnsourced, if_pos ⟨hi, hd⟩]
  · rw [if_neg fun h' => hs h'.1.symm, hread, if_neg fun h' => hs h'.2, hT1 s hs]

/-- A vacancy with a source: the reference jumps to it, the scan adopts it and skips ahead. -/
theorem targetSim_step_jump (hn : branchMeta.length < floorIndex)
    (hwf : DeepestWellFormed deepestMeta branchMeta) {st : NonobliviousTargetScan}
    (h : TargetSim deepestMeta branchMeta st) (hi : st.i < branchMeta.length)
    (hd : deepestMeta.getD st.i floorIndex ≠ floorIndex)
    (hv : (st.hasVacancy || bucketHasEmptySlot (branchMeta.getD st.i [])) = true) :
    TargetSim deepestMeta branchMeta ⟨deepestMeta.getD st.i floorIndex, true,
      st.targetMeta.set (deepestMeta.getD st.i floorIndex) st.i⟩ := by
  obtain ⟨hid, hdn⟩ := (hwf st.i (Nat.le_of_lt hi)).resolve_left hd
  have hTlen : (prepareTargetScan deepestMeta branchMeta st.i).targetMeta.length =
      branchMeta.length + 1 := (targetInv_scan hn hwf st.i h.le).length
  have hread := h.read
  have hnext : (prepareTargetScan deepestMeta branchMeta (st.i + 1)).dest = st.i ∧
      (prepareTargetScan deepestMeta branchMeta (st.i + 1)).src = deepestMeta.getD st.i floorIndex ∧
      ∀ s, st.targetMeta.getD s floorIndex = dropUnsourced deepestMeta branchMeta.length s
        ((prepareTargetScan deepestMeta branchMeta (st.i + 1)).targetMeta.getD s floorIndex) := by
    rw [prepareTargetScan_succ, prepareTargetStep_eq]
    rcases h.mode with ⟨hd0, hs0, hv0⟩ | ⟨-, hs0, -⟩
    · rw [hv0, Bool.false_or] at hv
      rw [if_neg (by omega), if_pos ⟨hd0, hv, hd⟩]
      exact ⟨rfl, rfl, fun s => by rw [hread, if_neg fun h' => by omega]⟩
    · rw [if_pos hs0.symm, if_neg hd]
      refine ⟨rfl, rfl, fun s => ?_⟩
      rw [hread, hs0]
      show _ = dropUnsourced deepestMeta branchMeta.length s
        (((prepareTargetScan deepestMeta branchMeta st.i).targetMeta.set st.i
          (prepareTargetScan deepestMeta branchMeta st.i).dest).getD s floorIndex)
      rw [getD_set]
      by_cases hs : s = st.i
      · subst hs
        rw [if_pos ⟨rfl, rfl⟩, if_pos ⟨rfl, by omega⟩, dropUnsourced, if_neg fun h' => hd h'.2]
      · rw [if_neg fun h' => hs h'.2, if_neg fun h' => hs h'.1.symm]
  obtain ⟨hd1, hs1, hT1⟩ := hnext
  have hjump := @prepareTargetScan_pending deepestMeta branchMeta (st.i + 1)
    (deepestMeta.getD st.i floorIndex) (by rw [hd1]; omega) hid (by rw [hs1])
  refine targetSim_of_landing hdn (by simp [h.length]) (by show _ ≠ _; rw [hjump, hd1]; omega)
    (by show _ = _; rw [hjump, hs1]) rfl fun s => ?_
  show (st.targetMeta.set (deepestMeta.getD st.i floorIndex) st.i).getD s floorIndex = _
  rw [getD_set, hjump, hd1]
  by_cases hs : s = deepestMeta.getD st.i floorIndex
  · rw [if_pos ⟨hs.symm, by rw [h.length]; omega⟩, if_pos hs]
  · rw [if_neg fun h' => hs h'.1.symm, if_neg hs, hT1]

/-- A level with a source and no vacancy: both loops pass it by. -/
theorem targetSim_step_pass (hn : branchMeta.length < floorIndex) {st : NonobliviousTargetScan}
    (h : TargetSim deepestMeta branchMeta st) (hi : st.i < branchMeta.length)
    (hv : (st.hasVacancy || bucketHasEmptySlot (branchMeta.getD st.i [])) = false) :
    TargetSim deepestMeta branchMeta ⟨st.i + 1, false, st.targetMeta⟩ := by
  rw [Bool.or_eq_false_iff] at hv
  have hread := h.read
  rcases h.mode with ⟨hd0, hs0, -⟩ | ⟨-, -, hv0⟩
  · have hnext : prepareTargetScan deepestMeta branchMeta (st.i + 1) =
        prepareTargetScan deepestMeta branchMeta st.i := by
      rw [prepareTargetScan_succ, prepareTargetStep_eq, if_neg (by omega),
        if_neg fun h' => Bool.false_ne_true (hv.2.symm.trans h'.2.1)]
    refine targetSim_of_clear hn hi h.length (by show _ = _; rw [hnext, hd0])
      (by show _ = _; rw [hnext, hs0]) rfl fun s => ?_
    show st.targetMeta.getD s floorIndex = dropUnsourced deepestMeta branchMeta.length s
      ((prepareTargetScan deepestMeta branchMeta (st.i + 1)).targetMeta.getD s floorIndex)
    rw [hnext, hread, if_neg fun h' => by omega]
  · exact absurd (hv0.symm.trans hv.1) (by decide)

/-- The step lemma: a round of the reference keeps it in step with the scan. -/
theorem targetSim_step (hn : branchMeta.length < floorIndex)
    (hlen : deepestMeta.length = branchMeta.length + 1)
    (hwf : DeepestWellFormed deepestMeta branchMeta) {st : NonobliviousTargetScan}
    (h : TargetSim deepestMeta branchMeta st) (hi : st.i < branchMeta.length) :
    ∃ st', nonobliviousTargetStep deepestMeta branchMeta st = some st' ∧ st.i < st'.i ∧
      TargetSim deepestMeta branchMeta st' := by
  have hdi : st.i < deepestMeta.length := by omega
  by_cases hd : deepestMeta.getD st.i floorIndex = floorIndex
  · exact ⟨_, nonobliviousTargetStep_of_floor hdi hd (by rw [h.length]; omega),
      Nat.lt_succ_self _, targetSim_step_floor hn h hi hd⟩
  cases hv : (st.hasVacancy || bucketHasEmptySlot (branchMeta.getD st.i []))
  · exact ⟨_, nonobliviousTargetStep_of_no_vacancy hdi hd hv, Nat.lt_succ_self _,
      targetSim_step_pass hn h hi hv⟩
  · obtain ⟨hid, hdn⟩ := (hwf st.i (Nat.le_of_lt hi)).resolve_left hd
    exact ⟨_, nonobliviousTargetStep_of_vacancy hdi hd hv (by rw [h.length]; omega), hid,
      targetSim_step_jump hn hwf h hi hd hv⟩

/-- After the branch the reference holds the plan with unsourced moves dropped. -/
theorem targetSim_final (hn : branchMeta.length < floorIndex)
    (hlen : deepestMeta.length = branchMeta.length + 1)
    (hwf : DeepestWellFormed deepestMeta branchMeta) {st : NonobliviousTargetScan}
    (h : TargetSim deepestMeta branchMeta st) (hi : st.i = branchMeta.length) :
    some st.targetMeta =
      (prepareTarget deepestMeta branchMeta).map
        (List.mapIdx (dropUnsourced deepestMeta branchMeta.length)) := by
  have hTlen := (targetInv_scan hn hwf branchMeta.length (Nat.le_refl _)).length
  have hread := h.read
  rw [hi] at hread
  rw [prepareTarget_eq_scan hlen, Option.map_some', Option.some.injEq]
  change (prepareTargetScan deepestMeta branchMeta branchMeta.length).targetMeta.length = _ at hTlen
  generalize prepareTargetScan deepestMeta branchMeta branchMeta.length = o at hread hTlen ⊢
  have hL : (if branchMeta.length = o.src then o.targetMeta.set branchMeta.length o.dest
      else o.targetMeta).length = branchMeta.length + 1 := by
    split <;> simp [hTlen]
  refine ext_getD floorIndex (by rw [List.length_mapIdx, h.length, hL]) fun s => ?_
  rw [getD_mapIdx, hread s, hL]
  by_cases hsn : s < branchMeta.length + 1
  · rw [if_pos hsn]
    by_cases hsrc : branchMeta.length = o.src
    · rw [if_pos hsrc, getD_set]
      by_cases hs : s = branchMeta.length
      · rw [if_pos ⟨hsrc.symm, hs⟩, if_pos ⟨hs.symm, by omega⟩, dropUnsourced,
          if_neg fun h' => by omega]
      · rw [if_neg fun h' => hs h'.2, if_neg fun h' => hs h'.1.symm]
    · rw [if_neg fun h' => hsrc (h'.1.symm), if_neg hsrc]
  · rw [if_neg hsn, if_neg fun h' => by omega, List.getD_eq_default _ _ (by omega), dropUnsourced]
    split <;> rfl

/-- The run lemma: from a state in step with the scan, enough rounds end with that plan. -/
theorem nonobliviousTargetLoop_of_sim (hn : branchMeta.length < floorIndex)
    (hlen : deepestMeta.length = branchMeta.length + 1)
    (hwf : DeepestWellFormed deepestMeta branchMeta) :
    ∀ fuel (st : NonobliviousTargetScan), branchMeta.length - st.i < fuel →
      TargetSim deepestMeta branchMeta st →
      nonobliviousTargetLoop deepestMeta branchMeta fuel st =
        (prepareTarget deepestMeta branchMeta).map
          (List.mapIdx (dropUnsourced deepestMeta branchMeta.length))
  | 0, _, hf, _ => absurd hf (Nat.not_lt_zero _)
  | fuel + 1, st, hf, h => by
    rw [nonobliviousTargetLoop]
    by_cases hi : st.i < branchMeta.length
    · obtain ⟨st', hstep, hlt, h'⟩ := targetSim_step hn hlen hwf h hi
      rw [if_pos hi, hstep, Option.some_bind]
      exact nonobliviousTargetLoop_of_sim hn hlen hwf fuel st' (by have := h'.le; omega) h'
    · rw [if_neg hi]
      exact targetSim_final hn hlen hwf h (by have := h.le; omega)

end TargetAgreement

/-- The reference ends, with the plan of `prepare_target` minus moves out of unsourced levels. -/
theorem prepareTargetNonobliviousForTesting_eq_dropUnsourced (deepestMeta : List Nat)
    (branchMeta : List (List Meta)) (hn : branchMeta.length < floorIndex)
    (hlen : deepestMeta.length = branchMeta.length + 1)
    (hwf : DeepestWellFormed deepestMeta branchMeta) :
    prepareTargetNonobliviousForTesting (List.replicate (branchMeta.length + 1) floorIndex)
        deepestMeta branchMeta =
      (prepareTarget deepestMeta branchMeta).map
        (List.mapIdx (dropUnsourced deepestMeta branchMeta.length)) :=
  nonobliviousTargetLoop_of_sim hn hlen hwf _ _ (by show branchMeta.length - 0 < _; omega)
    (targetSim_init hn)

theorem prepareTargetNonobliviousForTesting_eq_dropUnsourced_two_buckets :
    prepareTargetNonobliviousForTesting (List.replicate 3 floorIndex) [1, floorIndex, floorIndex]
        [[⟨9, true⟩], [⟨7, false⟩]] =
      (prepareTarget [1, floorIndex, floorIndex] [[⟨9, true⟩], [⟨7, false⟩]]).map
        (List.mapIdx (dropUnsourced [1, floorIndex, floorIndex] 2)) :=
  prepareTargetNonobliviousForTesting_eq_dropUnsourced _ _ (by decide) rfl
    (by unfold DeepestWellFormed; decide)

/-- A move out of an unsourced bucket: `prepare_target` plans it and the reference drops it. -/
example :
    prepareDeepest (fun _ _ _ => 0) [] [[⟨9, true⟩], [⟨7, false⟩]] 2 =
        [1, floorIndex, floorIndex] ∧
      prepareTarget [1, floorIndex, floorIndex] [[⟨9, true⟩], [⟨7, false⟩]] =
        some [floorIndex, 0, floorIndex] ∧
      prepareTargetNonobliviousForTesting (List.replicate 3 floorIndex) [1, floorIndex, floorIndex]
        [[⟨9, true⟩], [⟨7, false⟩]] = some [floorIndex, floorIndex, floorIndex] := by
  decide

end OramEvictor
