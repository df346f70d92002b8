import OramEvictor.Metadata

/-!
# The root-to-leaf scan `prepare_deepest`

The scan reads the stash as level `n` and then buckets `n - 1, …, 0`, keeping the
smallest legal index `goal` seen so far among slots that may move below their own
level, and the level `src` it came from. Before it reads level `i` it stores `src`
into `deepest[i]` when `goal ≤ i`. The legal index of a slot is the external
`lowest_height_legal_index_impl` of the path ORAM module, the parameter `legal` here, so the
results hold for every legality function. The branch is shorter than `FLOOR_INDEX` levels,
as every Rust slice of buckets is.
-/

namespace OramEvictor

/-- The state of the scan: `src`, `goal` and `deepest_meta`. -/
structure DeepestScan where
  src : Nat
  goal : Nat
  deepestMeta : List Nat
deriving DecidableEq, Repr

section Scan

variable (legal : BitVec 64 → BitVec 64 → Nat → Nat)

/-- One slot of the loop of `update_goal_and_deepest_for_a_single_bucket`. -/
def scanElem (leaf : BitVec 64) (metaLen bucketNum : Nat) (st : DeepestScan) (elem : Meta) :
    DeepestScan :=
  let elemDestination := legal elem.leafNum leaf metaLen
  let isElemDeeper :=
    decide (elemDestination < st.goal) && decide (elemDestination < bucketNum) && !elem.isVacant
  { st with
    goal := if isElemDeeper then elemDestination else st.goal
    src := if isElemDeeper then bucketNum else st.src }

/-- The `cmov` of `src` into `deepest_meta[bucket_num]` at the start of a bucket. -/
def takeSrcForDeepest (st : DeepestScan) (bucketNum : Nat) : DeepestScan :=
  let shouldTakeSrcForDeepest := !decide (bucketNum < st.goal)
  { st with
    deepestMeta :=
      if shouldTakeSrcForDeepest then st.deepestMeta.set bucketNum st.src else st.deepestMeta }

/-- `update_goal_and_deepest_for_a_single_bucket`. -/
def updateGoalAndDeepestForASingleBucket (st : DeepestScan) (bucketNum : Nat)
    (srcMeta : List Meta) (leaf : BitVec 64) (metaLen : Nat) : DeepestScan :=
  srcMeta.foldl (scanElem legal leaf metaLen bucketNum) (takeSrcForDeepest st bucketNum)

/-- `prepare_deepest`. -/
def prepareDeepest (stashMeta : List Meta) (branchMeta : List (List Meta)) (leaf : BitVec 64) :
    List Nat :=
  let metaLen := branchMeta.length
  let init : DeepestScan := ⟨floorIndex, floorIndex, List.replicate (metaLen + 1) floorIndex⟩
  let st := updateGoalAndDeepestForASingleBucket legal init metaLen
    stashMeta leaf metaLen
  ((List.range metaLen).reverse.foldl (fun st bucketNum =>
    updateGoalAndDeepestForASingleBucket legal st bucketNum
      (branchMeta.getD bucketNum []) leaf metaLen) st).deepestMeta

end Scan

section RunningMin

/-! Both the scan and the reference of the tests keep a running minimum of a legal
index over slots, with the level it was last lowered at. -/

/-- `goal`: least `d` over the slots `C` admits; `src`: greatest level holding it; or floors. -/
def Best (d : Meta → Nat) (C : Nat → Meta → Prop) (goal src : Nat) : Prop :=
  (∀ s x, C s x → goal ≤ d x ∧ (d x = goal → s ≤ src)) ∧
  (goal = floorIndex ∧ src = floorIndex ∨ ∃ x, C src x ∧ d x = goal)

variable {σ : Type} (goal src : σ → Nat) (step : σ → Meta → σ) (d : Meta → Nat)
  (P : Meta → Prop) (b : Nat)

/-- A fold over level `b` that lowers `goal` to `d x` and moves `src` to `b` on a new minimum. -/
theorem foldl_runningMin
    (hlower : ∀ st x, P x → d x < goal st → goal (step st x) = d x ∧ src (step st x) = b)
    (hkeep : ∀ st x, ¬(P x ∧ d x < goal st) → step st x = st) (l : List Meta) (st : σ) :
    goal (l.foldl step st) ≤ goal st ∧ (∀ x ∈ l, P x → goal (l.foldl step st) ≤ d x) ∧
    (goal (l.foldl step st) = goal st ∧ src (l.foldl step st) = src st ∨
      src (l.foldl step st) = b ∧ goal (l.foldl step st) < goal st ∧
        ∃ x ∈ l, P x ∧ d x = goal (l.foldl step st)) := by
  induction l generalizing st with
  | nil => simp
  | cons x xs ih =>
    simp only [List.foldl_cons, List.mem_cons, forall_eq_or_imp, exists_eq_or_imp]
    by_cases hx : P x ∧ d x < goal st
    · obtain ⟨hg, hs⟩ := hlower st x hx.1 hx.2
      obtain ⟨hle, hmin, hlast⟩ := ih (step st x)
      rw [hg, hs] at hlast
      rw [hg] at hle
      refine ⟨Nat.le_trans hle (Nat.le_of_lt hx.2), ⟨fun _ => hle, hmin⟩, Or.inr ?_⟩
      rcases hlast with ⟨hg', hs'⟩ | ⟨hs', hg', hy⟩
      · exact ⟨hs', hg' ▸ hx.2, Or.inl ⟨hx.1, hg'.symm⟩⟩
      · exact ⟨hs', Nat.lt_trans hg' hx.2, Or.inr hy⟩
    · rw [hkeep st x hx]
      obtain ⟨hle, hmin, hlast⟩ := ih st
      refine ⟨hle, ⟨fun hp => Nat.le_trans hle (Nat.le_of_not_lt fun hg => hx ⟨hp, hg⟩), hmin⟩, ?_⟩
      rcases hlast with h | ⟨hs, hg, hy⟩
      · exact Or.inl h
      · exact Or.inr ⟨hs, hg, Or.inr hy⟩

variable {d P}

/-- Reading a level `k` below every level `C` admits extends the best over `C` by its slots. -/
theorem best_level {C C' : Nat → Meta → Prop} {L : List Meta} {k g s g' s' : Nat}
    (hk : k < floorIndex) (hC : ∀ t x, C t x → k < t)
    (hC' : ∀ t x, C' t x ↔ C t x ∨ t = k ∧ x ∈ L ∧ P x) (hgs : Best d C g s) (hle : g' ≤ g)
    (hmin : ∀ x ∈ L, P x → g' ≤ d x)
    (hlast : g' = g ∧ s' = s ∨ s' = k ∧ g' < g ∧ ∃ x ∈ L, P x ∧ d x = g') :
    Best d C' g' s' := by
  have hks : k ≤ s := by
    rcases hgs.2 with ⟨-, rfl⟩ | ⟨x, hx, -⟩
    · exact Nat.le_of_lt hk
    · exact Nat.le_of_lt (hC _ _ hx)
  refine ⟨fun t y hy => ?_, ?_⟩
  · rcases (hC' t y).1 hy with hy | ⟨rfl, hyL, hyP⟩
    · obtain ⟨hgy, htie⟩ := hgs.1 t y hy
      refine ⟨Nat.le_trans hle hgy, fun he => ?_⟩
      rcases hlast with ⟨rfl, rfl⟩ | ⟨-, hlt, -⟩
      · exact htie he
      · omega
    · refine ⟨hmin y hyL hyP, fun _ => ?_⟩
      rcases hlast with ⟨-, rfl⟩ | ⟨rfl, -⟩
      · exact hks
      · exact Nat.le_refl _
  · rcases hlast with ⟨rfl, rfl⟩ | ⟨rfl, -, x, hxL, hxP, he⟩
    · rcases hgs.2 with h | ⟨x, hx, he⟩
      · exact Or.inl h
      · exact Or.inr ⟨x, (hC' _ _).2 (Or.inl hx), he⟩
    · exact Or.inr ⟨x, (hC' _ _).2 (Or.inr ⟨rfl, hxL, hxP⟩), he⟩

end RunningMin

section Spec

variable (legal : BitVec 64 → BitVec 64 → Nat → Nat)
  (stashMeta : List Meta) (branchMeta : List (List Meta)) (leaf : BitVec 64)

/-- `d(x)`: the lowest level of the branch slot `x` may legally occupy. -/
def legalIndex (x : Meta) : Nat :=
  legal x.leafNum leaf branchMeta.length

/-- `x` is a non-vacant slot of level `s`. -/
def Holds (s : Nat) (x : Meta) : Prop :=
  x ∈ levelMeta stashMeta branchMeta s ∧ x.isVacant = false

/-- Some non-vacant slot above level `i` may legally sit at level `i` or below. -/
def CanDescend (i : Nat) : Prop :=
  ∃ s x, i < s ∧ Holds stashMeta branchMeta s x ∧
    legalIndex legal branchMeta leaf x ≤ i

/-- `v` is the greatest level above `i` holding a non-vacant slot whose legal index is
the least among the non-vacant slots above `i`. -/
def DeepestSource (i v : Nat) : Prop :=
  i < v ∧ v ≤ branchMeta.length ∧ ∃ x, Holds stashMeta branchMeta v x ∧
    ∀ s y, i < s → Holds stashMeta branchMeta s y →
      legalIndex legal branchMeta leaf x ≤
          legalIndex legal branchMeta leaf y ∧
        (legalIndex legal branchMeta leaf y =
          legalIndex legal branchMeta leaf x → s ≤ v)

/-- What `deepest[i]` should hold. -/
def DeepestSpec (i v : Nat) : Prop :=
  (CanDescend legal stashMeta branchMeta leaf i →
    DeepestSource legal stashMeta branchMeta leaf i v) ∧
  (¬CanDescend legal stashMeta branchMeta leaf i → v = floorIndex)

/-- A slot the scan may pick after reading level `s ≥ k`: non-vacant and legal below `s`. -/
def Candidate (k s : Nat) (x : Meta) : Prop :=
  k ≤ s ∧ Holds stashMeta branchMeta s x ∧ legalIndex legal branchMeta leaf x < s

/-- `goal` and `src` are the best over the candidates of levels `≥ k`. -/
def GoalSrc (k goal src : Nat) : Prop :=
  Best (legalIndex legal branchMeta leaf) (Candidate legal stashMeta branchMeta leaf k) goal src

/-- The scan after it has read levels `n, n - 1, …, k`. -/
structure DeepestInv (k : Nat) (st : DeepestScan) : Prop where
  length : st.deepestMeta.length = branchMeta.length + 1
  goalSrc : GoalSrc legal stashMeta branchMeta leaf k st.goal st.src
  done : ∀ i, k ≤ i → i ≤ branchMeta.length →
    DeepestSpec legal stashMeta branchMeta leaf i (st.deepestMeta.getD i floorIndex)
  fresh : ∀ i, i < k → st.deepestMeta.getD i floorIndex = floorIndex

end Spec

section Fold

variable {legal : BitVec 64 → BitVec 64 → Nat → Nat} {leaf : BitVec 64} {metaLen b : Nat}

theorem scanElem_of_deeper (st : DeepestScan) (x : Meta)
    (hx : x.isVacant = false ∧ legal x.leafNum leaf metaLen < b)
    (hg : legal x.leafNum leaf metaLen < st.goal) :
    (scanElem legal leaf metaLen b st x).goal = legal x.leafNum leaf metaLen ∧
      (scanElem legal leaf metaLen b st x).src = b := by
  simp [scanElem, hx.1, hx.2, hg]

theorem scanElem_of_not_deeper (st : DeepestScan) (x : Meta)
    (h : ¬((x.isVacant = false ∧ legal x.leafNum leaf metaLen < b) ∧
      legal x.leafNum leaf metaLen < st.goal)) :
    scanElem legal leaf metaLen b st x = st := by
  have : ¬(decide (legal x.leafNum leaf metaLen < st.goal) &&
      decide (legal x.leafNum leaf metaLen < b) && !x.isVacant) = true := fun hc => by
    simp only [Bool.and_eq_true, decide_eq_true_eq, Bool.not_eq_true'] at hc
    exact h ⟨⟨hc.2, hc.1.2⟩, hc.1.1⟩
  simp only [scanElem, if_neg this]

theorem foldl_scanElem_deepestMeta (l : List Meta) (st : DeepestScan) :
    (l.foldl (scanElem legal leaf metaLen b) st).deepestMeta = st.deepestMeta := by
  induction l generalizing st with
  | nil => rfl
  | cons x xs ih => exact ih _

end Fold

section Invariant

variable {legal : BitVec 64 → BitVec 64 → Nat → Nat} {stashMeta : List Meta}
  {branchMeta : List (List Meta)} {leaf : BitVec 64}

theorem holds_le_length {s : Nat} {x : Meta} (h : Holds stashMeta branchMeta s x) :
    s ≤ branchMeta.length :=
  le_length_of_mem_levelMeta h.1

/-- The candidates of levels `≥ k` are those of levels `≥ k + 1` and those of level `k`. -/
theorem candidate_iff {k t : Nat} {x : Meta} :
    Candidate legal stashMeta branchMeta leaf k t x ↔
      Candidate legal stashMeta branchMeta leaf (k + 1) t x ∨
        t = k ∧ x ∈ levelMeta stashMeta branchMeta k ∧
          (x.isVacant = false ∧ legalIndex legal branchMeta leaf x < k) := by
  constructor
  · rintro ⟨hkt, ⟨hx, hv⟩, hd⟩
    rcases Nat.eq_or_lt_of_le hkt with rfl | hkt
    · exact Or.inr ⟨rfl, hx, hv, hd⟩
    · exact Or.inl ⟨hkt, ⟨hx, hv⟩, hd⟩
  · rintro (⟨hkt, hx, hd⟩ | ⟨rfl, hx, hv, hd⟩)
    · exact ⟨Nat.le_of_succ_le hkt, hx, hd⟩
    · exact ⟨Nat.le_refl _, ⟨hx, hv⟩, hd⟩

/-- The value stored into `deepest[i]` before level `i` is read meets the spec. -/
theorem deepestSpec_of_goalSrc {i g s : Nat} (hi : i < floorIndex)
    (hgs : GoalSrc legal stashMeta branchMeta leaf (i + 1) g s) :
    DeepestSpec legal stashMeta branchMeta leaf i (if g ≤ i then s else floorIndex) := by
  refine ⟨fun ⟨t, y, hit, hy, hyi⟩ => ?_, fun hno => ?_⟩
  · have hgi : g ≤ i := Nat.le_trans (hgs.1 t y ⟨hit, hy, by omega⟩).1 hyi
    rcases hgs.2 with ⟨rfl, -⟩ | ⟨x, ⟨hsx, hx, hxs⟩, hxg⟩
    · exact absurd hgi (Nat.not_le_of_lt hi)
    rw [if_pos hgi]
    refine ⟨hsx, holds_le_length hx, x, hx, fun t' y' ht' hy' => ?_⟩
    by_cases hyt : legalIndex legal branchMeta leaf y' < t'
    · obtain ⟨h1, h2⟩ := hgs.1 t' y' ⟨ht', hy', hyt⟩
      exact ⟨hxg ▸ h1, fun he => h2 (he.trans hxg)⟩
    · omega
  · rw [if_neg]
    intro hgi
    rcases hgs.2 with ⟨rfl, -⟩ | ⟨x, ⟨hsx, hx, -⟩, hxg⟩
    · exact Nat.not_le_of_lt hi hgi
    · exact hno ⟨s, x, hsx, hx, hxg ▸ hgi⟩

@[simp] theorem takeSrcForDeepest_goal (st : DeepestScan) (k : Nat) :
    (takeSrcForDeepest st k).goal = st.goal := rfl

@[simp] theorem takeSrcForDeepest_src (st : DeepestScan) (k : Nat) :
    (takeSrcForDeepest st k).src = st.src := rfl

@[simp] theorem takeSrcForDeepest_length (st : DeepestScan) (k : Nat) :
    (takeSrcForDeepest st k).deepestMeta.length = st.deepestMeta.length := by
  simp only [takeSrcForDeepest]
  split <;> simp

theorem takeSrcForDeepest_getD_ne (st : DeepestScan) {k i : Nat} (h : i ≠ k) :
    (takeSrcForDeepest st k).deepestMeta.getD i floorIndex = st.deepestMeta.getD i floorIndex := by
  simp only [takeSrcForDeepest]
  split
  · exact getD_set_ne _ _ _ (Ne.symm h)
  · rfl

theorem takeSrcForDeepest_getD_self (st : DeepestScan) {k : Nat} (hk : k < st.deepestMeta.length)
    (hfresh : st.deepestMeta.getD k floorIndex = floorIndex) :
    (takeSrcForDeepest st k).deepestMeta.getD k floorIndex =
      if st.goal ≤ k then st.src else floorIndex := by
  by_cases hg : st.goal ≤ k
  · simp [takeSrcForDeepest, Nat.not_lt.mpr hg, getD_set, hk, hg]
  · simpa [takeSrcForDeepest, Nat.lt_of_not_le hg, hg] using hfresh

/-- The step lemma: reading level `k` keeps the invariant. -/
theorem deepestInv_level {k : Nat} {st : DeepestScan} (hn : branchMeta.length < floorIndex)
    (hk : k ≤ branchMeta.length) (hinv : DeepestInv legal stashMeta branchMeta leaf (k + 1) st) :
    DeepestInv legal stashMeta branchMeta leaf k
      (updateGoalAndDeepestForASingleBucket legal st k (levelMeta stashMeta branchMeta k) leaf
        branchMeta.length) := by
  have hkf := Nat.lt_of_le_of_lt hk hn
  obtain ⟨hle, hmin, hlast⟩ := foldl_runningMin DeepestScan.goal DeepestScan.src
    (scanElem legal leaf branchMeta.length k) (legalIndex legal branchMeta leaf) _ k
    scanElem_of_deeper scanElem_of_not_deeper (levelMeta stashMeta branchMeta k)
    (takeSrcForDeepest st k)
  simp only [takeSrcForDeepest_goal, takeSrcForDeepest_src] at hle hlast
  refine ⟨?_, best_level hkf (fun _ _ h => h.1) (fun _ _ => candidate_iff) hinv.goalSrc hle hmin
    hlast, fun i hki hin => ?_, fun i hik => ?_⟩
  · rw [updateGoalAndDeepestForASingleBucket, foldl_scanElem_deepestMeta, takeSrcForDeepest_length, hinv.length]
  · rw [updateGoalAndDeepestForASingleBucket, foldl_scanElem_deepestMeta]
    rcases Nat.eq_or_lt_of_le hki with rfl | hki
    · rw [takeSrcForDeepest_getD_self _ (by rw [hinv.length]; omega)
        (hinv.fresh k (Nat.lt_succ_self k))]
      exact deepestSpec_of_goalSrc hkf hinv.goalSrc
    · rw [takeSrcForDeepest_getD_ne _ (Nat.ne_of_gt hki)]
      exact hinv.done i hki hin
  · rw [updateGoalAndDeepestForASingleBucket, foldl_scanElem_deepestMeta, takeSrcForDeepest_getD_ne _ (Nat.ne_of_lt hik)]
    exact hinv.fresh i (Nat.lt_succ_of_lt hik)

theorem deepestInv_init (legal : BitVec 64 → BitVec 64 → Nat → Nat) (stashMeta : List Meta)
    (branchMeta : List (List Meta)) (leaf : BitVec 64) :
    DeepestInv legal stashMeta branchMeta leaf (branchMeta.length + 1)
      ⟨floorIndex, floorIndex, List.replicate (branchMeta.length + 1) floorIndex⟩ :=
  ⟨List.length_replicate _ _,
    ⟨fun _ _ ⟨hs, hx, _⟩ => absurd (holds_le_length hx) (by omega), Or.inl ⟨rfl, rfl⟩⟩,
    fun _ hi hin => absurd hin (by omega), fun _ _ => getD_replicate_self _ _ _⟩

/-- The run lemma: reading buckets `k - 1, …, 0` keeps the invariant down to level `0`. -/
theorem deepestInv_scan (hn : branchMeta.length < floorIndex) :
    ∀ k st, k ≤ branchMeta.length → DeepestInv legal stashMeta branchMeta leaf k st →
      DeepestInv legal stashMeta branchMeta leaf 0 ((List.range k).reverse.foldl
        (fun st bucketNum => updateGoalAndDeepestForASingleBucket legal st bucketNum
          (branchMeta.getD bucketNum []) leaf branchMeta.length) st)
  | 0, _, _, hinv => hinv
  | k + 1, st, hk, hinv => by
    simp only [List.range_succ, List.reverse_append, List.reverse_cons, List.reverse_nil,
      List.nil_append, List.cons_append, List.foldl_cons]
    rw [← levelMeta_of_lt stashMeta (Nat.lt_of_succ_le hk)]
    exact deepestInv_scan hn k _ (Nat.le_of_succ_le hk) (deepestInv_level hn (Nat.le_of_succ_le hk) hinv)

end Invariant

section Result

variable {legal : BitVec 64 → BitVec 64 → Nat → Nat} {stashMeta : List Meta}
  {branchMeta : List (List Meta)} {leaf : BitVec 64}

/-- The whole scan: the stash, then buckets `n - 1, …, 0`. -/
theorem deepestInv_prepareDeepest (hn : branchMeta.length < floorIndex) :
    ∃ st, prepareDeepest legal stashMeta branchMeta leaf = st.deepestMeta ∧
      DeepestInv legal stashMeta branchMeta leaf 0 st := by
  have hstash := deepestInv_level hn (Nat.le_refl _)
    (deepestInv_init legal stashMeta branchMeta leaf)
  rw [levelMeta_length] at hstash
  exact ⟨_, rfl, deepestInv_scan hn _ _ (Nat.le_refl _) hstash⟩

theorem prepareDeepest_length (hn : branchMeta.length < floorIndex) :
    (prepareDeepest legal stashMeta branchMeta leaf).length = branchMeta.length + 1 := by
  obtain ⟨st, e, hinv⟩ := deepestInv_prepareDeepest hn
  rw [e, hinv.length]

theorem prepareDeepest_getD (hn : branchMeta.length < floorIndex) {i : Nat}
    (hi : i ≤ branchMeta.length) : DeepestSpec legal stashMeta branchMeta leaf i
      ((prepareDeepest legal stashMeta branchMeta leaf).getD i floorIndex) := by
  obtain ⟨st, e, hinv⟩ := deepestInv_prepareDeepest hn
  rw [e]
  exact hinv.done i (Nat.zero_le i) hi

/-- The spec fixes each entry: there is one array that meets it. -/
theorem deepestSpec_unique {i v v' : Nat} (h : DeepestSpec legal stashMeta branchMeta leaf i v)
    (h' : DeepestSpec legal stashMeta branchMeta leaf i v') : v = v' := by
  by_cases hc : CanDescend legal stashMeta branchMeta leaf i
  · obtain ⟨hiv, -, x, hx, hxmin⟩ := h.1 hc
    obtain ⟨hiv', -, x', hx', hxmin'⟩ := h'.1 hc
    obtain ⟨h1, h2⟩ := hxmin v' x' hiv' hx'
    obtain ⟨h1', h2'⟩ := hxmin' v x hiv hx
    exact Nat.le_antisymm (h2' (Nat.le_antisymm h1 h1')) (h2 (Nat.le_antisymm h1' h1))
  · rw [h.2 hc, h'.2 hc]

/-- The level `deepest[i]` names holds a non-vacant slot that may legally sit at `i`. -/
theorem exists_holds_of_deepestSpec {i v : Nat}
    (h : DeepestSpec legal stashMeta branchMeta leaf i v) (hv : v ≠ floorIndex) :
    ∃ x, Holds stashMeta branchMeta v x ∧ legalIndex legal branchMeta leaf x ≤ i := by
  have hc : CanDescend legal stashMeta branchMeta leaf i :=
    Classical.byContradiction fun hc => hv (h.2 hc)
  obtain ⟨-, -, x, hx, hmin⟩ := h.1 hc
  obtain ⟨s, y, hs, hy, hyi⟩ := hc
  exact ⟨x, hx, Nat.le_trans (hmin s y hs hy).1 hyi⟩

end Result

/-- `prepare_deepest` returns one entry per level and the stash, and `deepest[i]` is the
greatest level above `i` holding a non-vacant slot of least legal index, when that index
is at most `i`, and `FLOOR_INDEX` otherwise. -/
theorem prepareDeepest_spec (legal : BitVec 64 → BitVec 64 → Nat → Nat) (stashMeta : List Meta)
    (branchMeta : List (List Meta)) (leaf : BitVec 64) (hn : branchMeta.length < floorIndex) :
    (prepareDeepest legal stashMeta branchMeta leaf).length = branchMeta.length + 1 ∧
    ∀ i ≤ branchMeta.length, DeepestSpec legal stashMeta branchMeta leaf i
      ((prepareDeepest legal stashMeta branchMeta leaf).getD i floorIndex) :=
  ⟨prepareDeepest_length hn, fun _ hi => prepareDeepest_getD hn hi⟩

theorem prepareDeepest_spec_one_bucket :
    (prepareDeepest (fun _ _ _ => 0) [⟨5, false⟩] [[⟨4, true⟩]] 2).length = 1 + 1 ∧
    ∀ i ≤ 1, DeepestSpec (fun _ _ _ => 0) [⟨5, false⟩] [[⟨4, true⟩]] 2 i
      ((prepareDeepest (fun _ _ _ => 0) [⟨5, false⟩] [[⟨4, true⟩]] 2).getD i floorIndex) :=
  prepareDeepest_spec _ _ _ _ (by decide)

end OramEvictor
