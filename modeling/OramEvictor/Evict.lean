import OramEvictor.Plan
import Mathlib.Data.List.Forall2

/-!
# Carrying out the plan on blocks

`prepare_target` prepares the plan so that, when `target[i]` is not `FLOOR_INDEX`, one
block is moved from `path[i]` to `path[target[i]]`; the crate stops there. `evictPass`
carries a plan out on the slots of the stash and the branch, as `runPass` does on
destinations alone: from the stash down to the leaf it sets aside the held block at its
destination, picks up the deepest block of each level the plan moves one out of, and
writes the set-aside block into a vacant slot. Conservation holds for every plan; the rest
follows from refining `runPass`.
-/

namespace OramEvictor

/-- The slot a block leaves behind. -/
def vacantMeta : Meta := ⟨0, true⟩

/-- The blocks of a level: its non-vacant slots. -/
def blocks (slots : List Meta) : List Meta := slots.filter fun x => !x.isVacant

/-- The deepest block of a level: the first non-vacant slot of least legal index `d`. -/
def deepestBlock (d : Meta → Nat) : List Meta → Option Meta
  | [] => none
  | x :: xs =>
    if x.isVacant then deepestBlock d xs
    else some ((deepestBlock d xs).elim x fun y => if d y < d x then y else x)

/-- The first slot holding `x` becomes vacant. -/
def vacate (x : Meta) : List Meta → List Meta
  | [] => []
  | y :: ys => if y = x then vacantMeta :: ys else y :: vacate x ys

/-- `x` written into the first vacant slot; `none` when no slot is vacant. -/
def fill (x : Meta) : List Meta → Option (List Meta)
  | [] => none
  | y :: ys => if y.isVacant then some (x :: ys) else (fill x ys).map (y :: ·)

/-- At level `i`: the held block, if `i` is its destination, and what is still held. -/
def setAside : Option (Meta × Nat) → Nat → Option Meta × Option (Meta × Nat)
  | some (x, t), i => if t = i then (some x, none) else (none, some (x, t))
  | none, _ => (none, none)

/-- The deepest block of `i`, picked up when the plan moves one out and nothing is held. -/
def pickUp (d : Meta → Nat) (targetMeta : List Nat) (slots : List Meta)
    (held : Option (Meta × Nat)) (i : Nat) : Option (List Meta × Option (Meta × Nat)) :=
  if targetMeta.getD i floorIndex = floorIndex then some (slots, held)
  else if held.isSome then none
  else (deepestBlock d slots).map fun x => (vacate x slots, some (x, targetMeta.getD i floorIndex))

/-- The set-aside block, if any, written into a vacant slot. -/
def writeDown : Option Meta → List Meta → Option (List Meta)
  | some x, slots => fill x slots
  | none, slots => some slots

/-- One level `i` of the block pass: its new slots and the block carried on. -/
def evictLevel (d : Meta → Nat) (targetMeta : List Nat) (slots : List Meta)
    (hold : Option (Meta × Nat)) (i : Nat) : Option (List Meta × Option (Meta × Nat)) :=
  (pickUp d targetMeta slots (setAside hold i).2 i).bind fun p =>
    (writeDown (setAside hold i).1 p.1).map (·, p.2)

/-- Level `i` of the pass, after the new slots of the levels above it. -/
def evictStep (d : Meta → Nat) (stashMeta : List Meta) (branchMeta : List (List Meta))
    (targetMeta : List Nat) (st : List (List Meta) × Option (Meta × Nat)) (i : Nat) :
    Option (List (List Meta) × Option (Meta × Nat)) :=
  (evictLevel d targetMeta (levelMeta stashMeta branchMeta i) st.2 i).map
    fun r => (r.1 :: st.1, r.2)

/-- The block pass from the stash down to the leaf: every level's new slots, leaf first. -/
def evictPass (d : Meta → Nat) (stashMeta : List Meta) (branchMeta : List (List Meta))
    (targetMeta : List Nat) : Option (List (List Meta) × Option (Meta × Nat)) :=
  (List.range (branchMeta.length + 1)).reverse.foldlM
    (evictStep d stashMeta branchMeta targetMeta) ([], none)

/-- The blocks a pass carries. -/
def carried (hold : Option (Meta × Nat)) : List Meta := blocks (hold.map Prod.fst).toList

@[simp] theorem blocks_nil : blocks [] = [] := rfl

section Deepest

variable (d : Meta → Nat)

theorem exists_deepestBlock {slots : List Meta} {y : Meta} (hy : y ∈ slots)
    (hyv : y.isVacant = false) : ∃ x, deepestBlock d slots = some x := by
  induction slots with
  | nil => cases hy
  | cons z zs ih =>
    by_cases hz : z.isVacant = true
    · rw [deepestBlock, if_pos hz]
      exact ih ((List.mem_cons.1 hy).resolve_left fun e => by rw [e, hz] at hyv; cases hyv)
    · rw [deepestBlock, if_neg hz]
      exact ⟨_, rfl⟩

/-- The deepest block is a non-vacant slot of least legal index. -/
theorem deepestBlock_spec {slots : List Meta} {x : Meta} (h : deepestBlock d slots = some x) :
    x ∈ slots ∧ x.isVacant = false ∧ ∀ y ∈ slots, y.isVacant = false → d x ≤ d y := by
  induction slots generalizing x with
  | nil => cases h
  | cons z zs ih =>
    by_cases hz : z.isVacant = true
    · rw [deepestBlock, if_pos hz] at h
      obtain ⟨h1, h2, h3⟩ := ih h
      refine ⟨List.mem_cons_of_mem _ h1, h2, fun y hy hyv => ?_⟩
      exact h3 y ((List.mem_cons.1 hy).resolve_left fun e => by rw [e, hz] at hyv; cases hyv) hyv
    · rw [deepestBlock, if_neg hz, Option.some.injEq] at h
      subst h
      cases hw : deepestBlock d zs with
      | none =>
        refine ⟨List.mem_cons_self _ _, by simpa using hz, fun y hy hyv => ?_⟩
        rcases List.mem_cons.1 hy with rfl | hy
        · exact Nat.le_refl _
        · obtain ⟨w, hw'⟩ := exists_deepestBlock d hy hyv
          rw [hw] at hw'
          cases hw'
      | some w =>
        obtain ⟨hw1, hw2, hw3⟩ := ih hw
        simp only [Option.elim]
        split_ifs with hlt
        · refine ⟨List.mem_cons_of_mem _ hw1, hw2, fun y hy hyv => ?_⟩
          rcases List.mem_cons.1 hy with rfl | hy
          exacts [Nat.le_of_lt hlt, hw3 y hy hyv]
        · refine ⟨List.mem_cons_self _ _, by simpa using hz, fun y hy hyv => ?_⟩
          rcases List.mem_cons.1 hy with rfl | hy
          exacts [Nat.le_refl _, Nat.le_trans (Nat.le_of_not_lt hlt) (hw3 y hy hyv)]

end Deepest

section Slots

variable {x : Meta}

@[simp] theorem length_vacate (slots : List Meta) : (vacate x slots).length = slots.length := by
  induction slots with
  | nil => rfl
  | cons y ys ih =>
    rw [vacate]
    split_ifs <;> simp [ih]

/-- Giving up `x` takes exactly `x` out of the blocks. -/
theorem blocks_vacate_perm (hxv : x.isVacant = false) :
    ∀ {slots : List Meta}, x ∈ slots → (blocks (vacate x slots) ++ [x]).Perm (blocks slots)
  | y :: ys, hx => by
    by_cases hyx : y = x
    · subst hyx
      simp only [vacate, if_true, blocks, List.filter_cons, vacantMeta, hxv]
      exact List.perm_append_singleton _ _
    · have ih := blocks_vacate_perm hxv ((List.mem_cons.1 hx).resolve_left (Ne.symm hyx))
      simp only [vacate, if_neg hyx, blocks, List.filter_cons] at ih ⊢
      split
      · exact ih.cons y
      · exact ih

theorem exists_vacant_vacate : ∀ {slots : List Meta}, x ∈ slots →
    ∃ m ∈ vacate x slots, m.isVacant = true
  | y :: ys, hx => by
    by_cases hyx : y = x
    · rw [vacate, if_pos hyx]
      exact ⟨vacantMeta, List.mem_cons_self _ _, rfl⟩
    · obtain ⟨m, hm, hmv⟩ :=
        exists_vacant_vacate ((List.mem_cons.1 hx).resolve_left (Ne.symm hyx))
      rw [vacate, if_neg hyx]
      exact ⟨m, List.mem_cons_of_mem _ hm, hmv⟩

theorem exists_fill {slots : List Meta} (h : ∃ m ∈ slots, m.isVacant = true) :
    ∃ slots', fill x slots = some slots' := by
  obtain ⟨m, hm, hmv⟩ := h
  induction slots with
  | nil => cases hm
  | cons y ys ih =>
    by_cases hy : y.isVacant = true
    · exact ⟨_, by rw [fill, if_pos hy]⟩
    · obtain ⟨s, hs⟩ := ih ((List.mem_cons.1 hm).resolve_left fun e => hy (e ▸ hmv))
      exact ⟨_, by rw [fill, if_neg hy, hs]; rfl⟩

/-- Filling a slot keeps the number of slots and adds `x` to the blocks. -/
theorem fill_spec : ∀ {slots slots' : List Meta}, fill x slots = some slots' →
    slots'.length = slots.length ∧ (blocks slots').Perm (blocks [x] ++ blocks slots)
  | y :: ys, slots', h => by
    by_cases hy : y.isVacant = true
    · rw [fill, if_pos hy, Option.some.injEq] at h
      subst h
      refine ⟨rfl, ?_⟩
      cases hx : x.isVacant <;> simp [blocks, List.filter_cons, hy, hx]
    · rw [fill, if_neg hy] at h
      obtain ⟨s, hs, rfl⟩ := Option.map_eq_some'.1 h
      obtain ⟨hlen, hperm⟩ := fill_spec hs
      refine ⟨by simp [hlen], ?_⟩
      simp only [blocks, List.filter_cons, hy, Bool.not_false, if_true] at hperm ⊢
      exact (hperm.cons y).trans List.perm_middle.symm

end Slots

/-- A held block may legally sit at its destination. -/
def HeldOk (d : Meta → Nat) (hold : Option (Meta × Nat)) : Prop :=
  ∀ x t, hold = some (x, t) → d x ≤ t

section Level

variable {d : Meta → Nat} {targetMeta : List Nat} {slots : List Meta} {i : Nat}

theorem setAside_eq (hold : Option (Meta × Nat)) (i : Nat) :
    setAside hold i =
      if hold.map Prod.snd = some i then (hold.map Prod.fst, none) else (none, hold) := by
  rcases hold with _ | ⟨x, t⟩
  · rfl
  · by_cases ht : t = i <;> simp [setAside, ht]

theorem setAside_perm (hold : Option (Meta × Nat)) (i : Nat) :
    (blocks (setAside hold i).1.toList ++ carried (setAside hold i).2).Perm (carried hold) := by
  rw [setAside_eq]
  split <;> simp [carried, blocks]

/-- A step picks up nothing, or, holding nothing, the deepest block of the level. -/
theorem pickUp_eq_some {held : Option (Meta × Nat)} {p : List Meta × Option (Meta × Nat)}
    (h : pickUp d targetMeta slots held i = some p) :
    targetMeta.getD i floorIndex = floorIndex ∧ p = (slots, held) ∨
      targetMeta.getD i floorIndex ≠ floorIndex ∧ held = none ∧ ∃ x, deepestBlock d slots = some x ∧
        p = (vacate x slots, some (x, targetMeta.getD i floorIndex)) := by
  unfold pickUp at h
  split_ifs at h with h1 h2
  · exact Or.inl ⟨h1, (Option.some.inj h).symm⟩
  · obtain ⟨x, hx, rfl⟩ := Option.map_eq_some'.1 h
    exact Or.inr ⟨h1, Option.not_isSome_iff_eq_none.1 h2, x, hx, rfl⟩

theorem evictLevel_eq_some {hold : Option (Meta × Nat)} {r : List Meta × Option (Meta × Nat)}
    (h : evictLevel d targetMeta slots hold i = some r) :
    ∃ p, pickUp d targetMeta slots (setAside hold i).2 i = some p ∧
      writeDown (setAside hold i).1 p.1 = some r.1 ∧ r.2 = p.2 := by
  obtain ⟨p, hp, hw⟩ := Option.bind_eq_some.1 h
  obtain ⟨s, hs, rfl⟩ := Option.map_eq_some'.1 hw
  exact ⟨p, hp, hs, rfl⟩

theorem pickUp_perm {held : Option (Meta × Nat)} {p : List Meta × Option (Meta × Nat)}
    (h : pickUp d targetMeta slots held i = some p) :
    (blocks p.1 ++ carried p.2).Perm (blocks slots ++ carried held) := by
  rcases pickUp_eq_some h with ⟨-, rfl⟩ | ⟨-, rfl, x, hx, rfl⟩
  · exact List.Perm.refl _
  · obtain ⟨hxs, hxv, -⟩ := deepestBlock_spec d hx
    simpa [carried, blocks, hxv] using blocks_vacate_perm hxv hxs

theorem writeDown_spec {w : Option Meta} {slots' : List Meta}
    (h : writeDown w slots = some slots') :
    slots'.length = slots.length ∧ (blocks slots').Perm (blocks w.toList ++ blocks slots) := by
  rcases w with _ | x
  · cases h
    exact ⟨rfl, List.Perm.refl _⟩
  · exact fill_spec h

/-- A level of the pass loses and duplicates no block. -/
theorem evictLevel_perm {hold : Option (Meta × Nat)} {r : List Meta × Option (Meta × Nat)}
    (h : evictLevel d targetMeta slots hold i = some r) :
    (blocks r.1 ++ carried r.2).Perm (blocks slots ++ carried hold) := by
  obtain ⟨p, hp, hw, hr⟩ := evictLevel_eq_some h
  have h1 := List.perm_iff_count.1 (pickUp_perm hp)
  have h2 := List.perm_iff_count.1 (writeDown_spec hw).2
  have h3 := List.perm_iff_count.1 (setAside_perm hold i)
  rw [hr, List.perm_iff_count]
  intro a
  have := h1 a
  have := h2 a
  have := h3 a
  simp only [List.count_append] at *
  omega

theorem pickUp_of_floor (hp : targetMeta.getD i floorIndex = floorIndex)
    (held : Option (Meta × Nat)) : pickUp d targetMeta slots held i = some (slots, held) :=
  if_pos hp

theorem pickUp_of_pick {x : Meta} (hp : targetMeta.getD i floorIndex ≠ floorIndex)
    (hx : deepestBlock d slots = some x) :
    pickUp d targetMeta slots none i =
      some (vacate x slots, some (x, targetMeta.getD i floorIndex)) := by
  rw [pickUp, if_neg hp, if_neg (by simp), hx]
  rfl

theorem setAside_fst {hold : Option (Meta × Nat)} {x : Meta} (h : (setAside hold i).1 = some x) :
    hold = some (x, i) := by
  rcases hold with _ | ⟨y, t⟩
  · cases h
  · by_cases ht : t = i
    · simp only [setAside, if_pos ht, Option.some.injEq] at h
      rw [h, ht]
    · simp only [setAside, if_neg ht] at h
      cases h

theorem setAside_snd {hold : Option (Meta × Nat)} {x : Meta} {t : Nat}
    (h : (setAside hold i).2 = some (x, t)) : hold = some (x, t) := by
  rcases hold with _ | ⟨y, t'⟩
  · cases h
  · by_cases ht : t' = i
    · simp only [setAside, if_pos ht] at h
      cases h
    · simpa only [setAside, if_neg ht] using h

/-- A level keeps its slots; each block it ends with was there or was written here. -/
theorem evictLevel_renewed {hold : Option (Meta × Nat)} {r : List Meta × Option (Meta × Nat)}
    (hheld : HeldOk d hold) (h : evictLevel d targetMeta slots hold i = some r) :
    r.1.length = slots.length ∧ ∀ z ∈ blocks r.1, z ∈ slots ∨ d z ≤ i := by
  obtain ⟨p, hp, hw, -⟩ := evictLevel_eq_some h
  obtain ⟨hlen, hperm⟩ := writeDown_spec hw
  have hp1 : p.1.length = slots.length ∧ ∀ z ∈ blocks p.1, z ∈ slots := by
    rcases pickUp_eq_some hp with ⟨-, rfl⟩ | ⟨-, -, x, hx, rfl⟩
    · exact ⟨rfl, fun z hz => (List.mem_filter.1 hz).1⟩
    · obtain ⟨hxs, hxv, -⟩ := deepestBlock_spec d hx
      refine ⟨length_vacate _, fun z hz => ?_⟩
      exact (List.mem_filter.1 ((blocks_vacate_perm hxv hxs).subset
        (List.mem_append_left _ hz))).1
  refine ⟨hlen.trans hp1.1, fun z hz => ?_⟩
  rcases List.mem_append.1 (hperm.subset hz) with hz | hz
  · -- the block set aside here, whose destination is this level
    have hw' : (setAside hold i).1 = some z := by
      simpa using (List.mem_filter.1 hz).1
    exact Or.inr (hheld z i (setAside_fst hw'))
  · exact Or.inl (hp1.2 z hz)

/-- A picked-up block may legally sit at its destination when some block of the level may. -/
theorem evictLevel_heldOk {hold : Option (Meta × Nat)} {r : List Meta × Option (Meta × Nat)}
    (hheld : HeldOk d hold)
    (hpick : targetMeta.getD i floorIndex ≠ floorIndex →
      ∃ y ∈ slots, y.isVacant = false ∧ d y ≤ targetMeta.getD i floorIndex)
    (h : evictLevel d targetMeta slots hold i = some r) : HeldOk d r.2 := by
  obtain ⟨p, hp, -, hr⟩ := evictLevel_eq_some h
  intro x t hxt
  rw [hr] at hxt
  rcases pickUp_eq_some hp with ⟨-, rfl⟩ | ⟨hT, -, y, hy, rfl⟩
  · exact hheld x t (setAside_snd hxt)
  · simp only [Option.some.injEq, Prod.mk.injEq] at hxt
    obtain ⟨rfl, rfl⟩ := hxt
    obtain ⟨z, hz, hzv, hzt⟩ := hpick hT
    exact Nat.le_trans ((deepestBlock_spec d hy).2.2 z hz hzv) hzt

/-- Level by level the block pass refines `runPass`, given a block to pick up and the room. -/
theorem evictLevel_of_passLevel {branchMeta : List (List Meta)} {hold : Option (Meta × Nat)}
    {h' : Option Nat}
    (hroom : (∃ m ∈ branchMeta.getD i [], m.isVacant = true) → ∃ m ∈ slots, m.isVacant = true)
    (hpick : targetMeta.getD i floorIndex ≠ floorIndex → ∃ y ∈ slots, y.isVacant = false)
    (h : passLevel branchMeta targetMeta (hold.map Prod.snd) i = some h') :
    ∃ r, evictLevel d targetMeta slots hold i = some r ∧ r.2.map Prod.snd = h' := by
  simp only [passLevel] at h
  split_ifs at h with hw h2 h3 hp h5 h6 hp'
  · -- the held block lands here and the deepest block leaves
    obtain ⟨y, hy, hyv⟩ := hpick hp
    obtain ⟨x, hx⟩ := exists_deepestBlock d hy hyv
    obtain ⟨⟨w, t⟩, rfl, rfl⟩ := Option.map_eq_some'.1 hw
    obtain ⟨s', hs'⟩ := exists_fill (x := w) (exists_vacant_vacate (deepestBlock_spec d hx).1)
    refine ⟨(s', some (x, targetMeta.getD t floorIndex)), ?_, Option.some.inj h⟩
    rw [evictLevel, setAside_eq, if_pos hw, pickUp_of_pick hp hx]
    simp [writeDown, hs']
  · -- the held block lands here, in a vacant slot
    have hvac : ∃ m ∈ branchMeta.getD i [], m.isVacant = true :=
      Classical.byContradiction fun hv => h3 ⟨hw, fun hor => hor.elim hv hp⟩
    obtain ⟨⟨w, t⟩, rfl, rfl⟩ := Option.map_eq_some'.1 hw
    obtain ⟨s', hs'⟩ := exists_fill (x := w) (hroom hvac)
    refine ⟨(s', none), ?_, Option.some.inj h⟩
    rw [evictLevel, setAside_eq, if_pos hw, pickUp_of_floor (not_not.1 hp)]
    simp [writeDown, hs']
  · -- nothing is held, and the deepest block leaves
    have hnone : hold = none :=
      Classical.byContradiction fun hne => h5 ⟨hp', by simpa using hne⟩
    subst hnone
    obtain ⟨y, hy, hyv⟩ := hpick hp'
    obtain ⟨x, hx⟩ := exists_deepestBlock d hy hyv
    refine ⟨(vacate x slots, some (x, targetMeta.getD i floorIndex)), ?_, Option.some.inj h⟩
    rw [evictLevel, setAside_eq, if_neg hw, pickUp_of_pick hp' hx]
    rfl
  · -- the level is passed by
    refine ⟨(slots, hold), ?_, Option.some.inj h⟩
    rw [evictLevel, setAside_eq, if_neg hw, pickUp_of_floor (not_not.1 hp')]
    rfl

end Level

/-- Level `i`'s new slots: as many as before, each block an old one or one legal at `i`. -/
def Renewed (d : Meta → Nat) (stashMeta : List Meta) (branchMeta : List (List Meta)) (i : Nat)
    (slots : List Meta) : Prop :=
  slots.length = (levelMeta stashMeta branchMeta i).length ∧
    ∀ z ∈ blocks slots, z ∈ levelMeta stashMeta branchMeta i ∨ d z ≤ i

section Run

variable {d : Meta → Nat} {stashMeta : List Meta} {branchMeta : List (List Meta)}
  {targetMeta : List Nat}

theorem exists_vacant_levelMeta {i : Nat} (h : ∃ m ∈ branchMeta.getD i [], m.isVacant = true) :
    ∃ m ∈ levelMeta stashMeta branchMeta i, m.isVacant = true := by
  by_cases hi : i = branchMeta.length
  · rw [hi, List.getD_eq_default _ _ (Nat.le_refl _)] at h
    simp at h
  · rwa [levelMeta, if_neg hi]

/-- The run lemma of conservation, for every plan. -/
theorem evictFold_perm :
    ∀ (is : List Nat) (acc : List (List Meta)) (hold : Option (Meta × Nat))
      (r : List (List Meta) × Option (Meta × Nat)),
      is.foldlM (evictStep d stashMeta branchMeta targetMeta) (acc, hold) = some r →
      (r.1.flatMap blocks ++ carried r.2).Perm (acc.flatMap blocks ++
        is.flatMap (fun i => blocks (levelMeta stashMeta branchMeta i)) ++ carried hold)
  | [], acc, hold, r, h => by
    cases h
    simp
  | i :: is, acc, hold, r, h => by
    rw [List.foldlM_cons] at h
    obtain ⟨st, hst, hrest⟩ := Option.bind_eq_some.1 h
    obtain ⟨l, hl, rfl⟩ := Option.map_eq_some'.1 hst
    have ih := List.perm_iff_count.1 (evictFold_perm is _ _ r hrest)
    have hl' := List.perm_iff_count.1 (evictLevel_perm hl)
    rw [List.perm_iff_count]
    intro a
    have := ih a
    have := hl' a
    simp only [List.flatMap_cons, List.count_append] at *
    omega

/-- The run lemma of the path invariant: every level a pass has gone through is renewed. -/
theorem evictFold_renewed
    (hpick : ∀ i, targetMeta.getD i floorIndex ≠ floorIndex →
      ∃ y ∈ levelMeta stashMeta branchMeta i, y.isVacant = false ∧
        d y ≤ targetMeta.getD i floorIndex) :
    ∀ (is : List Nat) (acc : List (List Meta)) (idx : List Nat) (hold : Option (Meta × Nat))
      (r : List (List Meta) × Option (Meta × Nat)),
      List.Forall₂ (Renewed d stashMeta branchMeta) idx acc → HeldOk d hold →
      is.foldlM (evictStep d stashMeta branchMeta targetMeta) (acc, hold) = some r →
      List.Forall₂ (Renewed d stashMeta branchMeta) (is.reverse ++ idx) r.1
  | [], acc, idx, hold, r, hacc, _, h => by
    cases h
    exact hacc
  | i :: is, acc, idx, hold, r, hacc, hheld, h => by
    rw [List.foldlM_cons] at h
    obtain ⟨st, hst, hrest⟩ := Option.bind_eq_some.1 h
    obtain ⟨l, hl, rfl⟩ := Option.map_eq_some'.1 hst
    have := evictFold_renewed hpick is _ (i :: idx) l.2 r
      (List.Forall₂.cons (evictLevel_renewed hheld hl) hacc) (evictLevel_heldOk hheld (hpick i) hl)
      hrest
    rwa [List.reverse_cons, List.append_assoc]

/-- The run lemma of the refinement: where `runPass` ends holding nothing, so does this pass. -/
theorem evictFold_of_passFold
    (hpick : ∀ i, targetMeta.getD i floorIndex ≠ floorIndex →
      ∃ y ∈ levelMeta stashMeta branchMeta i, y.isVacant = false) :
    ∀ (is : List Nat) (acc : List (List Meta)) (hold : Option (Meta × Nat)),
      is.foldlM (passLevel branchMeta targetMeta) (hold.map Prod.snd) = some none →
      ∃ acc', is.foldlM (evictStep d stashMeta branchMeta targetMeta) (acc, hold) =
        some (acc', none)
  | [], acc, hold, h => by
    have hnone : hold = none := by simpa using h
    subst hnone
    exact ⟨acc, rfl⟩
  | i :: is, acc, hold, h => by
    rw [List.foldlM_cons] at h
    obtain ⟨h', hstep, hrest⟩ := Option.bind_eq_some.1 h
    obtain ⟨r, hr, hproj⟩ := evictLevel_of_passLevel (d := d) exists_vacant_levelMeta
      (hpick i) hstep
    rw [← hproj] at hrest
    obtain ⟨acc', hacc'⟩ := evictFold_of_passFold hpick is (r.1 :: acc) r.2 hrest
    refine ⟨acc', ?_⟩
    rw [List.foldlM_cons, evictStep, hr]
    exact hacc'

/-- The levels a pass goes through are put in front of those it started with. -/
theorem evictFold_suffix :
    ∀ (is : List Nat) (acc : List (List Meta)) (hold : Option (Meta × Nat))
      (r : List (List Meta) × Option (Meta × Nat)),
      is.foldlM (evictStep d stashMeta branchMeta targetMeta) (acc, hold) = some r →
      ∃ pre, pre.length = is.length ∧ r.1 = pre ++ acc
  | [], acc, hold, r, h => by
    cases h
    exact ⟨[], rfl, rfl⟩
  | i :: is, acc, hold, r, h => by
    rw [List.foldlM_cons] at h
    obtain ⟨st, hst, hrest⟩ := Option.bind_eq_some.1 h
    obtain ⟨l, -, rfl⟩ := Option.map_eq_some'.1 hst
    obtain ⟨pre, hlen, hpre⟩ := evictFold_suffix is _ _ r hrest
    exact ⟨pre ++ [l.1], by simp [hlen], by rw [hpre, List.append_assoc]; rfl⟩

/-- The stash, reached first, is left as it was or gives up its deepest block. -/
theorem evictPass_stash {levels : List (List Meta)} {hold : Option (Meta × Nat)}
    (h : evictPass d stashMeta branchMeta targetMeta = some (levels, hold)) :
    (targetMeta.getD branchMeta.length floorIndex = floorIndex →
      levels.getD branchMeta.length [] = stashMeta) ∧
    (targetMeta.getD branchMeta.length floorIndex ≠ floorIndex →
      (blocks (levels.getD branchMeta.length [])).length + 1 = (blocks stashMeta).length) := by
  rw [evictPass, List.range_succ, List.reverse_append, List.reverse_singleton,
    List.singleton_append, List.foldlM_cons] at h
  obtain ⟨st, hst, hrest⟩ := Option.bind_eq_some.1 h
  obtain ⟨l, hl, rfl⟩ := Option.map_eq_some'.1 hst
  obtain ⟨pre, hlen, hpre⟩ := evictFold_suffix _ _ _ _ hrest
  rw [List.length_reverse, List.length_range] at hlen
  have hnew : levels.getD branchMeta.length [] = l.1 := by
    rw [show levels = pre ++ [l.1] from hpre, List.getD_eq_getElem _ _ (by simp [hlen]), List.getElem_append_right (by omega)]
    simp [hlen]
  rw [levelMeta_length] at hl
  obtain ⟨p, hp, hw, -⟩ := evictLevel_eq_some hl
  have hl1 : l.1 = p.1 := (Option.some.inj hw).symm
  rw [hnew, hl1]
  rcases pickUp_eq_some hp with ⟨hF, rfl⟩ | ⟨hT, -, x, hx, rfl⟩
  · exact ⟨fun _ => rfl, fun h => absurd hF h⟩
  · obtain ⟨hxs, hxv, -⟩ := deepestBlock_spec d hx
    refine ⟨fun h => absurd h hT, fun _ => ?_⟩
    simpa using (blocks_vacate_perm hxv hxs).length_eq

end Run

/-- Each move of the plan starts at a level holding a block legal at its destination. -/
theorem exists_legal_of_planSound {legal : BitVec 64 → BitVec 64 → Nat → Nat}
    {stashMeta : List Meta} {branchMeta : List (List Meta)} {leaf : BitVec 64}
    {targetMeta : List Nat} (hn : branchMeta.length < floorIndex)
    (hs : PlanSound (prepareDeepest legal stashMeta branchMeta leaf) branchMeta targetMeta)
    (i : Nat) (hi : targetMeta.getD i floorIndex ≠ floorIndex) :
    ∃ y ∈ levelMeta stashMeta branchMeta i, y.isVacant = false ∧
      legalIndex legal branchMeta leaf y ≤ targetMeta.getD i floorIndex := by
  obtain ⟨hti, hin, hdt, -⟩ := hs.move _ i hi rfl
  have hspec := @prepareDeepest_getD legal stashMeta branchMeta leaf hn _
    (show targetMeta.getD i floorIndex ≤ branchMeta.length by omega)
  rw [hdt] at hspec
  obtain ⟨y, ⟨hy, hyv⟩, hyt⟩ := exists_holds_of_deepestSpec hspec (by omega)
  exact ⟨y, hy, hyv, hyt⟩

/-- The block pass goes through the plan of `prepare_target` on `prepare_deepest`. -/
theorem evictPass_of_planSound {legal : BitVec 64 → BitVec 64 → Nat → Nat}
    {stashMeta : List Meta} {branchMeta : List (List Meta)} {leaf : BitVec 64}
    {targetMeta : List Nat} (hn : branchMeta.length < floorIndex)
    (hs : PlanSound (prepareDeepest legal stashMeta branchMeta leaf) branchMeta targetMeta) :
    ∃ levels, evictPass (legalIndex legal branchMeta leaf) stashMeta branchMeta targetMeta =
      some (levels, none) :=
  evictFold_of_passFold (fun i hi => (exists_legal_of_planSound hn hs i hi).imp
    fun _ hy => ⟨hy.1, hy.2.1⟩) _ [] none (runPass_of_planSound hs)

/-- On that plan the block pass finishes, conserves blocks and slots, and keeps paths. -/
theorem prepareTarget_evictPass (legal : BitVec 64 → BitVec 64 → Nat → Nat)
    (stashMeta : List Meta) (branchMeta : List (List Meta)) (leaf : BitVec 64)
    (hn : branchMeta.length < floorIndex) :
    ∃ targetMeta levels,
      prepareTarget (prepareDeepest legal stashMeta branchMeta leaf) branchMeta = some targetMeta ∧
      evictPass (legalIndex legal branchMeta leaf) stashMeta branchMeta targetMeta =
        some (levels, none) ∧
      (levels.flatMap blocks).Perm ((List.range (branchMeta.length + 1)).flatMap fun s =>
        blocks (levelMeta stashMeta branchMeta s)) ∧
      levels.length = branchMeta.length + 1 ∧
      (∀ s ≤ branchMeta.length,
        (levels.getD s []).length = (levelMeta stashMeta branchMeta s).length) ∧
      ((∀ s < branchMeta.length, ∀ x ∈ branchMeta.getD s [], x.isVacant = false →
          legalIndex legal branchMeta leaf x ≤ s) →
        ∀ s < branchMeta.length, ∀ x ∈ levels.getD s [], x.isVacant = false →
          legalIndex legal branchMeta leaf x ≤ s) := by
  obtain ⟨T, hT, hs⟩ := prepareTarget_sound hn (prepareDeepest_length hn)
    (deepestWellFormed_prepareDeepest legal stashMeta branchMeta leaf hn)
  obtain ⟨levels, hlev⟩ := evictPass_of_planSound hn hs
  have hperm := evictFold_perm _ [] none _ hlev
  have hren := evictFold_renewed (exists_legal_of_planSound hn hs) _ [] [] none _ List.Forall₂.nil
    (fun _ _ h => by cases h) hlev
  simp only [List.reverse_reverse, List.append_nil] at hren
  have hlen : levels.length = branchMeta.length + 1 := by
    rw [← hren.length_eq, List.length_range]
  -- level `s` of the output is a renewal of level `s` of the input
  have hget : ∀ s ≤ branchMeta.length, Renewed (legalIndex legal branchMeta leaf) stashMeta
      branchMeta s (levels.getD s []) := fun s hs => by
    have hsl : s < levels.length := by omega
    have hR := hren.get (by simp; omega) hsl
    simp only [List.get_eq_getElem, List.getElem_range] at hR
    rwa [List.getD_eq_getElem _ _ hsl]
  refine ⟨T, levels, hT, hlev, ?_, hlen, fun s hs => (hget s hs).1, fun hpath s hsn x hx hxv => ?_⟩
  · simp only [carried, Option.map_none', Option.toList_none, blocks_nil, List.flatMap_nil,
      List.nil_append, List.append_nil] at hperm
    exact hperm.trans ((List.reverse_perm _).flatMap_right _)
  · rcases (hget s (Nat.le_of_lt hsn)).2 x (List.mem_filter.2 ⟨hx, by simp [hxv]⟩) with hx' | hx'
    · rw [levelMeta_of_lt stashMeta hsn] at hx'
      exact hpath s hsn x hx' hxv
    · exact hx'

theorem prepareTarget_evictPass_one_bucket :
    ∃ targetMeta levels,
      prepareTarget (prepareDeepest (fun _ _ _ => 0) [⟨5, false⟩] [[⟨4, true⟩]] 2) [[⟨4, true⟩]] =
        some targetMeta ∧
      evictPass (legalIndex (fun _ _ _ => 0) [[⟨4, true⟩]] 2) [⟨5, false⟩] [[⟨4, true⟩]]
        targetMeta = some (levels, none) ∧
      (levels.flatMap blocks).Perm ((List.range (1 + 1)).flatMap fun s =>
        blocks (levelMeta [⟨5, false⟩] [[⟨4, true⟩]] s)) ∧
      levels.length = 1 + 1 ∧
      (∀ s ≤ 1, (levels.getD s []).length = (levelMeta [⟨5, false⟩] [[⟨4, true⟩]] s).length) ∧
      ((∀ s < 1, ∀ x ∈ [[(⟨4, true⟩ : Meta)]].getD s [], x.isVacant = false →
          legalIndex (fun _ _ _ => 0) [[⟨4, true⟩]] 2 x ≤ s) →
        ∀ s < 1, ∀ x ∈ levels.getD s [], x.isVacant = false →
          legalIndex (fun _ _ _ => 0) [[⟨4, true⟩]] 2 x ≤ s) :=
  prepareTarget_evictPass _ _ _ _ (by decide)

/-- The pass takes at most one block from the stash, and one exactly when a vacancy is reachable. -/
theorem prepareTarget_evictPass_stash (legal : BitVec 64 → BitVec 64 → Nat → Nat)
    (stashMeta : List Meta) (branchMeta : List (List Meta)) (leaf : BitVec 64)
    (hn : branchMeta.length < floorIndex) :
    ∃ targetMeta levels,
      prepareTarget (prepareDeepest legal stashMeta branchMeta leaf) branchMeta = some targetMeta ∧
      evictPass (legalIndex legal branchMeta leaf) stashMeta branchMeta targetMeta =
        some (levels, none) ∧
      (levels.getD branchMeta.length [] = stashMeta ∨
        (blocks (levels.getD branchMeta.length [])).length + 1 = (blocks stashMeta).length) ∧
      ((blocks (levels.getD branchMeta.length [])).length < (blocks stashMeta).length ↔
        ∃ t < branchMeta.length, (∃ m ∈ branchMeta.getD t [], m.isVacant = true) ∧
          ∀ j, t ≤ j → j < branchMeta.length → CanDescend legal stashMeta branchMeta leaf j) := by
  obtain ⟨T, hT, hs⟩ := prepareTarget_sound hn (prepareDeepest_length hn)
    (deepestWellFormed_prepareDeepest legal stashMeta branchMeta leaf hn)
  obtain ⟨levels, hlev⟩ := evictPass_of_planSound hn hs
  obtain ⟨T', hT', hiff⟩ := prepareTarget_stash_iff hn (prepareDeepest_length hn)
    (deepestWellFormed_prepareDeepest legal stashMeta branchMeta leaf hn)
    (deepestNested_prepareDeepest legal stashMeta branchMeta leaf hn)
  obtain rfl : T = T' := Option.some.inj (hT.symm.trans hT')
  obtain ⟨hkeep, hgive⟩ := evictPass_stash hlev
  refine ⟨T, levels, hT, hlev, ?_, ?_⟩
  · by_cases hp : T.getD branchMeta.length floorIndex = floorIndex
    exacts [Or.inl (hkeep hp), Or.inr (hgive hp)]
  · rw [← (hiff.trans (exists_congr fun t => and_congr_right fun _ => and_congr_right fun _ =>
      sourced_iff_canDescend legal stashMeta branchMeta leaf hn t))]
    by_cases hp : T.getD branchMeta.length floorIndex = floorIndex
    · rw [hkeep hp]
      exact iff_of_false (Nat.lt_irrefl _) (not_not.2 hp)
    · exact iff_of_true (by have := hgive hp; omega) hp

theorem prepareTarget_evictPass_stash_one_bucket :
    ∃ targetMeta levels,
      prepareTarget (prepareDeepest (fun _ _ _ => 0) [⟨5, false⟩] [[⟨4, true⟩]] 2) [[⟨4, true⟩]] =
        some targetMeta ∧
      evictPass (legalIndex (fun _ _ _ => 0) [[⟨4, true⟩]] 2) [⟨5, false⟩] [[⟨4, true⟩]]
        targetMeta = some (levels, none) ∧
      (levels.getD 1 [] = [⟨5, false⟩] ∨
        (blocks (levels.getD 1 [])).length + 1 = (blocks [⟨5, false⟩]).length) ∧
      ((blocks (levels.getD 1 [])).length < (blocks [⟨5, false⟩]).length ↔
        ∃ t < 1, (∃ m ∈ [[(⟨4, true⟩ : Meta)]].getD t [], m.isVacant = true) ∧
          ∀ j, t ≤ j → j < 1 → CanDescend (fun _ _ _ => 0) [⟨5, false⟩] [[⟨4, true⟩]] 2 j) :=
  prepareTarget_evictPass_stash _ _ _ _ (by decide)

/-- The stash block moves down into the vacant leaf bucket. -/
example : evictPass (fun _ => 0) [⟨5, false⟩] [[⟨4, true⟩]] [floorIndex, 0] =
    some ([[⟨5, false⟩], [⟨0, true⟩]], none) := by
  decide

end OramEvictor
