import OramEvictor.Word
import Mathlib.Data.List.GetD

/-!
# Slot metadata, buckets, and the levels of a branch

A slot's metadata is read through `meta_leaf_num` and `meta_is_vacant` of the
path ORAM module; both readings are fields here, so every byte pattern of the
metadata is covered. A bucket is the list of its `Z` slots (`as_aligned_chunks`),
a branch the list of its buckets with the leaf at index `0`, and the stash is the
extra level `n` above the root. `Vec<usize>` arrays are lists, read with `getD`
and written with `set`.
-/

namespace OramEvictor

/-- The metadata of one slot: `meta_leaf_num` and `meta_is_vacant`. -/
structure Meta where
  leafNum : BitVec 64
  isVacant : Bool
deriving DecidableEq, Repr

/-- `bucket_has_empty_slot`: the or of the vacancy flags of every slot. -/
def bucketHasEmptySlot (bucketMeta : List Meta) : Bool :=
  bucketMeta.foldl (fun acc srcMeta => acc || srcMeta.isVacant) false

theorem bucketHasEmptySlot_iff (bucketMeta : List Meta) :
    bucketHasEmptySlot bucketMeta = true ↔ ∃ m ∈ bucketMeta, m.isVacant = true := by
  have fold : ∀ acc : Bool, bucketMeta.foldl (fun acc srcMeta => acc || srcMeta.isVacant) acc =
      (acc || bucketMeta.any (·.isVacant)) := by
    induction bucketMeta with
    | nil => simp
    | cons m ms ih => intro acc; simp [ih, Bool.or_assoc]
  simp [bucketHasEmptySlot, fold]

/-- The slots of level `s`: bucket `s` of the branch, or the stash at `s = n`. -/
def levelMeta (stashMeta : List Meta) (branchMeta : List (List Meta)) (s : Nat) : List Meta :=
  if s = branchMeta.length then stashMeta else branchMeta.getD s []

theorem levelMeta_of_lt (stashMeta : List Meta) {branchMeta : List (List Meta)} {s : Nat}
    (h : s < branchMeta.length) : levelMeta stashMeta branchMeta s = branchMeta.getD s [] :=
  if_neg (Nat.ne_of_lt h)

@[simp] theorem levelMeta_length (stashMeta : List Meta) (branchMeta : List (List Meta)) :
    levelMeta stashMeta branchMeta branchMeta.length = stashMeta := if_pos rfl

theorem levelMeta_of_gt {stashMeta : List Meta} {branchMeta : List (List Meta)} {s : Nat}
    (h : branchMeta.length < s) : levelMeta stashMeta branchMeta s = [] := by
  rw [levelMeta, if_neg (Nat.ne_of_gt h), List.getD_eq_default _ _ (Nat.le_of_lt h)]

theorem le_length_of_mem_levelMeta {stashMeta : List Meta} {branchMeta : List (List Meta)}
    {s : Nat} {x : Meta} (h : x ∈ levelMeta stashMeta branchMeta s) : s ≤ branchMeta.length :=
  Nat.le_of_not_lt fun hs => by simp [levelMeta_of_gt hs] at h

section ListArray

variable {α : Type}

theorem getD_set (l : List α) (i j : Nat) (a d : α) :
    (l.set i a).getD j d = if i = j ∧ i < l.length then a else l.getD j d := by
  rw [List.getD_eq_getElem?_getD, List.getElem?_set, List.getD_eq_getElem?_getD]
  by_cases h : i = j
  · subst h
    by_cases h' : i < l.length
    · simp [h']
    · simp [h', List.getElem?_eq_none (Nat.le_of_not_lt h')]
  · simp [h]

theorem getD_set_ne (l : List α) {i j : Nat} (a d : α) (h : i ≠ j) :
    (l.set i a).getD j d = l.getD j d := by
  rw [getD_set, if_neg (fun e => h e.1)]

theorem getD_replicate_self (n i : Nat) (a : α) : (List.replicate n a).getD i a = a := by
  rw [List.getD_eq_getElem?_getD, List.getElem?_replicate]
  split <;> rfl

theorem ext_getD {l l' : List α} (d : α) (hl : l.length = l'.length)
    (h : ∀ i, l.getD i d = l'.getD i d) : l = l' :=
  List.ext_getElem hl fun i h1 h2 => by
    rw [← List.getD_eq_getElem _ d h1, ← List.getD_eq_getElem _ d h2]
    exact h i

theorem getD_mapIdx (l : List α) (f : Nat → α → α) (i : Nat) (d : α) :
    (l.mapIdx f).getD i d = if i < l.length then f i (l.getD i d) else d := by
  rw [List.getD_eq_getElem?_getD, List.getElem?_mapIdx]
  split
  · rw [List.getElem?_eq_getElem ‹_›, List.getD_eq_getElem _ _ ‹_›]
    rfl
  · rw [List.getElem?_eq_none (by omega)]
    rfl

end ListArray

end OramEvictor
