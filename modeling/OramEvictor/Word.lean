import Mathlib.Algebra.Order.Group.Nat
import Mathlib.Tactic.Ring

/-!
# Machine words of the evictor

A `u64` is a `BitVec 64` and a `u32` a `BitVec 32`. The crate is built with
overflow checks on, so an operator of the source that can panic returns an
`Option`, and `none` is the panic. `usize` indices are `Nat`, and `FLOOR_INDEX`
is `usize::MAX` of the 64-bit target. `u64::reverse_bits` reverses the low 64
bits of the value; `revBits w` reverses the low `w` bits.
-/

namespace OramEvictor

/-- `FLOOR_INDEX = usize::MAX`, the ⊥ of the Circuit ORAM paper. -/
def floorIndex : Nat := 2 ^ 64 - 1

section Checked

variable {w : Nat}

/-- `a + b` with overflow checks. -/
def checkedAdd (a b : BitVec w) : Option (BitVec w) :=
  if a.toNat + b.toNat < 2 ^ w then some (a + b) else none

/-- `a - b` with overflow checks. -/
def checkedSub (a b : BitVec w) : Option (BitVec w) :=
  if b.toNat ≤ a.toNat then some (a - b) else none

/-- `a % b`; a remainder by zero panics in every build. -/
def checkedRem (a b : BitVec w) : Option (BitVec w) :=
  if b.toNat = 0 then none else some (a % b)

/-- `a << s` with a `u32` amount; shifting by the width or more overflows. -/
def checkedShl (a : BitVec w) (s : BitVec 32) : Option (BitVec w) :=
  if s.toNat < w then some (a <<< s.toNat) else none

/-- `a >> s` with a `u32` amount; shifting by the width or more overflows. -/
def checkedShr (a : BitVec w) (s : BitVec 32) : Option (BitVec w) :=
  if s.toNat < w then some (a >>> s.toNat) else none

theorem checkedAdd_of_lt {a b : BitVec w} (h : a.toNat + b.toNat < 2 ^ w) :
    checkedAdd a b = some (a + b) := if_pos h

theorem checkedSub_of_le {a b : BitVec w} (h : b.toNat ≤ a.toNat) :
    checkedSub a b = some (a - b) := if_pos h

theorem checkedRem_of_ne {a b : BitVec w} (h : b.toNat ≠ 0) :
    checkedRem a b = some (a % b) := if_neg h

@[simp] theorem checkedRem_zero (a : BitVec w) : checkedRem a 0 = none := by
  simp [checkedRem]

theorem checkedShl_of_lt {a : BitVec w} {s : BitVec 32} (h : s.toNat < w) :
    checkedShl a s = some (a <<< s.toNat) := if_pos h

theorem checkedShr_of_lt {a : BitVec w} {s : BitVec 32} (h : s.toNat < w) :
    checkedShr a s = some (a >>> s.toNat) := if_pos h

end Checked

/-- The low `w` bits of `x` in reverse order. -/
def revBits : Nat → Nat → Nat
  | 0, _ => 0
  | w + 1, x => x % 2 * 2 ^ w + revBits w (x / 2)

/-- `u64::reverse_bits`. -/
def reverseBits (x : BitVec 64) : BitVec 64 := BitVec.ofNat 64 (revBits 64 x.toNat)

theorem revBits_lt (w x : Nat) : revBits w x < 2 ^ w := by
  induction w generalizing x with
  | zero => simp [revBits]
  | succ w ih =>
    have := ih (x / 2)
    have : x % 2 ≤ 1 := Nat.le_of_lt_succ (Nat.mod_lt x (by decide))
    have : x % 2 * 2 ^ w ≤ 2 ^ w := by simpa using Nat.mul_le_mul_right (2 ^ w) this
    rw [revBits, Nat.pow_succ]
    omega

/-- Reversing `a + b` bits puts the low `a` bits on top of the next `b` bits. -/
theorem revBits_add (a b x : Nat) :
    revBits (a + b) x = revBits a x * 2 ^ b + revBits b (x / 2 ^ a) := by
  induction a generalizing x with
  | zero => simp [revBits]
  | succ a ih =>
    rw [Nat.add_right_comm, revBits, revBits, ih, Nat.div_div_eq_div_mul, ← Nat.pow_succ']
    ring

/-- Only the low `w` bits are read. -/
theorem revBits_mod (w x : Nat) : revBits w (x % 2 ^ w) = revBits w x := by
  induction w generalizing x with
  | zero => rfl
  | succ w ih =>
    have h2 : x % 2 ^ (w + 1) % 2 = x % 2 :=
      Nat.mod_mod_of_dvd x (Dvd.intro_left _ (Nat.pow_succ 2 w).symm)
    have hd : x % 2 ^ (w + 1) / 2 = x / 2 % 2 ^ w := by
      rw [Nat.pow_succ', Nat.mod_mul_right_div_self]
    rw [revBits, revBits, h2, hd, ih]

/-- Reversing from the other end: the top bit of the window becomes bit 0. -/
theorem revBits_succ' (w x : Nat) : revBits (w + 1) x = revBits w x * 2 + x / 2 ^ w % 2 := by
  rw [revBits_add, revBits, revBits, Nat.pow_one]
  simp

theorem revBits_revBits {w x : Nat} (hx : x < 2 ^ w) : revBits w (revBits w x) = x := by
  induction w generalizing x with
  | zero => simp_all [revBits]
  | succ w ih =>
    have hr := revBits_lt w (x / 2)
    have hlow : (x % 2 * 2 ^ w + revBits w (x / 2)) % 2 ^ w = revBits w (x / 2) := by
      rw [Nat.mul_comm, Nat.mul_add_mod, Nat.mod_eq_of_lt hr]
    have hhigh : (x % 2 * 2 ^ w + revBits w (x / 2)) / 2 ^ w = x % 2 := by
      rw [Nat.mul_comm, Nat.mul_add_div (Nat.two_pow_pos w), Nat.div_eq_of_lt hr, Nat.add_zero]
    rw [revBits_succ', revBits, ← revBits_mod w, hlow, ih (by rw [Nat.pow_succ] at hx; omega),
      hhigh, Nat.mod_mod]
    omega

end OramEvictor
