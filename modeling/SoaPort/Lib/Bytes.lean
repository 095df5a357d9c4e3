import Mathlib.Data.List.Induction
import Mathlib.Tactic.Ring

namespace SoaPort.Lib

/-! Bytes, and numbers written most significant byte first. -/

abbrev Byte := BitVec 8

/-- The number the bytes write. -/
def of_be (p : List Byte) : Nat := p.foldl (fun n b => n * 256 + b.toNat) 0

/-- The last `k` bytes of a number. -/
def to_be : Nat → Nat → List Byte
  | 0, _ => []
  | k + 1, n => to_be k (n / 256) ++ [BitVec.ofNat 8 n]

@[simp] theorem to_be_length (k n : Nat) : (to_be k n).length = k := by
  induction k generalizing n with
  | zero => rfl
  | succ k ih => rw [to_be, List.length_append, ih]; rfl

theorem of_be_append (p : List Byte) (b : Byte) : of_be (p ++ [b]) = of_be p * 256 + b.toNat := by
  rw [of_be, List.foldl_append]
  rfl

theorem of_be_to_be {k n : Nat} (small : n < 256 ^ k) : of_be (to_be k n) = n := by
  induction k generalizing n with
  | zero =>
      rw [Nat.lt_one_iff.mp small]
      rfl
  | succ k ih =>
      have upper : n / 256 < 256 ^ k := by
        rw [Nat.div_lt_iff_lt_mul (by decide), ← Nat.pow_succ]
        exact small
      rw [to_be, of_be_append, ih upper, BitVec.toNat_ofNat]
      omega

theorem of_be_lt (p : List Byte) : of_be p < 256 ^ p.length := by
  induction p using List.reverseRecOn with
  | nil => exact Nat.one_pos
  | append_singleton p b ih =>
      have := b.isLt
      rw [of_be_append, List.length_append, List.length_singleton, Nat.pow_succ]
      omega

theorem to_be_of_be (p : List Byte) : to_be p.length (of_be p) = p := by
  induction p using List.reverseRecOn with
  | nil => rfl
  | append_singleton p b ih =>
      have small := b.isLt
      have high : of_be (p ++ [b]) / 256 = of_be p := by
        rw [of_be_append]
        omega
      rw [List.length_append, List.length_singleton, to_be, high, ih]
      congr 2
      apply BitVec.eq_of_toNat_eq
      rw [of_be_append, BitVec.toNat_ofNat]
      omega

/-- What is inside a prefix does not depend on what follows it. -/
theorem take_drop_prefixed {β : Type} {p : List β} {n : Nat} (whole : n ≤ p.length) (ys : List β)
    {i k : Nat} (inside : i + k ≤ n) : ((p.take n ++ ys).drop i).take k = (p.drop i).take k := by
  rw [List.drop_append_of_le_length (by rw [List.length_take]; omega),
    List.take_append_of_le_length (by rw [List.length_drop, List.length_take]; omega),
    List.drop_take, List.take_take, Nat.min_eq_left (by omega)]

section Slices

variable {β : Type}

/-- `n` elements from `at_` on. -/
def slice (p : List β) (at_ n : Nat) : List β := (p.drop at_).take n

/-- `q` written over what stands at `at_`. -/
def splice (p : List β) (at_ : Nat) (q : List β) : List β :=
  p.take at_ ++ q ++ p.drop (at_ + q.length)

variable {p q : List β} {at_ a n : Nat}

theorem length_splice (room : at_ + q.length ≤ p.length) :
    (splice p at_ q).length = p.length := by
  simp only [splice, List.length_append, List.length_take, List.length_drop]
  omega

theorem slice_getElem? (i : Nat) :
    (slice p at_ n)[i]? = if i < n then p[at_ + i]? else none := by
  rw [slice, List.getElem?_take]
  split
  · rw [List.getElem?_drop]
  · rfl

theorem splice_getElem? (room : at_ ≤ p.length) (i : Nat) :
    (splice p at_ q)[i]? =
      if at_ ≤ i ∧ i < at_ + q.length then q[i - at_]? else p[i]? := by
  have front : (p.take at_).length = at_ := by
    rw [List.length_take]
    omega
  rw [splice, List.append_assoc]
  rcases Nat.lt_or_ge i at_ with before | after
  · rw [if_neg (by omega), List.getElem?_append_left (by omega), List.getElem?_take,
      if_pos before]
  · rw [List.getElem?_append_right (by omega), front]
    rcases Nat.lt_or_ge i (at_ + q.length) with inside | past
    · rw [if_pos ⟨after, inside⟩, List.getElem?_append_left (by omega)]
    · rw [if_neg (by omega), List.getElem?_append_right (by omega), List.getElem?_drop]
      congr 1
      omega

theorem slice_splice_same (room : at_ + q.length ≤ p.length) :
    slice (splice p at_ q) at_ q.length = q := by
  apply List.ext_getElem?
  intro i
  rw [slice_getElem?, splice_getElem? (by omega)]
  split
  · rw [if_pos (by omega), Nat.add_sub_cancel_left]
  · rw [List.getElem?_eq_none (by omega)]

theorem slice_splice_apart (room : at_ + q.length ≤ p.length)
    (apart : a + n ≤ at_ ∨ at_ + q.length ≤ a) :
    slice (splice p at_ q) a n = slice p a n := by
  apply List.ext_getElem?
  intro i
  rw [slice_getElem?, slice_getElem?]
  split
  · rw [splice_getElem? (by omega), if_neg (by omega)]
  · rfl

end Slices

end SoaPort.Lib
