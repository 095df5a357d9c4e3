import Mathlib.Data.List.Basic
import Mathlib.Logic.Function.Basic

namespace SoaPort.Lib

/-! A sliding window: a ring that holds the value last written to each cell, blank where none
was. A copy writes what it reads, so it may read what it has itself written. The values
written stand newest first. -/

section Sliding

variable {α : Type} (size start : Nat) (blank : α)

/-- The value last written to a cell. -/
def held : List α → Nat → α
  | [], _ => blank
  | a :: older, c => if (start + older.length) % size = c then a else held older c

def copied (offset : Nat) : Nat → Nat → List α → List α
  | 0, _, written => written
  | n + 1, k, written =>
      copied offset n (k + 1) (held size start blank written ((offset + k) % size) :: written)

/-- A ring's cells and the next it writes, after some values. -/
structure Mirrors (cell : Nat → α) (next : Nat) (written : List α) : Prop where
  next_eq : next = (start + written.length) % size
  cells : ∀ c < size, cell c = held size start blank written c

variable {size start : Nat} {blank : α} {cell : Nat → α} {next : Nat} {written : List α}

theorem mirrors_blank (start_lt : start < size) :
    Mirrors size start blank (fun _ => blank) start [] where
  next_eq := (Nat.mod_eq_of_lt start_lt).symm
  cells _ _ := rfl

theorem Mirrors.put (mirrors : Mirrors size start blank cell next written) (a : α) :
    Mirrors size start blank (Function.update cell next a) ((next + 1) % size) (a :: written) where
  next_eq := by
    rw [mirrors.next_eq, Nat.mod_add_mod, List.length_cons, Nat.add_assoc]
  cells c c_lt := by
    rw [held, ← mirrors.next_eq, Function.update_apply]
    split
    next here => rw [if_pos here.symm]
    next other =>
      rw [if_neg (Ne.symm other)]
      exact mirrors.cells c c_lt

theorem copied_suffix (offset n k : Nat) :
    written <:+ copied size start blank offset n k written := by
  induction n generalizing k written with
  | zero => exact List.suffix_rfl
  | succ n ih => exact (List.suffix_cons _ _).trans (ih (k + 1))

theorem copied_length (offset n k : Nat) :
    (copied size start blank offset n k written).length = written.length + n := by
  induction n generalizing k written with
  | zero => rfl
  | succ n ih =>
      rw [copied, ih, List.length_cons]
      omega

end Sliding

/-- What comes first of the values does not depend on what is written after them. -/
theorem take_reverse_suffix {α : Type} {older written : List α} (suffix : older <:+ written)
    {n : Nat} (enough : n ≤ older.length) : written.reverse.take n = older.reverse.take n := by
  obtain ⟨newer, rfl⟩ := suffix
  rw [← List.length_reverse] at enough
  rw [List.reverse_append, List.take_append_of_le_length enough]

end SoaPort.Lib
