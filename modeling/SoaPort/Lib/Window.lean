import Mathlib

namespace SoaPort.Lib

/-! The values a ring was given last. -/

section Window

variable {α : Type} {size : Nat} [NeZero size]

/-- The last `n` values put into the ring, the latest first: the next goes to `at_`. -/
def window (ring : Fin size → α) (at_ : Fin size) (n : Nat) : List α :=
  (List.range n).map fun k => ring (at_ - 1 - Fin.ofNat size k)

@[simp] theorem window_length (ring : Fin size → α) (at_ : Fin size) (n : Nat) :
    (window ring at_ n).length = n := by
  simp [window]

@[simp] theorem window_zero (ring : Fin size → α) (at_ : Fin size) :
    window ring at_ 0 = [] := rfl

theorem window_take (ring : Fin size → α) (at_ : Fin size) {n m : Nat} (less : m ≤ n) :
    (window ring at_ n).take m = window ring at_ m := by
  rw [window, ← List.map_take, List.take_range, Nat.min_eq_left less, window]

theorem one_add_ofNat (k : Nat) : (1 : Fin size) + Fin.ofNat size k = Fin.ofNat size (k + 1) := by
  ext
  simp [Fin.val_add, Nat.add_comm]

theorem before_ne {at_ : Fin size} {k : Nat} (small : k + 1 < size) :
    at_ - 1 - Fin.ofNat size k ≠ at_ := by
  intro same
  rw [sub_sub, one_add_ofNat] at same
  have value := congrArg Fin.val (sub_eq_self.mp same)
  simp [Nat.mod_eq_of_lt small] at value

/-- A value put into the ring stands first, and the oldest of a full ring is gone. -/
theorem window_update (ring : Fin size → α) (at_ : Fin size) (v : α) {n : Nat}
    (room : n < size) :
    window (Function.update ring at_ v) (at_ + 1) (n + 1) = v :: window ring at_ n := by
  rw [window, List.range_succ_eq_map, List.map_cons, List.map_map, window]
  have first : at_ + 1 - 1 - Fin.ofNat size 0 = at_ := by
    simp
  rw [first, Function.update_self]
  congr 1
  refine List.map_congr_left fun k inside => ?_
  have small : k + 1 < size := by
    have := List.mem_range.mp inside
    omega
  have place : at_ + 1 - 1 - Fin.ofNat size (k + 1) = at_ - 1 - Fin.ofNat size k := by
    rw [← one_add_ofNat, sub_sub at_ 1, add_sub_cancel_right]
  simp only [Function.comp_apply, Nat.succ_eq_add_one, place]
  exact Function.update_of_ne (before_ne small) v ring

/-- A full ring's values, in the order they were given, are the ring's. -/
theorem window_full (ring : Fin size → α) (at_ : Fin size) :
    (window ring at_ size).Perm (List.ofFn ring) := by
  let back : Equiv.Perm (Fin size) :=
    { toFun := fun k => at_ - 1 - k
      invFun := fun k => at_ - 1 - k
      left_inv := fun k => sub_sub_cancel _ k
      right_inv := fun k => sub_sub_cancel _ k }
  have listed : window ring at_ size = (List.finRange size).map (ring ∘ back) := by
    refine List.ext_getElem (by simp) fun k inside _ => ?_
    have small : k < size := by
      simpa using inside
    have place : Fin.ofNat size k = ⟨k, small⟩ := by
      ext
      exact Nat.mod_eq_of_lt small
    simp only [window, List.getElem_map, List.getElem_range, List.getElem_finRange, place]
    rfl
  rw [listed, List.ofFn_eq_map, ← List.map_map]
  exact (Equiv.Perm.map_finRange_perm back).map ring

end Window

end SoaPort.Lib
