import Mathlib.Tactic

namespace SoaPort.Lib

/-! Two's complement arithmetic of a fixed width that remembers whether any
operation left the range. -/

def Fits (w : Nat) (x : Int) : Prop :=
  -2 ^ (w - 1) ≤ x ∧ x < 2 ^ (w - 1)

instance (w : Nat) (x : Int) : Decidable (Fits w x) :=
  inferInstanceAs (Decidable (_ ∧ _))

theorem Fits.bmod_eq {w : Nat} {x : Int} (width : 0 < w) (fits : Fits w x) :
    x.bmod (2 ^ w) = x := by
  obtain ⟨low, high⟩ := fits
  have double : (2 : Int) ^ w = 2 * 2 ^ (w - 1) := by
    rw [← pow_succ', Nat.sub_add_cancel width]
  rw [Int.bmod_eq_of_le]
  · push_cast
    omega
  · push_cast
    omega

theorem fits_toInt {w : Nat} (x : BitVec w) : Fits w x.toInt :=
  ⟨x.le_toInt, x.toInt_lt⟩

/-- What a computation returns, and whether an operation in it overflowed. -/
structure Ran (α : Type) where
  val : α
  overflowed : Bool
deriving DecidableEq

namespace Ran

instance : Monad Ran where
  pure a := ⟨a, false⟩
  bind m f := ⟨(f m.val).val, m.overflowed || (f m.val).overflowed⟩

variable {α β : Type}

@[simp] theorem val_pure (a : α) : (pure a : Ran α).val = a := rfl

@[simp] theorem overflowed_pure (a : α) : (pure a : Ran α).overflowed = false := rfl

@[simp] theorem val_bind (m : Ran α) (f : α → Ran β) : (m >>= f).val = (f m.val).val := rfl

@[simp] theorem overflowed_bind (m : Ran α) (f : α → Ran β) :
    (m >>= f).overflowed = (m.overflowed || (f m.val).overflowed) := rfl

@[ext] theorem ext_val {m n : Ran α} (val : m.val = n.val)
    (overflowed : m.overflowed = n.overflowed) : m = n := by
  cases m
  cases n
  simp_all

instance : LawfulMonad Ran :=
  LawfulMonad.mk' Ran
    (fun _ => ext_val rfl (Bool.or_false _))
    (fun _ _ => ext_val rfl (Bool.false_or _))
    (fun _ _ _ => ext_val rfl (Bool.or_assoc _ _ _))

theorem eq_pure_val {m : Ran α} (clean : m.overflowed = false) : m = pure m.val :=
  ext_val rfl clean

/-- A computation in sequence is free of overflow when each part is, the later
ones run on what the earlier return. -/
theorem bind_clean_iff (m : Ran α) (f : α → Ran β) :
    (m >>= f).overflowed = false ↔ m.overflowed = false ∧ (f m.val).overflowed = false := by
  rw [overflowed_bind, Bool.or_eq_false_iff]

end Ran

/-- An operation whose result in unbounded integers is `x`. -/
def Ran.arith (w : Nat) (x : Int) : Ran Int :=
  ⟨x.bmod (2 ^ w), !decide (Fits w x)⟩

variable {w : Nat} {x : Int}

theorem arith_eq (width : 0 < w) (fits : Fits w x) : Ran.arith w x = pure x := by
  apply Ran.ext_val
  · exact fits.bmod_eq width
  · simp [Ran.arith, fits]

theorem arith_clean_iff : (Ran.arith w x).overflowed = false ↔ Fits w x := by
  simp [Ran.arith]

namespace Ran

variable {α β : Type}

/-- `m` is free of overflow exactly when `P` holds, and returns `a` then. -/
structure Gives (m : Ran α) (a : α) (P : Prop) : Prop where
  clean_iff : m.overflowed = false ↔ P
  val : P → m.val = a

theorem gives_pure (a : α) : Gives (pure a) a True :=
  ⟨iff_of_true rfl trivial, fun _ => rfl⟩

theorem gives_arith (width : 0 < w) : Gives (arith w x) x (Fits w x) :=
  ⟨arith_clean_iff, fun fits => fits.bmod_eq width⟩

theorem gives_arith_of_fits (width : 0 < w) (fits : Fits w x) : Gives (arith w x) x True :=
  ⟨iff_of_true (arith_clean_iff.mpr fits) trivial, fun _ => fits.bmod_eq width⟩

theorem Gives.bind {m : Ran α} {a : α} {P Q : Prop} {f : α → Ran β} {b : β}
    (first : Gives m a P) (second : P → Gives (f a) b Q) : Gives (m >>= f) b (P ∧ Q) := by
  constructor
  · rw [bind_clean_iff, first.clean_iff, and_congr_right_iff]
    intro holds
    rw [first.val holds]
    exact (second holds).clean_iff
  · rintro ⟨holds, later⟩
    rw [val_bind, first.val holds]
    exact (second holds).val later

theorem Gives.congr {m : Ran α} {a : α} {P Q : Prop} (gives : Gives m a P) (same : P ↔ Q) :
    Gives m a Q :=
  ⟨gives.clean_iff.trans same, fun holds => gives.val (same.mpr holds)⟩

/-- A first part that always gives its value adds no condition. -/
theorem Gives.bind_of_true {m : Ran α} {a : α} {Q : Prop} {f : α → Ran β} {b : β}
    (first : Gives m a True) (second : Gives (f a) b Q) : Gives (m >>= f) b Q :=
  (first.bind fun _ => second).congr (iff_of_eq (true_and Q))

end Ran

end SoaPort.Lib
