import Mathlib.Data.List.Basic

namespace SoaPort.Lib

/-! Loops whose body says when to stop: invariants, and termination by a
measure. -/

variable {σ : Type}

/-- Run `step` until it returns nothing, at most `fuel` times. -/
def whileSome (step : σ → Option σ) : Nat → σ → σ
  | 0, s => s
  | fuel + 1, s =>
      match step s with
      | none => s
      | some s' => whileSome step fuel s'

theorem whileSome_invariant {step : σ → Option σ} (I : σ → Prop)
    (preserved : ∀ s s', I s → step s = some s' → I s') (fuel : Nat) {s : σ} (initial : I s) :
    I (whileSome step fuel s) := by
  induction fuel generalizing s with
  | zero => exact initial
  | succ fuel ih =>
      rw [whileSome]
      cases result : step s with
      | none => exact initial
      | some s' => exact ih (preserved s s' initial result)

/-- A measure that every step lowers bounds the number of steps. -/
theorem whileSome_done {step : σ → Option σ} (I : σ → Prop) (measure : σ → Nat)
    (preserved : ∀ s s', I s → step s = some s' → I s')
    (decreases : ∀ s s', I s → step s = some s' → measure s' < measure s)
    (fuel : Nat) {s : σ} (initial : I s) (enough : measure s ≤ fuel) :
    step (whileSome step fuel s) = none := by
  induction fuel generalizing s with
  | zero =>
      cases result : step s with
      | none => exact result
      | some s' =>
          have lower := decreases s s' initial result
          omega
  | succ fuel ih =>
      rw [whileSome]
      cases result : step s with
      | none => exact result
      | some s' =>
          have lower := decreases s s' initial result
          exact ih (preserved s s' initial result) (by omega)

/-- A count falls when its predicate shrinks and loses a member. -/
theorem countP_lt_of_mem {α : Type} {p q : α → Bool} {a : α} {list : List α} (member : a ∈ list)
    (shrinks : ∀ b ∈ list, q b = true → p b = true) (before : p a = true) (after : q a = false) :
    list.countP q < list.countP p := by
  induction list with
  | nil => cases member
  | cons b list ih =>
      have tail_shrinks : ∀ c ∈ list, q c = true → p c = true :=
        fun c later => shrinks c (List.mem_cons_of_mem b later)
      have tail_le : list.countP q ≤ list.countP p := List.countP_mono_left tail_shrinks
      rw [List.countP_cons, List.countP_cons]
      rcases List.mem_cons.mp member with rfl | later
      · simp only [before, after, if_true, Bool.false_eq_true, if_false]
        exact Nat.lt_succ_of_le tail_le
      · have lower := ih later tail_shrinks
        have head := shrinks b List.mem_cons_self
        split
        · rename_i left
          rw [if_pos (head left)]
          omega
        · omega

end SoaPort.Lib
