import Mathlib.Data.List.TakeWhile
import Mathlib.Logic.Function.Basic

namespace SoaPort.Lib

/-! Loops that write one cell a step: each cell a step names holds what that
step wrote, and the others what they held. -/

section Scatter

variable {ι κ β : Type} [DecidableEq κ]

/-- Write `val i` at `key i` for each step in turn. -/
def scatter (key : ι → κ) (val : ι → β) (steps : List ι) (m : κ → β) : κ → β :=
  steps.foldl (fun m i => Function.update m (key i) (val i)) m

variable {key : ι → κ} {val : ι → β}

theorem scatter_of_ne {steps : List ι} {k : κ} (other : ∀ i ∈ steps, key i ≠ k) (m : κ → β) :
    scatter key val steps m k = m k := by
  induction steps generalizing m with
  | nil => rfl
  | cons i steps ih =>
      have rest := ih (fun j later => other j (List.mem_cons_of_mem i later))
        (Function.update m (key i) (val i))
      exact rest.trans (Function.update_of_ne (other i List.mem_cons_self).symm _ m)

/-- The steps that name a cell all write the same to it. -/
theorem scatter_of_mem {steps : List ι} {k : κ} {v : β} (written : ∃ i ∈ steps, key i = k)
    (same : ∀ i ∈ steps, key i = k → val i = v) (m : κ → β) : scatter key val steps m k = v := by
  induction steps generalizing m with
  | nil =>
      obtain ⟨i, none, _⟩ := written
      cases none
  | cons i steps ih =>
      by_cases later : ∃ j ∈ steps, key j = k
      · exact ih later (fun j member => same j (List.mem_cons_of_mem i member)) _
      · obtain ⟨j, member, named⟩ := written
        have first : j = i := by
          rcases List.mem_cons.mp member with here | rest
          · exact here
          · exact absurd ⟨j, rest, named⟩ later
        subst first
        have rest : scatter key val steps _ k = _ := scatter_of_ne (fun n member named => later ⟨n, member, named⟩)
          (Function.update m (key j) (val j))
        refine rest.trans ?_
        rw [← named, Function.update_self]
        exact same j List.mem_cons_self named

/-- A nested loop is one loop over the steps it takes. -/
theorem scatter_flatMap {α : Type} (rows : List α) (steps : α → List ι) (m : κ → β) :
    scatter key val (rows.flatMap steps) m =
      rows.foldl (fun m r => scatter key val (steps r) m) m := by
  unfold scatter
  exact List.foldl_flatMap

end Scatter

/-- A loop with a break at its head reaches a step when nothing before it breaks. -/
theorem mem_takeWhile_range {n i : Nat} {p : Nat → Bool} (below : i < n)
    (runs : ∀ j ≤ i, p j = true) : i ∈ (List.range n).takeWhile p := by
  obtain ⟨rest, rfl⟩ : ∃ rest, n = i + 1 + rest := Nat.exists_eq_add_of_le below
  have before : ∀ j ∈ List.range (i + 1), p j = true := by
    intro j member
    exact runs j (Nat.le_of_lt_succ (List.mem_range.mp member))
  rw [List.range_add, List.takeWhile_append_of_pos before]
  exact List.mem_append_left _ (List.mem_range.mpr (Nat.lt_succ_self i))

end SoaPort.Lib
