import Mathlib.Data.List.Basic
import Mathlib.Logic.Function.Basic

namespace SoaPort.Lib

/-! Lists linked through an array of nexts. -/

section Chain

/-- The places from `head` on, each leading to the next, `stop` past the last. -/
def Chain (next : Nat → Nat) (stop : Nat) : Nat → List Nat → Prop
  | head, [] => head = stop
  | head, r :: rest => head = r ∧ r ≠ stop ∧ Chain next stop (next r) rest

variable {next other : Nat → Nat} {stop : Nat}

theorem Chain.congr {head : Nat} {l : List Nat} (chain : Chain next stop head l)
    (same : ∀ r ∈ l, other r = next r) : Chain other stop head l := by
  induction l generalizing head with
  | nil => exact chain
  | cons r rest ih =>
      obtain ⟨here, there, more⟩ := chain
      obtain ⟨at_, others⟩ := List.forall_mem_cons.mp same
      refine ⟨here, there, ?_⟩
      rw [at_]
      exact ih more others

theorem Chain.update {head : Nat} {l : List Nat} (chain : Chain next stop head l) {r : Nat}
    (out : r ∉ l) (to_ : Nat) : Chain (Function.update next r to_) stop head l := by
  refine chain.congr fun k member => Function.update_of_ne ?_ _ _
  rintro rfl
  exact out member

/-- The last place led on to a new one. -/
theorem Chain.snoc {head : Nat} {l : List Nat} {last r : Nat}
    (chain : Chain next stop head (l ++ [last])) (nodup : (l ++ [last]).Nodup)
    (there : r ≠ stop) (ends : next r = stop) (new : r ∉ l ++ [last]) :
    Chain (Function.update next last r) stop head (l ++ [last] ++ [r]) := by
  induction l generalizing head with
  | nil =>
      obtain ⟨here, is, -⟩ := chain
      have apart : r ≠ last := fun same => new (List.mem_singleton.mpr same)
      refine ⟨here, is, ?_⟩
      rw [Function.update_self]
      refine ⟨rfl, there, ?_⟩
      rw [Function.update_of_ne apart]
      exact ends
  | cons first l ih =>
      obtain ⟨here, is, more⟩ := chain
      obtain ⟨fresh, others⟩ := List.nodup_cons.mp nodup
      have apart : first ≠ last := by
        rintro rfl
        exact fresh (List.mem_append_right _ (List.mem_singleton.mpr rfl))
      refine ⟨here, is, ?_⟩
      rw [Function.update_of_ne apart]
      exact ih more others fun member => new (List.mem_cons_of_mem _ member)

/-- A place taken out of a chain, by what led to it. -/
theorem Chain.unlink {head : Nat} {l : List Nat} {before r : Nat} {rest : List Nat}
    (chain : Chain next stop head (l ++ before :: r :: rest))
    (nodup : (l ++ before :: r :: rest).Nodup) :
    Chain (Function.update next before (next r)) stop head (l ++ before :: rest) := by
  induction l generalizing head with
  | nil =>
      obtain ⟨here, is, -, -, more⟩ := chain
      have fresh := (List.nodup_cons.mp nodup).1
      refine ⟨here, is, ?_⟩
      rw [Function.update_self]
      exact more.update (fun member => fresh (List.mem_cons_of_mem _ member)) _
  | cons first l ih =>
      obtain ⟨here, is, more⟩ := chain
      obtain ⟨fresh, others⟩ := List.nodup_cons.mp nodup
      have apart : first ≠ before := by
        rintro rfl
        exact fresh (List.mem_append_right _ List.mem_cons_self)
      refine ⟨here, is, ?_⟩
      rw [Function.update_of_ne apart]
      exact ih more others

/-- Two places of a list, one after the other, and the list without the second. -/
theorem split_pair {l : List Nat} {m before r : Nat} (first : l[m]? = some before)
    (second : l[m + 1]? = some r) :
    ∃ front rest, l = front ++ before :: r :: rest ∧
      l.eraseIdx (m + 1) = front ++ before :: rest := by
  induction m generalizing l with
  | zero =>
      cases l with
      | nil => cases first
      | cons a l =>
          cases first
          cases l with
          | nil => cases second
          | cons b l =>
              cases second
              exact ⟨[], l, rfl, rfl⟩
  | succ m ih =>
      cases l with
      | nil => cases first
      | cons a l =>
          obtain ⟨front, rest, whole, erased⟩ := ih first second
          exact ⟨a :: front, rest, congrArg (a :: ·) whole, congrArg (a :: ·) erased⟩

theorem Chain.tail {head r : Nat} {rest : List Nat} (chain : Chain next stop head (r :: rest)) :
    Chain next stop (next r) rest :=
  chain.2.2

end Chain

end SoaPort.Lib
