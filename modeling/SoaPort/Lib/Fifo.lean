import SoaPort.Lib.Chain

namespace SoaPort.Lib

/-! A queue linked through its members: its first, its last, and each one's next. -/

section Fifo

structure Fifo (next : Nat → Nat) (stop head tail : Nat) (l : List Nat) : Prop where
  chain : Chain next stop head l
  last : ∀ r, l.getLast? = some r → tail = r
  nodup : l.Nodup

variable {next : Nat → Nat} {stop head tail : Nat} {l : List Nat}

theorem Fifo.nil : Fifo next stop stop tail [] :=
  ⟨rfl, by simp, List.nodup_nil⟩

theorem Fifo.head_eq (fifo : Fifo next stop head tail l) : head = stop ↔ l = [] := by
  cases l with
  | nil => exact ⟨fun _ => rfl, fun _ => fifo.chain⟩
  | cons r rest =>
      obtain ⟨here, there, -⟩ := fifo.chain
      simp [here, there]

theorem Chain.there {l : List Nat} (chain : Chain next stop head l) {r : Nat}
    (member : r ∈ l) : r ≠ stop := by
  induction l generalizing head with
  | nil => cases member
  | cons first rest ih =>
      obtain ⟨-, there, more⟩ := chain
      rcases List.mem_cons.mp member with rfl | later
      · exact there
      · exact ih more later

/-- What is not on a queue may be linked anywhere. -/
theorem Fifo.frame (fifo : Fifo next stop head tail l) {r : Nat} (out : r ∉ l) (to_ : Nat) :
    Fifo (Function.update next r to_) stop head tail l :=
  ⟨fifo.chain.update out to_, fifo.last, fifo.nodup⟩

theorem Fifo.congr {other : Nat → Nat} (fifo : Fifo next stop head tail l)
    (same : ∀ r ∈ l, other r = next r) : Fifo other stop head tail l :=
  ⟨fifo.chain.congr same, fifo.last, fifo.nodup⟩

theorem Fifo.single {r : Nat} (there : r ≠ stop) (ends : next r = stop) :
    Fifo next stop r r [r] :=
  ⟨⟨rfl, there, ends⟩, by simp, by simp⟩

/-- A new member, linked from the last. -/
theorem Fifo.push (fifo : Fifo next stop head tail l) (some_ : head ≠ stop) {r : Nat}
    (there : r ≠ stop) (ends : next r = stop) (new : r ∉ l) :
    Fifo (Function.update next tail r) stop head r (l ++ [r]) := by
  have nonempty : l ≠ [] := fun none_ => some_ (fifo.head_eq.mpr none_)
  have whole : l.dropLast ++ [tail] = l := by
    rw [fifo.last (l.getLast nonempty) (List.getLast?_eq_some_getLast nonempty)]
    exact List.dropLast_append_getLast nonempty
  refine ⟨?_, by simp, ?_⟩
  · have chain := fifo.chain
    have nodup := fifo.nodup
    rw [← whole] at chain nodup new ⊢
    exact chain.snoc nodup there ends new
  · rw [List.nodup_append]
    refine ⟨fifo.nodup, by simp, ?_⟩
    intro a member b is
    rw [List.mem_singleton.mp is]
    rintro rfl
    exact new member

theorem Fifo.tail_mem (fifo : Fifo next stop head tail l) (some_ : head ≠ stop) : tail ∈ l := by
  have nonempty : l ≠ [] := fun none_ => some_ (fifo.head_eq.mpr none_)
  rw [fifo.last (l.getLast nonempty) (List.getLast?_eq_some_getLast nonempty)]
  exact List.getLast_mem nonempty

/-- A member whose own link is cleared first. -/
theorem Fifo.push_cleared (fifo : Fifo next stop head tail l) (some_ : head ≠ stop) {r : Nat}
    (there : r ≠ stop) (new : r ∉ l) :
    Fifo (Function.update (Function.update next r stop) tail r) stop head r (l ++ [r]) :=
  (fifo.frame new stop).push some_ there (Function.update_self r stop next) new

theorem Fifo.push_first (fifo : Fifo next stop head tail l) (none_ : head = stop) {r : Nat}
    (there : r ≠ stop) : Fifo (Function.update next r stop) stop r r (l ++ [r]) := by
  rw [fifo.head_eq.mp none_]
  exact .single there (Function.update_self r stop next)

theorem Fifo.pop {r : Nat} {rest : List Nat} (fifo : Fifo next stop head tail (r :: rest)) :
    head = r ∧ Fifo next stop (next r) tail rest := by
  refine ⟨fifo.chain.1, fifo.chain.tail, ?_, (List.nodup_cons.mp fifo.nodup).2⟩
  intro last is
  exact fifo.last last (by rw [List.getLast?_cons, is]; rfl)

end Fifo

end SoaPort.Lib
