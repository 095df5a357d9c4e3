import Mathlib.Data.List.Basic

namespace SoaPort.Lib

/-! Parsers that take whole items off the front of a buffer and leave the rest
for later: parsing does not depend on how the input was cut. -/

variable {σ τ β : Type}

/-- Take items while `step` finds one, at most `fuel` of them. -/
def consume (step : σ → List β → Option (σ × List β)) : Nat → σ → List β → σ × List β
  | 0, s, xs => (s, xs)
  | fuel + 1, s, xs =>
      match step s xs with
      | none => (s, xs)
      | some (s', rest) => consume step fuel s' rest

/-- Take every whole item. -/
def drain (step : σ → List β → Option (σ × List β)) (s : σ) (xs : List β) : σ × List β :=
  consume step xs.length s xs

/-- Each item is a nonempty prefix of the input, and what it does to the part
of the state seen by `view` depends on that part and on the item alone. -/
structure Framed (view : σ → τ) (step : σ → List β → Option (σ × List β)) : Prop where
  cut : ∀ {s s' : σ} {xs rest : List β}, step s xs = some (s', rest) →
    ∃ item, item ≠ [] ∧ xs = item ++ rest ∧
      ∀ (t : σ) (ys : List β), view t = view s →
        ∃ t', step t (item ++ ys) = some (t', ys) ∧ view t' = view s'

/-- Some items have been taken. -/
inductive Reach (step : σ → List β → Option (σ × List β)) :
    σ → List β → σ → List β → Prop
  | refl (s : σ) (xs : List β) : Reach step s xs s xs
  | head {s t u : σ} {xs ys zs : List β} (taken : step s xs = some (t, ys))
      (more : Reach step t ys u zs) : Reach step s xs u zs

theorem Reach.keeps {step : σ → List β → Option (σ × List β)} {α : Type} {f : σ → α}
    (kept : ∀ {s s' xs rest}, step s xs = some (s', rest) → f s' = f s)
    {s s' : σ} {xs rest : List β} (reach : Reach step s xs s' rest) : f s' = f s := by
  induction reach with
  | refl s xs => rfl
  | head taken more ih => exact ih.trans (kept taken)

theorem Reach.trans {step : σ → List β → Option (σ × List β)} {s t u : σ} {xs ys zs : List β}
    (first : Reach step s xs t ys) (next : Reach step t ys u zs) : Reach step s xs u zs := by
  induction first with
  | refl s xs => exact next
  | head taken more ih => exact .head taken (ih next)

section Drain

variable {view : σ → τ} {step : σ → List β → Option (σ × List β)} (framed : Framed view step)

include framed

theorem Framed.shorter {s s' : σ} {xs rest : List β} (taken : step s xs = some (s', rest)) :
    rest.length < xs.length := by
  obtain ⟨item, nonempty, rfl, _⟩ := framed.cut taken
  have := List.length_pos_iff.mpr nonempty
  rw [List.length_append]
  omega

theorem Framed.nil (s : σ) : step s [] = none := by
  cases taken : step s [] with
  | none => rfl
  | some result => exact absurd (framed.shorter taken) (Nat.not_lt_zero _)

/-- Fuel beyond the length of the input makes no difference. -/
theorem Framed.consume_eq (s : σ) (xs : List β) {fuel : Nat} (enough : xs.length ≤ fuel) :
    consume step fuel s xs = drain step s xs := by
  induction fuel using Nat.strongRecOn generalizing s xs with
  | ind fuel ih =>
      unfold drain
      cases fuel with
      | zero =>
          rw [Nat.le_zero.mp enough]
      | succ fuel =>
          cases xs with
          | nil =>
              rw [consume, framed.nil]
              rfl
          | cons x xs =>
              rw [List.length_cons, consume, consume]
              cases taken : step s (x :: xs) with
              | none => rfl
              | some result =>
                  obtain ⟨s', rest⟩ := result
                  have short := framed.shorter taken
                  rw [List.length_cons] at short enough
                  change consume step fuel s' rest = consume step xs.length s' rest
                  rw [ih fuel (Nat.lt_succ_self fuel) s' rest (by omega)]
                  rcases Nat.lt_or_ge xs.length (fuel + 1) with less | more
                  · rw [ih xs.length less s' rest (by omega)]
                  · omega

omit framed in
theorem drain_none {s : σ} {xs : List β} (stuck : step s xs = none) :
    drain step s xs = (s, xs) := by
  unfold drain
  cases xs with
  | nil => rfl
  | cons x xs => rw [List.length_cons, consume, stuck]

theorem Framed.drain_some {s s' : σ} {xs rest : List β} (taken : step s xs = some (s', rest)) :
    drain step s xs = drain step s' rest := by
  have short := framed.shorter taken
  cases xs with
  | nil => exact absurd short (Nat.not_lt_zero _)
  | cons x xs =>
      rw [List.length_cons] at short
      rw [drain, List.length_cons, consume, taken]
      exact framed.consume_eq s' rest (by omega)

/-- Induction along a drain. -/
theorem Framed.drain_induction {motive : σ → List β → Prop}
    (stuck : ∀ s xs, step s xs = none → motive s xs)
    (taken : ∀ s xs s' rest, step s xs = some (s', rest) → motive s' rest → motive s xs)
    (s : σ) (xs : List β) : motive s xs := by
  induction size : xs.length using Nat.strongRecOn generalizing s xs with
  | ind n ih =>
      cases found : step s xs with
      | none => exact stuck s xs found
      | some result =>
          obtain ⟨s', rest⟩ := result
          have short := framed.shorter found
          exact taken s xs s' rest found (ih rest.length (size ▸ short) s' rest rfl)

/-- Draining ends where no further item is whole. -/
theorem Framed.drain_stuck (s : σ) (xs : List β) :
    step (drain step s xs).1 (drain step s xs).2 = none := by
  induction s, xs using framed.drain_induction with
  | stuck s xs halted =>
      rw [drain_none halted]
      exact halted
  | taken s xs s' rest found ih =>
      rw [framed.drain_some found]
      exact ih

theorem Framed.reach_drain (s : σ) (xs : List β) :
    Reach step s xs (drain step s xs).1 (drain step s xs).2 := by
  induction s, xs using framed.drain_induction with
  | stuck s xs halted =>
      rw [drain_none halted]
      exact .refl s xs
  | taken s xs s' rest found ih =>
      rw [framed.drain_some found]
      exact .head found ih

/-- The items taken are taken when more input follows, from a state that
looks the same. -/
theorem Framed.reach_append {s s' : σ} {xs rest : List β} (reach : Reach step s xs s' rest)
    (t : σ) (ys : List β) (same : view t = view s) :
    ∃ t', Reach step t (xs ++ ys) t' (rest ++ ys) ∧ view t' = view s' := by
  induction reach generalizing t with
  | refl s xs => exact ⟨t, .refl t (xs ++ ys), same⟩
  | head taken more ih =>
      rename_i s mid u xs rest zs
      obtain ⟨item, _, rfl, replay⟩ := framed.cut taken
      obtain ⟨mid', again, same'⟩ := replay t (rest ++ ys) same
      obtain ⟨t', reached, looks⟩ := ih mid' same'
      rw [List.append_assoc]
      exact ⟨t', .head again reached, looks⟩

/-- States that look the same drain the same. -/
theorem Framed.drain_view (s t : σ) (xs : List β) (same : view t = view s) :
    view (drain step t xs).1 = view (drain step s xs).1 ∧
      (drain step t xs).2 = (drain step s xs).2 := by
  induction s, xs using framed.drain_induction generalizing t with
  | stuck s xs halted =>
      cases found : step t xs with
      | none =>
          rw [drain_none halted, drain_none found]
          exact ⟨same, rfl⟩
      | some result =>
          obtain ⟨item, _, split, replay⟩ := framed.cut found
          obtain ⟨s', again, _⟩ := replay s result.2 same.symm
          rw [← split, halted] at again
          cases again
  | taken s xs s' rest found ih =>
      obtain ⟨item, _, split, replay⟩ := framed.cut found
      obtain ⟨t', again, same'⟩ := replay t rest same
      rw [← split] at again
      rw [framed.drain_some found, framed.drain_some again]
      exact ih t' same'

/-- Input may come after some of it has been drained, in a state that looks
the same. -/
theorem Framed.drain_append (s t : σ) (xs ys : List β) (same : view t = view s) :
    view (drain step t (xs ++ ys)).1 =
        view (drain step (drain step s xs).1 ((drain step s xs).2 ++ ys)).1 ∧
      (drain step t (xs ++ ys)).2 =
        (drain step (drain step s xs).1 ((drain step s xs).2 ++ ys)).2 := by
  induction s, xs using framed.drain_induction generalizing t with
  | stuck s xs halted =>
      rw [drain_none halted]
      exact framed.drain_view s t (xs ++ ys) same
  | taken s xs s' rest found ih =>
      obtain ⟨item, _, split, replay⟩ := framed.cut found
      obtain ⟨t', again, same'⟩ := replay t (rest ++ ys) same
      rw [← List.append_assoc, ← split] at again
      rw [framed.drain_some found, framed.drain_some again]
      exact ih t' same'

/-- Another parser that takes the same items, and keeps a relation. -/
theorem Framed.drain_rel {υ : Type} {view' : υ → τ} {step' : υ → List β → Option (υ × List β)}
    (framed' : Framed view' step') (rel : σ → υ → List β → Prop)
    (both : ∀ s u xs, rel s u xs → step s xs = none ∧ step' u xs = none ∨
      ∃ s' u' rest, step s xs = some (s', rest) ∧ step' u xs = some (u', rest) ∧ rel s' u' rest)
    (s : σ) (u : υ) (xs : List β) (related : rel s u xs) :
    rel (drain step s xs).1 (drain step' u xs).1 (drain step s xs).2 ∧
      (drain step' u xs).2 = (drain step s xs).2 := by
  induction s, xs using framed.drain_induction generalizing u with
  | stuck s xs halted =>
      rcases both s u xs related with ⟨_, halted'⟩ | ⟨s', u', rest, found, _⟩
      · rw [drain_none halted, drain_none halted']
        exact ⟨related, rfl⟩
      · rw [halted] at found
        cases found
  | taken s xs s' rest found ih =>
      rcases both s u xs related with ⟨halted, _⟩ | ⟨t', u', rest', found', taken', related'⟩
      · rw [halted] at found
        cases found
      · rw [found] at found'
        cases found'
        rw [framed.drain_some found, framed'.drain_some taken']
        exact ih u' related'

end Drain

end SoaPort.Lib
