import Mathlib.Data.List.Basic

namespace SoaPort.Lib

/-! Linear probing: the first place, from a start and round a table, that stops a search. -/

section Probe

@[grind =]
def probe (stop : Nat → Bool) (size : Nat) : Nat → Nat → Option Nat
  | 0, _ => none
  | n + 1, i => if stop i then some i else probe stop size n ((i + 1) % size)

variable {stop less : Nat → Bool} {size : Nat}

theorem probe_stops {n i j : Nat} (found : probe stop size n i = some j) : stop j = true := by
  induction n generalizing i with
  | zero => cases found
  | succ n ih =>
      rw [probe] at found
      split at found
      next here =>
        cases found
        exact here
      · exact ih found

theorem probe_lt (pos : 0 < size) {n i j : Nat} (start : i < size)
    (found : probe stop size n i = some j) : j < size := by
  induction n generalizing i with
  | zero => cases found
  | succ n ih =>
      rw [probe] at found
      split at found
      · cases found
        exact start
      · exact ih (Nat.mod_lt _ pos) found

/-- A search that stops at fewer places finds the same one while it stops there. -/
theorem probe_less (fewer : ∀ k, less k = true → stop k = true) {n i j : Nat}
    (found : probe stop size n i = some j) (stays : less j = true) :
    probe less size n i = some j := by
  induction n generalizing i with
  | zero => cases found
  | succ n ih =>
      rw [probe] at found ⊢
      split at found
      · cases found
        rw [if_pos stays]
      next goes =>
        have still : ¬ less i = true := fun here => goes (fewer i here)
        rw [if_neg still]
        exact ih found

/-- A search round the whole table misses only when nothing in it stops one. -/
theorem probe_none {n i : Nat} (start : i < size) (missed : probe stop size n i = none) :
    ∀ m < n, stop ((i + m) % size) = false := by
  induction n generalizing i with
  | zero => exact fun m low => absurd low (Nat.not_lt_zero m)
  | succ n ih =>
      rw [probe] at missed
      split at missed
      · cases missed
      next goes =>
        intro m low
        cases m with
        | zero =>
            rw [Nat.add_zero, Nat.mod_eq_of_lt start]
            exact Bool.eq_false_iff.mpr goes
        | succ m =>
            have rest := ih (Nat.mod_lt _ (by omega)) missed m (by omega)
            rw [Nat.mod_add_mod] at rest
            rw [Nat.add_comm m 1, ← Nat.add_assoc]
            exact rest

theorem probe_full {i : Nat} (start : i < size) (missed : probe stop size size i = none) :
    ∀ k < size, stop k = false := by
  intro k low
  cases Nat.lt_or_ge k i with
  | inl before =>
      have there := probe_none start missed (k + size - i) (by omega)
      have round : i + (k + size - i) = k + size := by omega
      rw [round, Nat.add_mod_right, Nat.mod_eq_of_lt low] at there
      exact there
  | inr after =>
      have there := probe_none start missed (k - i) (by omega)
      have round : i + (k - i) = k := by omega
      rw [round, Nat.mod_eq_of_lt low] at there
      exact there

end Probe

end SoaPort.Lib
