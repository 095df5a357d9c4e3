import Mathlib.Data.Fintype.Card
import Mathlib.Logic.Function.Basic
import SoaPort.Lib.Probe

namespace SoaPort.Lib

/-! A table of slots searched by linear probing from each element's home. An element may lie
past its home, but no slot between the two is empty; removing one moves later elements back
into the gap it leaves. -/

section Ahead

variable {size : Nat}

/-- The steps from one slot forward to another, round the table. -/
def ahead (size i p : Nat) : Nat := if i ≤ p then p - i else p + size - i

theorem ahead_lt {i p : Nat} (i_lt : i < size) (p_lt : p < size) : ahead size i p < size := by
  unfold ahead
  split <;> omega

theorem step_cases {i m : Nat} (i_lt : i < size) (m_le : m ≤ size) :
    ((i + m) % size = i + m ∧ i + m < size) ∨
      ((i + m) % size + size = i + m ∧ size ≤ i + m) := by
  cases Nat.lt_or_ge (i + m) size with
  | inl inside => exact .inl ⟨Nat.mod_eq_of_lt inside, inside⟩
  | inr round =>
      rw [Nat.mod_eq_sub_mod round, Nat.mod_eq_of_lt (by omega)]
      omega

theorem ahead_step {i m : Nat} (i_lt : i < size) (m_lt : m < size) :
    ahead size i ((i + m) % size) = m := by
  unfold ahead
  rcases step_cases i_lt (Nat.le_of_lt m_lt) with ⟨there, inside⟩ | ⟨there, round⟩
  · rw [there, if_pos (Nat.le_add_right i m), Nat.add_sub_cancel_left]
  · split <;> omega

theorem step_ahead {i p : Nat} (i_lt : i < size) (p_lt : p < size) :
    (i + ahead size i p) % size = p := by
  unfold ahead
  split
  next up =>
    have there : i + (p - i) = p := by omega
    rw [there, Nat.mod_eq_of_lt p_lt]
  next round =>
    have there : i + (p + size - i) = p + size := by omega
    rw [there, Nat.add_mod_right, Nat.mod_eq_of_lt p_lt]

/-- The slot after one, seen from a slot: one step more, or none. -/
theorem ahead_next {i j : Nat} (i_lt : i < size) (j_lt : j < size) :
    ahead size i ((j + 1) % size) = ahead size i j + 1 ∨
      ((j + 1) % size = i ∧ ahead size i j + 1 = size) := by
  unfold ahead
  rcases step_cases j_lt (m := 1) (by omega) with ⟨there, inside⟩ | ⟨there, round⟩
  all_goals
    split
    all_goals
      split
      all_goals omega

end Ahead

/-! Where a search comes to rest: at the first slot on its way that stops it. -/

section Rest

variable {stop : Nat → Bool} {size : Nat}

theorem probe_before {n i p : Nat} (i_lt : i < size) (found : probe stop size n i = some p) :
    ∀ q < size, ahead size i q < ahead size i p → stop q = false := by
  induction n generalizing i with
  | zero => cases found
  | succ n ih =>
      rw [probe] at found
      split at found
      · cases found
        intro q q_lt before
        simp [ahead] at before
      next goes =>
        intro q q_lt before
        have next_lt : (i + 1) % size < size := Nat.mod_lt _ (by omega)
        have p_lt := probe_lt (by omega) next_lt found
        have rest := ih next_lt found q q_lt
        rcases eq_or_ne q i with rfl | away
        · exact Bool.eq_false_iff.mpr goes
        · apply rest
          unfold ahead at before ⊢
          rcases step_cases i_lt (m := 1) (by omega) with ⟨there, inside⟩ | ⟨there, round⟩
          all_goals grind

/-- The search ends at a slot that stops it when none before it does. -/
theorem probe_first {i p : Nat} (i_lt : i < size) (p_lt : p < size) (stops : stop p = true)
    (first : ∀ q < size, ahead size i q < ahead size i p → stop q = false) :
    probe stop size size i = some p := by
  cases found : probe stop size size i with
  | none =>
      rw [probe_full i_lt found p p_lt] at stops
      cases stops
  | some q =>
      have q_lt := probe_lt (by omega) i_lt found
      have rests := probe_stops found
      have before := probe_before i_lt found p p_lt
      cases Nat.lt_trichotomy (ahead size i p) (ahead size i q) with
      | inl less =>
          rw [before less] at stops
          cases stops
      | inr other =>
          rcases other with same | more
          · rw [← step_ahead i_lt p_lt, ← step_ahead i_lt q_lt, same]
          · rw [first q q_lt more] at rests
            cases rests

end Rest

variable {E : Type} [DecidableEq E]

section Operations

variable (home : E → Nat) (size : Nat)

/-- What a search from a slot for a wanted element ends on: one, or an empty slot. -/
def seek (slot : Nat → Option E) (wanted : E → Bool) (start : Nat) : Option (Option E) :=
  (probe (fun i => (slot i).all wanted) size size start).map slot

def put_in (slot : Nat → Option E) (e : E) : Option (Nat → Option E) :=
  (probe (fun i => (slot i).isNone) size size (home e)).map fun i =>
    Function.update slot i (some e)

/-- Closing a gap: from the slot after the last one looked at, an element moves into the
gap unless its home lies after the gap and no later than where it is. -/
def close : Nat → (Nat → Option E) → Nat → Nat → Option (Nat → Option E)
  | 0, _, _, _ => none
  | n + 1, slot, gap, last =>
      let j := (last + 1) % size
      match slot j with
      | none => some slot
      | some e =>
          if 0 < ahead size gap (home e) ∧ ahead size gap (home e) ≤ ahead size gap j then
            close n slot gap j
          else close n (Function.update (Function.update slot gap (some e)) j none) j j

def take_out (slot : Nat → Option E) (e : E) : Option (Nat → Option E) :=
  (probe (fun i => slot i = some e) size size (home e)).bind fun i =>
    close home size size (Function.update slot i none) i i

end Operations

section Filed

variable (home : E → Nat) (size : Nat)

/-- Every live element is in one slot of the table, and nothing else is in any. -/
structure Holds (slot : Nat → Option E) (live : Finset E) : Prop where
  content : ∀ e, e ∈ live ↔ ∃ p < size, slot p = some e
  once : ∀ e, ∀ p < size, ∀ q < size, slot p = some e → slot q = some e → p = q

/-- No slot between an element's home and its own is empty. -/
structure Filed (slot : Nat → Option E) (live : Finset E) : Prop
    extends Holds size slot live where
  reached : ∀ p < size, ∀ e, slot p = some e →
    ∀ q < size, ahead size (home e) q < ahead size (home e) p → slot q ≠ none

/-- The same but for one gap, and nothing in the slots looked at past the gap has to cross it. -/
structure Gap (slot : Nat → Option E) (live : Finset E) (gap last : Nat) : Prop
    extends Holds size slot live where
  gap_lt : gap < size
  last_lt : last < size
  empty : slot gap = none
  passed : ∀ q < size, 0 < ahead size gap q → ahead size gap q ≤ ahead size gap last →
    ∃ e, slot q = some e ∧ 0 < ahead size gap (home e) ∧
      ahead size gap (home e) ≤ ahead size gap q
  reached : ∀ p < size, ∀ e, slot p = some e →
    ∀ q < size, ahead size (home e) q < ahead size (home e) p → slot q ≠ none ∨ q = gap

end Filed

section Holds

variable {size : Nat} {slot : Nat → Option E} {live : Finset E}

omit [DecidableEq E] in
theorem Holds.free (holds : Holds size slot live) (room : live.card < size) :
    ∃ p < size, slot p = none := by
  by_contra full
  push Not at full
  have filled : ∀ p : Fin size, ∃ e, slot p = some e := fun p =>
    Option.ne_none_iff_exists'.mp (full p p.isLt)
  choose entry at_entry using filled
  have crowded := Finset.card_le_card_of_injOn entry
    (fun p _ => (holds.content _).mpr ⟨p, p.isLt, at_entry p⟩)
    (s := Finset.univ) (t := live) (fun p _ q _ same => Fin.ext
      (holds.once (entry p) p p.isLt q q.isLt (at_entry p) (by rw [same]; exact at_entry q)))
  rw [Finset.card_univ, Fintype.card_fin] at crowded
  omega

theorem Holds.filled (holds : Holds size slot live) {i : Nat} {e : E} (i_lt : i < size)
    (hole : slot i = none) (fresh : e ∉ live) :
    Holds size (Function.update slot i (some e)) (insert e live) where
  content other := by
    rw [Finset.mem_insert, holds.content]
    constructor
    · rintro (rfl | ⟨p, p_lt, at_p⟩)
      · exact ⟨i, i_lt, Function.update_self ..⟩
      · refine ⟨p, p_lt, ?_⟩
        rw [Function.update_of_ne, at_p]
        rintro rfl
        rw [hole] at at_p
        cases at_p
    · rintro ⟨p, p_lt, at_p⟩
      rw [Function.update_apply] at at_p
      split at at_p
      · exact .inl (Option.some.inj at_p).symm
      · exact .inr ⟨p, p_lt, at_p⟩
  once other p p_lt q q_lt at_p at_q := by
    have absent : ∀ r < size, slot r ≠ some e := fun r r_lt at_r =>
      fresh ((holds.content e).mpr ⟨r, r_lt, at_r⟩)
    rw [Function.update_apply] at at_p at_q
    split at at_p
    next p_i =>
      split at at_q
      next q_i => rw [p_i, q_i]
      next =>
        cases at_p
        exact absurd at_q (absent q q_lt)
    next =>
      split at at_q
      next =>
        cases at_q
        exact absurd at_p (absent p p_lt)
      next => exact holds.once other p p_lt q q_lt at_p at_q

theorem Holds.emptied (holds : Holds size slot live) {i : Nat} {e : E} (i_lt : i < size)
    (at_i : slot i = some e) :
    Holds size (Function.update slot i none) (live.erase e) where
  content other := by
    rw [Finset.mem_erase, holds.content]
    constructor
    · rintro ⟨away, p, p_lt, at_p⟩
      refine ⟨p, p_lt, ?_⟩
      rw [Function.update_of_ne, at_p]
      rintro rfl
      rw [at_i] at at_p
      exact away (Option.some.inj at_p).symm
    · rintro ⟨p, p_lt, at_p⟩
      rw [Function.update_apply] at at_p
      split at at_p
      · cases at_p
      next p_i =>
        refine ⟨?_, p, p_lt, at_p⟩
        rintro rfl
        exact p_i (holds.once other p p_lt i i_lt at_p at_i)
  once other p p_lt q q_lt at_p at_q := by
    rw [Function.update_apply] at at_p at_q
    split at at_p
    · cases at_p
    split at at_q
    · cases at_q
    exact holds.once other p p_lt q q_lt at_p at_q

/-- An element moves from one slot into an empty one. -/
theorem Holds.moved (holds : Holds size slot live) {i j : Nat} {e : E} (i_lt : i < size)
    (j_lt : j < size) (hole : slot i = none) (at_j : slot j = some e) :
    Holds size (Function.update (Function.update slot i (some e)) j none) live := by
  have apart : i ≠ j := by
    rintro rfl
    rw [hole] at at_j
    cases at_j
  have mem : e ∈ live := (holds.content e).mpr ⟨j, j_lt, at_j⟩
  have still : Function.update slot j none i = none := by
    rw [Function.update_of_ne apart, hole]
  have out := (holds.emptied j_lt at_j).filled i_lt still (Finset.notMem_erase e live)
  rw [Finset.insert_erase mem] at out
  rw [Function.update_comm apart]
  exact out

end Holds

variable {home : E → Nat} {size : Nat} {slot : Nat → Option E} {live : Finset E}

/-! Searching. -/

section Seek

omit [DecidableEq E] in
theorem Filed.seek_live (homes : ∀ e, home e < size) (filed : Filed home size slot live)
    {wanted : E → Bool} {e : E} (mem : e ∈ live) (is_wanted : wanted e = true)
    (only : ∀ other ∈ live, wanted other = true → other = e) :
    seek size slot wanted (home e) = some (some e) := by
  obtain ⟨p, p_lt, at_p⟩ := (filed.content e).mp mem
  have rests : probe (fun i => (slot i).all wanted) size size (home e) = some p := by
    apply probe_first (homes e) p_lt
    · rw [at_p]
      exact is_wanted
    · intro q q_lt before
      have full := filed.reached p p_lt e at_p q q_lt before
      obtain ⟨other, at_q⟩ := Option.ne_none_iff_exists'.mp full
      rw [at_q]
      apply Bool.eq_false_iff.mpr
      intro match_
      have same := only other ((filed.content other).mpr ⟨q, q_lt, at_q⟩) match_
      subst same
      have q_p := filed.once other q q_lt p p_lt at_q at_p
      subst q_p
      exact Nat.lt_irrefl _ before
  rw [seek, rests, Option.map_some, at_p]

omit [DecidableEq E] in
theorem Filed.seek_none (filed : Filed home size slot live) (room : live.card < size)
    {wanted : E → Bool} {start : Nat} (start_lt : start < size)
    (unwanted : ∀ e ∈ live, wanted e = false) : seek size slot wanted start = some none := by
  obtain ⟨free, free_lt, empty⟩ := filed.free room
  cases found : probe (fun i => (slot i).all wanted) size size start with
  | none =>
      have runs : (slot free).all wanted = false := probe_full start_lt found free free_lt
      rw [empty] at runs
      cases runs
  | some p =>
      rw [seek, found, Option.map_some]
      have stops : (slot p).all wanted = true := probe_stops found
      cases at_p : slot p with
      | none => rfl
      | some e =>
          have p_lt := probe_lt (by omega) start_lt found
          have not_wanted := unwanted e ((filed.content e).mpr ⟨p, p_lt, at_p⟩)
          rw [at_p, Option.all_some, not_wanted] at stops
          cases stops

/-! Putting in. -/

theorem Filed.put_in (homes : ∀ e, home e < size) (filed : Filed home size slot live)
    (room : live.card < size) {e : E} (fresh : e ∉ live) :
    ∃ slot', put_in home size slot e = some slot' ∧ Filed home size slot' (insert e live) := by
  obtain ⟨free, free_lt, empty⟩ := filed.free room
  cases found : probe (fun i => (slot i).isNone) size size (home e) with
  | none =>
      have runs : (slot free).isNone = false := probe_full (homes e) found free free_lt
      rw [empty] at runs
      cases runs
  | some i =>
      have i_lt := probe_lt (by omega) (homes e) found
      have hole : slot i = none := Option.isNone_iff_eq_none.mp (probe_stops found)
      have before : ∀ q < size, ahead size (home e) q < ahead size (home e) i →
          slot q ≠ none := by
        intro q q_lt closer none_
        have runs : (slot q).isNone = false := probe_before (homes e) found q q_lt closer
        rw [none_] at runs
        cases runs
      refine ⟨Function.update slot i (some e), by rw [Lib.put_in, found, Option.map_some], ?_⟩
      refine { toHolds := filed.toHolds.filled i_lt hole fresh, reached := ?_ }
      intro p p_lt other at_p q q_lt closer none_
      rw [Function.update_apply] at at_p none_
      split at none_
      · cases none_
      split at at_p
      next p_i =>
        cases at_p
        rw [p_i] at closer
        exact before q q_lt closer none_
      next => exact filed.reached p p_lt other at_p q q_lt closer none_

/-! Taking out. -/

omit [DecidableEq E] in
/-- A slot past the gap that has to cross nothing comes to be looked at. -/
theorem Gap.pass {gap last j : Nat} (state : Gap home size slot live gap last)
    (j_lt : j < size) (next : ahead size gap j = ahead size gap last + 1) {e : E}
    (at_j : slot j = some e) (after : 0 < ahead size gap (home e))
    (no_later : ahead size gap (home e) ≤ ahead size gap j) :
    Gap home size slot live gap j where
  toHolds := state.toHolds
  gap_lt := state.gap_lt
  last_lt := j_lt
  empty := state.empty
  passed q q_lt past upto := by
    rcases Nat.lt_or_ge (ahead size gap last) (ahead size gap q) with beyond | looked
    · have same : ahead size gap q = ahead size gap j := by omega
      have q_j : q = j := by
        rw [← step_ahead state.gap_lt q_lt, ← step_ahead state.gap_lt j_lt, same]
      subst q_j
      exact ⟨e, at_j, after, no_later⟩
    · exact state.passed q q_lt past looked
  reached := state.reached

/-- The element after the slots looked at moves into the gap, and leaves one where it was. -/
theorem Gap.move {gap last j : Nat} (homes : ∀ e, home e < size)
    (state : Gap home size slot live gap last) (j_lt : j < size) {e : E} (at_j : slot j = some e)
    (crosses : ¬ (0 < ahead size gap (home e) ∧ ahead size gap (home e) ≤ ahead size gap j)) :
    Gap home size (Function.update (Function.update slot gap (some e)) j none) live j j where
  toHolds := state.toHolds.moved state.gap_lt j_lt state.empty at_j
  gap_lt := j_lt
  last_lt := j_lt
  empty := Function.update_self ..
  passed q q_lt past upto := by
    have here : ahead size j j = 0 := by simp [ahead]
    omega
  reached p p_lt other at_p q q_lt closer := by
    by_cases q_j : q = j
    · exact .inr q_j
    refine .inl ?_
    rw [Function.update_of_ne q_j]
    by_cases q_gap : q = gap
    · subst q_gap
      rw [Function.update_self]
      exact Option.some_ne_none e
    rw [Function.update_of_ne q_gap]
    rw [Function.update_apply] at at_p
    split at at_p
    · cases at_p
    rw [Function.update_apply] at at_p
    split at at_p
    next p_gap =>
      -- what fills the gap had it on the way from its home
      cases at_p
      subst p_gap
      have way : ahead size (home e) p ≤ ahead size (home e) j := by
        have home_lt := homes e
        unfold ahead at crosses ⊢
        grind
      exact (state.reached j j_lt e at_j q q_lt (by omega)).resolve_right q_gap
    next => exact (state.reached p p_lt other at_p q q_lt closer).resolve_right q_gap

omit [DecidableEq E] in
/-- When the slot after those looked at is empty, nothing has to cross the gap. -/
theorem Gap.closed {gap last j : Nat} (homes : ∀ e, home e < size)
    (state : Gap home size slot live gap last) (j_lt : j < size)
    (next : ahead size gap j = ahead size gap last + 1) (empty : slot j = none) :
    Filed home size slot live where
  toHolds := state.toHolds
  reached p p_lt e at_p q q_lt closer none_ := by
    have q_gap := (state.reached p p_lt e at_p q q_lt closer).resolve_left (not_not.mpr none_)
    subst q_gap
    have p_j : p ≠ j := by
      rintro rfl
      rw [empty] at at_p
      cases at_p
    rcases Nat.lt_or_ge (ahead size q last) (ahead size q p) with beyond | looked
    · -- the empty slot is on the way from the home too
      have way : ahead size (home e) j < ahead size (home e) p := by
        have home_lt := homes e
        unfold ahead at next beyond closer ⊢
        grind
      rcases state.reached p p_lt e at_p j j_lt way with full | gap_j
      · exact full empty
      · subst gap_j
        simp [ahead] at next
    · have past : 0 < ahead size q p := by
        unfold ahead at closer ⊢
        grind
      obtain ⟨other, at_p', after, no_later⟩ := state.passed p p_lt past looked
      rw [at_p] at at_p'
      cases at_p'
      have home_lt := homes e
      unfold ahead at closer after no_later
      grind

/-- The gap closes within the steps to an empty slot past those looked at. -/
theorem Gap.close {n gap last p : Nat} (homes : ∀ e, home e < size)
    (state : Gap home size slot live gap last) (p_lt : p < size) (empty : slot p = none)
    (beyond : ahead size gap last < ahead size gap p) (near : ahead size last p ≤ n) :
    ∃ slot', Lib.close home size n slot gap last = some slot' ∧ Filed home size slot' live := by
  have gap_lt := state.gap_lt
  have last_lt := state.last_lt
  induction n generalizing slot gap last with
  | zero =>
      have same : last = p := by
        unfold ahead at near
        grind
      rw [same] at beyond
      exact absurd beyond (Nat.lt_irrefl _)
  | succ n ih =>
      have j_lt : (last + 1) % size < size := Nat.mod_lt _ (by omega)
      have within := ahead_lt gap_lt p_lt
      have next := (ahead_next gap_lt last_lt).resolve_right (by omega)
      rw [Lib.close]
      generalize (last + 1) % size = j at *
      cases at_j : slot j with
      | none => exact ⟨slot, rfl, state.closed homes j_lt next at_j⟩
      | some e =>
          have p_j : p ≠ j := by
            rintro rfl
            rw [empty] at at_j
            cases at_j
          have nearer : ahead size gap j < ahead size gap p ∧ ahead size j p ≤ n := by
            unfold ahead at *
            grind
          dsimp only
          split
          next stays =>
            exact ih (state.pass j_lt next at_j stays.1 stays.2) empty nearer.1 nearer.2
              gap_lt j_lt
          next crosses =>
            have p_gap : p ≠ gap := by
              rintro rfl
              simp [ahead] at beyond
            apply ih (state.move homes j_lt at_j crosses) _ _ nearer.2 j_lt j_lt
            · rw [Function.update_of_ne p_j, Function.update_of_ne p_gap, empty]
            · unfold ahead
              grind

/-- What is left when an element is taken out of its slot. -/
theorem Filed.gap (filed : Filed home size slot live) {i : Nat} {e : E} (i_lt : i < size)
    (at_i : slot i = some e) :
    Gap home size (Function.update slot i none) (live.erase e) i i where
  toHolds := filed.toHolds.emptied i_lt at_i
  gap_lt := i_lt
  last_lt := i_lt
  empty := Function.update_self ..
  passed q q_lt past upto := by
    have here : ahead size i i = 0 := by simp [ahead]
    omega
  reached p p_lt other at_p q q_lt closer := by
    by_cases q_i : q = i
    · exact .inr q_i
    · rw [Function.update_apply] at at_p
      split at at_p
      · cases at_p
      · rw [Function.update_of_ne q_i]
        exact .inl (filed.reached p p_lt other at_p q q_lt closer)

theorem Filed.take_out (homes : ∀ e, home e < size) (filed : Filed home size slot live)
    (room : live.card < size) {e : E} (mem : e ∈ live) :
    ∃ slot', take_out home size slot e = some slot' ∧ Filed home size slot' (live.erase e) := by
  obtain ⟨i, i_lt, at_i⟩ := (filed.content e).mp mem
  obtain ⟨free, free_lt, empty⟩ := filed.free room
  have found : probe (fun i => slot i = some e) size size (home e) = some i := by
    apply probe_first (homes e) i_lt (decide_eq_true at_i)
    intro q q_lt closer
    apply decide_eq_false
    intro at_q
    have q_i := filed.once e q q_lt i i_lt at_q at_i
    subst q_i
    exact Nat.lt_irrefl _ closer
  have apart : free ≠ i := by
    rintro rfl
    rw [empty] at at_i
    cases at_i
  rw [Lib.take_out, found, Option.bind_some]
  apply (filed.gap i_lt at_i).close homes free_lt
  · rw [Function.update_of_ne apart, empty]
  · unfold ahead
    grind
  · exact Nat.le_of_lt (ahead_lt i_lt free_lt)

omit [DecidableEq E] in
/-- The homes of live elements are all that counts. -/
theorem Filed.congr {home' : E → Nat} (filed : Filed home size slot live)
    (same : ∀ e ∈ live, home' e = home e) : Filed home' size slot live where
  toHolds := filed.toHolds
  reached p p_lt e at_p := by
    rw [same e ((filed.content e).mpr ⟨p, p_lt, at_p⟩)]
    exact filed.reached p p_lt e at_p

omit [DecidableEq E] in
/-- Every live element is reached from its home over slots that are not empty. -/
theorem Filed.reach (homes : ∀ e, home e < size) (filed : Filed home size slot live) {e : E}
    (mem : e ∈ live) :
    ∃ steps < size, slot ((home e + steps) % size) = some e ∧
      ∀ m < steps, slot ((home e + m) % size) ≠ none := by
  obtain ⟨p, p_lt, at_p⟩ := (filed.content e).mp mem
  have steps_lt := ahead_lt (homes e) p_lt
  refine ⟨ahead size (home e) p, steps_lt, ?_, ?_⟩
  · rw [step_ahead (homes e) p_lt, at_p]
  · intro m closer
    apply filed.reached p p_lt e at_p _ (Nat.mod_lt _ (by omega))
    rw [ahead_step (homes e) (by omega)]
    exact closer

end Seek

end SoaPort.Lib
