import SoaPort.Ppc.WalkClaims

namespace SoaPort.Ppc

/-! The gaps between the functions found: runs of unclaimed words, and every
unclaimed word in one of them. -/

theorem mem_gap_words {start stop a : Nat} :
    a ∈ gap_words start stop ↔ start ≤ a ∧ a < stop ∧ (a - start) % 4 = 0 := by
  unfold gap_words
  rw [List.mem_range']
  constructor
  · rintro ⟨k, inside, rfl⟩
    omega
  · rintro ⟨low, high, aligned⟩
    exact ⟨(a - start) / 4, by omega, by omega⟩

namespace Section

theorem mem_words {s : Section} {a : Nat} :
    a ∈ s.words ↔ s.address ≤ a ∧ a < s.end ∧ (a - s.address) % 4 = 0 := by
  unfold words «end»
  rw [List.mem_range']
  constructor
  · rintro ⟨k, inside, rfl⟩
    omega
  · rintro ⟨low, high, aligned⟩
    exact ⟨(a - s.address) / 4, by omega, by omega⟩

/-- The words that lie in the section whole. -/
def whole_words (s : Section) : List Nat := s.words.filter fun a => a + 4 ≤ s.end

theorem contains_of_mem {s : Section} {a : Nat} (member : a ∈ s.words) :
    s.contains a = true := by
  obtain ⟨low, high, _⟩ := mem_words.mp member
  simp [contains, low, high]

end Section

section Runs

variable {functions : List Function} {base stop : Nat}

/-- A gap of the section from `base` to `stop`. -/
structure IsGap (functions : List Function) (base stop : Nat) (gap : Nat × Nat) : Prop where
  from_base : base ≤ gap.1
  on_grid : (gap.1 - base) % 4 = 0
  nonempty : gap.1 < gap.2
  inside : gap.2 ≤ stop
  clear : ∀ a ∈ gap_words gap.1 gap.2, claimed functions a = false

/-- A run of unclaimed words that began at `r`, seen at `x`. -/
structure RunOf (functions : List Function) (base x r : Nat) : Prop where
  from_base : base ≤ r
  on_grid : (r - base) % 4 = 0
  before : r < x
  aligned : (x - r) % 4 = 0
  clear : ∀ a ∈ gap_words r x, claimed functions a = false

theorem RunOf.extend {x r : Nat} (run : RunOf functions base x r)
    (unclaimed : claimed functions x = false) : RunOf functions base (x + 4) r where
  from_base := run.from_base
  on_grid := run.on_grid
  before := Nat.lt_add_right 4 run.before
  aligned := by
    have := run.before
    have := run.aligned
    omega
  clear a member := by
    obtain ⟨low, high, aligned⟩ := mem_gap_words.mp member
    rcases Nat.lt_or_ge a x with earlier | later
    · exact run.clear a (mem_gap_words.mpr ⟨low, earlier, aligned⟩)
    · have := run.before
      have := run.aligned
      have here : a = x := by omega
      rw [here]
      exact unclaimed

theorem RunOf.start {x : Nat} (above : base ≤ x) (grid : (x - base) % 4 = 0)
    (unclaimed : claimed functions x = false) : RunOf functions base (x + 4) x where
  from_base := above
  on_grid := grid
  before := Nat.lt_add_of_pos_right (by decide)
  aligned := by omega
  clear a member := by
    obtain ⟨low, high, aligned⟩ := mem_gap_words.mp member
    have here : a = x := by omega
    rw [here]
    exact unclaimed

theorem RunOf.isGap {x r : Nat} (run : RunOf functions base x r) {y : Nat} (later : r < y)
    (within : y ≤ x) (inside : y ≤ stop) : IsGap functions base stop (r, y) where
  from_base := run.from_base
  on_grid := run.on_grid
  nonempty := later
  inside := inside
  clear a member := by
    obtain ⟨low, high, aligned⟩ := mem_gap_words.mp member
    exact run.clear a (mem_gap_words.mpr ⟨low, lt_of_lt_of_le high within, aligned⟩)

theorem gap_runs_cons (min_words a : Nat) (rest : List Nat) (run : Option Nat) :
    gap_runs functions stop min_words run (a :: rest) =
      if claimed functions a then
        match run with
        | some r =>
            if (a - r) / 4 ≥ min_words then
              (r, a) :: gap_runs functions stop min_words none rest
            else gap_runs functions stop min_words none rest
        | none => gap_runs functions stop min_words none rest
      else gap_runs functions stop min_words (some (run.getD a)) rest := by
  cases run <;> rfl

theorem gap_runs_isGap (n x : Nat) (run : Option Nat) (above : base ≤ x)
    (grid : (x - base) % 4 = 0) (running : ∀ r, run = some r → RunOf functions base x r)
    (last : x + 4 * n < stop + 4) (covers : stop ≤ x + 4 * n) (gap : Nat × Nat)
    (found : gap ∈ gap_runs functions stop 1 run (List.range' x n 4)) :
    IsGap functions base stop gap := by
  induction n generalizing x run with
  | zero =>
      cases run with
      | none => cases found
      | some r =>
          simp only [List.range'_zero, gap_runs] at found
          split at found
          · cases List.mem_singleton.mp found
            exact (running r rfl).isGap (by omega) (by omega) le_rfl
          · cases found
  | succ n ih =>
      have onward (run' : Option Nat) (running' : ∀ r, run' = some r → RunOf functions base (x + 4) r) :=
        ih (x + 4) run' (by omega) (by omega) running' (by omega) (by omega)
      have idle (r : Nat) (none_some : (none : Option Nat) = some r) :
          RunOf functions base (x + 4) r := by cases none_some
      rw [List.range'_succ, gap_runs_cons] at found
      split at found
      · cases run with
        | none => exact onward none idle found
        | some r =>
            simp only at found
            split at found
            · rcases List.mem_cons.mp found with rfl | later
              · exact (running r rfl).isGap (running r rfl).before le_rfl (by omega)
              · exact onward none idle later
            · exact onward none idle found
      · rename_i unclaimed
        have unclaimed : claimed functions x = false := by simpa using unclaimed
        refine onward _ ?_ found
        intro r same
        cases run with
        | none =>
            cases same
            exact .start above grid unclaimed
        | some r' =>
            cases same
            exact (running r' rfl).extend unclaimed

theorem gap_runs_complete (n x : Nat) (run : Option Nat) {a : Nat} (whole : a + 4 ≤ stop)
    (running : ∀ r, run = some r → r < x ∧ (x - r) % 4 = 0)
    (unclaimed : claimed functions a = false)
    (pending : a ∈ List.range' x n 4 ∨ ∃ r, run = some r ∧ a ∈ gap_words r x) :
    ∃ gap ∈ gap_runs functions stop 1 run (List.range' x n 4), a ∈ gap_words gap.1 gap.2 := by
  induction n generalizing x run with
  | zero =>
      obtain absurd | ⟨r, rfl, member⟩ := pending
      · cases absurd
      · obtain ⟨low, _, aligned⟩ := mem_gap_words.mp member
        refine ⟨(r, stop), ?_, mem_gap_words.mpr ⟨low, by omega, aligned⟩⟩
        simp only [List.range'_zero, gap_runs]
        rw [if_pos (by omega)]
        exact List.mem_singleton_self _
  | succ n ih =>
      rw [List.range'_succ] at pending ⊢
      rw [gap_runs_cons]
      cases here : claimed functions x with
      | true =>
          have idle (r : Nat) (none_some : (none : Option Nat) = some r) :
              r < x + 4 ∧ (x + 4 - r) % 4 = 0 := by cases none_some
          have later (member : a ∈ x :: List.range' (x + 4) n 4) :
              a ∈ List.range' (x + 4) n 4 := by
            rcases List.mem_cons.mp member with rfl | later
            · rw [here] at unclaimed
              cases unclaimed
            · exact later
          rw [if_pos rfl]
          cases run with
          | none =>
              obtain member | ⟨r, none_some, _⟩ := pending
              · exact ih (x + 4) none idle (.inl (later member))
              · cases none_some
          | some r =>
              obtain ⟨before, aligned⟩ := running r rfl
              simp only
              rw [if_pos (by omega)]
              obtain member | ⟨r', same, member⟩ := pending
              · obtain ⟨gap, found, inside⟩ := ih (x + 4) none idle (.inl (later member))
                exact ⟨gap, List.mem_cons_of_mem _ found, inside⟩
              · cases same
                exact ⟨(r, x), List.mem_cons_self, member⟩
      | false =>
          rw [if_neg (by decide)]
          apply ih (x + 4)
          · intro r same
            cases run with
            | none =>
                cases same
                rw [Option.getD_none]
                omega
            | some r' =>
                cases same
                obtain ⟨before, aligned⟩ := running r' rfl
                rw [Option.getD_some]
                omega
          · obtain member | ⟨r, same, member⟩ := pending
            · rcases List.mem_cons.mp member with rfl | later
              · right
                cases run with
                | none => exact ⟨a, rfl, mem_gap_words.mpr ⟨le_rfl, by omega, by omega⟩⟩
                | some r =>
                    obtain ⟨before, aligned⟩ := running r rfl
                    exact ⟨r, rfl, mem_gap_words.mpr ⟨by omega, by omega, aligned⟩⟩
              · exact .inl later
            · subst same
              obtain ⟨low, high, aligned⟩ := mem_gap_words.mp member
              exact .inr ⟨r, rfl, mem_gap_words.mpr ⟨low, by omega, aligned⟩⟩

end Runs

/-! The gaps of a program. -/

section Program

variable {dol : Dol} {functions : List Function}

/-- Every gap lies in a text section and holds no claimed word. -/
theorem find_gaps_isGap {gap : Nat × Nat} (found : gap ∈ find_gaps dol functions 1) :
    ∃ s ∈ dol.text, IsGap functions s.address s.end gap := by
  obtain ⟨s, member, inside⟩ := List.mem_flatMap.mp found
  refine ⟨s, member, ?_⟩
  apply gap_runs_isGap ((s.size + 3) / 4) s.address none le_rfl (by omega) (by simp) _ _ gap inside
  · unfold Section.end
    omega
  · unfold Section.end
    omega

theorem IsGap.mem_words {s : Section} {gap : Nat × Nat}
    (is_gap : IsGap functions s.address s.end gap) {a : Nat}
    (member : a ∈ gap_words gap.1 gap.2) : a ∈ s.words := by
  obtain ⟨low, high, aligned⟩ := mem_gap_words.mp member
  have := is_gap.from_base
  have := is_gap.on_grid
  have := is_gap.inside
  exact Section.mem_words.mpr ⟨by omega, by omega, by omega⟩

theorem IsGap.start_mem {gap : Nat × Nat} {base stop : Nat}
    (is_gap : IsGap functions base stop gap) : gap.1 ∈ gap_words gap.1 gap.2 :=
  mem_gap_words.mpr ⟨le_rfl, is_gap.nonempty, by simp⟩

theorem find_gaps_complete {s : Section} (text : s ∈ dol.text) {a : Nat}
    (member : a ∈ s.whole_words) (unclaimed : claimed functions a = false) :
    ∃ gap ∈ find_gaps dol functions 1,
      IsGap functions s.address s.end gap ∧ a ∈ gap_words gap.1 gap.2 := by
  obtain ⟨word, whole⟩ := List.mem_filter.mp member
  obtain ⟨gap, found, inside⟩ := gap_runs_complete ((s.size + 3) / 4) s.address none
    (of_decide_eq_true whole) (by simp) unclaimed (.inl word)
  refine ⟨gap, List.mem_flatMap.mpr ⟨s, text, found⟩, ?_, inside⟩
  apply gap_runs_isGap ((s.size + 3) / 4) s.address none le_rfl (by omega) (by simp) _ _ gap found
  · unfold Section.end
    omega
  · unfold Section.end
    omega

end Program

end SoaPort.Ppc
