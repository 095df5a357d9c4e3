import SoaPort.Pad.Channels
import SoaPort.Pad.LoadCorrect

namespace SoaPort.Pad

open Lib
open Recorder (applied_ops_cons)

/-! A whole recording: its lines are in each sort's frame order, so the loader
holds them all. -/

/-- The frame of an event's line, for one kind. -/
def Line.stamp? (kind : EventKind) : Line → Option Nat
  | .event frame e => if e.kind = kind then some frame else none
  | _ => none

/-- A line the loader can read, order apart. -/
def Line.Good : Line → Prop
  | .pad e => e.frame ≤ ULONG_MAX ∧ e.retrace < 2 ^ 64 ∧ e.st.Plain
  | .event frame e => frame ≤ ULONG_MAX ∧ e.Plain
  | .comment _ => True

section Sorted

theorem Event.line_kind (frame : Nat) (e : Event) : (e.line frame).kind = e.kind := by
  rcases e with (_ | _) | _ | _ <;> rfl

theorem Event.line_frame (frame : Nat) (e : Event) : (e.line frame).frame = frame := by
  rcases e with (_ | _) | _ | _ <;> rfl

theorem last_before {l : List Nat} {n : Nat} {rest : List Nat}
    (order : (l ++ n :: rest).Pairwise (· ≤ ·)) : ∀ d ∈ l.getLast?, d ≤ n := fun d member =>
  (List.pairwise_append.mp order).2.2 d (List.mem_of_getLast? member) n List.mem_cons_self

/-- Lines in the order of each sort are taken one after another. -/
theorem allFit_of_sorted {lines : List Line} (good : ∀ line ∈ lines, line.Good) {l : Loaded}
    (pads : (l.play.map (·.frame) ++ (lines.filterMap Line.pad?).map (·.1)).Pairwise (· ≤ ·))
    (events : ∀ kind, ((l.last kind).toList ++
      lines.filterMap (Line.stamp? kind)).Pairwise (· ≤ ·)) :
    AllFit l lines := by
  induction lines generalizing l with
  | nil => trivial
  | cons line lines ih =>
      have rest := fun line member => good line (List.mem_cons_of_mem _ member)
      have here := good line List.mem_cons_self
      cases line with
      | comment text => exact ⟨trivial, ih rest pads events⟩
      | pad e =>
          refine ⟨⟨here.1, here.2.1, here.2.2, fun d member => ?_⟩, ih rest ?_ events⟩
          · refine last_before pads d.frame ?_
            rw [List.getLast?_map, Option.mem_def.mp member]
            rfl
          · rw [Loaded.push, List.map_append, List.append_assoc]
            exact pads
      | event frame e =>
          refine ⟨⟨here.1, here.2, fun d member => ?_⟩, ih rest pads fun kind => ?_⟩
          · have order := events e.kind
            rw [List.filterMap_cons, Line.stamp?, if_pos rfl, Option.mem_def.mp member] at order
            exact (List.pairwise_append.mp order).2.2 d (by simp) frame (by simp)
          · have order := events kind
            rw [List.filterMap_cons, Line.stamp?] at order
            dsimp only [Loaded.push]
            by_cases same : kind = e.kind
            · subst same
              rw [if_pos rfl] at order ⊢
              exact (List.pairwise_append.mp order).2.1
            · rw [if_neg (Ne.symm same)] at order
              rw [if_neg same]
              exact order

end Sorted

/-! What the loader holds of each sort. -/

section Holds

variable (lines : List Line)

theorem pad_entries :
    (lines.filterMap Line.frame?).map (fun e => (e.frame, e.st)) = lines.filterMap Line.pad? := by
  rw [List.map_filterMap]
  congr 1
  funext line
  cases line <;> rfl

def Line.entry? {β : Type} (kind : EventKind) (value : EventLine → β) : Line → Option (Nat × β)
  | .event frame e => if e.kind = kind then some (frame, value (e.line frame)) else none
  | _ => none

/-- The events of a kind, read as values. -/
theorem kind_entries {β : Type} (kind : EventKind) (value : EventLine → β) :
    ((lines.filterMap Line.event?).filter (·.kind = kind)).map (fun e => (e.frame, value e)) =
      lines.filterMap (Line.entry? kind value) := by
  induction lines with
  | nil => rfl
  | cons line lines ih =>
      cases line with
      | pad e => exact ih
      | comment text => exact ih
      | event frame e =>
          have first : (Line.event frame e :: lines).filterMap Line.event? =
              e.line frame :: lines.filterMap Line.event? := rfl
          rw [first, List.filter_cons, Event.line_kind, List.filterMap_cons, Line.entry?]
          by_cases same : e.kind = kind
          · rw [if_pos (decide_eq_true same), List.map_cons, ih, Event.line_frame, if_pos same]
          · rw [if_neg (by simpa using same), ih, if_neg same]

theorem pad2_entries :
    ((lines.filterMap Line.event?).filter (·.kind = .pad2)).map
        (fun e => (e.frame, (e.st, e.there))) = lines.filterMap Line.pad2? := by
  rw [kind_entries lines .pad2 fun e => (e.st, e.there)]
  congr 1
  funext line
  rcases line with _ | ⟨frame, (_ | st) | h | a⟩ | _
  all_goals first | rfl | (cases a <;> rfl)

theorem host_entries :
    ((lines.filterMap Line.event?).filter (·.kind = .host)).map (fun e => (e.frame, e.host)) =
      lines.filterMap Line.host? := by
  rw [kind_entries lines .host EventLine.host]
  congr 1
  funext line
  rcases line with _ | ⟨frame, (_ | st) | h | a⟩ | _
  all_goals first | rfl | (cases a <;> rfl)

/-- The kinds a safe point takes. -/
def EventKind.Taken : EventKind → Prop
  | .turbo | .action | .savenow => True
  | .pad2 | .host => False

theorem applied_entries {kind : EventKind} (taken : kind.Taken) :
    ((lines.filterMap Line.event?).filter (·.kind = kind)).map (fun e => (e.frame, e.text)) =
      lines.filterMap (Line.applied? kind) := by
  rw [kind_entries lines kind EventLine.text]
  congr 1
  funext line
  rcases line with _ | ⟨frame, st | h | a⟩ | _
  · rfl
  · cases kind <;> first | rfl | cases taken
  · cases kind <;> first | rfl | cases taken
  · rfl
  · rfl

theorem stamps_pad2 :
    lines.filterMap (Line.stamp? .pad2) = (lines.filterMap Line.pad2?).map (·.1) := by
  rw [List.map_filterMap]
  congr 1
  funext line
  rcases line with _ | ⟨frame, (_ | st) | h | a⟩ | _
  all_goals first | rfl | (cases a <;> rfl)

theorem stamps_host :
    lines.filterMap (Line.stamp? .host) = (lines.filterMap Line.host?).map (·.1) := by
  rw [List.map_filterMap]
  congr 1
  funext line
  rcases line with _ | ⟨frame, (_ | st) | h | a⟩ | _
  all_goals first | rfl | (cases a <;> rfl)

theorem stamps_applied {kind : EventKind} (taken : kind.Taken) :
    lines.filterMap (Line.stamp? kind) = (lines.filterMap (Line.applied? kind)).map (·.1) := by
  rw [List.map_filterMap]
  congr 1
  funext line
  rcases line with _ | ⟨frame, st | h | a⟩ | _
  · rfl
  · cases kind <;> first | rfl | cases taken
  · cases kind <;> first | rfl | cases taken
  · rw [Line.stamp?, Line.applied?, Event.kind]
    split <;> rfl
  · rfl

end Holds

/-! What a run leaves in its file. -/

section Finish

/-- The frames a run's reads and safe points are at: they only go forward. -/
structure InOrder (ops : List Op) : Prop where
  forward : (ops.map Op.frame).Pairwise (· ≤ ·)
  counts : ∀ op ∈ ops, op.frame < ULONG_MAX

/-- Where a recording's last lines cannot come before one of its reads: a run
that reported its end let go of port 2 after its last read; one cut short was
not read with pad 1 held past the frame of its last change. -/
def Settled (r : Recorder) (ops : List Op) : Ending → Prop
  | .reported _ => r.p2.1 = PAD_NEUTRAL ∨
      ∀ frame ∈ r.pad_frame, ∀ s ∈ pad2_samples ops, s.1 ≤ frame
  | .killed => ∀ e ∈ (r.lines.filterMap Line.pad?).getLast?,
      e.2 = PAD_NEUTRAL ∨ ∀ s ∈ pad_samples ops, s.1 ≤ e.1

/-- The lines that let go of what was held. -/
def Recorder.release (r : Recorder) (retrace : BitVec 64) : List Line :=
  match r.pad_frame with
  | none => []
  | some frame =>
      (changes r.rec_last [(frame + 1, PAD_NEUTRAL)]).map
          (fun e => Line.pad ⟨e.1, retrace.toNat, e.2⟩) ++
        (changes r.rec_host [(frame + 1, 0)]).map (fun e => Line.event e.1 (.host e.2)) ++
        if r.rec_p2_there = true ∧ r.rec_p2 ≠ PAD_NEUTRAL then
          [.event (frame + 1) (.pad2 (some PAD_NEUTRAL))]
        else []

theorem si_report_lines (r : Recorder) (retrace : BitVec 64) :
    ∃ text, (r.si_report retrace).lines = r.lines ++ r.release retrace ++ [.comment text] := by
  cases known : r.pad_frame with
  | none =>
      rw [Recorder.si_report, Recorder.release, known, List.append_nil]
      exact ⟨_, rfl⟩
  | some frame =>
      rw [Recorder.si_report, Recorder.release, known, Recorder.write]
      dsimp only
      rw [Recorder.pad_record_eq]
      refine ⟨_, congrArg (fun lines => lines ++ [_]) ?_⟩
      dsimp only
      generalize (changes r.rec_last [(frame + 1, PAD_NEUTRAL)]).map
        (fun e => Line.pad ⟨e.1, retrace.toNat, e.2⟩) = pads
      by_cases host : r.rec_host = 0
      · by_cases held : r.rec_p2_there = true ∧ r.rec_p2 ≠ PAD_NEUTRAL
        · simp [host, held, changes, Recorder.event_record, Recorder.write]
        · simp only [if_pos host, if_neg held]
          simp [host, changes]
      · have other : 0#4 ≠ r.rec_host := Ne.symm host
        by_cases held : r.rec_p2_there = true ∧ r.rec_p2 ≠ PAD_NEUTRAL
        · simp only [if_neg host, if_pos held, Recorder.event_record, Recorder.write]
          simp [other, changes]
        · simp only [if_neg host, if_neg held, Recorder.event_record, Recorder.write]
          simp [other, changes]

/-- What the lines of a recording hold. -/
structure Holds (ops : List Op) (lines : List Line) : Prop where
  pad : Extends PAD_NEUTRAL (latch_reads none (pad_samples ops)) (lines.filterMap Line.pad?)
  pad2 : Extends (PAD_NEUTRAL, false) (latch_reads none (pad2_samples ops))
    (lines.filterMap Line.pad2?)
  host : Extends 0 (latch_reads none (host_samples ops)) (lines.filterMap Line.host?)
  applied : ∀ kind, lines.filterMap (Line.applied? kind) = applied_ops kind ops

variable {ops : List Op}

theorem init_held : Recorder.init.Held := ⟨fun _ _ latched => (nomatch latched), rfl⟩

theorem InOrder.pad_forward (order : InOrder ops) :
    ((pad_samples ops).map (·.1)).Pairwise (· ≤ ·) := order.forward.sublist (pad_samples_times ops)

theorem InOrder.pad2_forward (order : InOrder ops) :
    ((pad2_samples ops).map (·.1)).Pairwise (· ≤ ·) := order.forward.sublist (pad2_samples_times ops)

theorem InOrder.host_forward (order : InOrder ops) :
    ((host_samples ops).map (·.1)).Pairwise (· ≤ ·) := by
  rw [host_samples_times]
  exact order.pad_forward

/-- No read of pad 1 is after the last frame it was read in. -/
theorem InOrder.pad_frame (order : InOrder ops) {frame : Nat}
    (last : (Recorder.init.run ops).1.pad_frame = some frame) :
    ∀ s ∈ pad_samples ops, s.1 ≤ frame := by
  rw [Recorder.init.run_pad_frame init_held] at last
  intro s member
  obtain ⟨before, e, split⟩ : ∃ before e, pad_samples ops = before ++ [e] := by
    rcases List.eq_nil_or_concat' (pad_samples ops) with empty | ⟨before, e, split⟩
    · rw [empty] at member
      cases member
    · exact ⟨before, e, split⟩
  have forward := order.pad_forward
  rw [split, List.map_append] at forward
  rw [split, List.getLast?_concat] at last
  cases last
  rw [split] at member
  rcases List.mem_append.mp member with inside | here
  · exact (List.pairwise_append.mp forward).2.2 _ (List.mem_map_of_mem inside) _ (by simp)
  · rw [List.mem_singleton.mp here]

/-- A read's time is the time of something read. -/
theorem read_time {α : Type} {samples : List (Nat × α)} {read : Nat × α}
    (member : read ∈ latch_reads none samples) : read ∈ samples := by
  rcases latch_reads_subset none samples read member with inside | none_latched
  · exact inside
  · cases none_latched

theorem pad_timed (order : InOrder ops) : Timed (latch_reads none (pad_samples ops)) :=
  latch_reads_timed order.pad_forward

theorem pad2_timed (order : InOrder ops) : Timed (latch_reads none (pad2_samples ops)) :=
  latch_reads_timed order.pad2_forward

theorem host_timed (order : InOrder ops) : Timed (latch_reads none (host_samples ops)) :=
  latch_reads_timed order.host_forward

theorem run_pad (ops : List Op) : (Recorder.init.run ops).1.lines.filterMap Line.pad? =
    changes PAD_NEUTRAL (latch_reads none (pad_samples ops)) :=
  (Recorder.init.run_adds init_held ops).pad

theorem run_pad2 (ops : List Op) : (Recorder.init.run ops).1.lines.filterMap Line.pad2? =
    changes (PAD_NEUTRAL, false) (latch_reads none (pad2_samples ops)) :=
  (Recorder.init.run_adds init_held ops).pad2

theorem run_host (ops : List Op) : (Recorder.init.run ops).1.lines.filterMap Line.host? =
    changes 0 (latch_reads none (host_samples ops)) :=
  (Recorder.init.run_adds init_held ops).host

theorem run_applied (ops : List Op) (kind : EventKind) :
    (Recorder.init.run ops).1.lines.filterMap (Line.applied? kind) = applied_ops kind ops :=
  (Recorder.init.run_adds init_held ops).applied kind

theorem run_holds (order : InOrder ops) : Holds ops (Recorder.init.run ops).1.lines := by
  constructor
  · rw [run_pad]
    exact .changes (pad_timed order)
  · rw [run_pad2]
    exact .changes (pad2_timed order)
  · rw [run_host]
    exact .changes (host_timed order)
  · exact run_applied ops

/-- The lines that let go, one sort at a time. -/
theorem release_lines {r : Recorder} {frame : Nat} (last : r.pad_frame = some frame)
    (retrace : BitVec 64) :
    (r.release retrace).filterMap Line.pad? = changes r.rec_last [(frame + 1, PAD_NEUTRAL)] ∧
    (r.release retrace).filterMap Line.host? = changes r.rec_host [(frame + 1, 0)] ∧
    (r.release retrace).filterMap Line.pad2? =
      (if r.rec_p2_there = true ∧ r.rec_p2 ≠ PAD_NEUTRAL then [(frame + 1, (PAD_NEUTRAL, true))]
        else []) ∧
    ∀ kind, (r.release retrace).filterMap (Line.applied? kind) = [] := by
  rw [Recorder.release, last]
  dsimp only
  refine ⟨?_, ?_, ?_, fun kind => ?_⟩
  · rw [List.filterMap_append, List.filterMap_append, Recorder.pick_all,
      Recorder.pick_none (fun _ => rfl)]
    · rw [List.append_nil]
      split <;> exact List.append_nil _
    · exact fun _ _ => rfl
  · rw [List.filterMap_append, List.filterMap_append, Recorder.pick_none (fun _ => rfl),
      Recorder.pick_all]
    · split <;> exact List.append_nil _
    · exact fun _ _ => rfl
  · rw [List.filterMap_append, List.filterMap_append, Recorder.pick_none (fun _ => rfl),
      Recorder.pick_none (fun _ => rfl)]
    split <;> rfl
  · rw [List.filterMap_append, List.filterMap_append, Recorder.pick_none (fun _ => rfl),
      Recorder.pick_none (fun _ => rfl)]
    split <;> rfl

/-- The lines at the end come after every read of their sort. -/
theorem finish_holds (order : InOrder ops) (ending : Ending)
    (settled : Settled (Recorder.init.run ops).1 ops ending) :
    Holds ops ((Recorder.init.run ops).1.finish ending).lines := by
  have ran := run_holds order
  cases ending with
  | killed => exact ran
  | reported retrace =>
      have before : ∀ frame, (Recorder.init.run ops).1.pad_frame = some frame →
          ∀ s ∈ pad_samples ops, s.1 ≤ frame := fun frame => order.pad_frame
      have pad_ran := run_pad ops
      have pad2_ran := run_pad2 ops
      have host_ran := run_host ops
      obtain ⟨text, ended⟩ := si_report_lines (Recorder.init.run ops).1 retrace
      rw [Recorder.finish, ended]
      generalize (Recorder.init.run ops).1 = r at *
      have silent : ∀ {β : Type} (f : Line → Option β), f (.comment text) = none →
          (r.lines ++ r.release retrace ++ [Line.comment text]).filterMap f =
            r.lines.filterMap f ++ (r.release retrace).filterMap f := by
        intro β f skips
        rw [List.filterMap_append, List.filterMap_cons_none skips, List.filterMap_append]
        exact List.append_nil _
      cases last : r.pad_frame with
      | none =>
          have nothing : r.release retrace = [] := by
            rw [Recorder.release, last]
          rw [nothing, List.append_nil] at silent ⊢
          constructor
          · rw [silent Line.pad? rfl]
            exact (List.append_nil _).symm ▸ ran.pad
          · rw [silent Line.pad2? rfl]
            exact (List.append_nil _).symm ▸ ran.pad2
          · rw [silent Line.host? rfl]
            exact (List.append_nil _).symm ▸ ran.host
          · intro kind
            rw [silent (Line.applied? kind) rfl, ran.applied]
            exact List.append_nil _
      | some frame =>
          have pad_before := before frame last
          obtain ⟨pad, host, pad2, applied⟩ := release_lines last retrace
          constructor
          · rw [silent Line.pad? rfl, pad, pad_ran]
            refine Extends.at_end (t := frame + 1) (pad_timed order) (fun e member => ?_)
              fun read inside => Nat.lt_succ_of_le (pad_before read (read_time inside))
            rw [List.mem_singleton.mp (changes_subset _ _ e member)]
          · rw [silent Line.pad2? rfl, pad2, pad2_ran]
            split
            · rename_i held
              refine Extends.at_end (t := frame + 1) (pad2_timed order) (fun e member => ?_)
                fun read inside => ?_
              · rw [List.mem_singleton.mp member]
              · rcases settled with neutral | bounded
                · rw [Recorder.p2, if_pos held.1] at neutral
                  exact absurd neutral held.2
                · exact Nat.lt_succ_of_le (bounded frame last read (read_time inside))
            · rw [List.append_nil]
              exact .changes (pad2_timed order)
          · rw [silent Line.host? rfl, host, host_ran]
            refine Extends.at_end (t := frame + 1) (host_timed order) (fun e member => ?_)
              fun read inside => ?_
            · rw [List.mem_singleton.mp (changes_subset _ _ e member)]
            · have time : read.1 ∈ (pad_samples ops).map (·.1) := by
                rw [← host_samples_times]
                exact List.mem_map_of_mem (read_time inside)
              obtain ⟨s, member, same⟩ := List.mem_map.mp time
              rw [← same]
              exact Nat.lt_succ_of_le (pad_before s member)
          · intro kind
            rw [silent (Line.applied? kind) rfl, ran.applied, applied kind, List.append_nil]

theorem InOrder.pad_counts (order : InOrder ops) : ∀ s ∈ pad_samples ops, s.1 < ULONG_MAX := by
  intro s member
  obtain ⟨op, inside, same⟩ := List.mem_map.mp
    ((pad_samples_times ops).subset (List.mem_map_of_mem member))
  exact same ▸ order.counts op inside

theorem InOrder.pad2_counts (order : InOrder ops) : ∀ s ∈ pad2_samples ops, s.1 < ULONG_MAX := by
  intro s member
  obtain ⟨op, inside, same⟩ := List.mem_map.mp
    ((pad2_samples_times ops).subset (List.mem_map_of_mem member))
  exact same ▸ order.counts op inside

theorem InOrder.host_counts (order : InOrder ops) : ∀ s ∈ host_samples ops, s.1 < ULONG_MAX := by
  intro s member
  have time : s.1 ∈ (pad_samples ops).map (·.1) := by
    rw [← host_samples_times]
    exact List.mem_map_of_mem member
  obtain ⟨d, inside, same⟩ := List.mem_map.mp time
  exact same ▸ order.pad_counts d inside

/-- What a safe point applied was applied at its frame. -/
theorem applied_ops_frame {kind : EventKind} {ops : List Op} :
    ∀ e ∈ applied_ops kind ops, ∃ op ∈ ops, e.1 = op.frame := by
  induction ops with
  | nil => exact fun _ member => absurd member List.not_mem_nil
  | cons op ops ih =>
      intro e member
      rw [applied_ops_cons] at member
      rcases List.mem_append.mp member with here | later
      · refine ⟨op, List.mem_cons_self, ?_⟩
        cases op with
        | pad read => cases here
        | pad2 frame live => cases here
        | safe_point frame applied =>
            rw [applied_ops, applied_ops, List.append_nil] at here
            obtain ⟨a, _, rfl⟩ := List.mem_map.mp here
            rfl
      · obtain ⟨d, inside, same⟩ := ih e later
        exact ⟨d, List.mem_cons_of_mem _ inside, same⟩

theorem applied_ops_forward (kind : EventKind) {ops : List Op}
    (forward : (ops.map Op.frame).Pairwise (· ≤ ·)) :
    (applied_ops kind ops).Pairwise fun a b => a.1 ≤ b.1 := by
  induction ops with
  | nil => exact .nil
  | cons op ops ih =>
      obtain ⟨first, rest⟩ := List.pairwise_cons.mp forward
      have here : ∀ e ∈ applied_ops kind [op], e.1 = op.frame := by
        intro e member
        obtain ⟨d, inside, same⟩ := applied_ops_frame e member
        rw [List.mem_singleton] at inside
        rw [same, inside]
      rw [applied_ops_cons]
      refine List.pairwise_append.mpr ⟨?_, ih rest, fun a left b right => ?_⟩
      · exact List.pairwise_of_forall_mem_list fun a left b right =>
          Nat.le_of_eq ((here a left).trans (here b right).symm)
      · obtain ⟨d, inside, same⟩ := applied_ops_frame b right
        rw [here a left, same]
        exact first d.frame (List.mem_map_of_mem inside)

/-- Every line of a run can be read back. -/
theorem run_good (order : InOrder ops) :
    ∀ line ∈ (Recorder.init.run ops).1.lines, line.Good := by
  have adds := Recorder.init.run_adds init_held ops
  have counted := Recorder.init.run_counted init_held (fun _ none => nomatch none) ops
  have sampled : ∀ {α : Type} [DecidableEq α] {last : α} {samples : List (Nat × α)} {e : Nat × α},
      e ∈ changes last (latch_reads none samples) → e ∈ samples := fun member =>
    read_time (changes_subset _ _ _ member)
  intro line member
  cases line with
  | comment text => trivial
  | pad e =>
      have entry : (e.frame, e.st) ∈ (Recorder.init.run ops).1.lines.filterMap Line.pad? :=
        List.mem_filterMap.mpr ⟨_, member, rfl⟩
      rw [adds.pad] at entry
      have sample := sampled entry
      exact ⟨Nat.le_of_lt (order.pad_counts _ sample), counted _ member,
        pad_samples_plain _ sample⟩
  | event frame e =>
      cases e with
      | pad2 st =>
          have entry : (frame, st.elim (PAD_NEUTRAL, false) (·, true)) ∈
              (Recorder.init.run ops).1.lines.filterMap Line.pad2? :=
            List.mem_filterMap.mpr ⟨_, member, rfl⟩
          rw [adds.pad2] at entry
          have sample := sampled entry
          refine ⟨Nat.le_of_lt (order.pad2_counts _ sample), ?_⟩
          cases st with
          | none => trivial
          | some st => exact pad2_samples_plain _ sample
      | host h =>
          have entry : (frame, h) ∈ (Recorder.init.run ops).1.lines.filterMap Line.host? :=
            List.mem_filterMap.mpr ⟨_, member, rfl⟩
          rw [adds.host] at entry
          exact ⟨Nat.le_of_lt (order.host_counts _ (sampled entry)), trivial⟩
      | applied a =>
          have entry : (frame, a.value) ∈
              (Recorder.init.run ops).1.lines.filterMap (Line.applied? a.kind) :=
            List.mem_filterMap.mpr ⟨_, member, if_pos rfl⟩
          rw [adds.applied] at entry
          obtain ⟨op, inside, same⟩ := applied_ops_frame _ entry
          have when : frame = op.frame := same
          rw [when]
          exact ⟨Nat.le_of_lt (order.counts op inside), trivial⟩

theorem InOrder.pad_frame_counts (order : InOrder ops) {frame : Nat}
    (last : (Recorder.init.run ops).1.pad_frame = some frame) : frame < ULONG_MAX := by
  rw [Recorder.init.run_pad_frame init_held] at last
  cases known : (pad_samples ops).getLast? with
  | none =>
      rw [known] at last
      cases last
  | some s =>
      rw [known] at last
      cases last
      exact order.pad_counts s (List.mem_of_getLast? known)

theorem finish_good (order : InOrder ops) (ending : Ending) :
    ∀ line ∈ ((Recorder.init.run ops).1.finish ending).lines, line.Good := by
  have good := run_good order
  cases ending with
  | killed => exact good
  | reported retrace =>
      have counts : ∀ frame, (Recorder.init.run ops).1.pad_frame = some frame →
          frame < ULONG_MAX := fun frame => order.pad_frame_counts
      obtain ⟨text, ended⟩ := si_report_lines (Recorder.init.run ops).1 retrace
      rw [Recorder.finish, ended]
      generalize (Recorder.init.run ops).1 = r at *
      intro line member
      rcases List.mem_append.mp member with earlier | comment
      · rcases List.mem_append.mp earlier with before | released
        · exact good line before
        · rw [Recorder.release] at released
          cases last : r.pad_frame with
          | none =>
              rw [last] at released
              cases released
          | some frame =>
              rw [last] at released
              have next : frame + 1 ≤ ULONG_MAX := counts frame last
              rcases List.mem_append.mp released with first | pad2
              · rcases List.mem_append.mp first with pad | host
                · obtain ⟨e, inside, rfl⟩ := List.mem_map.mp pad
                  rw [List.mem_singleton.mp (changes_subset _ _ e inside)]
                  exact ⟨next, retrace.isLt, neutral_plain⟩
                · obtain ⟨e, inside, rfl⟩ := List.mem_map.mp host
                  rw [List.mem_singleton.mp (changes_subset _ _ e inside)]
                  exact ⟨next, trivial⟩
              · split at pad2
                · rw [List.mem_singleton.mp pad2]
                  exact ⟨next, neutral_plain⟩
                · cases pad2
      · rw [List.mem_singleton.mp comment]
        trivial

theorem Holds.fit {lines : List Line} (order : InOrder ops) (holds : Holds ops lines)
    (good : ∀ line ∈ lines, line.Good) : AllFit .init lines := by
  have taken : ∀ {kind : EventKind}, kind.Taken →
      (lines.filterMap (Line.stamp? kind)).Pairwise (· ≤ ·) := by
    intro kind taken
    rw [stamps_applied lines taken, holds.applied]
    exact List.pairwise_map.mpr (applied_ops_forward kind order.forward)
  refine allFit_of_sorted good ?_ fun kind => ?_
  · exact holds.pad.forward
  · cases kind with
    | pad2 =>
        change (lines.filterMap (Line.stamp? .pad2)).Pairwise (· ≤ ·)
        rw [stamps_pad2]
        exact holds.pad2.forward
    | host =>
        change (lines.filterMap (Line.stamp? .host)).Pairwise (· ≤ ·)
        rw [stamps_host]
        exact holds.host.forward
    | turbo => exact taken trivial
    | action => exact taken trivial
    | savenow => exact taken trivial

theorem finish_pad (ops : List Op) (retrace : BitVec 64) {frame : Nat}
    (last : (Recorder.init.run ops).1.pad_frame = some frame) :
    ((Recorder.init.run ops).1.finish (.reported retrace)).lines.filterMap Line.pad? =
      changes PAD_NEUTRAL (latch_reads none (pad_samples ops)) ++
        changes (Recorder.init.run ops).1.rec_last [(frame + 1, PAD_NEUTRAL)] := by
  obtain ⟨text, ended⟩ := si_report_lines (Recorder.init.run ops).1 retrace
  rw [Recorder.finish, ended, List.filterMap_append, List.filterMap_append, run_pad,
    (release_lines last retrace).1]
  exact List.append_nil _

/-- The last line of pad 1 leaves it neutral, or no read comes after it. -/
theorem last_settled (ops : List Op) (ending : Ending)
    (settled : Settled (Recorder.init.run ops).1 ops ending) :
    ∀ e ∈ (((Recorder.init.run ops).1.finish ending).lines.filterMap Line.pad?).getLast?,
      e.2 = PAD_NEUTRAL ∨ ∀ s ∈ pad_samples ops, s.1 ≤ e.1 := by
  cases ending with
  | killed => exact settled
  | reported retrace =>
      intro e last
      cases known : (Recorder.init.run ops).1.pad_frame with
      | none =>
          rw [Recorder.init.run_pad_frame init_held] at known
          cases empty : pad_samples ops with
          | nil => exact .inr fun s none => nomatch none
          | cons s samples =>
              rw [empty, List.getLast?_cons] at known
              cases known
      | some frame =>
          left
          rw [finish_pad ops retrace known, changes] at last
          split at last
          · rename_i neutral
            rw [changes, List.append_nil] at last
            have value := changes_last PAD_NEUTRAL (latch_reads none (pad_samples ops))
            rw [Option.mem_def.mp last] at value
            exact value.trans ((Recorder.init.run_ends init_held ops).rec_last.symm.trans
              neutral.symm)
          · rw [changes, List.getLast?_concat] at last
            cases last
            rfl

/-- What the loader holds of a recording: every line of it, and pad 1 let go. -/
theorem load_finish (config : Text) (order : InOrder ops) (ending : Ending)
    (settled : Settled (Recorder.init.run ops).1 ops ending) :
    let lines := ((Recorder.init.run ops).1.finish ending).lines
    let l := pad_replay_load (recording config lines)
    l.bad = 0 ∧ l.ev = lines.filterMap Line.event? ∧
      Extends PAD_NEUTRAL (latch_reads none (pad_samples ops))
        (l.play.map fun e => (e.frame, e.st)) := by
  intro lines l
  have holds := finish_holds order ending settled
  have fit := holds.fit order (finish_good order ending)
  have play : (lines.foldl Loaded.push .init).play = lines.filterMap Line.frame? :=
    push_play _ lines
  have same : l = (lines.foldl Loaded.push .init).let_go := by
    rw [← load_recording config fit]
    rfl
  have pad : Extends PAD_NEUTRAL (latch_reads none (pad_samples ops))
      ((lines.filterMap Line.frame?).map fun e => (e.frame, e.st)) := by
    rw [pad_entries]
    exact holds.pad
  rw [same, Loaded.let_go, play]
  cases last : (lines.filterMap Line.frame?).getLast? with
  | none => exact ⟨push_bad _ lines, push_ev _ lines, play ▸ pad⟩
  | some e =>
      dsimp only
      split
      · exact ⟨push_bad _ lines, push_ev _ lines, play ▸ pad⟩
      · rename_i held
        refine ⟨push_bad _ lines, push_ev _ lines, ?_⟩
        have at_last : (e.frame, e.st) ∈ (lines.filterMap Line.pad?).getLast? := by
          rw [← pad_entries, List.getLast?_map, last]
          rfl
        dsimp only
        rw [List.map_append]
        refine pad.push (fun read inside => ?_) (fun d member => ?_) PAD_NEUTRAL
        · rcases last_settled ops ending settled _ at_last with neutral | bounded
          · exact absurd neutral held
          · exact Nat.lt_succ_of_le (bounded read (read_time inside))
        · rw [List.getLast?_map, last] at member
          cases member
          exact Nat.le_succ _

end Finish

end SoaPort.Pad
