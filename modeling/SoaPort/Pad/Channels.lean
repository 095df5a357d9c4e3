import SoaPort.Lib.Changes
import SoaPort.Pad.Record

namespace SoaPort.Pad

open Lib

/-! The lines of a recording, one sort at a time: each sort holds the changes
of what its reads gave. -/

def Line.pad? : Line → Option (Nat × PadState)
  | .pad e => some (e.frame, e.st)
  | _ => none

def Line.pad2? : Line → Option (Nat × PadState × Bool)
  | .event frame (.pad2 st) => some (frame, st.elim (PAD_NEUTRAL, false) (·, true))
  | _ => none

def Line.host? : Line → Option (Nat × Host)
  | .event frame (.host h) => some (frame, h)
  | _ => none

def Line.applied? (kind : EventKind) : Line → Option (Nat × Text)
  | .event frame (.applied a) => if a.kind = kind then some (frame, a.value) else none
  | _ => none

def Op.frame : Op → Nat
  | .pad read => read.frame
  | .pad2 frame _ => frame
  | .safe_point frame _ => frame

def pad_samples : List Op → List (Nat × PadState)
  | [] => []
  | .pad read :: ops => (read.frame, pad_sample read.live read.menu_open) :: pad_samples ops
  | _ :: ops => pad_samples ops

def pad2_samples : List Op → List (Nat × PadState × Bool)
  | [] => []
  | .pad2 frame live :: ops => (frame, pad2_sample live) :: pad2_samples ops
  | _ :: ops => pad2_samples ops

def host_samples : List Op → List (Nat × Host)
  | [] => []
  | .pad read :: ops => (read.frame, read.host) :: host_samples ops
  | _ :: ops => host_samples ops

def applied_ops (kind : EventKind) : List Op → List (Nat × Text)
  | [] => []
  | .safe_point frame applied :: ops =>
      (applied.filter (·.kind = kind)).map (fun a => (frame, a.value)) ++ applied_ops kind ops
  | _ :: ops => applied_ops kind ops

section Samples

theorem pad_samples_times (ops : List Op) :
    List.Sublist ((pad_samples ops).map (·.1)) (ops.map Op.frame) := by
  induction ops with
  | nil => exact .slnil
  | cons op ops ih =>
      cases op with
      | pad read => exact ih.cons_cons _
      | pad2 frame live => exact ih.cons _
      | safe_point frame applied => exact ih.cons _

theorem pad2_samples_times (ops : List Op) :
    List.Sublist ((pad2_samples ops).map (·.1)) (ops.map Op.frame) := by
  induction ops with
  | nil => exact .slnil
  | cons op ops ih =>
      cases op with
      | pad read => exact ih.cons _
      | pad2 frame live => exact ih.cons_cons _
      | safe_point frame applied => exact ih.cons _

theorem host_samples_times (ops : List Op) :
    (host_samples ops).map (·.1) = (pad_samples ops).map (·.1) := by
  induction ops with
  | nil => rfl
  | cons op ops ih =>
      cases op with
      | pad read => rw [host_samples, pad_samples, List.map_cons, List.map_cons, ih]
      | pad2 frame live => exact ih
      | safe_point frame applied => exact ih

theorem buttons_plain (b : BitVec 16) : (b &&& BTN_ALL) &&& BTN_ALL = b &&& BTN_ALL := by
  rw [BitVec.and_assoc, BitVec.and_self]

theorem neutral_plain : PAD_NEUTRAL.buttons &&& BTN_ALL = PAD_NEUTRAL.buttons := by
  decide

theorem pad_samples_plain {ops : List Op} :
    ∀ s ∈ pad_samples ops, s.2.buttons &&& BTN_ALL = s.2.buttons := by
  induction ops with
  | nil => exact fun _ member => absurd member List.not_mem_nil
  | cons op ops ih =>
      cases op with
      | pad read =>
          intro s member
          rcases List.mem_cons.mp member with rfl | later
          · dsimp only
            rw [pad_sample]
            split
            · exact neutral_plain
            · exact buttons_plain _
          · exact ih s later
      | pad2 frame live => exact ih
      | safe_point frame applied => exact ih

theorem pad2_samples_plain {ops : List Op} :
    ∀ s ∈ pad2_samples ops, s.2.1.buttons &&& BTN_ALL = s.2.1.buttons := by
  induction ops with
  | nil => exact fun _ member => absurd member List.not_mem_nil
  | cons op ops ih =>
      cases op with
      | pad read => exact ih
      | pad2 frame live =>
          intro s member
          rcases List.mem_cons.mp member with rfl | later
          · cases live with
            | none => exact neutral_plain
            | some live => exact buttons_plain _
          · exact ih s later
      | safe_point frame applied => exact ih

end Samples

namespace Recorder

/-- Port 2 as the last line gave it. -/
def p2 (r : Recorder) : PadState × Bool :=
  if r.rec_p2_there then (r.rec_p2, true) else (PAD_NEUTRAL, false)

/-- The host buttons latched for a frame. -/
def host_latch (r : Recorder) : Option (Nat × Host) := r.host_frame.map fun frame => (frame, r.host)

/-- What is held for a frame is what the last lines gave. -/
structure Held (r : Recorder) : Prop where
  pad2 : ∀ frame given, r.latched2 = some (frame, given) → r.p2 = given
  host : r.rec_host = r.host

section Fields

variable (r : Recorder)

/-- What chords leave: comments. -/
theorem chords_lines (frame : Nat) (pressed : Recorder → Host)
    (chords : List (Host × Text × Text)) :
    ∃ comments : List Text,
      chords.foldl (fun r c => r.chord frame (pressed r) c) r =
        { r with lines := r.lines ++ comments.map Line.comment } := by
  induction chords generalizing r with
  | nil => exact ⟨[], by simp⟩
  | cons c chords ih =>
      rw [List.foldl_cons, chord]
      split
      · generalize " chord ".toList ++ decimal frame ++ ' ' :: (c.2.1 ++ ' ' :: c.2.2) = text
        obtain ⟨comments, same⟩ := ih (r.write (.comment text))
        rw [same]
        refine ⟨text :: comments, ?_⟩
        rw [write, List.map_cons, List.append_assoc]
        rfl
      · exact ih r

/-- The host buttons of a read: the frame's first live value, and a line when
it differs from the last. -/
theorem host_update_eq (held : r.rec_host = r.host) (frame : Nat) (live : Host) :
    ∃ comments : List Text,
      r.host_update frame live =
        { r with
          host := latch r.host_latch frame live
          host_frame := some frame
          rec_host := latch r.host_latch frame live
          lines := r.lines ++
            (changes r.rec_host [(frame, latch r.host_latch frame live)]).map
              (fun e => Line.event e.1 (.host e.2)) ++
            comments.map Line.comment } := by
  obtain ⟨rec_last, latched, rec_p2, there, latched2, host, host_frame, rec_host, pad_frame, lines⟩ := r
  dsimp only at held
  subst held
  rw [host_update]
  split
  · rename_i same
    dsimp only at same
    subst same
    have kept : latch (some (frame, rec_host)) frame live = rec_host := if_pos rfl
    refine ⟨[], ?_⟩
    simp [host_latch, kept, changes]
  · rename_i other
    dsimp only at other ⊢
    have now : latch (host_frame.map fun frame => (frame, rec_host)) frame live = live := by
      cases host_frame with
      | none => rfl
      | some last => exact if_neg fun same => other (congrArg some same)
    rw [host_latch]
    dsimp only
    rw [now]
    by_cases same : live = rec_host
    · subst same
      rw [if_pos rfl]
      obtain ⟨comments, chords⟩ := chords_lines
        (Recorder.mk rec_last latched rec_p2 there latched2 live (some frame) live pad_frame lines)
        frame (fun r => r.host &&& ~~~live) k_chords
      exact ⟨comments, by rw [chords]; simp [changes]⟩
    · rw [if_neg same]
      obtain ⟨comments, chords⟩ := chords_lines
        (Recorder.mk rec_last latched rec_p2 there latched2 live (some frame) live pad_frame
          (lines ++ [.event frame (.host live)])) frame (fun r => r.host &&& ~~~rec_host)
        k_chords
      exact ⟨comments, by rw [event_record, write]; dsimp only; rw [chords]; simp [changes, same]⟩

theorem pad_record_eq (st : PadState) (frame retrace : Nat) :
    r.pad_record st frame retrace =
      { r with
        rec_last := st
        lines := r.lines ++
          (changes r.rec_last [(frame, st)]).map fun e => Line.pad ⟨e.1, retrace, e.2⟩ } := by
  rw [pad_record]
  split
  · rename_i same
    subst same
    simp [changes]
  · rename_i other
    simp [changes, other, write]

theorem pad2_sample_away {live : Option PadState} (away : (pad2_sample live).2 = false) :
    (pad2_sample live).1 = PAD_NEUTRAL := by
  cases live with
  | none => rfl
  | some live => cases away

/-- A line for port 2, when the read differs from the last. -/
theorem pad2_record_spec {st : PadState} {there : Bool} (away : there = false → st = PAD_NEUTRAL)
    (frame : Nat) :
    (r.pad2_record st there frame).p2 = (st, there) ∧
      (r.pad2_record st there frame).lines = r.lines ++
        (changes r.p2 [(frame, (st, there))]).map
          fun e => Line.event e.1 (.pad2 (if e.2.2 then some e.2.1 else none)) := by
  have given : (if there then (st, true) else (PAD_NEUTRAL, false)) = (st, there) := by
    cases there with
    | true => rfl
    | false => rw [away rfl]; rfl
  rw [pad2_record]
  split
  · rename_i same
    have last : r.p2 = (st, there) := by
      rw [p2, ← same.1]
      rcases same.2 with gone | equal
      · rw [gone, away gone]
        rfl
      · rw [← equal]
        exact given
    rw [last]
    simp [changes]
  · rename_i other
    have change : (st, there) ≠ r.p2 := by
      intro same
      refine other ?_
      rw [p2] at same
      cases known : r.rec_p2_there with
      | true =>
          rw [known] at same
          cases same
          exact ⟨rfl, .inr rfl⟩
      | false =>
          rw [known] at same
          cases same
          exact ⟨rfl, .inl rfl⟩
    refine ⟨given, ?_⟩
    rw [changes, if_neg change]
    rfl

/-- What a read of pad 1 gives. -/
def pad_given (read : PadRead) : PadState :=
  latch r.latched read.frame (pad_sample read.live read.menu_open)

def host_given (read : PadRead) : Host := latch r.host_latch read.frame read.host

def pad2_given (frame : Nat) (live : Option PadState) : PadState × Bool :=
  latch r.latched2 frame (pad2_sample live)

/-- The lines of a read of pad 1, its comments apart. -/
def pad_lines (read : PadRead) (comments : List Text) : List Line :=
  (changes r.rec_host [(read.frame, r.host_given read)]).map (fun e => Line.event e.1 (.host e.2)) ++
    comments.map Line.comment ++
    (changes r.rec_last [(read.frame, r.pad_given read)]).map fun e =>
      Line.pad ⟨e.1, read.retrace.toNat, e.2⟩

theorem pad_report_eq (read : PadRead) :
    r.pad_report read =
      ({ (({ r with latched := some (read.frame, r.pad_given read) }).host_update
            read.frame read.host).pad_record (r.pad_given read) read.frame read.retrace.toNat with
          pad_frame := some read.frame }, r.pad_given read) := by
  obtain ⟨rec_last, latched, rec_p2, there, latched2, host, host_frame, rec_host, pad_frame, lines⟩ := r
  cases latched with
  | none => rfl
  | some latched => rfl

theorem step_pad (held : r.rec_host = r.host) (read : PadRead) :
    ∃ comments : List Text,
      r.step (.pad read) =
        ({ r with
            rec_last := r.pad_given read
            latched := some (read.frame, r.pad_given read)
            host := r.host_given read
            host_frame := some read.frame
            rec_host := r.host_given read
            pad_frame := some read.frame
            lines := r.lines ++ r.pad_lines read comments },
          .pad (r.pad_given read) (r.host_given read)) := by
  obtain ⟨comments, host⟩ := host_update_eq
    { r with latched := some (read.frame, r.pad_given read) } held read.frame read.host
  refine ⟨comments, ?_⟩
  rw [step, pad_report_eq, host, pad_record_eq]
  simp only [pad_lines, List.append_assoc]
  rfl

/-- What port 2 and a safe point leave as it was. -/
structure SamePad1 (r r' : Recorder) : Prop where
  rec_last : r'.rec_last = r.rec_last
  latched : r'.latched = r.latched
  host : r'.host = r.host
  host_frame : r'.host_frame = r.host_frame
  rec_host : r'.rec_host = r.rec_host
  pad_frame : r'.pad_frame = r.pad_frame

theorem pad2_record_same (st : PadState) (there : Bool) (frame : Nat) :
    SamePad1 r (r.pad2_record st there frame) := by
  rw [pad2_record]
  split <;> exact ⟨rfl, rfl, rfl, rfl, rfl, rfl⟩

theorem pad2_record_latched (st : PadState) (there : Bool) (frame : Nat) :
    (r.pad2_record st there frame).latched2 = r.latched2 := by
  rw [pad2_record]
  split <;> rfl

/-- A read of port 2. -/
structure ReadPad2 (r r' : Recorder) (frame : Nat) (given : PadState × Bool) : Prop where
  p2 : r'.p2 = given
  latched2 : r'.latched2 = some (frame, given)
  lines : r'.lines = r.lines ++ (changes r.p2 [(frame, given)]).map fun e =>
    Line.event e.1 (.pad2 (if e.2.2 then some e.2.1 else none))
  same : SamePad1 r r'

theorem read_fresh (frame : Nat) (live : Option PadState) :
    ReadPad2 r ({ r with latched2 := some (frame, pad2_sample live) }.pad2_record
      (pad2_sample live).1 (pad2_sample live).2 frame) frame (pad2_sample live) := by
  obtain ⟨p2, lines⟩ := pad2_record_spec { r with latched2 := some (frame, pad2_sample live) }
    pad2_sample_away frame
  obtain ⟨rec_last, latched, host, host_frame, rec_host, pad_frame⟩ :=
    pad2_record_same { r with latched2 := some (frame, pad2_sample live) } (pad2_sample live).1
      (pad2_sample live).2 frame
  exact ⟨p2, pad2_record_latched _ _ _ _, lines,
    ⟨rec_last, latched, host, host_frame, rec_host, pad_frame⟩⟩

theorem step_pad2 (held : ∀ frame given, r.latched2 = some (frame, given) → r.p2 = given)
    (frame : Nat) (live : Option PadState) :
    ReadPad2 r (r.step (.pad2 frame live)).1 frame (r.pad2_given frame live) ∧
      (r.step (.pad2 frame live)).2 =
        .pad2 (r.pad2_given frame live).1 (r.pad2_given frame live).2 := by
  rw [step, si_read_pad, pad2_given]
  cases known : r.latched2 with
  | none => exact ⟨read_fresh r frame live, rfl⟩
  | some latched =>
      obtain ⟨last, given⟩ := latched
      dsimp only [latch]
      split
      · rename_i same
        subst same
        have p2 := held last given known
        exact ⟨⟨p2, known, by simp [changes, p2], ⟨rfl, rfl, rfl, rfl, rfl, rfl⟩⟩, rfl⟩
      · exact ⟨read_fresh r frame live, rfl⟩

theorem applied_lines (frame : Nat) (applied : List Applied) :
    applied.foldl (fun r a => r.event_record frame (.applied a)) r =
      { r with lines := r.lines ++ applied.map fun a => Line.event frame (.applied a) } := by
  induction applied generalizing r with
  | nil => simp
  | cons a applied ih =>
      rw [List.foldl_cons, ih, event_record, write, List.map_cons, List.append_assoc]
      rfl

theorem step_safe_point (frame : Nat) (applied : List Applied) :
    r.step (.safe_point frame applied) =
      ({ r with lines := r.lines ++ applied.map fun a => Line.event frame (.applied a) },
        .safe_point frame (applied.map fun a => (a.kind, a.value))) := by
  rw [step, applied_lines]

end Fields

/-! A whole run. -/

theorem pick_all {β : Type} {f : Line → Option β} {g : β → Line} {bs : List β}
    (picks : ∀ b ∈ bs, f (g b) = some b) : (bs.map g).filterMap f = bs := by
  induction bs with
  | nil => rfl
  | cons b bs ih =>
      rw [List.map_cons, List.filterMap_cons_some (picks b List.mem_cons_self),
        ih fun b member => picks b (List.mem_cons_of_mem _ member)]

theorem pick_none {β γ : Type} {f : Line → Option γ} {g : β → Line} (skips : ∀ b, f (g b) = none)
    (bs : List β) : (bs.map g).filterMap f = [] := by
  induction bs with
  | nil => rfl
  | cons b bs ih => rw [List.map_cons, List.filterMap_cons_none (skips b), ih]

/-- What a run adds to the lines of each sort. -/
structure Adds (r r' : Recorder) (ops : List Op) : Prop where
  pad : r'.lines.filterMap Line.pad? = r.lines.filterMap Line.pad? ++
    changes r.rec_last (latch_reads r.latched (pad_samples ops))
  pad2 : r'.lines.filterMap Line.pad2? = r.lines.filterMap Line.pad2? ++
    changes r.p2 (latch_reads r.latched2 (pad2_samples ops))
  host : r'.lines.filterMap Line.host? = r.lines.filterMap Line.host? ++
    changes r.rec_host (latch_reads r.host_latch (host_samples ops))
  applied : ∀ kind, r'.lines.filterMap (Line.applied? kind) =
    r.lines.filterMap (Line.applied? kind) ++ applied_ops kind ops

theorem pick_applied (kind : EventKind) (frame : Nat) (applied : List Applied) :
    (applied.map fun a => Line.event frame (.applied a)).filterMap (Line.applied? kind) =
      applied_ops kind [.safe_point frame applied] := by
  rw [applied_ops, applied_ops, List.append_nil]
  induction applied with
  | nil => rfl
  | cons a applied ih =>
      rw [List.map_cons, List.filterMap_cons, List.filter_cons]
      by_cases same : a.kind = kind
      · simp only [Line.applied?, if_pos same, decide_eq_true same]
        rw [ih]
        rfl
      · simp only [Line.applied?, if_neg same, decide_eq_false same, Bool.false_eq_true, if_false]
        exact ih

theorem pad2_given_away {r : Recorder} {frame : Nat} {live : Option PadState} (held : r.Held)
    (away : (r.pad2_given frame live).2 = false) : (r.pad2_given frame live).1 = PAD_NEUTRAL := by
  have p2 := (r.step_pad2 held.pad2 frame live).1.p2
  rw [← p2, Recorder.p2] at away ⊢
  split
  · rename_i there
    rw [if_pos there] at away
    cases away
  · rfl

theorem step_adds (r : Recorder) (held : r.Held) (op : Op) : Adds r (r.step op).1 [op] := by
  cases op with
  | pad read =>
      obtain ⟨comments, eq⟩ := r.step_pad held.host read
      rw [eq]
      constructor
      · dsimp only
        rw [List.filterMap_append, pad_lines, List.filterMap_append, List.filterMap_append,
          pick_none (fun _ => rfl), pick_none (fun _ => rfl), pick_all]
        · rfl
        · exact fun _ _ => rfl
      · dsimp only
        rw [List.filterMap_append, pad_lines, List.filterMap_append, List.filterMap_append,
          pick_none (fun _ => rfl), pick_none (fun _ => rfl), pick_none (fun _ => rfl)]
        rfl
      · dsimp only
        rw [List.filterMap_append, pad_lines, List.filterMap_append, List.filterMap_append,
          pick_all, pick_none (fun _ => rfl), pick_none (fun _ => rfl), List.append_nil,
          List.append_nil]
        · rfl
        · exact fun _ _ => rfl
      · intro kind
        dsimp only
        rw [List.filterMap_append, pad_lines, List.filterMap_append, List.filterMap_append,
          pick_none (fun _ => rfl), pick_none (fun _ => rfl), pick_none (fun _ => rfl)]
        rfl
  | pad2 frame live =>
      obtain ⟨read, _⟩ := r.step_pad2 held.pad2 frame live
      constructor
      · rw [read.lines, List.filterMap_append, pick_none (fun _ => rfl)]
        rfl
      · rw [read.lines, List.filterMap_append, pick_all]
        · rfl
        · intro e member
          have same := changes_subset _ _ e member
          rw [List.mem_singleton] at same
          subst same
          have away : (r.pad2_given frame live).2 = false →
              (r.pad2_given frame live).1 = PAD_NEUTRAL := pad2_given_away held
          generalize r.pad2_given frame live = given at away ⊢
          obtain ⟨st, there⟩ := given
          cases there with
          | true => rfl
          | false => rw [show st = PAD_NEUTRAL from away rfl]; rfl
      · rw [read.lines, List.filterMap_append, pick_none (fun _ => rfl)]
        rfl
      · intro kind
        rw [read.lines, List.filterMap_append, pick_none (fun _ => rfl)]
        rfl
  | safe_point frame applied =>
      rw [r.step_safe_point]
      constructor
      · dsimp only
        rw [List.filterMap_append, pick_none (fun _ => rfl)]
        rfl
      · dsimp only
        rw [List.filterMap_append, pick_none (fun _ => rfl)]
        rfl
      · dsimp only
        rw [List.filterMap_append, pick_none (fun _ => rfl)]
        rfl
      · intro kind
        dsimp only
        rw [List.filterMap_append, pick_applied]

/-- What a step leaves to the reads after it. -/
structure Passes (r r' : Recorder) (op : Op) : Prop where
  held : r'.Held
  rec_last : r'.rec_last = final r.rec_last (latch_reads r.latched (pad_samples [op]))
  p2 : r'.p2 = final r.p2 (latch_reads r.latched2 (pad2_samples [op]))
  rec_host : r'.rec_host = final r.rec_host (latch_reads r.host_latch (host_samples [op]))
  latched : ∀ ops, latch_reads r.latched (pad_samples (op :: ops)) =
    latch_reads r.latched (pad_samples [op]) ++ latch_reads r'.latched (pad_samples ops)
  latched2 : ∀ ops, latch_reads r.latched2 (pad2_samples (op :: ops)) =
    latch_reads r.latched2 (pad2_samples [op]) ++ latch_reads r'.latched2 (pad2_samples ops)
  host_latch : ∀ ops, latch_reads r.host_latch (host_samples (op :: ops)) =
    latch_reads r.host_latch (host_samples [op]) ++ latch_reads r'.host_latch (host_samples ops)

theorem SamePad1.host_latch {r r' : Recorder} (same : SamePad1 r r') :
    r'.host_latch = r.host_latch := by
  rw [Recorder.host_latch, same.host_frame, same.host, Recorder.host_latch]

theorem step_passes (r : Recorder) (held : r.Held) (op : Op) : Passes r (r.step op).1 op := by
  cases op with
  | pad read =>
      obtain ⟨comments, eq⟩ := r.step_pad held.host read
      rw [eq]
      exact ⟨⟨held.pad2, rfl⟩, rfl, rfl, rfl, fun _ => rfl, fun _ => rfl, fun _ => rfl⟩
  | pad2 frame live =>
      obtain ⟨read, _⟩ := r.step_pad2 held.pad2 frame live
      constructor
      · refine ⟨fun last given latched => ?_, ?_⟩
        · rw [read.latched2] at latched
          cases latched
          exact read.p2
        · rw [read.same.rec_host, read.same.host]
          exact held.host
      · exact read.same.rec_last
      · exact read.p2
      · exact read.same.rec_host
      · intro ops
        rw [read.same.latched]
        rfl
      · intro ops
        rw [read.latched2]
        rfl
      · intro ops
        rw [read.same.host_latch]
        rfl
  | safe_point frame applied =>
      rw [r.step_safe_point]
      exact ⟨⟨held.pad2, held.host⟩, rfl, rfl, rfl, fun _ => rfl, fun _ => rfl, fun _ => rfl⟩

theorem applied_ops_cons (kind : EventKind) (op : Op) (ops : List Op) :
    applied_ops kind (op :: ops) = applied_ops kind [op] ++ applied_ops kind ops := by
  cases op with
  | pad read => rfl
  | pad2 frame live => rfl
  | safe_point frame applied => rw [applied_ops, applied_ops, applied_ops, List.append_nil]

/-- The lines of each sort are the changes of what its reads gave. -/
theorem run_adds (r : Recorder) (held : r.Held) (ops : List Op) : Adds r (r.run ops).1 ops := by
  induction ops generalizing r with
  | nil => constructor <;> simp [run, pad_samples, pad2_samples, host_samples, applied_ops,
      latch_reads, changes]
  | cons op ops ih =>
      have first := r.step_adds held op
      have next := r.step_passes held op
      have rest := ih (r.step op).1 next.held
      rw [run]
      constructor
      · rw [rest.pad, first.pad, next.latched ops, changes_append, ← next.rec_last,
          List.append_assoc]
      · rw [rest.pad2, first.pad2, next.latched2 ops, changes_append, ← next.p2, List.append_assoc]
      · rw [rest.host, first.host, next.host_latch ops, changes_append, ← next.rec_host,
          List.append_assoc]
      · intro kind
        rw [rest.applied, first.applied, applied_ops_cons kind op ops, List.append_assoc]

theorem final_append {α : Type} (last : α) (reads more : List (Nat × α)) :
    final last (reads ++ more) = final (final last reads) more := List.foldl_append

/-- What the last lines of a run gave is what its last reads gave. -/
structure Ends (r r' : Recorder) (ops : List Op) : Prop where
  rec_last : r'.rec_last = final r.rec_last (latch_reads r.latched (pad_samples ops))
  p2 : r'.p2 = final r.p2 (latch_reads r.latched2 (pad2_samples ops))
  rec_host : r'.rec_host = final r.rec_host (latch_reads r.host_latch (host_samples ops))

theorem run_ends (r : Recorder) (held : r.Held) (ops : List Op) : Ends r (r.run ops).1 ops := by
  induction ops generalizing r with
  | nil => exact ⟨rfl, rfl, rfl⟩
  | cons op ops ih =>
      have next := r.step_passes held op
      have rest := ih (r.step op).1 next.held
      rw [run]
      constructor
      · rw [rest.rec_last, next.latched ops, final_append, ← next.rec_last]
      · rw [rest.p2, next.latched2 ops, final_append, ← next.p2]
      · rw [rest.rec_host, next.host_latch ops, final_append, ← next.rec_host]

theorem run_pad_frame (r : Recorder) (held : r.Held) (ops : List Op) :
    (r.run ops).1.pad_frame = ((pad_samples ops).getLast?.map (·.1)).or r.pad_frame := by
  induction ops generalizing r with
  | nil => rfl
  | cons op ops ih =>
      have rest := ih (r.step op).1 (r.step_passes held op).held
      rw [run]
      dsimp only
      rw [rest]
      cases op with
      | pad read =>
          obtain ⟨comments, eq⟩ := r.step_pad held.host read
          rw [eq, pad_samples, List.getLast?_cons]
          cases (pad_samples ops).getLast? <;> rfl
      | pad2 frame live => rw [(r.step_pad2 held.pad2 frame live).1.same.pad_frame]; rfl
      | safe_point frame applied => rw [r.step_safe_point]; rfl

/-- A pad line's retrace count is a count of 64 bits. -/
def Counted : Line → Prop
  | .pad e => e.retrace < 2 ^ 64
  | _ => True

theorem run_counted (r : Recorder) (held : r.Held) (counted : ∀ line ∈ r.lines, Counted line)
    (ops : List Op) : ∀ line ∈ (r.run ops).1.lines, Counted line := by
  induction ops generalizing r with
  | nil => exact counted
  | cons op ops ih =>
      rw [run]
      refine ih (r.step op).1 (r.step_passes held op).held ?_
      cases op with
      | pad read =>
          obtain ⟨comments, eq⟩ := r.step_pad held.host read
          rw [eq]
          dsimp only [pad_lines]
          intro line member
          rcases List.mem_append.mp member with before | new
          · exact counted line before
          · rcases List.mem_append.mp new with others | pads
            · rcases List.mem_append.mp others with host | comment
              · obtain ⟨e, _, rfl⟩ := List.mem_map.mp host
                trivial
              · obtain ⟨text, _, rfl⟩ := List.mem_map.mp comment
                trivial
            · obtain ⟨e, _, rfl⟩ := List.mem_map.mp pads
              exact read.retrace.isLt
      | pad2 frame live =>
          rw [(r.step_pad2 held.pad2 frame live).1.lines]
          intro line member
          rcases List.mem_append.mp member with before | new
          · exact counted line before
          · obtain ⟨e, _, rfl⟩ := List.mem_map.mp new
            trivial
      | safe_point frame applied =>
          rw [r.step_safe_point]
          intro line member
          rcases List.mem_append.mp member with before | new
          · exact counted line before
          · obtain ⟨a, _, rfl⟩ := List.mem_map.mp new
            trivial

end Recorder

end SoaPort.Pad
