import SoaPort.Pad.Recording

namespace SoaPort.Pad

open Lib

/-! A recording replayed at the same frames gives what the run it was made of
was given. -/

/-- Where in a run a read or a safe point is. -/
inductive Point where
  | pad (frame : Nat)
  | pad2 (frame : Nat)
  | safe_point (frame : Nat)
  deriving DecidableEq, Repr

def Op.point : Op → Point
  | .pad read => .pad read.frame
  | .pad2 frame _ => .pad2 frame
  | .safe_point frame _ => .safe_point frame

def Answer.given : Answer → Answer
  | .safe_point frame _ => .safe_point frame []
  | answer => answer

/-- The events of a kind handed out, each with its frame. -/
def handed (kind : EventKind) : List Answer → List (Nat × Text)
  | [] => []
  | .safe_point frame events :: answers =>
      (events.filter (·.1 = kind)).map (fun e => (frame, e.2)) ++ handed kind answers
  | _ :: answers => handed kind answers

/-- The same reads, and the same events of each kind at the same frames. -/
structure SameInput (as bs : List Answer) : Prop where
  reads : as.map Answer.given = bs.map Answer.given
  events : ∀ kind : EventKind, kind.Taken → handed kind as = handed kind bs

section Simulation

/-- A replay that stands where the recording run stood. -/
structure Agrees (r : Recorder) (p : Replayer) (ops : List Op) : Prop where
  held : r.Held
  replaying : p.replaying = true
  pad : Follows PadFrame.frame PadFrame.st r.rec_last p.play
    (latch_reads r.latched (pad_samples ops))
  st : p.st = r.rec_last
  pad2 : Follows EventLine.frame (fun e => (e.st, e.there)) r.p2 (p.pending .pad2)
    (latch_reads r.latched2 (pad2_samples ops))
  at2 : ((p.in_effect .pad2).map fun e => (e.st, e.there)).getD (PAD_NEUTRAL, false) = r.p2
  host : Follows EventLine.frame EventLine.host r.rec_host (p.pending .host)
    (latch_reads r.host_latch (host_samples ops))
  at_host : ((p.in_effect .host).map EventLine.host).getD 0 = r.rec_host
  now : p.host = r.host
  now_frame : p.host_frame = r.host_frame

variable {r : Recorder} {p : Replayer} {ops : List Op}

/-- What reading host buttons leaves as it was. -/
structure SameButHost (p q : Replayer) : Prop where
  replaying : q.replaying = p.replaying
  play : q.play = p.play
  st : q.st = p.st
  pending : ∀ kind, kind ≠ .host → q.pending kind = p.pending kind
  in_effect : ∀ kind, kind ≠ .host → q.in_effect kind = p.in_effect kind

theorem host_update_same (p : Replayer) (replaying : p.replaying = true) (frame : Nat) (live : Host) :
    SameButHost p (p.host_update frame live) := by
  rw [Replayer.host_update]
  split
  · exact ⟨rfl, rfl, rfl, fun _ _ => rfl, fun _ _ => rfl⟩
  · exact ⟨rfl, rfl, rfl, fun kind other => Function.update_of_ne other _ _,
      fun kind other => Function.update_of_ne other _ _⟩

/-- The host buttons of a read are the recording's. -/
theorem host_update_agrees (held : r.rec_host = r.host) (replaying : p.replaying = true)
    {frame : Nat} {live : Host} {reads : List (Nat × Host)}
    (follows : Follows EventLine.frame EventLine.host r.rec_host (p.pending .host)
      ((frame, latch r.host_latch frame live) :: reads))
    (at_host : ((p.in_effect .host).map EventLine.host).getD 0 = r.rec_host)
    (now : p.host = r.host) (now_frame : p.host_frame = r.host_frame) (other : Host) :
    let q := p.host_update frame other
    let given := latch r.host_latch frame live
    Follows EventLine.frame EventLine.host given (q.pending .host) reads ∧
      ((q.in_effect .host).map EventLine.host).getD 0 = given ∧
      q.host = given ∧ q.host_frame = some frame := by
  intro q given
  by_cases same : p.host_frame = some frame
  · have unchanged : q = p := if_pos same
    have kept : given = r.rec_host := by
      rw [held]
      change latch r.host_latch frame live = r.host
      rw [Recorder.host_latch, ← now_frame, same]
      exact if_pos rfl
    have next : Follows EventLine.frame EventLine.host r.rec_host (p.pending .host)
        ((frame, r.rec_host) :: reads) := kept ▸ follows
    rw [unchanged, kept]
    exact ⟨next.same, at_host, now.trans held.symm, same⟩
  · have moved : q =
        { (p.event_at .host frame).1 with
          host := ((p.event_at .host frame).2.map EventLine.host).getD 0
          host_frame := some frame } := by
      change p.host_update frame other = _
      rw [Replayer.host_update, if_neg same, if_pos replaying]
    obtain ⟨value, next⟩ := follows.advance at_host
    rw [moved]
    refine ⟨?_, ?_, value, rfl⟩
    · dsimp only [Replayer.event_at]
      rw [Function.update_self]
      exact next
    · dsimp only [Replayer.event_at]
      rw [Function.update_self]
      exact value

theorem Agrees.pad_step {read : PadRead} (agrees : Agrees r p (.pad read :: ops)) :
    (p.step (.pad read)).2 = (r.step (.pad read)).2 ∧
      Agrees (r.step (.pad read)).1 (p.step (.pad read)).1 ops := by
  obtain ⟨comments, eq⟩ := r.step_pad agrees.held.host read
  have pad := agrees.pad
  rw [pad_samples, latch_reads] at pad
  obtain ⟨given, next⟩ := pad.step
  have at_st : ((step_cursor PadFrame.frame read.frame p.play).1.map PadFrame.st).getD p.st =
      r.pad_given read := by
    rw [agrees.st]
    exact given
  have moved : p.step (.pad read) =
      let q := (p.pad_replay read.frame).1.host_update read.frame read.host
      (q, .pad (p.pad_replay read.frame).2 q.host) := by
    rw [Replayer.step, Replayer.pad_report, if_pos agrees.replaying]
  have host := host_update_agrees (p := (p.pad_replay read.frame).1) agrees.held.host
    agrees.replaying agrees.host agrees.at_host agrees.now agrees.now_frame read.host
  obtain ⟨host_next, at_host, now, now_frame⟩ := host
  have same := host_update_same (p.pad_replay read.frame).1 agrees.replaying read.frame read.host
  rw [eq, moved]
  dsimp only
  refine ⟨?_, ?_⟩
  · rw [now]
    exact congrArg (fun st => Answer.pad st _) at_st
  · constructor
    · exact ⟨agrees.held.pad2, rfl⟩
    · exact same.replaying.trans agrees.replaying
    · rw [same.play]
      exact next
    · rw [same.st]
      exact at_st
    · rw [same.pending .pad2 (by decide)]
      exact agrees.pad2
    · rw [same.in_effect .pad2 (by decide)]
      exact agrees.at2
    · exact host_next
    · exact at_host
    · exact now
    · exact now_frame

theorem Agrees.pad2_step {frame : Nat} {live : Option PadState}
    (agrees : Agrees r p (.pad2 frame live :: ops)) :
    (p.step (.pad2 frame live)).2 = (r.step (.pad2 frame live)).2 ∧
      Agrees (r.step (.pad2 frame live)).1 (p.step (.pad2 frame live)).1 ops := by
  obtain ⟨read, answer⟩ := r.step_pad2 agrees.held.pad2 frame live
  have pad2 := agrees.pad2
  rw [pad2_samples, latch_reads] at pad2
  obtain ⟨given, next⟩ := pad2.advance agrees.at2
  have moved : p.step (.pad2 frame live) =
      let q := p.event_at .pad2 frame
      (q.1, .pad2 ((q.2.map EventLine.st).getD PAD_NEUTRAL)
        ((q.2.map EventLine.there).getD false)) := by
    rw [Replayer.step, Replayer.si_read_pad, if_pos agrees.replaying]
  have held := (r.step_passes agrees.held (.pad2 frame live)).held
  have both : ∀ at_ : Option EventLine,
      ((at_.map EventLine.st).getD PAD_NEUTRAL, (at_.map EventLine.there).getD false) =
        (at_.map fun e => (e.st, e.there)).getD (PAD_NEUTRAL, false) := fun at_ => by
    cases at_ <;> rfl
  have value := (both (p.event_at .pad2 frame).2).trans given
  rw [moved, answer]
  dsimp only
  refine ⟨?_, ?_⟩
  · exact congrArg (fun v => Answer.pad2 v.1 v.2) value
  · constructor
    · exact held
    · exact agrees.replaying
    · rw [read.same.rec_last, read.same.latched]
      exact agrees.pad
    · exact agrees.st.trans read.same.rec_last.symm
    · rw [read.p2, read.latched2]
      dsimp only [Replayer.event_at]
      rw [Function.update_self]
      exact next
    · rw [read.p2]
      dsimp only [Replayer.event_at]
      rw [Function.update_self]
      exact given
    · rw [read.same.rec_host, read.same.host_latch]
      dsimp only [Replayer.event_at]
      rw [Function.update_of_ne (by decide)]
      exact agrees.host
    · rw [read.same.rec_host]
      dsimp only [Replayer.event_at]
      rw [Function.update_of_ne (by decide)]
      exact agrees.at_host
    · exact agrees.now.trans read.same.host.symm
    · exact agrees.now_frame.trans read.same.host_frame.symm

theorem Agrees.safe_point_step {frame : Nat} {applied : List Applied}
    (agrees : Agrees r p (.safe_point frame applied :: ops)) :
    Agrees (r.step (.safe_point frame applied)).1 (p.step (.safe_point frame applied)).1 ops := by
  have others : ∀ kind, ¬ kind.Taken →
      (p.step (.safe_point frame applied)).1.pending kind = p.pending kind := by
    intro kind other
    rw [Replayer.step, Replayer.safe_point, if_pos agrees.replaying]
    dsimp only [Replayer.take]
    rw [Function.update_of_ne, Function.update_of_ne, Function.update_of_ne]
    all_goals
      rintro rfl
      exact other trivial
  have same : (p.step (.safe_point frame applied)).1 =
      { p with pending := (p.step (.safe_point frame applied)).1.pending } := by
    rw [Replayer.step, Replayer.safe_point, if_pos agrees.replaying]
    rfl
  rw [r.step_safe_point, same]
  constructor
  · exact ⟨agrees.held.pad2, agrees.held.host⟩
  · exact agrees.replaying
  · exact agrees.pad
  · exact agrees.st
  · dsimp only
    rw [others .pad2 id]
    exact agrees.pad2
  · exact agrees.at2
  · dsimp only
    rw [others .host id]
    exact agrees.host
  · exact agrees.at_host
  · exact agrees.now
  · exact agrees.now_frame

/-- Every read of a replay gives what the recording run's read gave. -/
theorem Agrees.reads (agrees : Agrees r p ops) :
    (p.run ops).map Answer.given = (r.run ops).2.map Answer.given := by
  induction ops generalizing r p with
  | nil => rfl
  | cons op ops ih =>
      rw [Replayer.run, Recorder.run]
      dsimp only
      rw [List.map_cons, List.map_cons]
      cases op with
      | pad read =>
          obtain ⟨same, next⟩ := agrees.pad_step
          rw [same, ih next]
      | pad2 frame live =>
          obtain ⟨same, next⟩ := agrees.pad2_step
          rw [same, ih next]
      | safe_point frame applied =>
          rw [ih agrees.safe_point_step]
          rfl

end Simulation

/-! The events handed out. -/

section Handed

/-- The frames of the safe points. -/
def safe_frames : List Op → List Nat
  | [] => []
  | .safe_point frame _ :: ops => frame :: safe_frames ops
  | _ :: ops => safe_frames ops

theorem safe_frames_times (ops : List Op) : List.Sublist (safe_frames ops) (ops.map Op.frame) := by
  induction ops with
  | nil => exact .slnil
  | cons op ops ih =>
      cases op with
      | pad read => exact ih.cons _
      | pad2 frame live => exact ih.cons _
      | safe_point frame applied => exact ih.cons_cons _

theorem handed_applied (kind : EventKind) (r : Recorder) (held : r.Held) (ops : List Op) :
    handed kind (r.run ops).2 = applied_ops kind ops := by
  induction ops generalizing r with
  | nil => rfl
  | cons op ops ih =>
      have rest := ih (r.step op).1 (r.step_passes held op).held
      rw [Recorder.run]
      cases op with
      | pad read => exact rest
      | pad2 frame live => exact rest
      | safe_point frame applied =>
          rw [applied_ops, ← rest, r.step_safe_point]
          dsimp only
          rw [handed, List.filter_map, List.map_map]
          rfl

/-- A step of a replay leaves the lines of a taken kind, but at a safe point. -/
structure Kept (p q : Replayer) : Prop where
  replaying : q.replaying = p.replaying
  pending : ∀ kind, kind.Taken → q.pending kind = p.pending kind

theorem pad_kept {p : Replayer} (replaying : p.replaying = true) (read : PadRead) :
    Kept p (p.step (.pad read)).1 := by
  have same := host_update_same (p.pad_replay read.frame).1 replaying read.frame read.host
  rw [Replayer.step, Replayer.pad_report, if_pos replaying]
  refine ⟨same.replaying, fun kind taken => same.pending kind ?_⟩
  rintro rfl
  exact taken

theorem pad2_kept {p : Replayer} (replaying : p.replaying = true) (frame : Nat)
    (live : Option PadState) : Kept p (p.step (.pad2 frame live)).1 := by
  rw [Replayer.step, Replayer.si_read_pad, if_pos replaying]
  refine ⟨rfl, fun kind taken => Function.update_of_ne ?_ _ _⟩
  rintro rfl
  exact taken

theorem filter_kind (kind other : EventKind) (due : List EventLine) :
    (due.map fun e => (other, e.text)).filter (fun e => decide (e.1 = kind)) =
      if other = kind then due.map fun e => (other, e.text) else [] := by
  split
  · rename_i same
    refine List.filter_eq_self.mpr fun e member => ?_
    obtain ⟨d, _, rfl⟩ := List.mem_map.mp member
    exact decide_eq_true same
  · rename_i different
    refine List.filter_eq_nil_iff.mpr fun e member => ?_
    obtain ⟨d, _, rfl⟩ := List.mem_map.mp member
    simpa using different

/-- A safe point takes each kind's lines that are due. -/
theorem safe_point_taken {p : Replayer} (replaying : p.replaying = true) (frame : Nat)
    (live : List Applied) {kind : EventKind} (taken : kind.Taken) :
    (p.safe_point frame live).1.pending kind =
        (take_due EventLine.frame frame (p.pending kind)).2 ∧
      (p.safe_point frame live).2.filter (·.1 = kind) =
        (take_due EventLine.frame frame (p.pending kind)).1.map fun e => (kind, e.text) := by
  rw [Replayer.safe_point, if_pos replaying]
  dsimp only [Replayer.take]
  rw [List.filter_append, List.filter_append, filter_kind, filter_kind, filter_kind]
  cases kind with
  | pad2 => cases taken
  | host => cases taken
  | turbo => simp [Function.update]
  | action => simp [Function.update]
  | savenow => simp [Function.update]

theorem handed_replay {kind : EventKind} (taken : kind.Taken) {p : Replayer}
    (replaying : p.replaying = true) (ops : List Op) :
    handed kind (p.run ops) =
      (deliver EventLine.frame (safe_frames ops) (p.pending kind)).map
        fun e => (e.1, e.2.text) := by
  induction ops generalizing p with
  | nil => rfl
  | cons op ops ih =>
      rw [Replayer.run]
      cases op with
      | pad read =>
          have kept := pad_kept replaying read
          have rest := ih (kept.replaying.trans replaying)
          rw [kept.pending kind taken] at rest
          exact rest
      | pad2 frame live =>
          have kept := pad2_kept replaying frame live
          have rest := ih (kept.replaying.trans replaying)
          rw [kept.pending kind taken] at rest
          exact rest
      | safe_point frame live =>
          obtain ⟨pending, events⟩ := safe_point_taken replaying frame live taken
          have still : (p.safe_point frame live).1.replaying = true := by
            rw [Replayer.safe_point, if_pos replaying]
            exact replaying
          have rest := ih still
          rw [pending] at rest
          rw [safe_frames, deliver, List.map_append, List.map_map, ← rest]
          dsimp only [Replayer.step]
          rw [handed, events, List.map_map]
          rfl

end Handed

/-! The file of a run, loaded and replayed. -/

section File

variable {ops : List Op} {l : Loaded}

/-- A replay reads nothing live. -/
theorem step_point {p : Replayer} (replaying : p.replaying = true) {op op' : Op}
    (same : op.point = op'.point) : p.step op = p.step op' := by
  have no_live : ∀ (q : Replayer) (frame : Nat) (live live' : Host), q.replaying = true →
      q.host_update frame live = q.host_update frame live' := by
    intro q frame live live' on
    rw [Replayer.host_update, Replayer.host_update]
    split <;> rfl
  cases op with
  | pad read =>
      cases op' with
      | pad read' =>
          have frame : read.frame = read'.frame := Point.pad.inj same
          rw [Replayer.step, Replayer.step, Replayer.pad_report, Replayer.pad_report,
            if_pos replaying, if_pos replaying, frame]
          dsimp only
          rw [no_live (p.pad_replay read'.frame).1 read'.frame read.host read'.host replaying]
      | pad2 frame live => cases same
      | safe_point frame live => cases same
  | pad2 frame live =>
      cases op' with
      | pad read' => cases same
      | pad2 frame' live' =>
          cases same
          rw [Replayer.step, Replayer.step, Replayer.si_read_pad, Replayer.si_read_pad,
            if_pos replaying, if_pos replaying]
      | safe_point frame live => cases same
  | safe_point frame live =>
      cases op' with
      | pad read' => cases same
      | pad2 frame' live' => cases same
      | safe_point frame' live' =>
          cases same
          rw [Replayer.step, Replayer.step, Replayer.safe_point, Replayer.safe_point,
            if_pos replaying, if_pos replaying]

theorem step_replaying {p : Replayer} (replaying : p.replaying = true) (op : Op) :
    (p.step op).1.replaying = true := by
  cases op with
  | pad read => exact (pad_kept replaying read).replaying.trans replaying
  | pad2 frame live => exact (pad2_kept replaying frame live).replaying.trans replaying
  | safe_point frame live =>
      rw [Replayer.step, Replayer.safe_point, if_pos replaying]
      exact replaying

theorem run_points {p : Replayer} (replaying : p.replaying = true) {ops ops' : List Op}
    (same : ops'.map Op.point = ops.map Op.point) : p.run ops' = p.run ops := by
  induction ops generalizing p ops' with
  | nil =>
      rw [List.map_eq_nil_iff.mp same]
  | cons op ops ih =>
      cases ops' with
      | nil => cases same
      | cons op' ops' =>
          obtain ⟨here, rest⟩ := List.cons.inj same
          rw [Replayer.run, Replayer.run, step_point replaying here,
            ih (step_replaying replaying op) rest]

/-- A recording loaded stands where its run began. -/
theorem start_agrees (order : InOrder ops) {lines : List Line} (holds : Holds ops lines)
    (ev : l.ev = lines.filterMap Line.event?)
    (play : Extends PAD_NEUTRAL (latch_reads none (pad_samples ops))
      (l.play.map fun e => (e.frame, e.st)))
    (replaying : l.play ≠ [] ∨ l.ev ≠ []) : Agrees .init (.start l) ops where
  held := init_held
  replaying := decide_eq_true replaying
  pad := .of_extends (pad_timed order) play
  st := rfl
  pad2 := by
    refine .of_extends (pad2_timed order) ?_
    rw [Replayer.start, ev, pad2_entries]
    exact holds.pad2
  at2 := rfl
  host := by
    refine .of_extends (host_timed order) ?_
    rw [Replayer.start, ev, host_entries]
    exact holds.host
  at_host := rfl
  now := rfl
  now_frame := rfl

theorem applied_ops_safe {kind : EventKind} {ops : List Op} :
    ∀ e ∈ applied_ops kind ops, e.1 ∈ safe_frames ops := by
  induction ops with
  | nil => exact fun _ member => absurd member List.not_mem_nil
  | cons op ops ih =>
      cases op with
      | pad read => exact ih
      | pad2 frame live => exact ih
      | safe_point frame applied =>
          intro e member
          rcases List.mem_append.mp member with here | later
          · obtain ⟨a, _, rfl⟩ := List.mem_map.mp here
            exact List.mem_cons_self
          · exact List.mem_cons_of_mem _ (ih e later)

/-- The events of a kind are handed out as the run applied them. -/
theorem handed_recording (order : InOrder ops) {lines : List Line} (holds : Holds ops lines)
    (ev : l.ev = lines.filterMap Line.event?) (replaying : l.play ≠ [] ∨ l.ev ≠ [])
    {kind : EventKind} (taken : kind.Taken) :
    handed kind ((Replayer.start l).run ops) = applied_ops kind ops := by
  have entries : ((l.ev.filter (·.kind = kind)).map fun e => (e.frame, e.text)) =
      applied_ops kind ops := by
    rw [ev, applied_entries lines taken, holds.applied]
  have forward : (l.ev.filter (·.kind = kind)).Pairwise fun a b => a.frame ≤ b.frame := by
    have times := applied_ops_forward kind order.forward
    rw [← entries, List.pairwise_map] at times
    exact times
  have made : ∀ e ∈ l.ev.filter (·.kind = kind), e.frame ∈ safe_frames ops := by
    intro e member
    refine applied_ops_safe (e.frame, e.text) (?_ : _ ∈ applied_ops kind ops)
    rw [← entries]
    exact List.mem_map_of_mem member
  rw [handed_replay taken (decide_eq_true replaying)]
  have all := deliver_all (order.forward.sublist (safe_frames_times ops)) forward made
  change (deliver EventLine.frame (safe_frames ops) (l.ev.filter (·.kind = kind))).map _ = _
  rw [all, List.map_map, ← entries]
  rfl

end File

/-- A read of pad 1 in each of two frames, with a held. -/
def held_run : List Op :=
  [.pad ⟨1, { PAD_NEUTRAL with buttons := 0x0100 }, false, 0, 60⟩,
    .pad ⟨2, { PAD_NEUTRAL with buttons := 0x0100 }, false, 0, 61⟩]

theorem held_run_in_order : InOrder held_run := ⟨by decide, by decide⟩

end SoaPort.Pad
