import SoaPort.Lib.Changes
import SoaPort.Pad.Record

namespace SoaPort.Pad

open Lib

/-! Loading a recording, and replaying it. -/

structure EventLine where
  frame : Nat
  kind : EventKind
  there : Bool
  host : Host
  st : PadState
  text : Text
  deriving DecidableEq, Repr

/-- The size of an event line's text, its NUL included. -/
def TEXT_CAP : Nat := 24

def ev_kinds : List EventKind := [.pad2, .host, .turbo, .action, .savenow]

/-- What `pad_parse_event` makes of a line. -/
inductive ParsedEvent where
  | not_event
  | passed_over
  | kept (e : EventLine)
  deriving DecidableEq, Repr

/-- The value of an event line, the fields after its kind. -/
def parse_value (frame : Nat) (kind : EventKind) (p : Text) : Option EventLine :=
  let e : EventLine :=
    { frame, kind, there := true, host := 0, st := PAD_NEUTRAL, text := [] }
  match kind with
  | .pad2 =>
      let (word, rest) := pad_token p
      if word = some "off".toList ∧ (pad_token rest).1 = none then some { e with there := false }
      else
        -- pad 1's grammar after the frame
        match pad_parse_line (decimal frame ++ ' ' :: p) with
        | .state f => some { e with st := f.st }
        | _ => none
  | .host =>
      match pad_token p with
      | (some tok, p) =>
          match pad_parse_host tok with
          | some host => if (pad_token p).1 = none then some { e with host } else none
          | none => none
      | (none, _) => none
  | .savenow => if (pad_token p).1 = none then some e else none
  | .turbo | .action =>
      match pad_token p with
      | (some tok, p) =>
          if tok.length < TEXT_CAP ∧ (pad_token p).1 = none ∧
              (kind ≠ .turbo ∨ tok = "on".toList ∨ tok = "off".toList) then
            some { e with text := tok }
          else none
      | (none, _) => none

/-- A `F @kind ...` line; `last` holds each kind's latest frame. -/
def pad_parse_event (line : Text) (last : EventKind → Option Nat) : ParsedEvent :=
  let p := ((line.dropWhile blank).dropWhile Char.isDigit).dropWhile blank
  if p.head? ≠ some '@' ∨ line.head? = some '@' then .not_event
  else
    match pad_token line with
    | (none, _) => .not_event
    | (some tok, p) =>
        match strtoul ULONG_MAX tok with
        | some (frame, []) =>
            let p := p.dropWhile blank
            if p.head? ≠ some '@' then .not_event
            else
              let (word, p) := pad_token p
              match ev_kinds.find? fun kind => word = some ('@' :: k_ev_names kind) with
              | none => .passed_over
              | some kind =>
                  if (last kind).any (frame < ·) then .passed_over
                  else
                    match parse_value frame kind p with
                    | none => .passed_over
                    | some e => .kept e
        | _ => .not_event

/-- What the loader holds; `bad` counts the lines it passed over. -/
structure Loaded where
  play : List PadFrame
  ev : List EventLine
  last : EventKind → Option Nat
  bad : Nat

namespace Loaded

def init : Loaded where
  play := []
  ev := []
  last := fun _ => none
  bad := 0

def load_line (l : Loaded) (line : Text) : Loaded :=
  if "# config ".toList.isPrefixOf line then l
  else
    match pad_parse_event line l.last with
    | .kept e =>
        { l with
          ev := l.ev ++ [e]
          last := fun kind => if kind = e.kind then some e.frame else l.last kind }
    | .passed_over => { l with bad := l.bad + 1 }
    | .not_event =>
        match pad_parse_line line with
        | .nothing => l
        | .malformed => { l with bad := l.bad + 1 }
        | .state e =>
            -- frames only go forward
            if l.play.getLast?.any (e.frame < ·.frame) then { l with bad := l.bad + 1 }
            else { l with play := l.play ++ [e] }

/-- A recording that ends with input held lets go of it a frame later. -/
def let_go (l : Loaded) : Loaded :=
  match l.play.getLast? with
  | some e =>
      if e.st = PAD_NEUTRAL then l else { l with play := l.play ++ [⟨e.frame + 1, 0, PAD_NEUTRAL⟩] }
  | none => l

end Loaded

def pad_replay_load (file : List Text) : Loaded := (file.foldl Loaded.load_line .init).let_go

/-- A replay: the lines not reached yet, and what the last of them set. -/
structure Replayer where
  replaying : Bool
  play : List PadFrame
  st : PadState
  pending : EventKind → List EventLine
  in_effect : EventKind → Option EventLine
  host : Host
  host_frame : Option Nat

namespace Replayer

/-- The recording is the whole input when it holds a line of either sort. -/
def start (l : Loaded) : Replayer where
  replaying := l.play ≠ [] ∨ l.ev ≠ []
  play := l.play
  st := PAD_NEUTRAL
  pending := fun kind => l.ev.filter fun e => e.kind = kind
  in_effect := fun _ => none
  host := 0
  host_frame := none

/-- One entry per read, not every entry that is due. -/
def pad_replay (r : Replayer) (frame : Nat) : Replayer × PadState :=
  let (due, play) := step_cursor PadFrame.frame frame r.play
  let st := (due.map PadFrame.st).getD r.st
  ({ r with play, st }, st)

/-- The line of a kind in effect at a frame. -/
def event_at (r : Replayer) (kind : EventKind) (frame : Nat) : Replayer × Option EventLine :=
  let (in_effect, pending) := advance EventLine.frame frame (r.in_effect kind) (r.pending kind)
  ({ r with
      pending := Function.update r.pending kind pending
      in_effect := Function.update r.in_effect kind in_effect }, in_effect)

/-- `while (event_take(kind, ..))`: the lines of a kind due, each taken once. -/
def take (r : Replayer) (kind : EventKind) (frame : Nat) : Replayer × List (EventKind × Text) :=
  let (due, pending) := take_due EventLine.frame frame (r.pending kind)
  ({ r with pending := Function.update r.pending kind pending }, due.map fun e => (kind, e.text))

def host_update (r : Replayer) (frame : Nat) (live : Host) : Replayer :=
  if r.host_frame = some frame then r
  else if r.replaying then
    let (r, at_) := r.event_at .host frame
    { r with host := (at_.map EventLine.host).getD 0, host_frame := some frame }
  else { r with host := live, host_frame := some frame }

def pad_report (r : Replayer) (read : PadRead) : Replayer × PadState :=
  let (r, st) := if r.replaying then r.pad_replay read.frame
    else (r, pad_sample read.live read.menu_open)
  (r.host_update read.frame read.host, st)

def si_read_pad (r : Replayer) (frame : Nat) (live : Option PadState) :
    Replayer × PadState × Bool :=
  if r.replaying then
    let (r, at_) := r.event_at .pad2 frame
    (r, (at_.map EventLine.st).getD PAD_NEUTRAL, (at_.map EventLine.there).getD false)
  else (r, pad2_sample live)

/-- A safe point: the recording's events, turbo before the callbacks; without
a replay, what was asked for live. -/
def safe_point (r : Replayer) (frame : Nat) (live : List Applied) :
    Replayer × List (EventKind × Text) :=
  if r.replaying then
    let (r, turbo) := r.take .turbo frame
    let (r, action) := r.take .action frame
    let (r, savenow) := r.take .savenow frame
    (r, turbo ++ action ++ savenow)
  else (r, live.map fun a => (a.kind, a.value))

def step (r : Replayer) : Op → Replayer × Answer
  | .pad read =>
      let (r, st) := r.pad_report read
      (r, .pad st r.host)
  | .pad2 frame live =>
      let (r, st, there) := r.si_read_pad frame live
      (r, .pad2 st there)
  | .safe_point frame live =>
      let (r, events) := r.safe_point frame live
      (r, .safe_point frame events)

def run (r : Replayer) : List Op → List Answer
  | [] => []
  | op :: ops => (r.step op).2 :: (r.step op).1.run ops

end Replayer

end SoaPort.Pad
