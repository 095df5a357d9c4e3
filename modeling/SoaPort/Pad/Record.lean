import SoaPort.Pad.State

namespace SoaPort.Pad

open Lib

/-! The recorder: a line each time what was read changes, and one for each
event applied at a safe point. -/

/-- The debug actions a safe point applies; a warp's map is a number below
1000 and a letter. -/
inductive Action where
  | warp (number : Fin 1000) (letter : Fin 26)
  | part
  | ending
  | fade
  | encounters_off
  | encounters_on
  deriving DecidableEq, Repr

/-- `%03u` -/
def decimal3 (n : Nat) : Text := List.replicate (3 - (decimal n).length) '0' ++ decimal n

/-- What an `@action` line calls an action. -/
def text_of : Action → Text
  | .warp number letter => "warp:".toList ++ decimal3 number ++ [Char.ofNat (97 + letter)]
  | .part => "part".toList
  | .ending => "ending".toList
  | .fade => "fade".toList
  | .encounters_off => "encounters:off".toList
  | .encounters_on => "encounters:on".toList

inductive EventKind where
  | pad2
  | host
  | turbo
  | action
  | savenow
  deriving DecidableEq, Repr

def k_ev_names : EventKind → Text
  | .pad2 => "pad2".toList
  | .host => "host".toList
  | .turbo => "turbo".toList
  | .action => "action".toList
  | .savenow => "savenow".toList

/-- What a safe point applies. -/
inductive Applied where
  | turbo (on : Bool)
  | action (a : Action)
  | savenow
  deriving DecidableEq, Repr

/-- What an event line says. -/
inductive Event where
  | pad2 (st : Option PadState)
  | host (h : Host)
  | applied (a : Applied)
  deriving DecidableEq, Repr

def Applied.kind : Applied → EventKind
  | .turbo _ => .turbo
  | .action _ => .action
  | .savenow => .savenow

def Applied.value : Applied → Text
  | .turbo on => if on then "on".toList else "off".toList
  | .action a => text_of a
  | .savenow => []

def Event.kind : Event → EventKind
  | .pad2 _ => .pad2
  | .host _ => .host
  | .applied a => a.kind

def Event.value : Event → Text
  | .pad2 none => "off".toList
  | .pad2 (some st) => pad_state_str st
  | .host h => host_names_str h
  | .applied a => a.value

/-- A line of the recording. -/
inductive Line where
  | pad (e : PadFrame)
  | event (frame : Nat) (e : Event)
  | comment (text : Text)
  deriving DecidableEq, Repr

/-- The line as it is written, less its newline. -/
def Line.text : Line → Text
  | .pad e =>
      decimal e.frame ++ ' ' :: (pad_state_str e.st ++ " #r".toList ++ decimal e.retrace)
  | .event frame e =>
      decimal frame ++ " @".toList ++ k_ev_names e.kind ++
        if e.value = [] then [] else ' ' :: e.value
  | .comment text => '#' :: text

def HOST_LB : Host := 0x1

def HOST_VIEW : Host := 0x2

def HOST_LS : Host := 0x4

def HOST_RS : Host := 0x8

def k_chords : List (Host × Text × Text) :=
  [(HOST_VIEW ||| HOST_LB, "view+lb".toList, "fullscreen".toList),
    (HOST_VIEW ||| HOST_RS, "view+rs".toList, "turbo".toList),
    (HOST_VIEW ||| HOST_LS, "view+ls".toList, "menu".toList)]

structure Recorder where
  rec_last : PadState
  latched : Option (Nat × PadState)
  rec_p2 : PadState
  rec_p2_there : Bool
  latched2 : Option (Nat × PadState × Bool)
  host : Host
  host_frame : Option Nat
  rec_host : Host
  pad_frame : Option Nat
  lines : List Line
  deriving DecidableEq, Repr

/-- One read of pad 1: the live pad, the host buttons, whether the menu
withholds the pad, and the retrace count. -/
structure PadRead where
  frame : Nat
  live : PadState
  menu_open : Bool
  host : Host
  retrace : BitVec 64
  deriving DecidableEq, Repr

/-- What a run does that a recording notes. -/
inductive Op where
  | pad (read : PadRead)
  | pad2 (frame : Nat) (live : Option PadState)
  | safe_point (frame : Nat) (applied : List Applied)
  deriving DecidableEq, Repr

/-- What a read gives, and what a safe point applies. -/
inductive Answer where
  | pad (st : PadState) (host : Host)
  | pad2 (st : PadState) (there : Bool)
  | safe_point (frame : Nat) (events : List (EventKind × Text))
  deriving DecidableEq, Repr

/-- The live pad: its twelve buttons, or nothing while the menu is open. -/
def pad_sample (live : PadState) (menu_open : Bool) : PadState :=
  if menu_open then PAD_NEUTRAL else { live with buttons := live.buttons &&& BTN_ALL }

def pad2_sample : Option PadState → PadState × Bool
  | some live => ({ live with buttons := live.buttons &&& BTN_ALL }, true)
  | none => (PAD_NEUTRAL, false)

namespace Recorder

def init : Recorder where
  rec_last := PAD_NEUTRAL
  latched := none
  rec_p2 := ⟨0, (0, 0), (0, 0), (0, 0)⟩
  rec_p2_there := false
  latched2 := none
  host := 0
  host_frame := none
  rec_host := 0
  pad_frame := none
  lines := []

def write (r : Recorder) (line : Line) : Recorder := { r with lines := r.lines ++ [line] }

def pad_record (r : Recorder) (st : PadState) (frame retrace : Nat) : Recorder :=
  if st = r.rec_last then r
  else { r.write (.pad ⟨frame, retrace, st⟩) with rec_last := st }

def event_record (r : Recorder) (frame : Nat) (e : Event) : Recorder := r.write (.event frame e)

/-- Port 2 as a mod read it this frame, when it differs from the last line. -/
def pad2_record (r : Recorder) (st : PadState) (there : Bool) (frame : Nat) : Recorder :=
  if there = r.rec_p2_there ∧ (there = false ∨ st = r.rec_p2) then r
  else
    { r.event_record frame (.pad2 (if there then some st else none)) with
      rec_p2_there := there, rec_p2 := st }

/-- A chord's comment, when its last button goes down. -/
def chord (r : Recorder) (frame : Nat) (pressed : Host) (c : Host × Text × Text) : Recorder :=
  if r.host &&& c.1 = c.1 ∧ pressed &&& c.1 ≠ 0 then
    r.write (.comment (" chord ".toList ++ decimal frame ++ ' ' :: (c.2.1 ++ ' ' :: c.2.2)))
  else r

/-- The host buttons, taken on the first read of each frame. -/
def host_update (r : Recorder) (frame : Nat) (live : Host) : Recorder :=
  if r.host_frame = some frame then r
  else
    let prev := r.host
    let r := { r with host := live, host_frame := some frame }
    let r := if r.host = r.rec_host then r
      else { r.event_record frame (.host r.host) with rec_host := r.host }
    k_chords.foldl (fun r c => r.chord frame (r.host &&& ~~~prev) c) r

/-- One read of pad 1; while recording, the first of a frame is that frame's. -/
def pad_report (r : Recorder) (read : PadRead) : Recorder × PadState :=
  let st := match r.latched with
    | some (frame, st) => if frame = read.frame then st else pad_sample read.live read.menu_open
    | none => pad_sample read.live read.menu_open
  let r := { r with latched := some (read.frame, st) }
  let r := r.host_update read.frame read.host
  let r := r.pad_record st read.frame read.retrace.toNat
  ({ r with pad_frame := some read.frame }, st)

/-- One read of port 2. -/
def si_read_pad (r : Recorder) (frame : Nat) (live : Option PadState) :
    Recorder × PadState × Bool :=
  let fresh :=
    let given := pad2_sample live
    ({ r with latched2 := some (frame, given) }.pad2_record given.1 given.2 frame, given)
  match r.latched2 with
  | some (latch, given) => if latch = frame then (r, given) else fresh
  | none => fresh

def step (r : Recorder) : Op → Recorder × Answer
  | .pad read =>
      let (r, st) := r.pad_report read
      (r, .pad st r.host)
  | .pad2 frame live =>
      let (r, st, there) := r.si_read_pad frame live
      (r, .pad2 st there)
  | .safe_point frame applied =>
      (applied.foldl (fun r a => r.event_record frame (.applied a)) r,
        .safe_point frame (applied.map fun a => (a.kind, a.value)))

def run (r : Recorder) : List Op → Recorder × List Answer
  | [] => (r, [])
  | op :: ops =>
      let (r, answer) := r.step op
      let (r, answers) := r.run ops
      (r, answer :: answers)

/-- The end of a run: let go of whatever was held. -/
def si_report (r : Recorder) (retrace : BitVec 64) : Recorder :=
  let r := match r.pad_frame with
    | none => r
    | some frame =>
        let r := r.pad_record PAD_NEUTRAL (frame + 1) retrace.toNat
        let r := if r.rec_host = 0 then r else r.event_record (frame + 1) (.host 0)
        if r.rec_p2_there = true ∧ r.rec_p2 ≠ PAD_NEUTRAL then
          r.event_record (frame + 1) (.pad2 (some PAD_NEUTRAL))
        else r
  let changes := r.lines.countP fun
    | .pad _ => true
    | _ => false
  r.write (.comment (' ' :: (decimal changes ++ " state changes over ".toList ++
    decimal (r.pad_frame.elim 0 (· + 1)) ++ " frames, ".toList ++ decimal retrace.toNat ++
    " retraces".toList)))

end Recorder

/-- How a run ends: by its report, or by a kill or a crash. -/
inductive Ending where
  | reported (retrace : BitVec 64)
  | killed

def Recorder.finish (r : Recorder) : Ending → Recorder
  | .reported retrace => r.si_report retrace
  | .killed => r

/-- The file's lines. -/
def recording (config : Text) (lines : List Line) : List Text :=
  Line.text (.comment (" soa pad recording v3 -- frame buttons stick cstick triggers, ".toList ++
      "one line per change; `frame @kind` lines are the event track ".toList ++
      "(docs/specs/event-track.md)".toList)) ::
    ("# config ".toList ++ config) :: lines.map Line.text

end SoaPort.Pad
