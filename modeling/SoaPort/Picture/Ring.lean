import Mathlib

namespace SoaPort.Picture

/-! The screen ring: the worker that finishes a frame's last screen copy fills a
slot and publishes it, the presenter takes the newest. Every load, exchange and
store that the other side can see is a step of its own. -/

def EFB_W : Nat := 640
def EFB_H : Nat := 528

def CP_MID : Nat := 2
def CP_CUT : Nat := 4
def RING_FRESH : Nat := 4

structure RingSlot where
  /-- bytes of a row, four to a pixel -/
  real : Nat → Nat → UInt8
  mid : Nat → Nat → UInt8
  w : Nat
  h : Nat
  has_mid : Bool
  cut : Bool

def RingSlot.zero : RingSlot where
  real := fun _ _ => 0
  mid := fun _ _ => 0
  w := 0
  h := 0
  has_mid := false
  cut := false

/-- A frame's last screen copy, and the screen once every worker is through its
rows of it. -/
structure Fill where
  cp_wh : Nat
  cp_ring : Nat
  g_screen : Nat → Nat → UInt8
  g_screen_mid : Nat → Nat → UInt8

namespace Fill

def w (f : Fill) : Nat := min ((f.cp_wh &&& 0x3FF) + 1) EFB_W

def h (f : Fill) : Nat := min (((f.cp_wh >>> 10) &&& 0x3FF) + 1) EFB_H

def has_mid (f : Fill) : Bool := f.cp_ring &&& CP_MID != 0

def cut (f : Fill) : Bool := f.cp_ring &&& CP_CUT != 0

end Fill

/-- What `ring_fill` writes of a slot, one row or field at a time. -/
inductive Write
  | real (y : Nat)
  | has_mid
  | cut
  | mid (y : Nat)
  | w
  | h

def Fill.writes (f : Fill) : List Write :=
  (List.range f.h).map .real ++ [.has_mid, .cut] ++
    (if f.has_mid then (List.range f.h).map .mid else []) ++ [.w, .h]

/-- A row's first `n` bytes. -/
def copy_row (rows screen : Nat → Nat → UInt8) (y n : Nat) : Nat → Nat → UInt8 :=
  Function.update rows y fun i => if i < n then screen y i else rows y i

def Fill.write (f : Fill) (S : RingSlot) : Write → RingSlot
  | .real y => { S with real := copy_row S.real f.g_screen y (f.w * 4) }
  | .has_mid => { S with has_mid := f.has_mid }
  | .cut => { S with cut := f.cut }
  | .mid y => { S with mid := copy_row S.mid f.g_screen_mid y (f.w * 4) }
  | .w => { S with w := f.w }
  | .h => { S with h := f.h }

/-- Where a worker is in `ring_fill`. -/
inductive Filling
  /-- not past the count of workers -/
  | out
  | write (todo : List Write)
  | load
  | cas (o : Nat)
  | miss (old : Nat)
  | pub (old : Nat)
  | back (old : Nat)

/-- Where the presenter is in `gxr_ring_take`. -/
inductive Taking
  | out
  | load
  | cas (o : Nat)
  | front (old : Nat)
  | read

/-- What a take hands out: the slot its images are in, and its fields. -/
structure GxrShown where
  real : Nat
  mid : Option Nat
  w : Nat
  h : Nat
  cut : Bool
  deriving DecidableEq

/-- What a take that got slot `front` hands out. -/
def shown_of (front : Nat) (S : RingSlot) : GxrShown where
  real := front
  mid := if S.has_mid then some front else none
  w := S.w
  h := S.h
  cut := S.cut

structure Ring where
  g_ring : Nat → RingSlot
  g_ring_state : Nat
  g_ring_back : Nat
  g_ring_front : Nat
  g_ring_done : Int
  g_ring_pub : Int
  g_ring_miss : Int
  /-- the frame whose last screen copy runs, and the workers through with it -/
  frame : Fill
  through : List Nat
  filling : Nat → Filling
  taking : Taking
  shown : Option GxrShown

/-- `calloc`'s slots, and the indices as they stand. -/
def Ring.start (frame : Fill) : Ring where
  g_ring := fun _ => .zero
  g_ring_state := 1
  g_ring_back := 0
  g_ring_front := 2
  g_ring_done := 0
  g_ring_pub := 0
  g_ring_miss := 0
  frame := frame
  through := []
  filling := fun _ => .out
  taking := .out
  shown := none

/-- An atomic increment of an `int32_t`, and the value it gives. -/
def plat_inc32 (p : Int) : Int := Int.bmod (p + 1) (2 ^ 32)

def Ring.goes (r : Ring) (worker : Nat) (pc : Filling) : Ring :=
  { r with filling := Function.update r.filling worker pc }

/-- A worker through its rows of the copy: the last one of the frame fills. -/
def ring_done (need : Nat) (r : Ring) (worker : Nat) : Ring :=
  let done := plat_inc32 r.g_ring_done
  let r := { r with g_ring_done := done, through := worker :: r.through }
  if done.tmod need ≠ 0 then r else r.goes worker (.write r.frame.writes)

/-- The next step of a worker in `ring_fill`. -/
def ring_fill (r : Ring) (worker : Nat) : Option Ring :=
  match r.filling worker with
  | .out => none
  | .write (part :: todo) =>
      let S := r.frame.write (r.g_ring r.g_ring_back) part
      some ({ r with g_ring := Function.update r.g_ring r.g_ring_back S }.goes worker (.write todo))
  | .write [] => some (r.goes worker .load)
  | .load => some (r.goes worker (.cas r.g_ring_state))
  | .cas o =>
      let seen := r.g_ring_state
      if seen = o then
        some ({ r with g_ring_state := r.g_ring_back ||| RING_FRESH }.goes worker (.miss o))
      else some (r.goes worker (.cas seen))
  | .miss old =>
      let miss := if old &&& RING_FRESH ≠ 0 then plat_inc32 r.g_ring_miss else r.g_ring_miss
      some ({ r with g_ring_miss := miss }.goes worker (.pub old))
  | .pub old => some ({ r with g_ring_pub := plat_inc32 r.g_ring_pub }.goes worker (.back old))
  | .back old => some ({ r with g_ring_back := old &&& 3 }.goes worker .out)

/-- The presenter's next step: a call of `gxr_ring_take`, or one inside it. -/
def gxr_ring_take (r : Ring) : Ring :=
  match r.taking with
  | .out => if r.g_ring_state &&& RING_FRESH = 0 then r else { r with taking := .load }
  | .load => { r with taking := .cas r.g_ring_state }
  | .cas o =>
      let seen := r.g_ring_state
      if seen = o then { r with g_ring_state := r.g_ring_front, taking := .front o }
      else { r with taking := .cas seen }
  | .front old => { r with g_ring_front := old &&& 3, taking := .read }
  | .read =>
      { r with
        shown := some (shown_of r.g_ring_front (r.g_ring r.g_ring_front))
        taking := .out }

inductive RingStep
  /-- a worker is through its rows of the frame's last screen copy -/
  | done (worker : Nat)
  | fill (worker : Nat)
  /-- the next frame's copy: behind the fence of the frame before's -/
  | next (frame : Fill)
  | take

/-- The workers that run a frame's copies. -/
def ring_need (g_workers : Int) : Nat := if g_workers > 0 then g_workers.toNat else 1

def ring_step (g_workers : Int) (r : Ring) : RingStep → Option Ring
  | .done worker =>
      if worker < ring_need g_workers ∧ worker ∉ r.through then
        some (ring_done (ring_need g_workers) r worker)
      else none
  | .fill worker => ring_fill r worker
  | .next frame =>
      if (∀ worker < ring_need g_workers, worker ∈ r.through ∧ r.filling worker matches .out) then
        some { r with frame, through := [] }
      else none
  | .take => some (gxr_ring_take r)

/-- What has gone through the ring: the frames published, how many of them were
taken and how many missed, and the slots as the takes handed them out. -/
structure RingLog where
  published : List Fill
  taken : Nat
  missed : Nat
  shown : List RingSlot

def RingLog.start : RingLog := ⟨[], 0, 0, []⟩

/-- A frame is published, and taken, by its exchange. -/
def RingLog.after (h : RingLog) (r : Ring) : RingStep → RingLog
  | .fill worker =>
      match r.filling worker with
      | .cas o =>
          if r.g_ring_state = o then
            { h with
              published := h.published ++ [r.frame]
              missed := if o &&& RING_FRESH ≠ 0 then h.missed + 1 else h.missed }
          else h
      | _ => h
  | .take =>
      match r.taking with
      | .cas o => if r.g_ring_state = o then { h with taken := h.taken + 1 } else h
      | .read => { h with shown := h.shown ++ [r.g_ring r.g_ring_front] }
      | _ => h
  | _ => h

def ring_run (g_workers : Int) (r : Ring) (h : RingLog) : List RingStep → Option (Ring × RingLog)
  | [] => some (r, h)
  | step :: steps =>
      (ring_step g_workers r step).bind fun r' => ring_run g_workers r' (h.after r step) steps

/-- The increments of `g_ring_done` in a run. -/
def increments (steps : List RingStep) : Nat :=
  steps.countP fun step => step matches .done _

end SoaPort.Picture
