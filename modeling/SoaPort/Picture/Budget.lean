import Mathlib.Data.List.Sort
import Mathlib.Data.List.OfFn
import Mathlib.Algebra.Order.Field.Rat
import Mathlib.Logic.Function.Basic

namespace SoaPort.Picture

/-! How many in-between images the next frame gets. Frame times are rationals. -/

def INTERP_BUDGET_N : Nat := 31
def INTERP_BUDGET_SLOW : ℚ := 71 / 2
def INTERP_BUDGET_ON_TIME : ℚ := 69 / 2
def INTERP_BUDGET_TRIES : Nat := 5

structure InterpBudget where
  last : Fin 31 → ℚ
  n : Nat
  at_ : Fin 31
  /-- images a frame taken away; at `top` the stream is off -/
  cut : Nat
  /-- the most the display asked for last frame, 0 before the first -/
  top : Nat
  tries : Nat
  down : Bool
  wait : Nat
  held : Nat
  stops : Nat
  frames_off : Nat
  frames_cut : Nat

def InterpBudget.zero : InterpBudget where
  last := fun _ => 0
  n := 0
  at_ := 0
  cut := 0
  top := 0
  tries := 0
  down := false
  wait := 0
  held := 0
  stops := 0
  frames_off := 0
  frames_cut := 0

/-- The difference of two unsigned 32-bit numbers. -/
def sub32 (a b : Nat) : Nat := (a + 2 ^ 32 - b) % 2 ^ 32

/-- An unsigned 32-bit number as an `int`. -/
def int32 (a : Nat) : Int := if a < 2 ^ 31 then a else a - 2 ^ 32

/-- `v` after what is no more than it: the values sorted so far stand last first. -/
def insert_time (sorted : List ℚ) (v : ℚ) : List ℚ :=
  sorted.orderedInsert (· ≥ ·) v

def middle (times : List ℚ) : ℚ :=
  (times.foldl insert_time []).getD (INTERP_BUDGET_N - 1 - INTERP_BUDGET_N / 2) 0

/-- The median of the last 31 frames, once the ring holds 31; -1 until. -/
def interp_budget_push (b : InterpBudget) (ms : ℚ) : InterpBudget × ℚ :=
  let b :=
    { b with
      last := Function.update b.last b.at_ ms
      at_ := b.at_ + 1
      n := if b.n < INTERP_BUDGET_N then b.n + 1 else b.n }
  (b, if b.n < INTERP_BUDGET_N then -1 else middle (List.ofFn b.last))

/-- The display's rate changed with images taken: what was given stays given. -/
def retop (b : InterpBudget) (top : Nat) : InterpBudget :=
  let cut :=
    if b.top ≠ 0 ∧ top ≠ b.top ∧ b.cut ≠ 0 then
      let given := if b.cut < b.top then sub32 b.top b.cut else 0
      sub32 top (if given < top then given else top)
    else b.cut
  { b with cut, top }

/-- The count to the next image back. -/
def count_back (b : InterpBudget) (ms : ℚ) : InterpBudget :=
  if ms > INTERP_BUDGET_ON_TIME then
    let most := 2 * (30 <<< b.tries)
    { b with wait := if b.wait + 2 > most then most else b.wait + 2 }
  else if b.wait > 0 then { b with wait := b.wait - 1 }
  else
    { b with
      cut := sub32 b.cut 1
      held := 0
      down := false
      n := 0
      at_ := 0
      wait := 30 <<< b.tries }

/-- One image a frame taken away. -/
def step_down (b : InterpBudget) : InterpBudget :=
  { b with
    cut := b.cut + 1
    n := 0
    at_ := 0
    wait := 30 <<< b.tries
    tries := if !b.down && b.tries < INTERP_BUDGET_TRIES then b.tries + 1 else b.tries
    down := true
    stops := b.stops + 1 }

/-- A frame at the display's full rate. -/
def hold (b : InterpBudget) : InterpBudget :=
  let held := (b.held + 1) % 2 ^ 32
  { b with held, tries := if held = 300 then 0 else b.tries }

def interp_budget_frame (b : InterpBudget) (ms : ℚ) : InterpBudget :=
  if b.cut < b.top then
    let (b, median) := interp_budget_push b ms
    if median > INTERP_BUDGET_SLOW then step_down b
    else if b.cut = 0 then hold b
    else count_back { b with frames_cut := b.frames_cut + 1 } ms
  else count_back { b with frames_off := b.frames_off + 1 } ms

/-- One frame of `ms`, the display asking for `top` images a frame: how many
the next frame gets. -/
def interp_budget_step (b : InterpBudget) (ms : ℚ) (top : Nat) : InterpBudget × Int :=
  let b := interp_budget_frame (retop b (if top = 0 then 1 else top)) ms
  (b, int32 (sub32 b.top b.cut))

def budget_run (b : InterpBudget) (frames : List (ℚ × Nat)) : InterpBudget :=
  frames.foldl (fun b f => (interp_budget_step b f.1 f.2).1) b

end SoaPort.Picture
