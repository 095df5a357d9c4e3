import Mathlib
import SoaPort.Lib.Reorder

namespace SoaPort.Mods

/-! The order mods load in: SOA_MOD_ORDER, then what each mod overrides. -/

/-- A C string, without its NUL. -/
abbrev Str := List Char

def is_space (c : Char) : Bool := c = ' ' || c = '\t' || c = '\r' || c = '\n'

/-- The words of a line up to a `#`; none past `max` of them. -/
def split (line : Str) (max : Nat) : Option (List Str) :=
  let tok := ((line.takeWhile (· ≠ '#')).splitOnP is_space).filter (· ≠ [])
  if tok.length ≤ max then some tok else none

/-- Whether the comma-separated `list` holds `name`. -/
def in_list (list name : Str) : Bool := name ≠ [] && (list.splitOn ',').contains name

/-- One folder before anything loads: what a list names it by, what it
overrides, its place in the list, and whether it is turned off or cannot be
ordered. -/
structure Planned where
  key : Str
  overrides : Str
  rank : Option Nat
  off : Bool
  bad : Bool
  deriving Inhabited

/-- The place of one name in SOA_MOD_ORDER; `-NAME` turns the mod off. -/
def read_name (read : List Planned × Nat) (p : Str) : List Planned × Nat :=
  let (plan, rank) := read
  match split p 2 with
  | some [tok] =>
      let off : Bool := tok.head? = some '-'
      let name := if off then tok.tail else tok
      match plan.findIdx? (·.key = name) with
      | none => (plan, rank)
      | some i =>
          -- named twice: its second place is passed over
          if (plan.getD i default).rank.isSome then (plan, rank)
          else (plan.modify i fun m => { m with rank := some rank, off }, rank + 1)
  | _ => (plan, rank)

/-- `char buf[2048]` holds the text. -/
def read_order (env : Option Str) (plan : List Planned) : List Planned :=
  match env with
  | none | some [] => plan
  | some text => (((text.take 2047).splitOn ',').foldl read_name (plan, 0)).1

/-- One step of the insertion by rank. -/
def sink (plan : List Planned) (sorted : List Nat) (i : Nat) : List Nat :=
  let rank (i : Nat) := (plan.getD i default).rank.getD 0
  sorted.rdropWhile (fun j => rank i < rank j) ++ i :: sorted.rtakeWhile (fun j => rank i < rank j)

/-- The list's first, then the rest by folder name. -/
def ranked (plan : List Planned) : List Nat :=
  let all := List.range plan.length
  (all.filter fun i => (plan.getD i default).rank.isSome).foldl (sink plan) [] ++
    all.filter fun i => (plan.getD i default).rank.isNone

def overrides (plan : List Planned) (a b : Nat) : Bool :=
  in_list (plan.getD a default).overrides (plan.getD b default).key

def pairs : List Nat → List (Nat × Nat)
  | [] => []
  | i :: rest => rest.map (fun j => (i, j)) ++ pairs rest

/-- Two that override each other cannot be ordered and are marked bad. -/
def mark_bad (plan : List Planned) (pair : Nat × Nat) : List Planned :=
  let (i, j) := pair
  if overrides plan i j && overrides plan j i && !(plan.getD i default).off &&
      !(plan.getD j default).off then
    (plan.modify i fun m => { m with bad := true }).modify j fun m => { m with bad := true }
  else plan

def marked (plan : List Planned) : List Planned := (pairs (ranked plan)).foldl mark_bad plan

/-- What the moves go by. -/
def follows (plan : List Planned) (a b : Nat) : Bool :=
  !(plan.getD a default).bad && !(plan.getD b default).bad && overrides plan a b

/-- What `plan_order` leaves: the folders, their order, and whether the last
pass still moved one, which is reported as a circle. -/
structure Plan where
  plan : List Planned
  order : List Nat
  moved : Bool

/-- Each mod moved after every mod it overrides, so its write lands last;
`pass <= k * k` passes at most. -/
def plan_order (plan : List Planned) : Plan :=
  let order := ranked plan
  let plan := marked plan
  let (order, moved) := Lib.passes (fun a b => follows plan a b) (order.length ^ 2 + 1) order
  { plan, order, moved }

end SoaPort.Mods
