import SoaPort.Lib.Text

namespace SoaPort.Debug

open SoaPort.Lib

/-! Debug actions, scheduled from SOA_ACTION (actions.c). -/

def SCHEDULE_MAX : Nat := 32

inductive Kind where
  | ACT_NONE
  | ACT_WARP
  | ACT_PART
  | ACT_ENDING
  | ACT_FADE
  | ACT_ENCOUNTERS_OFF
  | ACT_ENCOUNTERS_ON
deriving DecidableEq

/-- `k_name`, of the kinds from `ACT_PART` on. -/
def k_name : List (Kind × Text) :=
  [(.ACT_PART, "part".toList), (.ACT_ENDING, "ending".toList), (.ACT_FADE, "fade".toList),
    (.ACT_ENCOUNTERS_OFF, "encounters:off".toList), (.ACT_ENCOUNTERS_ON, "encounters:on".toList)]

structure Action where
  kind : Kind
  map : Nat
  frame : BitVec 32
deriving DecidableEq

/-- `g_sched`: never more than its array holds. -/
structure Schedule where
  g_sched : List Action
  fits : g_sched.length ≤ SCHEDULE_MAX
deriving DecidableEq

def Schedule.append (sched : Schedule) (action : Action)
    (room : sched.g_sched.length ≠ SCHEDULE_MAX) : Schedule where
  g_sched := sched.g_sched ++ [action]
  fits := by
    rw [List.length_append]
    exact Nat.lt_of_le_of_ne sched.fits room

/-- Why a text is refused, each said on stderr. -/
inductive Refusal where
  | not_an_item
  | frame_not_a_number
  | not_a_map
  | not_an_action
  | too_many
deriving DecidableEq

/-- "116c" or "a116c" -> number << 8 | letter, 0 if it is not one. -/
def map_of (t : Text) : Nat :=
  let t := if t.head? = some 'a' ∧ t.length = 5 then t.tail else t
  match t with
  | [hundreds, tens, ones, letter] =>
      if letter < 'a' ∨ letter > 'z' then 0
      else if hundreds.isDigit = false ∨ tens.isDigit = false ∨ ones.isDigit = false then 0
      else
        ((hundreds.toNat - '0'.toNat) * 100 + (tens.toNat - '0'.toNat) * 10 +
            (ones.toNat - '0'.toNat)) * 256 + letter.toNat
  | _ => 0

def WARP : Text := "warp:".toList

/-- NAME[:ARG]: its kind, and a warp's map. -/
def kind_of (item : Text) : Kind × Nat :=
  if item.take 5 = WARP then
    let map := map_of (item.drop 5)
    (if map ≠ 0 then .ACT_WARP else .ACT_NONE, map)
  else
    match k_name.find? fun k => k.2 = item with
    | some k => (k.1, 0)
    | none => (.ACT_NONE, 0)

/-- What stands before the last '@', and after it. -/
def strrchr_at (item : Text) : Option (Text × Text) :=
  if '@' ∈ item then
    some ((item.reverse.dropWhile (· ≠ '@')).tail.reverse, (item.reverse.takeWhile (· ≠ '@')).reverse)
  else none

/-- One item; `limit` is `strtoul`'s largest number. -/
def read_item (limit : Nat) (item : Text) : Except Refusal Action :=
  match strrchr_at item with
  | none => .error .not_an_item
  | some (before, after) =>
      if after = [] then .error .not_an_item
      else
        match strtoul limit after with
        | some (frame, []) =>
            let name := before.dropWhile (· = ' ')
            match kind_of name with
            | (.ACT_NONE, _) =>
                .error (if name.take 5 = WARP then .not_a_map else .not_an_action)
            | (kind, map) => .ok ⟨kind, map, BitVec.ofNat 32 frame⟩
        | _ => .error .frame_not_a_number

/-- The items in order, each scheduled as it is read. -/
def parse_items (limit : Nat) : List Text → Schedule → Nat → Schedule × Except Refusal Nat
  | [], sched, n => (sched, .ok n)
  | item :: next, sched, n =>
      if item = [] then parse_items limit next sched n
      else
        match read_item limit item with
        | .error why => (sched, .error why)
        | .ok action =>
            if full : sched.g_sched.length = SCHEDULE_MAX then (sched, .error .too_many)
            else parse_items limit next (sched.append action full) (n + 1)

/-- The text is copied into 512 bytes. -/
def actions_parse (limit : Nat) (sched : Schedule) (text : Text) : Schedule × Except Refusal Nat :=
  parse_items limit ((text.take 511).splitOn ',') sched 0

end SoaPort.Debug
