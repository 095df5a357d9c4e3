import SoaPort.Lib.Bytes
import SoaPort.Lib.Text

namespace SoaPort.Pad

open Lib

/-! A controller's state, as a line of a recording gives it. -/

structure PadState where
  buttons : BitVec 16
  stick : Byte × Byte
  cstick : Byte × Byte
  trig : Byte × Byte
  deriving DecidableEq, Repr

def PAD_NEUTRAL : PadState := ⟨0, (128, 128), (128, 128), (0, 0)⟩

/-- The host buttons: lb, view, ls and rs. -/
abbrev Host := BitVec 4

def BTN_ALL : BitVec 16 := 0x1F7F

def g_button_names : List (Text × BitVec 16) :=
  [("a".toList, 0x0100), ("b".toList, 0x0200), ("x".toList, 0x0400), ("y".toList, 0x0800),
    ("z".toList, 0x0010), ("l".toList, 0x0040), ("r".toList, 0x0020), ("start".toList, 0x1000),
    ("up".toList, 0x0008), ("down".toList, 0x0004), ("left".toList, 0x0001),
    ("right".toList, 0x0002)]

def g_host_names : List (Text × Host) :=
  [("lb".toList, 0x1), ("view".toList, 0x2), ("ls".toList, 0x4), ("rs".toList, 0x8)]

/-- The bits of a name, 0 for a name that is not in the table. -/
def named {w : Nat} (names : List (Text × BitVec w)) (name : Text) : BitVec w :=
  ((names.find? fun entry => entry.1 = name).map (·.2)).getD 0

def button_named : Text → BitVec 16 := named g_button_names

def host_named : Text → Host := named g_host_names

/-- The names of the bits set, "-" for none. -/
def names_str {w : Nat} (names : List (Text × BitVec w)) (b : BitVec w) : Text :=
  if b = 0 then ['-']
  else List.intercalate ['+'] ((names.filter fun entry => b &&& entry.2 ≠ 0).map (·.1))

def pad_buttons_str : BitVec 16 → Text := names_str g_button_names

def host_names_str : Host → Text := names_str g_host_names

def pair_str (v : Byte × Byte) : Text := decimal v.1.toNat ++ ',' :: decimal v.2.toNat

/-- A state as a line gives it: buttons, then the sticks and triggers while
any of them, or one after it, is off centre or down. -/
def pad_state_str (st : PadState) : Text :=
  let trig := st.trig ≠ (0, 0)
  let cstick := trig ∨ st.cstick ≠ (128, 128)
  let stick := cstick ∨ st.stick ≠ (128, 128)
  pad_buttons_str st.buttons ++ (if stick then ' ' :: pair_str st.stick else []) ++
    (if cstick then ' ' :: pair_str st.cstick else []) ++
    if trig then ' ' :: pair_str st.trig else []

/-! Reading a line. -/

def blank (c : Char) : Bool := c = ' ' || c = '\t'

def ends_token (c : Char) : Bool := blank c || c = '\n' || c = '\r'

/-- The next of the fields separated by blanks, with a # anywhere ending the
line, and what follows it. -/
def pad_token (p : Text) : Option Text × Text :=
  match p.dropWhile blank with
  | [] => (none, [])
  | c :: rest =>
      if c = '\n' ∨ c = '\r' ∨ c = '#' then (none, c :: rest)
      else (some ((c :: rest).takeWhile fun c => !ends_token c),
        ((c :: rest).dropWhile fun c => !ends_token c).drop 1)

/-- The names between + signs, while there are any. -/
def parse_names {w : Nat} (find : Text → BitVec w) : Nat → Text → BitVec w → Option (BitVec w)
  | _, [], b => some b
  | 0, _, _ => none
  | fuel + 1, s, b =>
      let one := find (s.takeWhile (· ≠ '+'))
      if one = 0 then none else parse_names find fuel ((s.dropWhile (· ≠ '+')).drop 1) (b ||| one)

def pad_parse_buttons (s : Text) : Option (BitVec 16) :=
  if s = ['-'] then some 0 else parse_names button_named s.length s 0

def pad_parse_host (s : Text) : Option Host :=
  if s = ['-'] then some 0 else parse_names host_named s.length s 0

def ULONG_MAX : Nat := 2 ^ 32 - 1

def pad_parse_pair (s : Text) : Option (Byte × Byte) := do
  let (x, end_) ← strtoul ULONG_MAX s
  match end_ with
  | ',' :: s =>
      let (y, end_) ← strtoul ULONG_MAX s
      if end_ ≠ [] ∨ x > 255 ∨ y > 255 then none else some (BitVec.ofNat 8 x, BitVec.ofNat 8 y)
  | _ => none

structure PadFrame where
  frame : Nat
  retrace : Nat
  st : PadState
  deriving DecidableEq, Repr

/-- The pairs that follow the buttons, each into its place; a field after the
last is a typo, not input. -/
def pad_parse_pairs : List (Byte × Byte → PadState → PadState) → PadState → Text →
    Option (PadState × Text)
  | [], st, p =>
      match pad_token p with
      | (some _, _) => none
      | (none, p) => some (st, p)
  | place :: places, st, p =>
      match pad_token p with
      | (none, p) => some (st, p)
      | (some tok, p) => do
          let v ← pad_parse_pair tok
          pad_parse_pairs places (place v st) p

/-- The retrace count that rides in the line's comment. -/
def parse_retrace (p : Text) : Nat :=
  match p.dropWhile blank with
  | '#' :: q =>
      match q.dropWhile (· = ' ') with
      | 'r' :: q =>
          if (q.head?.map Char.isDigit).getD false then
            ((strtoul (2 ^ 64 - 1) q).map (·.1)).getD 0
          else 0
      | _ => 0
  | _ => 0

def pad_places : List (Byte × Byte → PadState → PadState) :=
  [fun v st => { st with stick := v }, fun v st => { st with cstick := v },
    fun v st => { st with trig := v }]

inductive Parsed where
  | nothing
  | malformed
  | state (e : PadFrame)
  deriving DecidableEq, Repr

def pad_parse_line (line : Text) : Parsed :=
  match pad_token line with
  | (none, _) => .nothing
  | (some tok, p) =>
      match strtoul ULONG_MAX tok with
      | some (frame, []) =>
          match pad_token p with
          -- a bare frame number is the neutral state
          | (none, p) => .state ⟨frame, parse_retrace p, PAD_NEUTRAL⟩
          | (some tok, p) =>
              match pad_parse_buttons tok with
              | none => .malformed
              | some buttons =>
                  match pad_parse_pairs pad_places { PAD_NEUTRAL with buttons } p with
                  | none => .malformed
                  | some (st, p) => .state ⟨frame, parse_retrace p, st⟩
      | _ => .malformed

end SoaPort.Pad
