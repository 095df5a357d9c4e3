import SoaPort.Ppc.Dol

namespace SoaPort.Ppc.Gamedata

/-! What an instruction of the game reaches (gamedata.py). -/

/-- D-form loads and stores, and addi, by their primary opcode. -/
def D_FORMS : List Nat :=
  [32, 33, 34, 35, 36, 37, 38, 39, 40, 41, 42, 43, 44, 45, 46, 47, 48, 49, 50, 51, 52, 53, 54, 55,
    14]

def LOADS_RD : List Nat := [32, 33, 34, 35, 40, 41, 42, 43, 46, 14, 15]

def UPDATES : List Nat := [33, 35, 37, 39, 41, 43, 45, 49, 51, 53, 55]

def _simm (word : Nat) : Int := (((word &&& 0xFFFF) ^^^ 0x8000 : Nat) : Int) - 0x8000

/-- The opcode 31 words taken to write rA. -/
def logical (xo : Nat) : Bool :=
  [28, 60, 124, 284, 316, 412, 444, 476, 24, 536, 792, 824, 26, 922, 954, 0x358].contains xo

/-- The opcode 31 words taken to write nothing. -/
def silent (xo : Nat) : Bool :=
  [0, 32, 151, 183, 215, 247, 407, 439, 662, 918, 150, 86, 54, 278].contains xo

/-- Whether the instruction may leave `reg` holding something else. -/
def _writes (word reg : Nat) : Bool :=
  let op := word >>> 26
  let rd := (word >>> 21) &&& 31
  let ra := (word >>> 16) &&& 31
  if LOADS_RD.contains op && rd = reg then true
  else if UPDATES.contains op && ra = reg then true
  else if [24, 25, 26, 27, 28, 29, 20, 21, 23].contains op && ra = reg then true
  else if [7, 8, 10, 11, 12, 13].contains op && rd = reg then !([10, 11].contains op)
  else if op = 31 then
    let xo := (word >>> 1) &&& 0x3FF
    if logical xo && ra = reg then true
    else !logical xo && rd = reg && !silent xo
  else [16, 18, 19].contains op

/-- What `dol.word` raises: a `ValueError`, or a `struct.error` when the file ends inside
the word. -/
inductive Unread where
  | value_error
  | struct_error
deriving DecidableEq

/-- `dol.word(ref - back)`. -/
def word_before (dol : Dol) (ref back : Nat) : Except Unread Nat :=
  if ref < back then .error .value_error
  else
    match dol.section_at (ref - back) with
    | none => .error .value_error
    | some _ =>
        if (dol.read (ref - back) 4).length = 4 then .ok (dol.word (ref - back))
        else .error .struct_error

/-- `lis ra, hi` -/
def is_lis (word ra : Nat) : Bool :=
  word >>> 26 = 15 && (word >>> 21) &&& 31 = ra && (word >>> 16) &&& 31 = 0

/-- The search back from `ref`: `n` more words, the next one `i` before it. -/
def search (dol : Dol) (ref word ra : Nat) : (n i : Nat) → Except Unread (Option Nat)
  | 0, _ => .ok none
  | n + 1, i =>
      match word_before dol ref (4 * i) with
      | .error .value_error => .ok none
      | .error .struct_error => .error .struct_error
      | .ok prev =>
          if is_lis prev ra then
            .ok (some ((((((prev &&& 0xFFFF) <<< 16 : Nat) : Int) + _simm word) % 2 ^ 32).toNat))
          else if _writes prev ra then .ok none
          else search dol ref word ra n (i + 1)

/-- The address the instruction at `ref` reaches; a `struct.error` is not caught. -/
def reach (dol : Dol) (ref : Nat) (sda : Nat → Option Nat) (back : Nat := 32) :
    Except Unread (Option Nat) :=
  match word_before dol ref 0 with
  | .error .value_error => .ok none
  | .error .struct_error => .error .struct_error
  | .ok word =>
      let op := word >>> 26
      let ra := (word >>> 16) &&& 31
      if !D_FORMS.contains op then .ok none
      else
        match (if ra = 2 ∨ ra = 13 then sda ra else none) with
        | some base => .ok (some (((base + _simm word) % 2 ^ 32).toNat))
        | none => if ra = 0 then .ok none else search dol ref word ra back 1

end SoaPort.Ppc.Gamedata
