import SoaPort.Lib.Text
import SoaPort.Mods.Order

namespace SoaPort.Mods

/-! The options mods declare, and the values SOA_MOD_OPT gives them (mod.c). -/

inductive OptionType where
  | int
  | bool
  | enum
  | string
  | seed
  deriving DecidableEq

/-- `lo` and `hi` are int's range, `choices` enum's A|B|C; `set` once SOA_MOD_OPT
gave the option a value. -/
structure ModOption where
  name : Str
  type : OptionType
  set : Bool
  lo : Int
  hi : Int
  choices : Str
  default : Str
  value : Str

def is_hex (c : Char) : Bool :=
  c.isDigit || ('a' ≤ c && c ≤ 'f') || ('A' ≤ c && c ≤ 'F')

def hex_digit (c : Char) : Nat :=
  if c.isDigit then c.toNat - '0'.toNat
  else if 'a' ≤ c then c.toNat - 'a'.toNat + 10
  else c.toNat - 'A'.toNat + 10

/-- `0x` and up to eight hex digits, or a decimal without leading zeroes. -/
def parse_u32 (t : Str) : Option Nat :=
  let n := t.length
  if 2 < n ∧ t.take 2 = ['0', 'x'] then
    if 10 < n then none
    else if (t.drop 2).all is_hex then
      some ((t.drop 2).foldl (fun v c => 16 * v + hex_digit c) 0)
    else none
  else if n = 0 ∨ 10 < n ∨ (t.head? = some '0' ∧ 1 < n) then none
  else if t.all Char.isDigit then
    let v := Nat.ofDigitChars 10 t 0
    if 0xFFFFFFFF < v then none else some v
  else none

def parse_int (t : Str) : Option Int :=
  let minus : Bool := t.head? = some '-'
  let d := if minus then t.tail else t
  let n := d.length
  if n = 0 ∨ 10 < n ∨ (d.head? = some '0' ∧ (1 < n ∨ minus)) then none
  else if d.all Char.isDigit then
    let m : Int := Nat.ofDigitChars 10 d 0
    let v := if minus then -m else m
    if v < -2147483648 ∨ 2147483647 < v then none else some v
  else none

def word_ok (s : Str) (max : Nat) : Bool :=
  s ≠ [] && s.length ≤ max &&
    s.all fun c => c.isAlphanum || c = '.' || c = '_' || c = '+' || c = '-'

def one_of (choices v : Str) : Bool := (choices.splitOn '|').contains v

/-- `%lld` -/
def signed_decimal (i : Int) : Str :=
  if i < 0 then '-' :: Lib.decimal i.natAbs else Lib.decimal i.natAbs

/-- The room of `default` and of `value`, with the NUL. -/
def VALUE_SIZE : Nat := 64

def option_value (o : ModOption) (v : Str) : Option Str :=
  let as_is := some (v.take (VALUE_SIZE - 1))
  match o.type with
  | .int =>
      match parse_int v with
      | some i => if i < o.lo ∨ o.hi < i then none else some (signed_decimal i)
      | none => none
  | .bool => if v = ['0'] ∨ v = ['1'] then as_is else none
  | .enum => if one_of o.choices v then as_is else none
  | .string => if word_ok v 63 then as_is else none
  | .seed => (parse_u32 v).map Lib.decimal

/-- What a value of the option has to be, for a refusal. -/
def option_domain (o : ModOption) : Str :=
  match o.type with
  | .int => "a whole number from ".toList ++ signed_decimal o.lo ++ " to ".toList ++
      signed_decimal o.hi
  | .bool => "0 or 1".toList
  | .enum => "one of ".toList ++ o.choices
  | .string => "1 to 63 letters, digits, '.', '_', '+' and '-'".toList
  | .seed => "a 32-bit number, 0x and hex digits or decimal".toList

/-! ### `option = NAME TYPE [DOMAIN] DEFAULT` -/

def OPTION_MAX : Nat := 16

/-- What refuses a declaration: the words it is about. -/
inductive DeclarationRefusal where
  | shape
  | name (name : Str)
  | twice (name : Str)
  | many (name : Str)
  | type (type : Str)
  | words (name : Str) (want : Nat)
  | range (name range : Str)
  | choices (name choices : Str)
  | default (name value why : Str)

def k_otype : List (Str × OptionType) :=
  [(['i', 'n', 't'], .int), (['b', 'o', 'o', 'l'], .bool), (['e', 'n', 'u', 'm'], .enum),
    (['s', 't', 'r', 'i', 'n', 'g'], .string), (['s', 'e', 'e', 'd'], .seed)]

def name_ok (name : Str) : Bool :=
  name.length < 32 && name.head?.any Char.isLower &&
    name.all fun c => c.isLower || c.isDigit || c = '_'

/-- What stands before the first `..`, and after it. -/
def cut_dots : Str → Option (Str × Str)
  | [] => none
  | c :: rest =>
      if c = '.' ∧ rest.head? = some '.' then some ([], rest.tail)
      else (cut_dots rest).map fun parts => (c :: parts.1, parts.2)

def read_range (t : Str) : Option (Int × Int) :=
  match cut_dots t with
  | none => none
  | some (before, after) =>
      match parse_int before, parse_int after with
      | some lo, some hi => if lo ≤ hi then some (lo, hi) else none
      | _, _ => none

def choices_ok (t : Str) : Bool :=
  let parts := t.splitOn '|'
  t.length < 128 && parts.all (word_ok · 31) && parts.length ≤ 16 && decide parts.Nodup

/-- The domain's range or choices, and the default. -/
def read_domain (name : Str) (type : OptionType) (tok : List Str) :
    Except DeclarationRefusal (Int × Int × Str × Str) :=
  match type, tok with
  | .int, [range, text] =>
      match read_range range with
      | some (lo, hi) => .ok (lo, hi, [], text)
      | none => .error (.range name range)
  | .enum, [choices, text] =>
      if choices_ok choices then .ok (0, 0, choices, text) else .error (.choices name choices)
  | .int, _ => .error (.words name 4)
  | .enum, _ => .error (.words name 4)
  | _, [text] => .ok (0, 0, [], text)
  | _, _ => .error (.words name 3)

def read_option (name : Str) (type : OptionType) (tok : List Str) :
    Except DeclarationRefusal ModOption :=
  match read_domain name type tok with
  | .error r => .error r
  | .ok (lo, hi, choices, text) =>
      let o : ModOption := ⟨name, type, false, lo, hi, choices, [], []⟩
      match option_value o text with
      | none => .error (.default name (text.take 40) (option_domain o))
      | some canon => .ok { o with default := canon, value := canon }

def parse_option (opts : List ModOption) (val : Str) :
    Except DeclarationRefusal (List ModOption) :=
  match split val 5 with
  | some (name :: type :: tok) =>
      if tok = [] then .error .shape
      else if name_ok name = false then .error (.name name)
      else if name ∈ opts.map (·.name) then .error (.twice name)
      else if opts.length = OPTION_MAX then .error (.many name)
      else
        match k_otype.lookup type with
        | none => .error (.type type)
        | some t =>
            match read_option name t tok with
            | .error r => .error r
            | .ok o => .ok (opts ++ [o])
  | _ => .error .shape

/-- The `option` lines of a mod.ini, in order. -/
def parse_options : List ModOption → List Str → Except DeclarationRefusal (List ModOption)
  | opts, [] => .ok opts
  | opts, val :: rest =>
      match parse_option opts val with
      | .error r => .error r
      | .ok opts => parse_options opts rest

/-! ### SOA_MOD_OPT -/

/-- `ID.NAME=VALUE`, parted at the first '=' and the last '.' before it. -/
def opt_entry (e : Str) : Option (Str × Str × Str) :=
  let key := e.takeWhile (· ≠ '=')
  if '=' ∈ e ∧ '.' ∈ key then
    let name := (key.reverse.takeWhile (· ≠ '.')).reverse
    let id := key.take (key.length - name.length - 1)
    if id = [] ∨ name = [] then none else some (id, name, e.drop (key.length + 1))
  else none

def OPT_ENV_MAX : Nat := 4096

/-- What refuses a mod: the entry, with the name it gives or what its value has to be. -/
inductive OptionRefusal where
  | undeclared (entry name : Str)
  | twice (entry name : Str)
  | domain (entry why : Str)

/-- The first option of that name, given a value. -/
def give (name canon : Str) : List ModOption → List ModOption
  | [] => []
  | o :: rest =>
      if o.name = name then { o with value := canon, set := true } :: rest
      else o :: give name canon rest

def apply_entry (id : Str) (opts : List ModOption) (e : Str) :
    Except OptionRefusal (List ModOption) :=
  let entry := e.take 299
  match opt_entry e with
  | none => .ok opts
  | some (eid, name, value) =>
      if eid ≠ id then .ok opts
      else
        match opts.find? (·.name = name) with
        | none => .error (.undeclared entry name)
        | some o =>
            if o.set then .error (.twice entry name)
            else
              match option_value o value with
              | none => .error (.domain entry ((option_domain o).take 199))
              | some canon => .ok (give name canon opts)

def apply_entries (id : Str) : List Str → List ModOption → Except OptionRefusal (List ModOption)
  | [], opts => .ok opts
  | e :: rest, opts =>
      match apply_entry id opts e with
      | .error r => .error r
      | .ok opts => apply_entries id rest opts

/-- The entries read: the words of what the buffer holds, none when they are too many. -/
def option_entries (env : Str) : List Str :=
  match split (env.take (OPT_ENV_MAX - 1)) 256 with
  | some tok => tok
  | none => []

def apply_options (id env : Str) (opts : List ModOption) :
    Except OptionRefusal (List ModOption) :=
  apply_entries id (option_entries env) opts

end SoaPort.Mods
