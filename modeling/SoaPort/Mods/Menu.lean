import SoaPort.Mods.Order

namespace SoaPort.Mods.Menu

/-! The menu's on and off of mods, by soa.ini's mod_order (menu.c). -/

def EDITS : Nat := 64

def MOD_ORDER : Str := "mod_order".toList

/-- What the menu knows: SOA_MOD_ORDER, its own edits of this run, and the mod_order it has
saved. -/
structure State where
  env : Option Str
  g_edits : List (Str × Str)
  ini : Option Str

def edited (s : State) (key : Str) : Option Str :=
  (s.g_edits.find? fun e => e.1 = key).map (·.2)

/-- An edit is kept in 80 and 64 bytes; a new one past the table is not. -/
def remember (edits : List (Str × Str)) (key value : Str) : List (Str × Str) :=
  match edits.findIdx? fun e => e.1 = key with
  | some i => edits.set i (key.take 79, value.take 63)
  | none => if edits.length = EDITS then edits else edits ++ [(key.take 79, value.take 63)]

/-- `save` of mod_order, the setting having been set. -/
def save (s : State) (value : Str) : State :=
  { s with g_edits := remember s.g_edits MOD_ORDER value, ini := some value }

/-- mod_order as it will be read next. -/
def order_now (s : State) : Str :=
  match edited s MOD_ORDER with
  | some e => e
  | none => s.env.getD []

/-- What is left of the list at each turn of `while (*p)`, past the blanks and commas; a turn
ends at the next comma. -/
def turns_of : (fuel : Nat) → Str → List Str
  | 0, _ => []
  | fuel + 1, p =>
      if p = [] then []
      else
        let p := p.dropWhile fun c => c = ' ' || c = ','
        p :: turns_of fuel (p.dropWhile (· ≠ ','))

def turns (p : Str) : List Str := turns_of p.length p

/-- At `-KEY` with a comma, a blank or the end after it. -/
def at_off (key p : Str) : Bool :=
  p.head? = some '-' && (p.drop 1).take key.length = key &&
    (match p.drop (1 + key.length) with
      | [] => true
      | c :: _ => c = ',' || c = ' ')

/-- Whether the list turns `key` off. -/
def turned_off (s : State) (key : Str) : Bool := (turns (order_now s)).any (at_off key)

/-- `a` to `b`: up to the comma, less the blanks before it. -/
def entry (p : Str) : Str := (p.takeWhile (· ≠ ',')).rdropWhile (· = ' ')

def dash (p : Str) : Nat := if p.head? = some '-' then 1 else 0

/-- This mod's entry. -/
def own (key p : Str) : Bool :=
  (entry p).length = key.length + dash p && (p.drop (dash p)).take key.length = key

/-- `used ? "," : ""` -/
def comma (out : Str) : Str := if out.length ≠ 0 then [','] else []

/-- The other entries put together, in 512 bytes. -/
def keep (key : Str) : List Str → (out : Str) → Option Str
  | [], out => some out
  | p :: next, out =>
      if entry p = [] then keep key next out
      else if own key p then keep key next out
      else
        let out := out ++ comma out ++ entry p
        if out.length ≥ 512 then none else keep key next out

/-- mod_order with `key` turned on or off. -/
def set_mod_on (s : State) (key : Str) (on : Bool) : State :=
  match keep key (turns (order_now s)) [] with
  | none => s
  | some out => save s (if on then out else (out ++ comma out ++ '-' :: key).take 511)

end SoaPort.Mods.Menu
