import SoaPort.Save.Room
import SoaPort.Save.Written

namespace SoaPort.Save

open Lib

/-! Save now (savenow.c): the game's save menu opened by this port, and what a save made in it
holds for the next load. -/

def SCENE_FIELD : BitVec 32 := 6
def FIELD_RUNNING : BitVec 32 := 8

/-- The field maps with a save point, number << 8 | letter. -/
def k_save_point_maps : List (BitVec 32) :=
  [0x261#32, 0x262#32, 0x263#32, 0x264#32, 0x265#32, 0x461#32, 0x561#32, 0x562#32, 0x861#32,
    0x862#32, 0xA61#32, 0xD61#32, 0xD62#32, 0xD64#32, 0xD65#32, 0x1161#32, 0x1162#32, 0x1165#32,
    0x1166#32, 0x1168#32, 0x1169#32, 0x1261#32, 0x1262#32, 0x1361#32, 0x1364#32, 0x1461#32,
    0x1C61#32, 0x6562#32, 0x6761#32, 0x6763#32, 0x6A61#32, 0x6B61#32, 0x6D64#32, 0x6D67#32,
    0x6F61#32, 0x6F64#32, 0x7061#32, 0x7063#32, 0x7362#32, 0x7461#32, 0x7465#32, 0x7467#32,
    0x7468#32, 0x7961#32, 0x7964#32, 0x7A61#32, 0x7B62#32, 0x7D61#32, 0x7E61#32, 0x7E65#32,
    0x8261#32, 0x8262#32, 0x8361#32, 0x8368#32, 0x1FE61#32, 0x20361#32, 0x20C61#32]

def savenow_is_save_point (map : BitVec 32) : Bool := k_save_point_maps.contains map

/-- What the guest's memory says of the game at a safe point. -/
structure Field where
  scene : BitVec 32
  field_state : BitVec 32
  map_number : BitVec 32
  map_letter : Byte
  flag_event : Bool
  script_entry_busy : BitVec 32

/-- Why the field is not quiet, or none when it is; `save_request` is whether a save is open. -/
def not_quiet (g : Field) (save_request : Bool) : Option String :=
  if g.scene = 7 then some "in a battle"
  else if g.scene ≠ SCENE_FIELD then some "not on the field"
  else if g.field_state ≠ FIELD_RUNNING then some "while the field loads"
  else if g.map_number ≥ 500 then some "in a ship battle"
  else if g.map_number = 99 then some "on the world map (not built)"
  else if g.flag_event || g.script_entry_busy = 1 then some "during an event"
  else if save_request then some "a save is open"
  else none

/-- The port's own words. -/
structure Port where
  g_pending : Bool
  g_opened : Bool
  g_frame_set : Bool
  g_at_frame : Nat
  g_last_sp : BitVec 32
  g_loaded_savenow : Bool

/-- Not during a replay, which is the whole input. -/
def savenow_request (p : Port) (replaying : Bool) : Port :=
  if replaying then p else { p with g_pending := true }

/-- The save menu asked for, or refused; with the port, whether a save is open after it. -/
def ask_menu (p : Port) (g : Field) (save_request : Bool) : Port × Bool :=
  match not_quiet g save_request with
  | some _ => (p, save_request)
  | none => ({ p with g_opened := true }, true)

/-- A replay's asks of this frame, one for each of its lines. -/
def ask_lines (g : Field) : Nat → Port × Bool → Port × Bool
  | 0, s => s
  | lines + 1, s => ask_lines g lines (ask_menu s.1 g s.2)

def current_map (number : BitVec 32) (letter : Byte) : BitVec 32 :=
  number <<< 8 ||| letter.setWidth 32

/-- `replay` is none when no replay runs, and else the lines it holds for this frame. -/
def savenow_safe_point (p : Port) (g : Field) (save_request : Bool) (f : Nat)
    (replay : Option Nat) : Port × Bool :=
  let map := current_map g.map_number g.map_letter
  let p :=
    if g.scene = SCENE_FIELD ∧ g.field_state = FIELD_RUNNING ∧ savenow_is_save_point map then
      { p with g_last_sp := map }
    else p
  match replay with
  | some lines =>
      ask_lines g lines ({ p with g_frame_set := false, g_pending := false }, save_request)
  | none =>
      let p :=
        if p.g_frame_set ∧ f ≥ p.g_at_frame then
          savenow_request { p with g_frame_set := false } false
        else p
      if p.g_pending then ask_menu { p with g_pending := false } g save_request
      else (p, save_request)

/-- The block's map word and letter. -/
structure Block where
  number : BitVec 32
  letter : Byte
deriving DecidableEq

def Block.map (b : Block) : BitVec 32 := current_map b.number b.letter

def Block.put (map : BitVec 32) : Block := ⟨map >>> 8, map.setWidth 8⟩

/-- The chunk for a save this port opened, and the block with its fallback. -/
def savenow_snapshot (p : Port) (b : Block) (cap : Nat) : Port × Block × Option (List Byte) :=
  if !p.g_opened || cap < CHUNK_LEN then (p, b, none)
  else
    let fallback := if savenow_is_save_point b.map then 0 else p.g_last_sp
    let b' := if fallback ≠ 0 then Block.put fallback else b
    ({ p with g_opened := false }, b',
      some (SaveNow.chunk ⟨b.map, fallback⟩))

def get32 (p : List Byte) : BitVec 32 := BitVec.ofNat 32 (of_be (p.take 4))

/-- Before the game copies the block; `no_restore` is SOA_SAVENOW_NO_RESTORE. -/
def savenow_load_pre (no_restore : Bool) (p : Port) (b : Block) (chunk : Option (List Byte)) :
    Port × Block :=
  let p := { p with g_loaded_savenow := false }
  match chunk with
  | none => (p, b)
  | some chunk =>
      if chunk.length < CHUNK_LEN ∨ chunk.take 4 ≠ SN1 then (p, b)
      else
        let map := get32 (chunk.drop 4)
        let fallback := get32 (chunk.drop 8)
        if no_restore then ({ p with g_loaded_savenow := true }, b)
        else if fallback ≠ 0 ∧ b.map = fallback then
          ({ p with g_loaded_savenow := true }, Block.put map)
        else if fallback ≠ 0 then (p, b)
        else ({ p with g_loaded_savenow := true }, b)

/-- After the copy. -/
def savenow_load_post (no_restore : Bool) (p : Port) (sys15 : BitVec 32) : Port × BitVec 32 :=
  if !p.g_loaded_savenow then (p, sys15)
  else ({ p with g_loaded_savenow := false }, if no_restore then sys15 else 0)

/-! The port, the game's save menu and the saves, from one event to the next. -/

/-- Who opened the save menu. -/
inductive Opener where
  | port
  | save_point
deriving DecidableEq

/-- A save: its block's map, and its gap and tail. What it was made in and where are noted. -/
structure Saved where
  block : Block
  gap : List Byte
  tail : List Byte
  opener : Opener
  made : Block

structure World where
  port : Port
  menu : Option Opener
  kept : List Byte
  files : List Saved

/-- What a snapshot meets beside this port's own chunk. The loader refuses other ids. -/
structure Asked where
  saves : List SaveMod
  claims : Option (List Byte)
  g_id : List Byte
  gap : List Byte
  tail : List Byte
  id16 : g_id.length = 16
  claimed : ∀ text, claims = some text → text.length < 2 ^ 32
  ids : ∀ m ∈ saves, good_id m.id = true ∧ ¬ soa <+: m.id

inductive Happening where
  | request (replaying : Bool)
  | safe_point (g : Field) (f : Nat) (replay : Option Nat)
  | save_point
  | leave
  | save (a : Asked) (b : Block)
  | resave (i : Nat) (b : Block)
  | foreign (b : Block)
  | load (i : Nat) (saves : List SaveMod)
  | new_game
  | restart (at_frame : Option Nat)

def port_start (at_frame : Option Nat) : Port :=
  ⟨false, false, at_frame.isSome, at_frame.getD 0, 0, false⟩

/-- The gap is looked at before the chunk is made. -/
def made_save (w : World) (opener : Opener) (a : Asked) (b : Block) : Port × Saved :=
  let (p, b', opened) :=
    if a.gap.any (· ≠ 0) then (w.port, b, none) else savenow_snapshot w.port b 16
  let snapshot := savext_snapshot a.saves w.kept opened a.claims a.g_id a.gap
  (p, ⟨b', snapshot.1, savext_image snapshot.2 a.g_id a.tail, opener, b⟩)

/-- The block and sys15 as a load leaves them; every Continue sets sys15 to 20000 first. -/
def after_load (no_restore : Bool) (w : World) (sv : Saved) : Port × Block × BitVec 32 :=
  let got := savext_load_pre sv.gap sv.tail
  let (p, b) := savenow_load_pre no_restore w.port sv.block (load_call got SAVENOW_ID)
  let (p, sys15) := savenow_load_post no_restore p 20000
  (p, b, sys15)

/-- The game has one save menu; it loads and starts anew with none open. The game alone keeps
the gap and the tail of a save it loaded when it saves it again. -/
def World.step (no_restore : Bool) (w : World) : Happening → World
  | .request replaying => { w with port := savenow_request w.port replaying }
  | .safe_point g f replay =>
      let (p, request) := savenow_safe_point w.port g w.menu.isSome f replay
      { w with port := p, menu := if w.menu = none ∧ request then some .port else w.menu }
  | .save_point => if w.menu = none then { w with menu := some .save_point } else w
  | .leave => { w with menu := none }
  | .save a b =>
      match w.menu with
      | none => w
      | some opener =>
          let (p, sv) := made_save w opener a b
          { w with port := p, files := w.files ++ [sv] }
  | .resave i b => { w with files := w.files.modify i fun sv => { sv with block := b } }
  | .foreign b =>
      { w with files := w.files ++
          [⟨b, List.replicate GAP_LEN 0, List.replicate TAIL_LEN 0, .save_point, b⟩] }
  | .load i saves =>
      match w.menu, w.files[i]? with
      | none, some sv =>
          { w with
            port := (after_load no_restore w sv).1
            kept := savext_load saves (savext_load_pre sv.gap sv.tail) }
      | _, _ => w
  | .new_game => if w.menu = none then { w with kept := [] } else w
  | .restart at_frame => { w with port := port_start at_frame, menu := none, kept := [] }

def World.run (no_restore : Bool) (w : World) (hs : List Happening) : World :=
  hs.foldl (World.step no_restore) w

/-- The port started for the first time. -/
def world_start (at_frame : Option Nat) : World := ⟨port_start at_frame, none, [], []⟩

end SoaPort.Save
