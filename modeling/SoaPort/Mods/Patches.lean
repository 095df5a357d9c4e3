import Mathlib
import SoaPort.Mods.Order
import SoaPort.Recomp.Cpu

namespace SoaPort.Mods

open Recomp

/-! The patches of the mods: loading them, and writing them each frame. -/

def MOD_MAX : Nat := 32

def PATCH_MAX : Nat := 1024

def SCENE_ID : Word := 0x803475CC

def FIELD_STATE : Word := 0x80311AEC

def MAP_NUMBER : Word := 0x80311AC0

def MAP_LETTER : Word := 0x80311AC8

def FIELD_RUNNING : Word := 8

/-- The map's encounter table. -/
def ENCOUNTER_TABLE : Word := 0x803474BC

/-- The map whose encounters are a table of their own. -/
def WORLD_MAP : Word := 99

/-- Targets one `for` may run. -/
def FOR_MAX : Nat := 64

/-- `*=` targets across all mods. -/
def SLOT_MAX : Nat := 4096

/-- The console's RAM, 24 MB. -/
def MEM1_SIZE : Nat := 0x01800000

inductive Trigger where
  | every_frame
  | once
  | on_map_load
  deriving DecidableEq, Repr

inductive Width where
  | u8
  | u16
  | u32
  | s8
  | s16
  | s32
  deriving DecidableEq, Repr

def Width.bytes : Width → Nat
  | .u8 | .s8 => 1
  | .u16 | .s16 => 2
  | .u32 | .s32 => 4

def Width.sign : Width → Bool
  | .s8 | .s16 | .s32 => true
  | .u8 | .u16 | .u32 => false

/-- A line of patches.txt, read: its target, its value or factor, the run of
its `for` and its conditions. -/
structure Line where
  trigger : Trigger
  width : Width
  ptr : Bool
  ea : Word
  off : Nat
  stride : Nat
  mul : Bool
  value : Word
  den : Nat
  run : Option (Nat × Nat)
  scene : Option Word
  state : Option Word
  map : Option (Word × BitVec 8)
  deriving DecidableEq, Repr

structure Patch where
  ea : Word
  value : Word
  trigger : Trigger
  scene : Option Word
  state : Option Word
  map : Option (Word × BitVec 8)
  fired : Bool
  width : Width
  ptr : Bool
  mul : Bool
  off : Nat
  stride : Nat
  z0 : Nat
  z1 : Nat
  den : Nat
  slot : Nat
  mod : Nat
  deriving DecidableEq, Repr

/-- The z of each target. -/
def Patch.run (p : Patch) : List Nat := List.range' p.z0 (p.z1 + 1 - p.z0)

/-- The DOL's code sections: where each is, and its size. -/
abbrev Text := List (Word × Word)

/-- Whether a text section holds one of the `n` bytes at `ea`. -/
def in_text (text : Text) (ea : Word) (n : Nat) : Bool :=
  text.any fun s => s.2 ≠ 0 && s.1 ≤ ea + BitVec.ofNat 32 (n - 1) && ea < s.1 + s.2

structure Mod where
  id : Str
  dir : Str
  overrides : Str
  first : Nat
  count : Nat
  deriving Inhabited

/-- What a list names a mod by: its id, or a version 1 mod's folder. -/
def mod_key (m : Mod) : Str := if m.id ≠ [] then m.id else m.dir

/-- What has loaded. -/
structure Loader where
  g_mods : List Mod
  g_patches : List Patch
  g_slot_n : Nat

def Loader.init : Loader := ⟨[], [], 0⟩

/-- The run of a `for`; a target that steps needs one. -/
def parse_for (t : Line) : Option (Nat × Nat) :=
  match t.run with
  | some (a, b) =>
      if a ≤ b ∧ b ≤ 0xFFFF ∧ t.stride ≠ 0 ∧ b - a < FOR_MAX then some (a, b) else none
  | none => if t.stride = 0 then some (0, 0) else none

/-- Whether every target of a direct patch is data in the console's RAM. -/
def targets_data (text : Text) (p : Patch) : Bool :=
  p.run.all fun z =>
    let ea := p.ea.toNat + z * p.stride
    ea + (p.width.bytes - 1) < 0x80000000 + MEM1_SIZE &&
      !in_text text (BitVec.ofNat 32 ea) p.width.bytes

/-- A line's patch; none for a line that is refused. -/
def parse_line (text : Text) (t : Line) : Option Patch :=
  if is_mmio t.ea then none
  else if t.ea.toNat < 0x80000000 ∨ t.ea.toNat ≥ 0x80000000 + MEM1_SIZE then none
  else if t.ptr ∧ t.ea &&& 3 ≠ 0 then none
  else if !t.ptr ∧ t.ea.toNat &&& (t.width.bytes - 1) ≠ 0 then none
  else if (t.off ||| t.stride) &&& (t.width.bytes - 1) ≠ 0 then none
  else if t.mul ∧ t.trigger ≠ .on_map_load then none
  else
    match parse_for t with
    | none => none
    | some (z0, z1) =>
        let p : Patch := { t with fired := false, z0, z1, slot := 0, mod := 0 }
        if t.ptr ∧ t.ea = ENCOUNTER_TABLE ∧ t.map.any (·.1 = WORLD_MAP) then none
        else if !t.ptr ∧ !targets_data text p then none
        else some p

/-- How many `*=` slots a patch has. -/
def Patch.slots (p : Patch) : Nat := if p.mul then p.z1 - p.z0 + 1 else 0

/-- A line's patch, put after the others while there is room. -/
def parse_patch (text : Text) (l : Loader) (t : Line) : Option Loader :=
  match parse_line text t with
  | none => none
  | some p =>
      if p.mul ∧ l.g_slot_n + p.slots > SLOT_MAX then none
      else if l.g_patches.length = PATCH_MAX then none
      else
        some
          { l with
            g_patches := l.g_patches ++
              [{ p with slot := if p.mul then l.g_slot_n else 0, mod := l.g_mods.length }]
            g_slot_n := l.g_slot_n + p.slots }

def parse_patches (text : Text) (l : Loader) : List Line → Option Loader
  | [] => some l
  | t :: lines => (parse_patch text l t).bind fun l => parse_patches text l lines

/-- Whether two conditions of a kind can hold on one frame. -/
def one_can_meet {α : Type} [DecidableEq α] (x y : Option α) : Bool :=
  match x, y with
  | some x, some y => x = y
  | _, _ => true

/-- Whether two patches' conditions can hold on one frame: not when both name
a scene, a state or a map and the two differ. -/
def conds_can_meet (a b : Patch) : Bool :=
  one_can_meet a.scene b.scene && one_can_meet a.state b.state && one_can_meet a.map b.map

/-- Where a patch's steps are counted from: its address, or its pointer's
offset. -/
def Patch.origin (p : Patch) : Nat := if p.ptr then p.off else p.ea.toNat

/-- The first byte two patches share, an address or the pointer's offset, when
their bytes can meet: two direct patches, or two through one pointer word. -/
def bytes_meet (a b : Patch) : Option Nat :=
  if a.ptr ≠ b.ptr ∨ (a.ptr ∧ a.ea ≠ b.ea) then none
  else
    a.run.findSome? fun za =>
      let lo := a.origin + za * a.stride
      let hi := lo + a.width.bytes
      b.run.findSome? fun zb =>
        let lo2 := b.origin + zb * b.stride
        let hi2 := lo2 + b.width.bytes
        if lo < hi2 ∧ lo2 < hi then some (if lo > lo2 then lo else lo2) else none

/-- The same value written over the same targets by both. -/
def same_write (a b : Patch) : Bool :=
  !a.mul && !b.mul && a.width.bytes = b.width.bytes && a.value = b.value && a.ptr = b.ptr &&
    a.ea = b.ea && a.off = b.off && a.stride = b.stride && a.z0 = b.z0 && a.z1 = b.z1

/-- Whether a patch of `m`'s from `first` on meets an earlier mod's, and
neither mod names the other in `overrides`. -/
def check_conflicts (l : Loader) (first : Nat) (m : Mod) : Bool :=
  (l.g_patches.drop first).any fun p =>
    (l.g_patches.take first).any fun q =>
      let o := l.g_mods.getD q.mod default
      conds_can_meet p q && (bytes_meet p q).isSome && !same_write p q &&
        !(in_list m.overrides (mod_key o) || in_list o.overrides (mod_key m))

/-- A mod whose mod.ini reads: its id, its folder, what it overrides, and the
lines of its patches.txt. -/
structure ModFile where
  id : Str
  dir : Str
  overrides : Str
  lines : List Line

/-- A mod loaded after the others; none, and nothing kept of it, when it is
refused. -/
def load_one (text : Text) (l : Loader) (f : ModFile) : Option Loader :=
  if l.g_mods.length = MOD_MAX then none
  else if f.id ≠ [] ∧ l.g_mods.any (·.id = f.id) then none
  else
    match parse_patches text l f.lines with
    | none => none
    | some next =>
        let before := l.g_patches.length
        let m : Mod := ⟨f.id, f.dir, f.overrides, before, next.g_patches.length - before⟩
        if next.g_patches.length = before then none
        else if check_conflicts next before m then none
        else some { next with g_mods := l.g_mods ++ [m] }

def load (text : Text) (files : List ModFile) : Loader :=
  files.foldl (fun l f => (load_one text l f).getD l) .init

/-! Every frame. -/

/-- What a `*=` target was left holding. -/
structure Slot where
  set : Bool
  key : Word
  addr : Word
  wrote : Word
  deriving DecidableEq, Repr

def is_m6 (p : Patch) : Bool := p.width.bytes ≠ 4 || p.width.sign || p.ptr || p.mul || p.stride ≠ 0

/-- Whether a patch may write the `n` bytes at `ea`: in RAM, on its alignment,
and outside the DOL's code. -/
def target_ok (text : Text) (ea n : Nat) : Bool :=
  !(ea < 0x80000000 || ea + n > 0x80000000 + MEM1_SIZE || ea &&& (n - 1) ≠ 0) &&
    text.all fun s =>
      let lo := s.1.toNat
      let hi := (s.1 + s.2).toNat
      !(hi > lo && ea < hi && ea + n > lo)

section Frame

variable {ρ : Type} (rt : Runtime ρ)

def read_n (s : CpuState ρ) (ea : Word) : Nat → Word × CpuState ρ
  | 1 =>
      let (v, s) := mem_r8 rt s ea
      (v.setWidth 32, s)
  | 2 =>
      let (v, s) := mem_r16 rt s ea
      (v.setWidth 32, s)
  | _ => mem_r32 rt s ea

def write_n (s : CpuState ρ) (ea : Word) (n : Nat) (v : Word) : CpuState ρ :=
  match n with
  | 1 => mem_w8 rt s ea (v.setWidth 8)
  | 2 => mem_w16 rt s ea (v.setWidth 16)
  | _ => mem_w32 rt s ea v

/-- `was` times the factor, toward zero, clamped to the width. -/
def scaled (was : Word) (p : Patch) : Word :=
  let bits := 8 * p.width.bytes
  let mask := 2 ^ bits - 1
  if p.width.sign then
    let hi : Int := 2 ^ (bits - 1) - 1
    let lo := -hi - 1
    let v : Int := (was.toNat &&& mask : Nat)
    let v := if v > hi then v - 2 ^ bits else v
    let v := (v * p.value.toNat).tdiv p.den
    BitVec.ofInt 32 (if v < lo then lo else if v > hi then hi else v) &&& BitVec.ofNat 32 mask
  else
    let v := (was.toNat &&& mask) * p.value.toNat / p.den
    BitVec.ofNat 32 (if v > mask then mask else v)

/-- What a patch's targets are written over: the guest, the `*=` slots, and
how many targets were written. -/
structure Applying (ρ : Type) where
  s : CpuState ρ
  g_slots : Nat → Slot
  written : Nat

/-- One target of a patch. A `*=` target still holding what was written there
at this map is left. -/
def apply_target (text : Text) (p : Patch) (key : Word) (base : Nat) (a : Applying ρ) (z : Nat) :
    Applying ρ :=
  let ea := base + z * p.stride
  if !target_ok text ea p.width.bytes then a
  else
    let addr := BitVec.ofNat 32 ea
    let (was, s) := read_n rt a.s addr p.width.bytes
    if p.mul then
      let sl := a.g_slots (p.slot + (z - p.z0))
      if sl.set ∧ sl.key = key ∧ sl.addr = addr ∧ sl.wrote = was then { a with s }
      else
        let now := scaled was p
        { s := write_n rt s addr p.width.bytes now
          g_slots := Function.update a.g_slots (p.slot + (z - p.z0)) ⟨true, key, addr, now⟩
          written := a.written + 1 }
    else
      { s := write_n rt s addr p.width.bytes p.value
        g_slots := a.g_slots
        written := a.written + 1 }

/-- A patch's targets written. A null pointer is passed over, and the world
map's encounter table. -/
def apply_patch (text : Text) (s : CpuState ρ) (g_slots : Nat → Slot) (p : Patch) (key : Word) :
    Applying ρ :=
  if p.ptr then
    if p.ea = ENCOUNTER_TABLE ∧ key >>> 8 = WORLD_MAP then ⟨s, g_slots, 0⟩
    else
      let (base, s) := mem_r32 rt s p.ea
      if base = 0 then ⟨s, g_slots, 0⟩
      else p.run.foldl (apply_target rt text p key (base.toNat + p.off)) ⟨s, g_slots, 0⟩
  else p.run.foldl (apply_target rt text p key p.ea.toNat) ⟨s, g_slots, 0⟩

/-- What a frame's patches are asked by. -/
structure When where
  scene : Word
  state : Word
  number : Word
  letter : BitVec 8
  loaded : Bool

def When.key (w : When) : Word := w.number <<< 8 ||| w.letter.setWidth 32

/-- Whether a patch is passed over this frame. -/
def Patch.skipped (p : Patch) (w : When) : Bool :=
  (p.trigger = .once && p.fired) || (p.trigger = .on_map_load && !w.loaded) ||
    p.scene.any (w.scene ≠ ·) || p.state.any (w.state ≠ ·) ||
    p.map.any fun m => w.number ≠ m.1 || w.letter ≠ m.2

/-- One patch of a frame. -/
def patch_step (text : Text) (w : When) (p : Patch) (g_slots : Nat → Slot) (s : CpuState ρ) :
    Patch × (Nat → Slot) × CpuState ρ :=
  if p.skipped w then (p, g_slots, s)
  else if is_m6 p then
    let a := apply_patch rt text s g_slots p w.key
    (if a.written = 0 then p else { p with fired := true }, a.g_slots, a.s)
  else ({ p with fired := true }, g_slots, mem_w32 rt s p.ea p.value)

def patches_step (text : Text) (w : When) :
    List Patch → (Nat → Slot) → CpuState ρ → List Patch × (Nat → Slot) × CpuState ρ
  | [], g_slots, s => ([], g_slots, s)
  | p :: patches, g_slots, s =>
      let (p, g_slots, s) := patch_step rt text w p g_slots s
      let (patches, g_slots, s) := patches_step text w patches g_slots s
      (p :: patches, g_slots, s)

/-- The mods' patches, running. -/
structure Running where
  g_patches : List Patch
  g_slots : Nat → Slot
  g_last_map : Word
  g_patch_reload : Bool

def Running.start (l : Loader) : Running where
  g_patches := l.g_patches
  g_slots := fun _ => ⟨false, 0, 0, 0⟩
  g_last_map := 0xFFFFFFFF
  g_patch_reload := false

/-- Whether the frame saw a load since the field last ran. -/
def reload (r : Running) (state : Word) : Bool := r.g_patch_reload || state = 3 || state = 5

/-- What the guest is at, at the end of a frame. -/
def frame_when (r : Running) (s : CpuState ρ) : When × CpuState ρ :=
  let (scene, s) := mem_r32 rt s SCENE_ID
  let (state, s) := mem_r32 rt s FIELD_STATE
  let (number, s) := mem_r32 rt s MAP_NUMBER
  let (letter, s) := mem_r8 rt s MAP_LETTER
  let key := number <<< 8 ||| letter.setWidth 32
  let loaded := state = FIELD_RUNNING ∧ (key ≠ r.g_last_map ∨ reload r state)
  (⟨scene, state, number, letter, loaded⟩, s)

/-- The end of a frame. -/
def mod_frame (text : Text) (r : Running) (s : CpuState ρ) : Running × CpuState ρ :=
  if r.g_patches = [] then (r, s)
  else
    let (w, s) := frame_when rt r s
    let (g_patches, g_slots, s) := patches_step rt text w r.g_patches r.g_slots s
    ({ g_patches, g_slots
       g_last_map := if w.state = FIELD_RUNNING then w.key else r.g_last_map
       g_patch_reload := if w.state = FIELD_RUNNING then false else reload r w.state }, s)

/-- A run of frames, the guest's own work before each: the guest after each
`mod_frame`. -/
def frames (text : Text) (r : Running) (s : CpuState ρ) :
    List (CpuState ρ → CpuState ρ) → List (CpuState ρ)
  | [] => []
  | guest :: more =>
      let (r, s) := mod_frame rt text r (guest s)
      s :: frames text r s more

end Frame

end SoaPort.Mods
