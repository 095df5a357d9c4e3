import Mathlib
import SoaPort.Lib.Overlay

namespace SoaPort.Gxv

open SoaPort.Lib

/-! The Vulkan backend's two slots: one recorded, the other in flight. -/

def LAND_MAX : Nat := 64
def RING_BYTES : Nat := 2 ^ 25
def DRAWREC_BYTES : Nat := 2 ^ 24
def TEXREC_BYTES : Nat := 2 ^ 20
def DEST_BYTES : Nat := 2 ^ 24
def IMAGE_BYTES : Nat := 2 ^ 22
def TEXREC_WORDS : Nat := 34
def GXV_DRAW_WORDS : Nat := 208
def OCC_QUERIES : Nat := 16384
def MAX_MIPS : Nat := 11
def MEM_MASK : Nat := 0x1FFFFFF
def MEM1_SIZE : Nat := 0x1800000

/-- `sizeof(Vertex)`. -/
def VERTEX_BYTES : Nat := 156

/-- What is set at start. -/
structure Config where
  /-- `g_nslots` is two -/
  two_slots : Bool
  land_early_off : Bool
  poll_off : Bool
  scale : Nat
  efbs : Nat
  pool_cap : Nat

def Config.nslots (c : Config) : Nat := if c.two_slots then 2 else 1
def Config.ring (c : Config) : Nat := RING_BYTES / c.nslots / VERTEX_BYTES * VERTEX_BYTES
def Config.draw (c : Config) : Nat := DRAWREC_BYTES / 4 / c.nslots
def Config.pool (c : Config) : Nat := c.pool_cap / c.nslots
def Config.texrec (c : Config) : Nat := TEXREC_BYTES / 4 / c.nslots

/-- The slots' halves: slot `t`'s starts here, and ends where the next would start. -/
def half (size : Nat) (t : Bool) : Nat := t.toNat * size
def half_end (size : Nat) (t : Bool) : Nat := (t.toNat + 1) * size

/-! A texture copy, and the compute pass that makes it. -/

/-- A copy to a texture the backend has taken: its command's number, its span of
guest RAM, its texels' layout, and their bits, as the EFB has them at that command. -/
structure Copy where
  seq : Nat
  guest : Nat
  extent : Nat
  texfmt : Nat
  ow : Nat
  oh : Nat
  row_bytes : Nat
  bits : Nat → UInt8

structure TileShape where
  tw : Nat
  th : Nat
  bpt : Nat

def tile_shape (texfmt : Nat) : TileShape :=
  if texfmt = 0 then ⟨8, 8, 32⟩
  else if texfmt ≤ 2 then ⟨8, 4, 32⟩
  else if texfmt ≤ 5 then ⟨4, 4, 32⟩
  else ⟨4, 4, 64⟩

/-- Which bits of the byte at `off` are the copy's. -/
def copy_byte (c : Copy) (off : Nat) : UInt8 :=
  let shape := tile_shape c.texfmt
  let tiles_w := (c.ow + shape.tw - 1) / shape.tw
  let ty := off / c.row_bytes
  let rem := off % c.row_bytes
  let tx := rem / shape.bpt
  let b := rem % shape.bpt
  if tx ≥ tiles_w then 0 -- between rows of tiles, past the copy
  else if c.texfmt = 0 then
    let x := tx * 8 + b % 4 * 2
    let y := ty * 8 + b / 4
    (if y < c.oh ∧ x < c.ow then 0xF0 else 0) ||| if y < c.oh ∧ x + 1 < c.ow then 0x0F else 0
  else if c.texfmt ≤ 2 then
    if ty * 4 + b / 8 ≥ c.oh ∨ tx * 8 + b % 8 ≥ c.ow then 0 else 0xFF
  else
    let t := b % 32 / 2
    if ty * 4 + t / 4 ≥ c.oh ∨ tx * 4 + t % 4 ≥ c.ow then 0 else 0xFF

/-- The byte at `off`, the copy's texels over what it was. -/
def Copy.texels (c : Copy) (off : Nat) (byte : UInt8) : UInt8 :=
  let mask := copy_byte c off
  byte &&& ~~~mask ||| c.bits off &&& mask

/-- `copy_to_texture`: the copy made in guest RAM at once. -/
def Copy.run (c : Copy) (ram : Nat → UInt8) : Nat → UInt8 := overlay c.guest c.extent c.texels ram

/-- A copy's compute pass, recorded. -/
structure Pass where
  dest_at : Nat
  copy : Copy

def Pass.run (p : Pass) (dest : Nat → UInt8) : Nat → UInt8 :=
  overlay p.dest_at p.copy.extent p.copy.texels dest

/-- A copy still to land: where its bytes and its image are. -/
structure Land where
  copy : Copy
  dest_at : Nat
  image : Option Nat
  image_at : Nat
  texels : Nat

def Land.pass (L : Land) : Pass := ⟨L.dest_at, L.copy⟩

/-! The backend's state. -/

structure CopyImage where
  cpu : Nat
  record : Nat

/-- What a slot's submission holds for guest RAM. -/
structure Work where
  inflight : Bool
  land : List Land
  land_first : Nat
  /-- the command buffer's copies -/
  passes : List Pass
  /-- how many of them the GPU has run, and then the fence -/
  ran : Nat

structure Slot extends Work where
  cimg : List CopyImage
  /-- `deliver_slot` is one -/
  deliver : Bool
  publish_due : Bool
  carried_lo : Nat
  carried_hi : Nat

def Slot.empty : Slot where
  inflight := false
  land := []
  land_first := 0
  cimg := []
  deliver := false
  publish_due := false
  carried_lo := 0
  carried_hi := 0
  passes := []
  ran := 0

structure Resident where
  epoch : Nat
  gen : Nat
  record : Nat

/-- A texture's record: its first level in the pool, and that level's size. -/
structure TexRec where
  at_ : Nat
  w : Nat
  h : Nat

/-- A `gxr_backend_landed`, and guest RAM at it. -/
structure Told where
  n : Nat
  ram : Nat → UInt8

inductive Region where
  | dest
  | image
  | pool

/-- A write of the host's into a region, and which slots were in flight. -/
structure HostWrite where
  region : Region
  at_ : Nat
  n : Nat
  busy : Bool → Bool

/-- The memories the copies go through, what gxr has been told of them, and
in order the copies taken. -/
structure Landing where
  dest : Nat → UInt8
  ram : Nat → UInt8
  seq_cur : Nat
  landed_said : Nat
  accepted : List Copy
  told : List Told

structure Backend extends Landing where
  slot : Bool → Slot
  cur : Bool
  /-- `g_rec` -/
  recording : Bool
  ring_used : Nat
  draw_used : Nat
  pool_used : Nat
  texrec_used : Nat
  dest_used : Nat
  image_used : Nat
  epoch : Nat
  resident : Nat → Resident
  texrec : Nat → TexRec
  measure : Bool
  occ_used : Nat
  /-- the next command's number -/
  mine : Nat
  /-- the host's looks at the GPU so far -/
  clock : Nat
  /-- the host's writes into regions, in order -/
  writes : List HostWrite

def Backend.set_slot (s : Backend) (t : Bool) (S : Slot) : Backend :=
  { s with slot := Function.update s.slot t S }

/-- The slot being recorded. -/
def Backend.current (s : Backend) : Slot := s.slot s.cur

/-- `g_cur ^ (g_nslots - 1)`. -/
def Backend.other (s : Backend) (c : Config) : Bool := if c.two_slots then !s.cur else s.cur

/-! The GPU. At the host's `k`th look slot `t` in flight has got through
`timing k t` more of what it was submitted with. -/

abbrev Timing := Nat → Bool → Nat

def gpu_run (t : Bool) (n : Nat) (s : Backend) : Backend :=
  let S := s.slot t
  if S.inflight then
    { s.set_slot t { S with ran := min (S.ran + n) (S.passes.length + 1) } with
      dest := run_ops Pass.run ((S.passes.drop S.ran).take n) s.dest }
  else s

def tick (timing : Timing) (s : Backend) : Backend :=
  { gpu_run true (timing s.clock true) (gpu_run false (timing s.clock false) s) with
    clock := s.clock + 1 }

/-- `vkGetFenceStatus`. -/
def Slot.signalled (S : Slot) : Bool := S.ran == S.passes.length + 1

def host_write (region : Region) (at_ n : Nat) (s : Backend) : Backend :=
  { s with writes := s.writes ++ [⟨region, at_, n, fun t => (s.slot t).inflight⟩] }

/-! Submitting and finishing. -/

def begin_cb (s : Backend) : Backend :=
  if s.recording then s else { s with recording := true, occ_used := 0 }

def through_slot (S : Slot) (through : Nat) : Nat :=
  if !S.land.isEmpty && S.land_first < through then S.land_first else through

def through (c : Config) (s : Backend) : Nat :=
  let first := through_slot (s.slot false) s.seq_cur
  if c.two_slots then through_slot (s.slot true) first else first

def say_landed (c : Config) (s : Backend) : Backend :=
  let n := through c s
  if s.landed_said < n then { s with landed_said := n, told := s.told ++ [⟨n, s.ram⟩] } else s

/-- A copy's bytes into guest RAM. -/
def Land.land (dest : Nat → UInt8) (L : Land) (ram : Nat → UInt8) : Nat → UInt8 :=
  overlay L.copy.guest L.copy.extent (fun i _ => dest (L.dest_at + i)) ram

def land_slot (t : Bool) (s : Backend) : Backend :=
  let S := s.slot t
  { s.set_slot t { S with land := [], cimg := [] } with
    ram := run_ops (Land.land s.dest) S.land s.ram }

def slot_enter (c : Config) (t : Bool) (s : Backend) : Backend :=
  { s with
    cur := t
    ring_used := half c.ring t
    draw_used := half c.draw t
    pool_used := half c.pool t
    texrec_used := half c.texrec t
    dest_used := half DEST_BYTES t
    image_used := half (IMAGE_BYTES / 4) t
    epoch := s.epoch + 1 }

def submit_go (s : Backend) : Backend :=
  { s.set_slot s.cur { s.current with inflight := true } with recording := false }

/-- The other half's carried texels are the host's again. -/
def carries_run (c : Config) (t : Bool) (s : Backend) : Backend :=
  if c.two_slots then s.set_slot (!t) { s.slot (!t) with carried_lo := 0, carried_hi := 0 } else s

/-- Its command buffer is the host's again, and its frame goes to gxr and the presenter. -/
def slot_done (t : Bool) (s : Backend) : Backend :=
  s.set_slot t
    { s.slot t with
      inflight := false
      passes := []
      ran := 0
      deliver := false
      publish_due := false }

/-- Slot `t`, all of it run: its copies in guest RAM, and it the host's again. -/
def slot_close (c : Config) (t : Bool) (s : Backend) : Backend :=
  let s := land_slot t (carries_run c t (slot_done t s))
  { s with occ_used := if s.measure then 0 else s.occ_used }

def slot_finish (c : Config) (t : Bool) (s : Backend) : Backend :=
  if (s.slot t).inflight then
    -- `vkWaitForFences`: all it was submitted with
    say_landed c (slot_close c t (gpu_run t ((s.slot t).passes.length + 1) s))
  else s

def finish_all (c : Config) (s : Backend) : Backend :=
  slot_finish c s.cur (slot_finish c (s.other c) s)

def slot_poll (c : Config) (timing : Timing) (s : Backend) : Backend :=
  let s := tick timing s
  let o := s.other c
  if c.poll_off || o == s.cur || !(s.slot o).inflight || !(s.slot o).signalled then s
  else slot_finish c o s

def submit_next (c : Config) (s : Backend) : Backend :=
  let o := s.other c
  if s.recording then
    let s := submit_go s
    if o == s.cur || s.measure then slot_enter c s.cur (slot_finish c s.cur s)
    else slot_enter c o (slot_finish c o s)
  else s

def submit_wait (c : Config) (s : Backend) : Backend :=
  if s.recording then
    let s := finish_all c (submit_go s)
    slot_enter c s.cur s
  else finish_all c s

def land_wait (c : Config) (s : Backend) : Backend := submit_wait c s

end SoaPort.Gxv
