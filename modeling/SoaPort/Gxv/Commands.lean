import SoaPort.Gxv.Slots

namespace SoaPort.Gxv

open SoaPort.Lib

/-! The commands, as the consumer runs them. -/

/-- Why a run stops: a command the backend refuses, or a store past the end of
a slot's `cimg`. -/
inductive Stop where
  | refused
  | stray
  deriving DecidableEq

/-! Textures. -/

structure TexCfg where
  tex_id : Nat
  tex_gen : Nat
  /-- `level[0]`, and null is none -/
  image : Option Nat
  copy_image : Bool
  w : Nat
  h : Nat
  /-- each level's width and height -/
  levels : List (Nat × Nat)

def TexCfg.uploaded (C : TexCfg) : List (Nat × Nat) := C.levels.take MAX_MIPS

def tex_texels (C : TexCfg) : Nat := (C.uploaded.map fun l => l.1 * l.2).sum

def CopyImage.texels (from_ : CopyImage) (s : Backend) : Nat :=
  (s.texrec from_.record).w * (s.texrec from_.record).h

def carried (S : Slot) (lo hi : Nat) : Slot :=
  if S.carried_hi ≤ S.carried_lo then { S with carried_lo := lo, carried_hi := hi }
  else { S with carried_lo := min lo S.carried_lo, carried_hi := max hi S.carried_hi }

def mark_carried (c : Config) (lo hi : Nat) (s : Backend) : Backend :=
  s.set_slot (s.other c) (carried (s.slot (s.other c)) lo hi)

/-- A copy's image in the pool, `record` its record, served as `image` to the
draws after it. -/
def serve (image : Option Nat) (record : TexRec) (texels : Nat) (s : Backend) : Backend :=
  let S := s.current
  let cimg := match image with
    | some cpu => S.cimg ++ [⟨cpu, s.texrec_used⟩]
    | none => S.cimg
  { s.set_slot s.cur { S with cimg } with
    texrec := Function.update s.texrec s.texrec_used record
    texrec_used := s.texrec_used + TEXREC_WORDS
    pool_used := s.pool_used + texels }

/-- None when this slot has no room. -/
def carry_copy_image (c : Config) (from_ : CopyImage) (s : Backend) : Option Backend :=
  let texels := from_.texels s
  let src := s.texrec from_.record
  if s.current.cimg.length = LAND_MAX ∨ s.pool_used + texels > half_end c.pool s.cur ∨
      s.texrec_used + TEXREC_WORDS > half_end c.texrec s.cur then none
  else
    let s := mark_carried c src.at_ (src.at_ + texels) (begin_cb s)
    some (serve (some from_.cpu) { src with at_ := s.pool_used } texels s)

def pool_claim (c : Config) (at_ n : Nat) (s : Backend) : Backend :=
  let S := s.current
  if S.carried_hi ≤ S.carried_lo ∨ at_ ≥ S.carried_hi ∨ at_ + n ≤ S.carried_lo then s
  else slot_finish c (s.other c) s

/-- A level's texels into the pool. -/
def upload_level (s : Backend) (level : Nat × Nat) : Backend :=
  let texels := level.1 * level.2
  { host_write .pool s.pool_used texels s with pool_used := s.pool_used + texels }

def upload_levels (C : TexCfg) (s : Backend) : Backend :=
  let start := s.pool_used
  let first := C.levels.headD (0, 0)
  let s := C.uploaded.foldl upload_level s
  { s with
    resident := Function.update s.resident C.tex_id ⟨s.epoch, C.tex_gen, s.texrec_used⟩
    texrec := Function.update s.texrec s.texrec_used ⟨start, first.1, first.2⟩
    texrec_used := s.texrec_used + TEXREC_WORDS }

/-- A texture that no copy of a slot's submission holds the image of. -/
def upload_pool (c : Config) (timing : Timing) (C : TexCfg) (s : Backend) : Backend :=
  if (s.resident C.tex_id).epoch = s.epoch ∧ (s.resident C.tex_id).gen = C.tex_gen then s
  else if s.pool_used + tex_texels C > half_end c.pool s.cur ∨
      s.texrec_used + TEXREC_WORDS > half_end c.texrec s.cur then s
  else upload_levels C (tick timing (pool_claim c s.pool_used (tex_texels C) s))

/-- The image the slot in flight holds of `cpu`. -/
def in_flight_image (c : Config) (cpu : Nat) (s : Backend) : Option CopyImage :=
  let o := s.other c
  if o ≠ s.cur ∧ (s.slot o).inflight then (s.slot o).cimg.find? (·.cpu == cpu) else none

def upload_texture (c : Config) (timing : Timing) (s : Backend) (C : TexCfg) : Backend :=
  match C.image with
  | none => s
  | some cpu =>
      if C.levels = [] ∨ C.w = 0 ∨ C.h = 0 ∨ C.tex_id ≥ 1024 then s
      else if !C.copy_image then upload_pool c timing C s
      else if s.current.cimg.any (·.cpu == cpu) then s
      else
        match in_flight_image c cpu s with
        | none => upload_pool c timing C s
        | some from_ =>
            match carry_copy_image c from_ s with
            | some s => s
            | none => upload_pool c timing C (slot_finish c (s.other c) s)

/-! Draws. -/

/-- One `emit` of a draw: the vertices it uploads, with the frame before's
positions or not, the maps its stages sample, and the slices it draws into. -/
structure Emit where
  n : Nat
  prev : Bool
  maps : List TexCfg
  slices : Nat

def Emit.bytes (e : Emit) : Nat :=
  e.n * VERTEX_BYTES + if e.prev then e.n * 16 + 16 + VERTEX_BYTES else 0

def align (n unit : Nat) : Nat := (n + unit - 1) / unit * unit

def Emit.ring_after (e : Emit) (used : Nat) : Nat :=
  let after := used + e.n * VERTEX_BYTES
  if e.prev then align (align after 16 + e.n * 16) VERTEX_BYTES else after

/-- None when the pool cannot take the draw's textures. -/
def draw_record (c : Config) (timing : Timing) (e : Emit) (s : Backend) : Option Backend :=
  if s.pool_used + (e.maps.map tex_texels).sum > half_end c.pool s.cur ∨
      s.texrec_used + 8 * TEXREC_WORDS > half_end c.texrec s.cur then none
  else some (e.maps.foldl (upload_texture c timing) s)

/-- A slice's draw, counted while measuring. -/
def measure_draw (s : Backend) : Backend :=
  if s.measure then
    if s.occ_used = OCC_QUERIES then { s with measure := false }
    else { s with occ_used := s.occ_used + 1 }
  else s

def emit_record (c : Config) (timing : Timing) (e : Emit) (s : Backend) : Except Stop Backend :=
  match draw_record c timing e s with
  | some s => .ok s
  | none =>
      match draw_record c timing e (submit_next c s) with
      | some s => .ok s
      | none => .error .refused

def emit_room (c : Config) (e : Emit) (s : Backend) : Backend :=
  let s := if s.ring_used + e.bytes > half_end c.ring s.cur then submit_next c s else s
  if s.draw_used + GXV_DRAW_WORDS > half_end c.draw s.cur then submit_next c s else s

def emit_draw (e : Emit) (s : Backend) : Backend :=
  let s := begin_cb s
  measure_draw^[e.slices]
    { s with ring_used := e.ring_after s.ring_used, draw_used := s.draw_used + GXV_DRAW_WORDS }

def emit (c : Config) (timing : Timing) (s : Backend) (e : Emit) : Except Stop Backend :=
  if e.bytes > c.ring then .error .refused
  else return emit_draw e (← emit_record c timing e (emit_room c e s))

/-! Screen copies. -/

structure ScreenCopy where
  /-- an in-between image's -/
  efb : Bool
  sync : Bool
  last : Bool
  mid_n : Nat

def copy_slice (c : Config) (wait : Bool) (s : Backend) : Backend :=
  let s := begin_cb s
  if wait then submit_wait c s else s

def publish_next (s : Backend) : Backend :=
  s.set_slot s.cur { s.current with publish_due := true }

def deliver_next (s : Backend) : Backend := s.set_slot s.cur { s.current with deliver := true }

def screen_end (c : Config) (D : ScreenCopy) (s : Backend) : Backend :=
  if D.sync then s else submit_next c (publish_next s)

/-- A frame in flight is finished first. -/
def frame_first (c : Config) (s : Backend) : Backend :=
  let O := s.slot (s.other c)
  if O.inflight && (O.publish_due || O.deliver) then slot_finish c (s.other c) s else s

def copy_screen (c : Config) (D : ScreenCopy) (s : Backend) : Backend :=
  let s := frame_first c s
  if c.efbs > 1 ∧ D.efb then
    let ns := if D.mid_n = 0 then 1 else min D.mid_n (c.efbs - 1)
    screen_end c D ((copy_slice c D.sync)^[ns] s)
  else
    let s := copy_slice c D.sync s
    let s := if D.sync then s else deliver_next s
    if c.efbs > 1 ∧ !D.last then s else screen_end c D s

/-! Texture copies. -/

/-- A copy command's registers, the producer's image for it, and its texels' bits. -/
structure TextureCopy where
  cp_v : Nat
  cp_wh : Nat
  cp_dest : Nat
  cp_stride : Nat
  image : Option Nat
  bits : Nat → UInt8

def copy_texfmt (v : Nat) : Option Nat :=
  let tpf := v >>> 3 &&& 15
  let fmt := tpf / 2 + (tpf &&& 1) * 8
  if v >>> 15 &&& 1 = 1 then if fmt ≤ 3 then some fmt else none
  else
    match fmt with
    | 0 => some 0
    | 1 | 7 | 8 | 9 | 10 => some 1
    | 2 => some 2
    | 3 | 11 | 12 => some 3
    | 4 => some 4
    | 5 => some 5
    | 6 => some 6
    | _ => none

/-- The copy `D` makes as command `seq`: none in a format it does not write. -/
def TextureCopy.copy (D : TextureCopy) (seq : Nat) : Option Copy :=
  (copy_texfmt D.cp_v).map fun texfmt =>
    let halved := D.cp_v >>> 9 &&& 1 = 1
    let w := (D.cp_wh &&& 0x3FF) + 1
    let h := (D.cp_wh >>> 10 &&& 0x3FF) + 1
    let ow := if halved then w / 2 else w
    let oh := if halved then h / 2 else h
    let shape := tile_shape texfmt
    let natural := (ow + shape.tw - 1) / shape.tw * shape.bpt
    let row_bytes := max ((D.cp_stride &&& 0x3FF) * 32) natural
    let rows := (oh + shape.th - 1) / shape.th
    let cols := (ow + shape.tw - 1) / shape.tw
    { seq
      guest := (D.cp_dest &&& 0x1FFFFF) <<< 5 &&& MEM_MASK
      extent := if rows ≠ 0 ∧ cols ≠ 0 then (rows - 1) * row_bytes + cols * shape.bpt else 0
      texfmt, ow, oh, row_bytes
      bits := D.bits }

/-- The copy, where it stays in guest RAM and has bytes. -/
def TextureCopy.writes (D : TextureCopy) (seq : Nat) : Option Copy :=
  (D.copy seq).filter fun C => C.guest + C.extent ≤ MEM1_SIZE ∧ C.extent ≠ 0

def land_overlaps (S : Slot) (guest bytes : Nat) : Bool :=
  S.land.any fun L =>
    guest < L.copy.guest + L.copy.extent && guest + bytes > L.copy.guest

/-- No copy still to land stays under `C`'s bytes. -/
def land_under (c : Config) (C : Copy) (s : Backend) : Backend :=
  let o := s.other c
  if land_overlaps s.current C.guest C.extent then land_wait c s
  else if o != s.cur && (s.slot o).inflight && land_overlaps (s.slot o) C.guest C.extent then
    slot_finish c o s
  else s

def copy_full (c : Config) (C : Copy) (s : Backend) : Bool :=
  s.current.land.length == LAND_MAX || s.dest_used + C.extent > half_end DEST_BYTES s.cur ||
    s.image_used + C.ow * C.oh > half_end (IMAGE_BYTES / 4) s.cur ||
    s.pool_used + C.ow * C.oh * c.scale ^ 2 > half_end c.pool s.cur ||
    s.texrec_used + TEXREC_WORDS > half_end c.texrec s.cur

/-- The slot `C` is recorded into, with its room made. -/
def copy_room (c : Config) (C : Copy) (s : Backend) : Backend :=
  let s := land_under c C s
  if copy_full c C s then submit_next c s else s

/-- The copy's image in the pool. -/
def serve_image (c : Config) (C : Copy) (image : Option Nat) (s : Backend) : Backend :=
  serve image ⟨s.pool_used, C.ow * c.scale, C.oh * c.scale⟩ (C.ow * C.oh * c.scale ^ 2) s

/-- `C`'s region seeded from guest RAM. -/
def seed_copy (C : Copy) (s : Backend) : Backend :=
  { host_write .dest s.dest_used C.extent s with
    dest := overlay s.dest_used C.extent (fun i _ => s.ram (C.guest + i)) s.dest }

/-- Its pass recorded, and what is left to land. -/
def hold_copy (C : Copy) (image : Option Nat) (s : Backend) : Backend :=
  let S := s.current
  let L : Land := ⟨C, s.dest_used, image, s.image_used, C.ow * C.oh⟩
  { s.set_slot s.cur
      { S with
        land := S.land ++ [L]
        land_first := if S.land.isEmpty then s.seq_cur else S.land_first
        passes := S.passes ++ [L.pass] } with
    dest_used := s.dest_used + C.extent
    image_used := s.image_used + C.ow * C.oh
    accepted := s.accepted ++ [C] }

def record_copy (C : Copy) (image : Option Nat) (s : Backend) : Backend :=
  hold_copy C image (begin_cb (seed_copy C s))

/-- In flight at once while the other slot is free. -/
def land_early (c : Config) (timing : Timing) (s : Backend) : Backend :=
  if c.two_slots && !s.measure && !c.land_early_off then
    let s := slot_poll c timing s
    if (s.slot (!s.cur)).inflight then s else submit_next c s
  else s

def copy_texture (c : Config) (timing : Timing) (D : TextureCopy) (s : Backend) :
    Except Stop Backend :=
  match D.writes s.seq_cur with
  | none => .ok s
  | some C =>
      if C.extent > DEST_BYTES ∨ C.ow * C.oh > IMAGE_BYTES / 4 then .error .refused
      else
        let s := tick timing (copy_room c C s)
        -- `S->cimg[S->cimg_n]`
        if D.image.isSome ∧ s.current.cimg.length ≥ LAND_MAX then .error .stray
        else .ok (land_early c timing (serve_image c C D.image (record_copy C D.image s)))

/-! What the consumer is asked to run. -/

inductive Event where
  | draw (emits : List Emit)
  /-- with something of its rectangle in the EFB, or not -/
  | clear (drawn : Bool)
  | copy_screen (D : ScreenCopy)
  | copy_texture (D : TextureCopy)
  | idle
  | reset_efb
  | finish
  | settle

/-- A command run as the next in order, the slot in flight finished first if
the GPU is done. -/
def timed (c : Config) (timing : Timing) (s : Backend)
    (command : Backend → Except Stop Backend) : Except Stop Backend := do
  let s ← command (slot_poll c timing { s with seq_cur := s.mine })
  return { s with seq_cur := s.mine + 1, mine := s.mine + 1 }

def timed_copy (c : Config) (timing : Timing) (s : Backend)
    (command : Backend → Except Stop Backend) : Except Stop Backend := do
  return say_landed c (← timed c timing s command)

def timed_idle (c : Config) (s : Backend) : Backend :=
  let o := s.other c
  if !s.current.land.isEmpty then land_wait c s
  else if o != s.cur && (s.slot o).inflight then finish_all c s
  else s

def step (c : Config) (timing : Timing) (s : Backend) : Event → Except Stop Backend
  | .draw emits => timed c timing s fun s => emits.foldlM (emit c timing) s
  | .clear drawn => timed c timing s fun s => .ok (if drawn then begin_cb s else s)
  | .copy_screen D => timed_copy c timing s fun s => .ok (copy_screen c D s)
  | .copy_texture D => timed_copy c timing s (copy_texture c timing D)
  | .idle => .ok (timed_idle c s)
  | .reset_efb => .ok (begin_cb (finish_all c s))
  | .finish => .ok (land_wait c s)
  | .settle => .ok (finish_all c s)

/-- The backend started, over guest RAM `ram`. -/
def Backend.start (c : Config) (measure : Bool) (ram : Nat → UInt8) : Backend :=
  slot_enter c false
    { slot := fun _ => .empty
      cur := false
      recording := false
      ring_used := 0
      draw_used := 0
      pool_used := 0
      texrec_used := 0
      dest_used := 0
      image_used := 0
      epoch := 0
      resident := fun _ => ⟨0, 0, 0⟩
      texrec := fun _ => ⟨0, 0, 0⟩
      seq_cur := 0
      landed_said := 0
      measure
      occ_used := 0
      dest := fun _ => 0
      ram
      mine := 0
      clock := 0
      accepted := []
      told := []
      writes := [] }

def run (c : Config) (timing : Timing) (s : Backend) (events : List Event) :
    Except Stop Backend :=
  events.foldlM (step c timing) s

end SoaPort.Gxv
