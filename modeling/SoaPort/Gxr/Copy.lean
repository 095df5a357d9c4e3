import SoaPort.Gxr.Texture

namespace SoaPort.Gxr

open SoaPort.Lib

/-! Copying an EFB rectangle into guest memory as a tiled texture, row by row,
with the copy's own image decoded beside it. -/

def EFB_W : Nat := 640

def EFB_H : Nat := 528

/-- The frame buffer, by row, column and channel. -/
abbrev Efb := Nat → Nat → Nat → Byte

/-- What a copy command carries. -/
structure CopyCmd where
  cp_v : Nat
  cp_tl : Nat
  cp_wh : Nat
  cp_dest : Nat
  cp_stride : Nat
  cp_f_up : Nat
  cp_f_mid : Nat
  cp_f_dn : Nat
  /-- The copy has an image, `tex_copy_image`'s. -/
  cp_image : Bool
  deriving DecidableEq, Repr

/-- The bytes from one row of tiles to the next. A stride narrower than the
copy's own rows packs them. -/
def copy_row_stride (stride_reg natural : Nat) : Nat :=
  let s := (stride_reg &&& 0x3FF) * 32
  if s > natural then s else natural

/-- From a copy's first tile to the end of its last. -/
def copy_extent (ow oh tw th bpt row_bytes : Nat) : Nat :=
  let rows := (oh + th - 1) / th
  let cols := (ow + tw - 1) / tw
  if rows ≠ 0 ∧ cols ≠ 0 then (rows - 1) * row_bytes + cols * bpt else 0

/-- The texture format of a copy, and the channels a single- or dual-channel
copy takes. -/
def copy_format (intensity : Bool) (fmt : Nat) : Option (Nat × Nat × Nat) :=
  if intensity then if fmt ≤ 3 then some (fmt, 0, 3) else none
  else
    match fmt with
    | 0 => some (0, 0, 3)
    | 1 | 8 => some (1, 0, 3)
    | 9 => some (1, 1, 3)
    | 10 => some (1, 2, 3)
    | 7 => some (1, 3, 3)
    | 2 => some (2, 0, 3)
    | 3 => some (3, 0, 3)
    | 11 => some (3, 0, 1)
    | 12 => some (3, 1, 2)
    | 4 => some (4, 0, 3)
    | 5 => some (5, 0, 3)
    | 6 => some (6, 0, 3)
    | _ => none

def copy_tiling (texfmt : Nat) : Nat × Nat × Nat :=
  match texfmt with
  | 0 => (8, 8, 32)
  | 1 | 2 => (8, 4, 32)
  | 3 | 4 | 5 => (4, 4, 32)
  | _ => (4, 4, 64)

namespace CopyCmd

variable (D : CopyCmd)

def dest : Nat := (D.cp_dest &&& 0x1FFFFF) <<< 5

def fmt : Nat :=
  let tpf := (D.cp_v >>> 3) &&& 15
  tpf / 2 + (tpf &&& 1) * 8

def intensity : Bool := (D.cp_v >>> 15) &&& 1 ≠ 0

def half : Bool := (D.cp_v >>> 9) &&& 1 ≠ 0

def x0 : Nat := D.cp_tl &&& 0x3FF

def y0 : Nat := (D.cp_tl >>> 10) &&& 0x3FF

def w : Nat := (D.cp_wh &&& 0x3FF) + 1

def h : Nat := ((D.cp_wh >>> 10) &&& 0x3FF) + 1

def ow : Nat := if D.half then D.w / 2 else D.w

def oh : Nat := if D.half then D.h / 2 else D.h

def filtered : Bool := ¬ (D.cp_f_up = 0 ∧ D.cp_f_dn = 0 ∧ D.cp_f_mid = 64)

/-- The taps are clamped to the copy rectangle. -/
def ytop : Nat := D.y0

def ybot : Nat := min (D.y0 + D.h - 1) (EFB_H - 1)

/-- One filtered sample of channel `k`: three rows, weighted and divided by 64. -/
def filter_sample (efb : Efb) (sx sy k : Nat) : Byte :=
  let ya := if sy - 1 < D.ytop then D.ytop else sy - 1
  let yb := if sy + 1 > D.ybot then D.ybot else sy + 1
  let v := D.cp_f_up * (efb ya sx k).toNat + D.cp_f_mid * (efb sy sx k).toNat +
    D.cp_f_dn * (efb yb sx k).toNat
  byte (min (v >>> 6) 255)

/-- The EFB texel behind texel `(x, y)` of the copy, before conversion. -/
def source (efb : Efb) (x y : Nat) : Nat → Byte := fun k =>
  let sx := D.x0 + if D.half then 2 * x else x
  let sy := D.y0 + if D.half then 2 * y else y
  if sx < EFB_W ∧ sy < EFB_H then
    if D.half ∧ sx + 1 < EFB_W ∧ sy + 1 < EFB_H then
      byte (((efb sy sx k).toNat + (efb sy (sx + 1) k).toNat + (efb (sy + 1) sx k).toNat +
        (efb (sy + 1) (sx + 1) k).toNat) / 4)
    else if D.filtered ∧ k < 3 then D.filter_sample efb sx sy k
    else efb sy sx k
  else if k < 3 then 0 else 255

end CopyCmd

/-- Store one texel: `px` the four channels, `I` the single one. -/
def write_texel (texfmt tile ix iy : Nat) (px : Nat → Byte) (I : Nat) (mem : Ram) : Ram :=
  let pair := tile + (iy * 4 + ix) * 2
  let store_pair := fun c => Function.update (Function.update mem pair (byte (c >>> 8)))
    (pair + 1) (byte c)
  let c := fun k => (px k).toNat
  match texfmt with
  | 0 =>
      let b := tile + (iy * 4 + ix / 2)
      let n := I >>> 4
      let old := (mem b).toNat
      Function.update mem b
        (byte (if ix % 2 ≠ 0 then (old &&& 0xF0) ||| n else (old &&& 0x0F) ||| n <<< 4))
  | 1 => Function.update mem (tile + (iy * 8 + ix)) (byte I)
  | 2 => Function.update mem (tile + (iy * 8 + ix)) (byte ((c 3 &&& 0xF0) ||| I >>> 4))
  | 3 => Function.update (Function.update mem pair (px 3)) (pair + 1) (byte I)
  | 4 => store_pair ((c 0 >>> 3) <<< 11 ||| (c 1 >>> 2) <<< 5 ||| c 2 >>> 3)
  | 5 =>
      if c 3 ≥ 224 then
        store_pair (0x8000 ||| (c 0 >>> 3) <<< 10 ||| (c 1 >>> 3) <<< 5 ||| c 2 >>> 3)
      else
        store_pair ((c 3 >>> 5) <<< 12 ||| (c 0 >>> 4) <<< 8 ||| (c 1 >>> 4) <<< 4 ||| c 2 >>> 4)
  | _ =>
      Function.update
        (Function.update
          (Function.update (Function.update mem pair (px 3)) (pair + 1) (px 0))
          (pair + 32) (px 1))
        (pair + 33) (px 2)

/-- What a copy has made so far: guest memory, and the image beside it. -/
structure Made where
  mem : Ram
  image : Texels

section Run

-- `luma` is the C float expression `0.257f * r + 0.504f * g + 0.098f * b + 16.0f`,
-- as an unsigned
variable (luma : Byte → Byte → Byte → Nat) (tmem : Ram) (efb : Efb) (D : CopyCmd)

/-- The body of the loop over `x`. -/
def copy_texel (texfmt chan_a chan_b row_bytes : Nat) (x y : Nat) (mem : Ram) : Ram :=
  let (tw, th, bpt) := copy_tiling texfmt
  let base := mem_ptr (D.dest ||| 0x80000000)
  let tile := base + y / th * row_bytes + x / tw * bpt
  let px := D.source efb x y
  if D.intensity then
    write_texel texfmt tile (x % tw) (y % th) px (min (luma (px 0) (px 1) (px 2)) 255) mem
  else
    let paired := fun k => if k = 3 ∧ (texfmt = 2 ∨ texfmt = 3) then px chan_b else px k
    write_texel texfmt tile (x % tw) (y % th) paired (px chan_a).toNat mem

/-- The bytes of a row of tiles when rows lie end to end. -/
def CopyCmd.natural (texfmt : Nat) : Nat :=
  let (tw, _, bpt) := copy_tiling texfmt
  (D.ow + tw - 1) / tw * bpt

def CopyCmd.row_bytes (texfmt : Nat) : Nat := copy_row_stride D.cp_stride (D.natural texfmt)

/-- The copy ends inside MEM1. -/
def CopyCmd.fits (texfmt : Nat) : Bool :=
  let (tw, th, bpt) := copy_tiling texfmt
  mem_ptr D.dest + copy_extent D.ow D.oh tw th bpt (D.row_bytes texfmt) ≤ MEM1_SIZE

/-- Each row is a run of these, its image row decoded last. -/
inductive Event where
  | texel (x y : Nat)
  | decode (y : Nat)
  deriving DecidableEq, Repr

def Event.row : Event → Nat
  | texel _ y => y
  | decode y => y

def exec (texfmt chan_a chan_b : Nat) (s : Made) : Event → Made
  | .texel x y =>
      { s with
        mem := copy_texel luma efb D texfmt chan_a chan_b (D.row_bytes texfmt) x y s.mem }
  | .decode y =>
      if D.cp_image then
        { s with
          image := tex_decode_row tmem s.mem (mem_ptr (D.dest ||| 0x80000000)) texfmt D.ow y
            s.image }
      else s

def run (texfmt chan_a chan_b : Nat) (trace : List Event) (s : Made) : Made :=
  trace.foldl (exec luma tmem efb D texfmt chan_a chan_b) s

def row_events (ow y : Nat) : List Event :=
  (List.range ow).map (fun x => .texel x y) ++ [.decode y]

/-- Rows the thread `tid` of `nthreads` owns. -/
def my_row (nthreads tid y : Nat) : Bool := nthreads ≤ 1 || y % nthreads + 1 = tid

/-- The tests that open the loop over `y`. -/
def CopyCmd.takes (nthreads tid y : Nat) : Bool :=
  (my_row nthreads tid (if D.half then 2 * y else y) ||
      (D.half && my_row nthreads tid (2 * y + 1))) &&
    !(D.half && !my_row nthreads tid (2 * y))

/-- What one thread runs of the copy. -/
def thread_events (nthreads tid : Nat) : List Event :=
  ((List.range D.oh).filter (D.takes nthreads tid)).flatMap (row_events D.ow)

def copy_to_texture (nthreads tid : Nat) (s : Made) : Made :=
  match copy_format D.intensity D.fmt with
  | none => s
  | some (texfmt, chan_a, chan_b) =>
      if ¬ D.fits texfmt then s
      else run luma tmem efb D texfmt chan_a chan_b (thread_events D nthreads tid) s

end Run

end SoaPort.Gxr
