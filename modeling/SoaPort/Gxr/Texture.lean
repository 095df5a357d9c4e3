import Mathlib.Data.List.TakeWhile
import SoaPort.Lib.Bytes

namespace SoaPort.Gxr

open SoaPort.Lib

/-! Decoding a tiled texture to an RGBA image. -/

abbrev Ram := Nat → Byte

def MEM_MASK : Nat := 0x01FFFFFF

def MEM1_SIZE : Nat := 0x01800000

def mem_ptr (addr : Nat) : Nat := addr &&& MEM_MASK

/-- The four bytes of a texel, in the order they are stored. -/
structure Rgba where
  r : Byte
  g : Byte
  b : Byte
  a : Byte
  deriving DecidableEq, Repr

/-- An RGBA image, by texel: `y * w + x`. -/
abbrev Texels := Nat → Rgba

def byte (v : Nat) : Byte := BitVec.ofNat 8 v

def grey (v a : Nat) : Rgba := ⟨byte v, byte v, byte v, byte a⟩

/-- Two bytes, the first the more significant. -/
def half_word (mem : Ram) (p : Nat) : Nat := (mem p).toNat <<< 8 ||| (mem (p + 1)).toNat

def rgb565 (v : Nat) : Rgba :=
  ⟨byte (((v >>> 11) &&& 31) * 255 / 31), byte (((v >>> 5) &&& 63) * 255 / 63),
    byte ((v &&& 31) * 255 / 31), 255⟩

def rgb5a3 (v : Nat) : Rgba :=
  if v &&& 0x8000 ≠ 0 then
    ⟨byte (((v >>> 10) &&& 31) * 255 / 31), byte (((v >>> 5) &&& 31) * 255 / 31),
      byte ((v &&& 31) * 255 / 31), 255⟩
  else
    ⟨byte (((v >>> 8) &&& 15) * 17), byte (((v >>> 4) &&& 15) * 17), byte ((v &&& 15) * 17),
      byte (((v >>> 12) &&& 7) * 255 / 7)⟩

/-- A palette entry. -/
def tlut_color (tmem : Ram) (tlut_off tlut_fmt index : Nat) : Rgba :=
  let p := (tlut_off + index * 2) &&& (2 ^ 20 - 1)
  match tlut_fmt with
  | 0 => grey (tmem (p + 1)).toNat (tmem p).toNat
  | 1 => rgb565 (half_word tmem p)
  | _ => rgb5a3 (half_word tmem p)

/-- One texel: column `ix`, row `iy` of the tile at `tile`. -/
def decode_texel (tmem mem : Ram) (tile ix iy fmt tlut_off tlut_fmt : Nat) : Rgba :=
  let nibble :=
    let v := (mem (tile + (iy * 4 + ix / 2))).toNat
    if ix % 2 ≠ 0 then v &&& 15 else v >>> 4
  let single := (mem (tile + (iy * 8 + ix))).toNat
  let pair := tile + (iy * 4 + ix) * 2
  match fmt with
  -- I4, I8, IA4, IA8
  | 0 => grey (nibble * 17) (nibble * 17)
  | 1 => grey single single
  | 2 => grey ((single &&& 15) * 17) ((single >>> 4) * 17)
  | 3 => grey (mem (pair + 1)).toNat (mem pair).toNat
  -- RGB565, RGB5A3
  | 4 => rgb565 (half_word mem pair)
  | 5 => rgb5a3 (half_word mem pair)
  -- RGBA8: 16 AR pairs, then 16 GB pairs
  | 6 => ⟨mem (pair + 1), mem (pair + 32), mem (pair + 33), mem pair⟩
  -- C4, C8, C14X2
  | 8 => tlut_color tmem tlut_off tlut_fmt nibble
  | 9 => tlut_color tmem tlut_off tlut_fmt single
  | 10 => tlut_color tmem tlut_off tlut_fmt (half_word mem pair &&& 0x3FFF)
  -- unsupported: magenta
  | _ => ⟨255, 0, 255, 255⟩

/-- `(p * u + q * v) / d` on each colour channel. -/
def mix (p q d : Nat) (u v : Rgba) (alpha : Byte) : Rgba :=
  ⟨byte ((p * u.r.toNat + q * v.r.toNat) / d), byte ((p * u.g.toNat + q * v.g.toNat) / d),
    byte ((p * u.b.toNat + q * v.b.toNat) / d), alpha⟩

/-- The four colours of a compressed block. -/
def cmpr_palette (mem : Ram) (p : Nat) : Nat → Rgba :=
  let c0 := half_word mem p
  let c1 := half_word mem (p + 2)
  let pal0 := rgb565 c0
  let pal1 := rgb565 c1
  fun idx =>
    match idx with
    | 0 => pal0
    | 1 => pal1
    | 2 => if c0 > c1 then mix 2 1 3 pal0 pal1 255 else mix 1 1 2 pal0 pal1 255
    | _ => if c0 > c1 then mix 1 2 3 pal0 pal1 255 else ⟨0, 0, 0, 0⟩

def decode_cmpr_block (mem : Ram) (p ox oy w h : Nat) (out : Texels) : Texels :=
  (List.range 4).foldl (fun out y =>
    let row := (mem (p + 4 + y)).toNat
    (List.range 4).foldl (fun out x =>
      let px := ox + x
      let py := oy + y
      if px < w ∧ py < h then
        Function.update out (py * w + px) (cmpr_palette mem p ((row >>> (6 - 2 * x)) &&& 3))
      else out) out) out

/-- Tile width, tile height and bytes a tile, as `decode_level` has them. -/
def level_tiling (fmt : Nat) : Nat × Nat × Nat :=
  match fmt with
  | 0 | 8 => (8, 8, 32)
  | 1 | 2 | 9 => (8, 4, 32)
  | 3 | 4 | 5 | 10 => (4, 4, 32)
  | 6 => (4, 4, 64)
  | 14 => (8, 8, 32)
  | _ => (4, 4, 32)

/-- The texels of one tile, up to the edges of the texture. -/
def decode_tile (tmem mem : Ram) (tile fmt w h tlut_off tlut_fmt tw th tx ty : Nat)
    (out : Texels) : Texels :=
  ((List.range th).takeWhile fun iy => ty * th + iy < h).foldl (fun out iy =>
    ((List.range tw).takeWhile fun ix => tx * tw + ix < w).foldl (fun out ix =>
      Function.update out ((ty * th + iy) * w + (tx * tw + ix))
        (decode_texel tmem mem tile ix iy fmt tlut_off tlut_fmt)) out) out

def decode_level (tmem mem : Ram) (addr fmt w h tlut_off tlut_fmt : Nat) (out : Texels) :
    Texels :=
  if mem_ptr addr ≥ MEM1_SIZE then out
  else
    let base := mem_ptr addr
    let (tw, th, bytes_per_tile) := level_tiling fmt
    let tiles_w := (w + tw - 1) / tw
    if fmt = 14 then
      (List.range ((h + 7) / 8)).foldl (fun out by_ =>
        (List.range tiles_w).foldl (fun out bx =>
          let blk := base + (by_ * tiles_w + bx) * 32
          if blk + 32 > MEM1_SIZE then out
          else
            let out := decode_cmpr_block mem blk (bx * 8) (by_ * 8) w h out
            let out := decode_cmpr_block mem (blk + 8) (bx * 8 + 4) (by_ * 8) w h out
            let out := decode_cmpr_block mem (blk + 16) (bx * 8) (by_ * 8 + 4) w h out
            decode_cmpr_block mem (blk + 24) (bx * 8 + 4) (by_ * 8 + 4) w h out) out) out
    else
      (List.range ((h + th - 1) / th)).foldl (fun out ty =>
        (List.range tiles_w).foldl (fun out tx =>
          let tile := base + (ty * tiles_w + tx) * bytes_per_tile
          -- a tile past the end of memory is left as it was
          if tile + bytes_per_tile > MEM1_SIZE then out
          else decode_tile tmem mem tile fmt w h tlut_off tlut_fmt tw th tx ty out) out) out

/-- The tilings `tex_decode_row` knows: the formats a copy makes. -/
def row_tiling (fmt : Nat) : Option (Nat × Nat × Nat) :=
  match fmt with
  | 0 => some (8, 8, 32)
  | 1 | 2 => some (8, 4, 32)
  | 3 | 4 | 5 => some (4, 4, 32)
  | 6 => some (4, 4, 64)
  | _ => none

/-- Row `y` of a texture tiled at `base`, into row `y` of the image. -/
def tex_decode_row (tmem mem : Ram) (base fmt w y : Nat) (out : Texels) : Texels :=
  match row_tiling fmt with
  | none => out
  | some (tw, th, bytes_per_tile) =>
      let tiles_w := (w + tw - 1) / tw
      let row := base + y / th * tiles_w * bytes_per_tile
      let iy := y % th
      (List.range tiles_w).foldl (fun out tx =>
        ((List.range tw).takeWhile fun ix => tx * tw + ix < w).foldl (fun out ix =>
          Function.update out (y * w + (tx * tw + ix))
            (decode_texel tmem mem (row + tx * bytes_per_tile) ix iy fmt 0 0)) out) out

end SoaPort.Gxr
