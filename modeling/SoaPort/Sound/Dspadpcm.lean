import Mathlib.Data.List.GetD
import Mathlib.Tactic

namespace SoaPort.Sound

/-! The frame decoder of tools/soa/dspadpcm.py, in unbounded integers. -/

structure DspHeader where
  num_samples : Nat
  num_nibbles : Nat
  sample_rate : Nat
  loop_flag : Nat
  fmt : Nat
  loop_start : Nat
  loop_end : Nat
  coefs : Nat → Int
  pred_scale : Nat
  yn1 : Int
  yn2 : Int

def DspHeader.data_offset : Nat := 0x60

/-- `size` bytes at `pos`, most significant first. -/
def unpack (data : List (BitVec 8)) (pos size : Nat) : Nat :=
  ((data.drop pos).take size).foldl (fun value byte => value * 256 + byte.toNat) 0

def unpack_h (data : List (BitVec 8)) (pos : Nat) : Int :=
  (BitVec.ofNat 16 (unpack data pos 2)).toInt

def parse_header (data : List (BitVec 8)) : Option DspHeader :=
  if data.length < 0x60 then none
  else
    some
      { num_samples := unpack data 0 4
        num_nibbles := unpack data 4 4
        sample_rate := unpack data 8 4
        loop_flag := unpack data 12 2
        fmt := unpack data 14 2
        loop_start := unpack data 16 4
        loop_end := unpack data 20 4
        coefs := fun i => unpack_h data (0x1C + 2 * i)
        pred_scale := unpack data 0x3E 2
        yn1 := unpack_h data 0x40
        yn2 := unpack_h data 0x42 }

/-- What the loops carry. -/
structure Decoding where
  out : List Int
  hist1 : Int
  hist2 : Int
deriving DecidableEq

/-- Nibble `i` of a frame's samples. -/
def frame_nibble (frame : Nat → BitVec 8) (i : Nat) : Nat :=
  let byte := frame (1 + i / 2)
  if i &&& 1 = 0 then byte.toNat >>> 4 else byte.toNat &&& 0xF

/-- One sample from a frame's first byte and one of its nibbles. -/
def decode_sample (coefs : Nat → Int) (first n : Nat) (hist1 hist2 : Int) : Int :=
  let scale : Int := 2 ^ (first &&& 0xF)
  let idx := (first >>> 4) &&& 7
  let nib : Int := if n ≥ 8 then (n : Int) - 16 else n
  let s := (((nib * scale) * 2 ^ 11) + 1024 + coefs (2 * idx) * hist1 +
    coefs (2 * idx + 1) * hist2) >>> (11 : Nat)
  if s > 32767 then 32767 else if s < -32768 then -32768 else s

def Decoding.append (d : Decoding) (s : Int) : Decoding :=
  { out := d.out ++ [s], hist1 := s, hist2 := d.hist1 }

/-- The samples of one frame from `i` on, `left` of them at most. -/
def decode_frame (coefs : Nat → Int) (want : Nat) (frame : Nat → BitVec 8) :
    Nat → Nat → Decoding → Decoding
  | 0, _, d => d
  | left + 1, i, d =>
      let d := d.append
        (decode_sample coefs (frame 0).toNat (frame_nibble frame i) d.hist1 d.hist2)
      if want ≤ d.out.length then d else decode_frame coefs want frame left (i + 1) d

/-- The whole frames of `data`, until enough samples are out. -/
def decode_frames (coefs : Nat → Int) (want : Nat) : List (BitVec 8) → Decoding → Decoding
  | b0 :: b1 :: b2 :: b3 :: b4 :: b5 :: b6 :: b7 :: data, d =>
      if d.out.length < want then
        decode_frames coefs want data
          (decode_frame coefs want [b0, b1, b2, b3, b4, b5, b6, b7].getI 14 0 d)
      else d
  | _, d => d

def DspHeader.want (h : DspHeader) (max_samples : Option Nat) : Nat :=
  match max_samples with
  | none => h.num_samples
  | some most => min h.num_samples most

/-- The samples out and the history left when the loops end. -/
def decode_all (data : List (BitVec 8)) (h : DspHeader) (max_samples : Option Nat) : Decoding :=
  decode_frames h.coefs (h.want max_samples) (data.drop DspHeader.data_offset)
    { out := [], hist1 := h.yn1, hist2 := h.yn2 }

def decode (data : List (BitVec 8)) (header : Option DspHeader) (max_samples : Option Nat) :
    Option (List Int) := do
  let h ← match header with
    | some h => some h
    | none => parse_header data
  pure (decode_all data h max_samples).out

end SoaPort.Sound
