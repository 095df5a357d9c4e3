import SoaPort.Lib.Bytes

namespace SoaPort.Disc

open SoaPort.Lib

/-! SHA-1 (sha1.c). -/

abbrev Word := BitVec 32

def rol (x : Word) (k : Nat) : Word := (x <<< k) ||| (x >>> (32 - k))

/-- The big-endian word at an offset. -/
def be32 (p : List Byte) (at_ : Nat) : Word :=
  (p.getD at_ 0#8).setWidth 32 <<< 24 ||| (p.getD (at_ + 1) 0#8).setWidth 32 <<< 16 |||
    (p.getD (at_ + 2) 0#8).setWidth 32 <<< 8 ||| (p.getD (at_ + 3) 0#8).setWidth 32

structure Digest where
  h0 : Word
  h1 : Word
  h2 : Word
  h3 : Word
  h4 : Word

/-- The eighty words of a block's schedule. -/
def schedule (p : List Byte) : List Word :=
  (List.range' 16 64).foldl
    (fun w i =>
      w ++ [rol (w.getD (i - 3) 0#32 ^^^ w.getD (i - 8) 0#32 ^^^ w.getD (i - 14) 0#32 ^^^
        w.getD (i - 16) 0#32) 1])
    ((List.range 16).map fun i => be32 p (4 * i))

def sha1_round (w : List Word) (s : Digest) (i : Nat) : Digest :=
  let ⟨a, b, c, d, e⟩ := s
  let (f, k) :=
    if i < 20 then ((b &&& c) ||| (~~~b &&& d), 0x5A827999#32)
    else if i < 40 then (b ^^^ c ^^^ d, 0x6ED9EBA1#32)
    else if i < 60 then ((b &&& c) ||| (b &&& d) ||| (c &&& d), 0x8F1BBCDC#32)
    else (b ^^^ c ^^^ d, 0xCA62C1D6#32)
  ⟨rol a 5 + f + e + k + w.getD i 0#32, a, rol b 30, c, d⟩

def sha1_block (h : Digest) (p : List Byte) : Digest :=
  let s := (List.range 80).foldl (sha1_round (schedule p)) h
  ⟨h.h0 + s.h0, h.h1 + s.h1, h.h2 + s.h2, h.h3 + s.h3, h.h4 + s.h4⟩

/-- What stands after the last whole block: the message's end, the marker bit and,
in the last eight bytes of its 64 or 128, the length in bits. -/
def last_bytes (data : List Byte) : List Byte :=
  let rem := data.length % 64
  let pad := if rem < 56 then 64 else 128
  let bits := BitVec.ofNat 64 (data.length * 8)
  (List.range pad).map fun j =>
    if j < rem then data.getD (data.length - rem + j) 0#8
    else if j = rem then 0x80#8
    else if pad - 8 ≤ j then (bits >>> (8 * (pad - 1 - j))).setWidth 8
    else 0#8

def sha1 (data : List Byte) : List Byte :=
  let start : Digest :=
    ⟨0x67452301#32, 0xEFCDAB89#32, 0x98BADCFE#32, 0x10325476#32, 0xC3D2E1F0#32⟩
  let h := (List.range (data.length / 64)).foldl
    (fun h j => sha1_block h (slice data (64 * j) 64)) start
  let last := last_bytes data
  let h := sha1_block h (slice last 0 64)
  let h := if last.length = 128 then sha1_block h (slice last 64 64) else h
  (List.range 20).map fun i =>
    (([h.h0, h.h1, h.h2, h.h3, h.h4].getD (i / 4) 0#32) >>> (24 - 8 * (i % 4))).setWidth 8

theorem sha1_length (data : List Byte) : (sha1 data).length = 20 := by
  rw [sha1, List.length_map, List.length_range]

example : sha1 [0x61#8, 0x62#8, 0x63#8] =
    [0xA9#8, 0x99#8, 0x3E#8, 0x36#8, 0x47#8, 0x06#8, 0x81#8, 0x6A#8, 0xBA#8, 0x3E#8, 0x25#8,
      0x71#8, 0x78#8, 0x50#8, 0xC2#8, 0x6C#8, 0x9C#8, 0xD0#8, 0xD8#8, 0x9D#8] := by
  decide +kernel

end SoaPort.Disc
