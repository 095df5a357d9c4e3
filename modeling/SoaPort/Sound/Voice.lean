import SoaPort.Lib.Signed

namespace SoaPort.Sound

open SoaPort.Lib

/-! A voice of the audio mixer and the sample it fetches next (ax.c). The port
is compiled with wrapping signed arithmetic; an `int` operation here returns the
wrapped value and records whether it overflowed. -/

def int32 (x : Int) : Ran Int := Ran.arith 32 x

theorem int32_eq {x : Int} (low : -2 ^ 31 ≤ x) (high : x < 2 ^ 31) : int32 x = pure x :=
  arith_eq (by norm_num) ⟨low, high⟩

theorem int32_clean_iff {x : Int} :
    (int32 x).overflowed = false ↔ -2 ^ 31 ≤ x ∧ x < 2 ^ 31 := arith_clean_iff

abbrev PB_SRC_TYPE : Nat := 4
abbrev PB_COEF_SELECT : Nat := 5
abbrev PB_MIXER_CTRL : Nat := 6
abbrev PB_RUNNING : Nat := 7
abbrev PB_MIXER : Nat := 9
abbrev PB_UPDATES : Nat := 34
abbrev PB_VOL_ENV : Nat := 50
abbrev PB_AUDIO_ADDR : Nat := 55
abbrev PB_ADPCM : Nat := 63
abbrev PB_SRC : Nat := 83
abbrev PB_ADPCM_LOOP : Nat := 90
abbrev PB_WORDS : Nat := 96

/-- A parameter block: 96 halfwords. -/
structure PB where
  w : Nat → BitVec 16

def PB.set (pb : PB) (i : Nat) (v : BitVec 16) : PB :=
  ⟨Function.update pb.w i v⟩

theorem PB.set_of_ne (pb : PB) {i j : Nat} (v : BitVec 16) (other : j ≠ i) :
    (pb.set i v).w j = pb.w j := by
  simp [PB.set, Function.update_of_ne other]

structure Voice where
  pb : PB
  /-- The address of the next sample, in the format's units. -/
  cur : BitVec 32
  end_ : BitVec 32
  loop : BitVec 32
  fmt : Nat
  looping : Bool
  yn1 : BitVec 16
  yn2 : BitVec 16
  pred_scale : Nat
  coefs : Nat → BitVec 16
  aram : Nat → BitVec 8
  stopped : Bool

/-- On an `int32_t`. -/
def clamp16 (v : Int) : BitVec 16 :=
  BitVec.ofInt 16 (if v < -32768 then -32768 else if v > 32767 then 32767 else v)

def ARAM_MASK : Nat := 2 ^ 24 - 1

/-- The byte two nibble addresses share. -/
def aram_byte (aram : Nat → BitVec 8) (nib : BitVec 32) : BitVec 8 :=
  aram ((nib.toNat / 2) &&& ARAM_MASK)

def nibble_at (byte : BitVec 8) (odd : Bool) : Nat :=
  if odd then byte.toNat &&& 15 else byte.toNat >>> 4

/-- The decoded sum before it is clamped. -/
def adpcm_sum (pred_scale n : Nat) (c1 c2 yn1 yn2 : Int) : Ran Int := do
  let scale : Int := 2 ^ (pred_scale &&& 15)
  let nibble : Int := if n ≥ 8 then (n : Int) - 16 else n
  let scaled ← int32 (scale * nibble)
  let scaled ← int32 (scaled * 2048)
  let first ← int32 (c1 * yn1)
  let second ← int32 (c2 * yn2)
  let sum ← int32 (scaled + first)
  let sum ← int32 (sum + second)
  let sum ← int32 (sum + 1024)
  pure (sum >>> (11 : Nat))

/-- DSP-ADPCM: nibble addresses, 16 nibbles a frame, the first two the header. -/
def fetch_adpcm (v : Voice) : Ran (BitVec 16 × Voice) := do
  let header : Bool := v.cur &&& 15#32 = 0#32
  let pred_scale := if header then (aram_byte v.aram v.cur).toNat else v.pred_scale
  let nib := if header then v.cur + 2#32 else v.cur
  let n := nibble_at (aram_byte v.aram nib) (nib &&& 1#32 = 1#32)
  let ci := (pred_scale >>> 4) &&& 7
  let val ← adpcm_sum pred_scale n (v.coefs (ci * 2)).toInt (v.coefs (ci * 2 + 1)).toInt
    v.yn1.toInt v.yn2.toInt
  let out := clamp16 val
  pure (out, { v with pred_scale := pred_scale, yn2 := v.yn1, yn1 := out, cur := nib + 1#32 })

def fetch_pcm16 (v : Voice) : BitVec 16 × Voice :=
  let b := (v.cur * 2#32).toNat &&& ARAM_MASK
  (v.aram b ++ v.aram (b + 1), { v with cur := v.cur + 1#32 })

def fetch_pcm8 (v : Voice) : BitVec 16 × Voice :=
  (v.aram (v.cur.toNat &&& ARAM_MASK) ++ 0#8, { v with cur := v.cur + 1#32 })

def fetch_at (v : Voice) : Ran (BitVec 16 × Voice) :=
  match v.fmt with
  | 0x00 => fetch_adpcm v
  | 0x0A => pure (fetch_pcm16 v)
  | 0x19 => pure (fetch_pcm8 v)
  | _ => pure (0#16, { v with cur := v.cur + 1#32 })

/-- Back to the loop point, with the decoder state kept for it. -/
def Voice.rewind (v : Voice) : Voice :=
  if v.fmt = 0x00 then
    { v with
      cur := v.loop
      pred_scale := (v.pb.w PB_ADPCM_LOOP).toNat
      yn1 := v.pb.w (PB_ADPCM_LOOP + 1)
      yn2 := v.pb.w (PB_ADPCM_LOOP + 2) }
  else { v with cur := v.loop }

/-- One sample at the voice's address, which moves on and follows the loop. -/
def fetch_sample (v : Voice) : Ran (BitVec 16 × Voice) :=
  if v.stopped then pure (0#16, v)
  else if v.end_ ≤ v.cur then
    if v.looping then fetch_at v.rewind
    else pure (0#16, { v with stopped := true })
  else fetch_at v

/-- `n` calls in turn. -/
def fetch_samples : Nat → Voice → Ran (List (BitVec 16) × Voice)
  | 0, v => pure ([], v)
  | n + 1, v => do
      let (out, v) ← fetch_sample v
      let (rest, v) ← fetch_samples n v
      pure (out :: rest, v)

end SoaPort.Sound
