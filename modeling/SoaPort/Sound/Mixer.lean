import SoaPort.Recomp.Cpu
import SoaPort.Sound.Voice

namespace SoaPort.Sound

open SoaPort.Lib SoaPort.Recomp

/-! One voice of one 5 ms frame (ax.c). `arith` is what the signed operations of
the interpolation, the envelope and the mix do with their exact result: `int32`
in the program, `pure` in unbounded integers. -/

abbrev MS_SAMPLES : Nat := 32

section Guest

variable {ρ : Type} (rt : Runtime ρ)

def rd16 (s : CpuState ρ) (a : Word) : BitVec 16 × CpuState ρ :=
  mem_r16 rt s (a ||| 0x80000000#32)

def wr16 (s : CpuState ρ) (a : Word) (v : BitVec 16) : CpuState ρ :=
  mem_w16 rt s (a ||| 0x80000000#32) v

def pb_read (s : CpuState ρ) (addr : Word) : PB × CpuState ρ :=
  (List.range PB_WORDS).foldl
    (fun (pb, s) i =>
      let (v, s) := rd16 rt s (addr + 2#32 * BitVec.ofNat 32 i)
      (pb.set i v, s))
    (⟨fun _ => 0#16⟩, s)

def pb_write (s : CpuState ρ) (addr : Word) (pb : PB) : CpuState ρ :=
  (List.range PB_WORDS).foldl
    (fun s i => wr16 rt s (addr + 2#32 * BitVec.ofNat 32 i) (pb.w i)) s

def hi_lo (pb : PB) (i : Nat) : Word :=
  (pb.w i ++ pb.w (i + 1)).setWidth 32

/-- The driver's changes for millisecond `ms`: (offset, value) pairs. -/
def apply_updates (s : CpuState ρ) (pb : PB) (ms : Nat) : PB × CpuState ρ :=
  let data := hi_lo pb (PB_UPDATES + 5)
  let n := (pb.w (PB_UPDATES + ms)).toNat
  if data = 0#32 ∨ n = 0 then (pb, s)
  else
    let start := ((List.range ms).map (fun k => (pb.w (PB_UPDATES + k)).toNat)).sum
    let data := data &&& 0x7FFFFFFF#32
    (List.range' start (min (start + n) 4096 - start)).foldl
      (fun (pb, s) i =>
        let (off, s) := rd16 rt s (data + BitVec.ofNat 32 i * 4#32)
        let (val, s) := rd16 rt s (data + BitVec.ofNat 32 i * 4#32 + 2#32)
        if off.toNat < PB_WORDS then (pb.set off.toNat val, s) else (pb, s))
      (pb, s)

end Guest

/-! The rate converter. -/

/-- The four samples before the converter's position. -/
structure Last where
  w0 : BitVec 16
  w1 : BitVec 16
  w2 : BitVec 16
  w3 : BitVec 16

structure Converter where
  v : Voice
  frac : Word
  last : Last

/-- The voice's position and decoder state, as the block has them. -/
def load_voice (pb : PB) (aram : Nat → BitVec 8) : Voice :=
  { pb := pb
    fmt := (pb.w (PB_AUDIO_ADDR + 1)).toNat
    looping := pb.w PB_AUDIO_ADDR ≠ 0#16
    loop := hi_lo pb (PB_AUDIO_ADDR + 2)
    end_ := hi_lo pb (PB_AUDIO_ADDR + 4)
    cur := hi_lo pb (PB_AUDIO_ADDR + 6)
    coefs := fun i => pb.w (PB_ADPCM + i)
    pred_scale := (pb.w (PB_ADPCM + 17)).toNat
    yn1 := pb.w (PB_ADPCM + 18)
    yn2 := pb.w (PB_ADPCM + 19)
    aram := aram
    stopped := false }

def load_converter (pb : PB) (aram : Nat → BitVec 8) : Converter :=
  { v := load_voice pb aram
    frac := (pb.w (PB_SRC + 2)).setWidth 32
    last := ⟨pb.w (PB_SRC + 3), pb.w (PB_SRC + 4), pb.w (PB_SRC + 5), pb.w (PB_SRC + 6)⟩ }

def ratio_of (pb : PB) : Word :=
  let ratio := hi_lo pb PB_SRC
  if ratio = 0#32 then 0x10000#32 else ratio

def Converter.push (c : Converter) : Converter :=
  let (sample, v) := (fetch_sample c.v).val
  { c with v := v, last := ⟨c.last.w1, c.last.w2, c.last.w3, sample⟩ }

/-- To the next output's position: one sample fetched for each whole step. -/
def Converter.advance (ratio : Word) (c : Converter) : Converter :=
  let step := c.frac + ratio
  Nat.iterate Converter.push (step >>> 16).toNat { c with frac := step &&& 0xFFFF#32 }

section Arithmetic

variable (arith : Int → Ran Int)

/-- The product is taken in 64 bits and narrowed again. -/
def interpolate (last2 last3 frac : Int) : Ran Int := do
  let difference ← arith (last3 - last2)
  let part := ((difference * frac) >>> (16 : Nat)).bmod (2 ^ 32)
  arith (last2 + part)

def convert (ratio : Word) : Nat → Converter → Ran (List Int × Converter)
  | 0, c => pure ([], c)
  | n + 1, c => do
      let c := c.advance ratio
      let sample ← interpolate arith c.last.w2.toInt c.last.w3.toInt c.frac.toNat
      let (rest, c) ← convert ratio n c
      pure (sample :: rest, c)

/-- The volume is a halfword and wraps as one. -/
def envelope (dvol : BitVec 16) : List Int → BitVec 16 → Ran (List Int × BitVec 16)
  | [], vol => pure ([], vol)
  | sample :: samples, vol => do
      let product ← arith (sample * vol.toNat)
      let next ← arith (vol.toNat + dvol.toInt)
      let (rest, vol) ← envelope dvol samples (BitVec.ofInt 16 next)
      pure ((product >>> (15 : Nat)) :: rest, vol)

/-! The mix. -/

def mix_loop (ramp : Bool) (delta : Int) :
    List Int → Nat → Int → (Nat → Int) → Ran ((Nat → Int) × Int)
  | [], _, vol, bus => pure (bus, vol)
  | sample :: samples, i, vol, bus => do
      let product ← arith (sample * vol)
      let sum ← arith (bus i + (product >>> (15 : Nat)))
      let vol ← (if ramp then arith (vol + delta) else pure vol)
      mix_loop ramp delta samples (i + 1) vol (Function.update bus i sum)

/-- `samples` into `bus` from index `o` on; a ramped gain is kept in an `int` and
stored back as a halfword. -/
def mix_add (bus : Nat → Int) (o : Nat) (samples : List Int) (gain : BitVec 16) (ramp : Bool)
    (delta : BitVec 16) : Ran ((Nat → Int) × BitVec 16) := do
  let (bus, vol) ← mix_loop arith ramp delta.toInt samples o gain.toNat bus
  pure (bus, if ramp then BitVec.ofInt 16 vol else gain)

end Arithmetic

abbrev MX_L : Nat := 0
abbrev MX_DL : Nat := 1
abbrev MX_R : Nat := 2
abbrev MX_DR : Nat := 3
abbrev MX_AL : Nat := 4
abbrev MX_DAL : Nat := 5
abbrev MX_AR : Nat := 6
abbrev MX_DAR : Nat := 7
abbrev MX_BL : Nat := 8
abbrev MX_DBL : Nat := 9
abbrev MX_BR : Nat := 10
abbrev MX_DBR : Nat := 11
abbrev MX_S : Nat := 12
abbrev MX_DS : Nat := 13
abbrev MX_AS : Nat := 14
abbrev MX_DAS : Nat := 15
abbrev MX_BS : Nat := 16
abbrev MX_DBS : Nat := 17

abbrev MIX_L : BitVec 16 := 0x0001#16
abbrev MIX_R : BitVec 16 := 0x0002#16
abbrev MIX_S : BitVec 16 := 0x0004#16
abbrev MIX_RAMP : BitVec 16 := 0x0008#16
abbrev MIX_AL : BitVec 16 := 0x0010#16
abbrev MIX_AR : BitVec 16 := 0x0020#16
abbrev MIX_AS : BitVec 16 := 0x0040#16
abbrev MIX_A_RAMP : BitVec 16 := 0x0080#16
abbrev MIX_BL : BitVec 16 := 0x0100#16
abbrev MIX_BR : BitVec 16 := 0x0200#16
abbrev MIX_BS : BitVec 16 := 0x0400#16
abbrev MIX_B_RAMP : BitVec 16 := 0x0800#16

abbrev RAW_AUXA : BitVec 16 := 0x0001#16
abbrev RAW_AUXB : BitVec 16 := 0x0002#16
abbrev RAW_SURROUND : BitVec 16 := 0x0004#16
abbrev RAW_RAMP : BitVec 16 := 0x0008#16
abbrev RAW_AUXB_LR : BitVec 16 := 0x0010#16
abbrev RAW_AUXB_ANY : BitVec 16 := RAW_AUXB ||| RAW_AUXB_LR

def has (word bits : BitVec 16) : Bool :=
  word &&& bits ≠ 0#16

/-- The sends of a block's mixer control word. -/
def mix_ctrl (raw : BitVec 16) : BitVec 16 :=
  let when_ (on : Bool) (bits : BitVec 16) : BitVec 16 := if on then bits else 0#16
  MIX_L ||| MIX_R
    ||| when_ (has raw RAW_AUXA) (MIX_AL ||| MIX_AR)
    ||| when_ (has raw RAW_AUXB_ANY) (MIX_BL ||| MIX_BR)
    ||| when_ (has raw RAW_SURROUND)
      (MIX_S ||| when_ (has raw RAW_AUXA) MIX_AS ||| when_ (has raw RAW_AUXB) MIX_BS)
    ||| when_ (has raw RAW_RAMP)
      (MIX_RAMP ||| when_ (has raw RAW_AUXA) MIX_A_RAMP
        ||| when_ (has raw RAW_AUXB_ANY) MIX_B_RAMP)

/-- `g_main`, `g_auxa` and `g_auxb`, three channels each. -/
inductive Bus where
  | main
  | auxa
  | auxb
deriving DecidableEq

abbrev Buses := Bus × Nat → Nat → Int

/-- One `mix_add` call of the mixer: where it goes, and which words it reads. -/
structure Send where
  bit : BitVec 16
  bus : Bus × Nat
  gain : Nat
  delta : Nat
  ramp : BitVec 16

def sends : List Send :=
  [ ⟨MIX_L, (.main, 0), MX_L, MX_DL, MIX_RAMP⟩
  , ⟨MIX_R, (.main, 1), MX_R, MX_DR, MIX_RAMP⟩
  , ⟨MIX_S, (.main, 2), MX_S, MX_DS, MIX_RAMP⟩
  , ⟨MIX_AL, (.auxa, 0), MX_AL, MX_DAL, MIX_A_RAMP⟩
  , ⟨MIX_AR, (.auxa, 1), MX_AR, MX_DAR, MIX_A_RAMP⟩
  , ⟨MIX_AS, (.auxa, 2), MX_AS, MX_DAS, MIX_A_RAMP⟩
  , ⟨MIX_BL, (.auxb, 0), MX_BL, MX_DBL, MIX_B_RAMP⟩
  , ⟨MIX_BR, (.auxb, 1), MX_BR, MX_DBR, MIX_B_RAMP⟩
  , ⟨MIX_BS, (.auxb, 2), MX_BS, MX_DBS, MIX_B_RAMP⟩ ]

section Voices

variable (arith : Int → Ran Int)

def mix_send (ctrl : BitVec 16) (ms : Nat) (samples : List Int) (st : PB × Buses) (snd : Send) :
    Ran (PB × Buses) :=
  let (pb, buses) := st
  if has ctrl snd.bit then do
    let (bus, gain) ← mix_add arith (buses snd.bus) (ms * MS_SAMPLES) samples
      (pb.w (PB_MIXER + snd.gain)) (has ctrl snd.ramp) (pb.w (PB_MIXER + snd.delta))
    pure (pb.set (PB_MIXER + snd.gain) gain, Function.update buses snd.bus bus)
  else pure (pb, buses)

/-- The decoder and converter state back into the block. -/
def store_converter (pb : PB) (c : Converter) : PB :=
  let pb := pb.set (PB_AUDIO_ADDR + 6) (c.v.cur.extractLsb' 16 16)
  let pb := pb.set (PB_AUDIO_ADDR + 7) (c.v.cur.setWidth 16)
  let pb := pb.set (PB_ADPCM + 17) (BitVec.ofNat 16 c.v.pred_scale)
  let pb := pb.set (PB_ADPCM + 18) c.v.yn1
  let pb := pb.set (PB_ADPCM + 19) c.v.yn2
  let pb := pb.set (PB_SRC + 2) (c.frac.setWidth 16)
  let pb := pb.set (PB_SRC + 3) c.last.w0
  let pb := pb.set (PB_SRC + 4) c.last.w1
  let pb := pb.set (PB_SRC + 5) c.last.w2
  pb.set (PB_SRC + 6) c.last.w3

/-- One millisecond of a running voice. -/
def voice_ms (aram : Nat → BitVec 8) (ms : Nat) (pb : PB) (buses : Buses) :
    Ran (PB × Buses × Bool) := do
  let (samples, c) ← convert arith (ratio_of pb) MS_SAMPLES (load_converter pb aram)
  let (samples, vol) ← envelope arith (pb.w (PB_VOL_ENV + 1)) samples (pb.w PB_VOL_ENV)
  let pb := pb.set PB_VOL_ENV vol
  let ctrl := mix_ctrl (pb.w PB_MIXER_CTRL)
  let (pb, buses) ← sends.foldlM (mix_send arith ctrl ms samples) (pb, buses)
  let pb := store_converter pb c
  pure (if c.v.stopped then pb.set PB_RUNNING 0#16 else pb, buses, c.v.stopped)

variable {ρ : Type} (rt : Runtime ρ)

/-- The milliseconds of a frame, until the voice is not running or stops. -/
def voice_loop (aram : Nat → BitVec 8) :
    List Nat → CpuState ρ → PB → Buses → Ran (CpuState ρ × PB × Buses)
  | [], s, pb, buses => pure (s, pb, buses)
  | ms :: rest, s, pb, buses =>
      let (pb, s) := if ms ≠ 0 then apply_updates rt s pb ms else (pb, s)
      if pb.w PB_RUNNING = 0#16 then pure (s, pb, buses)
      else do
        let (pb, buses, stopped) ← voice_ms arith aram ms pb buses
        if stopped then pure (s, pb, buses) else voice_loop aram rest s pb buses

def process_voice (addr : Word) (aram : Nat → BitVec 8) (s : CpuState ρ) (buses : Buses) :
    Ran (CpuState ρ × Buses) :=
  let (pb, s) := pb_read rt s addr
  let (pb, s) := apply_updates rt s pb 0
  if pb.w PB_RUNNING = 0#16 then pure (pb_write rt s addr pb, buses)
  else do
    let (s, pb, buses) ← voice_loop arith rt aram [0, 1, 2, 3, 4] s pb buses
    pure (pb_write rt s addr pb, buses)

end Voices

/-! Runs: voices are processed, and between them the guest and the other commands
of the list may leave anything. -/

structure Machine (ρ : Type) where
  cpu : CpuState ρ
  buses : Buses
  aram : Nat → BitVec 8

inductive Act (ρ : Type) where
  | voice (addr : Word)
  | other (m : Machine ρ)

def act {ρ : Type} (arith : Int → Ran Int) (rt : Runtime ρ) (m : Machine ρ) :
    Act ρ → Ran (Machine ρ)
  | .voice addr => do
      let (cpu, buses) ← process_voice arith rt addr m.aram m.cpu m.buses
      pure { m with cpu := cpu, buses := buses }
  | .other after => pure after

def run {ρ : Type} (arith : Int → Ran Int) (rt : Runtime ρ) (m : Machine ρ)
    (acts : List (Act ρ)) : Ran (Machine ρ) :=
  acts.foldlM (act arith rt) m

end SoaPort.Sound
