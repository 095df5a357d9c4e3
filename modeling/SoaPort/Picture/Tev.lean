import Mathlib
import SoaPort.Gx.Command

namespace SoaPort.Picture

open SoaPort.Gx (Word bits)

/-! The texture environment: a draw's stages set up from the registers, and one
pixel through them. Floats and textures are the sampler's own. -/

/-! The bank of a pixel's inputs: 0-15 the four colour registers, then the
texture colour, the rasterized colour, konst, and the constants. -/

def BANK_TEX : Nat := 16
def BANK_RAS : Nat := 20
def BANK_KONST : Nat := 24
def BANK_ONE : Nat := 28
def BANK_HALF : Nat := 29
def BANK_ZERO : Nat := 30

structure Stage where
  texmap : Nat
  texcoord : Nat
  texen : Nat
  chan : Nat
  rswap : Fin 4 → Fin 4
  tswap : Fin 4 → Fin 4
  ca : Nat
  cb : Nat
  cc : Nat
  cd : Nat
  aa : Nat
  ab : Nat
  ac : Nat
  ad : Nat
  cbias : Nat
  cop : Nat
  cclamp : Nat
  cshift : Nat
  cdest : Nat
  abias : Nat
  aop : Nat
  aclamp : Nat
  ashift : Nat
  adest : Nat
  konst : Fin 4 → Int
  /-- colour input bank indices per channel -/
  ia : Fin 3 → Nat
  ib : Fin 3 → Nat
  ic : Fin 3 → Nat
  id : Fin 3 → Nat
  /-- alpha input bank indices -/
  ja : Nat
  jb : Nat
  jc : Nat
  jd : Nat

structure TevSetup (Tex : Type) where
  stages : Nat
  st : Nat → Stage
  tex : Nat → Tex
  used_tex : Nat
  used_chan : Nat
  aref0 : Int
  aref1 : Int
  acomp0 : Nat
  acomp1 : Nat
  alogic : Nat
  alpha_always : Bool
  /-- a shape run directly: 1 the vertex colour, 2 texture times vertex colour -/
  fast_c : Nat
  /-- 1 konst, 2 vertex alpha, 3 texture times vertex alpha -/
  fast_a : Nat
  reg_init : Fin 4 → Fin 4 → Int

/-- The colour and konst registers, latched as their writes arrive: r g b a. -/
structure TevRegs where
  g_tev_reg : Fin 4 → Fin 4 → Int
  g_tev_konst : Fin 4 → Fin 4 → BitVec 8

def set2 {α : Type} (t : Fin 4 → Fin 4 → α) (i j : Fin 4) (v : α) : Fin 4 → Fin 4 → α :=
  Function.update t i (Function.update (t i) j v)

/-- An s11 field. -/
def s11 (v : Nat) : Int := (BitVec.ofNat 11 v).toInt

/-- A write to one of 0xE0 to 0xE7; bit 23 of it says which set. -/
def tev_register_written (regs : TevRegs) (reg v : Nat) : TevRegs :=
  let i := Fin.ofNat 4 ((reg - 0xE0) >>> 1)
  let low : Fin 4 := if reg % 2 ≠ 0 then 2 else 0
  let high : Fin 4 := if reg % 2 ≠ 0 then 1 else 3
  if bits v 23 1 ≠ 0 then
    let konst := set2 regs.g_tev_konst i low (BitVec.ofNat 8 v)
    { regs with g_tev_konst := set2 konst i high (BitVec.ofNat 8 (v >>> 12)) }
  else
    let reg := set2 regs.g_tev_reg i low (s11 v)
    { regs with g_tev_reg := set2 reg i high (s11 (v >>> 12)) }

def color_index (sel i : Nat) : Nat :=
  match sel with
  | 0 => i
  | 1 => 3
  | 2 => 4 + i
  | 3 => 7
  | 4 => 8 + i
  | 5 => 11
  | 6 => 12 + i
  | 7 => 15
  | 8 => BANK_TEX + i
  | 9 => BANK_TEX + 3
  | 10 => BANK_RAS + i
  | 11 => BANK_RAS + 3
  | 12 => BANK_ONE
  | 13 => BANK_HALF
  | 14 => BANK_KONST + i
  | _ => BANK_ZERO

def alpha_index (sel : Nat) : Nat :=
  match sel with
  | 0 => 3
  | 1 => 7
  | 2 => 11
  | 3 => 15
  | 4 => BANK_TEX + 3
  | 5 => BANK_RAS + 3
  | 6 => BANK_KONST + 3
  | _ => BANK_ZERO

def konst_value (regs : TevRegs) (sel : Nat) (channel : Fin 4) : Int :=
  if sel < 8 then
    let v := (8 - sel) * 32
    if v > 255 then 255 else v
  else if sel ≥ 12 ∧ sel < 16 then
    (regs.g_tev_konst (Fin.ofNat 4 (sel - 12)) (if channel < 3 then channel else 3)).toNat
  else if sel ≥ 16 ∧ sel < 32 then
    (regs.g_tev_konst (Fin.ofNat 4 (sel - 16)) (Fin.ofNat 4 ((sel - 16) >>> 2))).toNat
  else 0

def compare (mode : Nat) (a b : Int) : Bool :=
  match mode with
  | 0 => false
  | 1 => a < b
  | 2 => a == b
  | 3 => a ≤ b
  | 4 => a > b
  | 5 => a != b
  | 6 => a ≥ b
  | _ => true

section Setup

variable {Tex : Type}

def alpha_passes (T : TevSetup Tex) (alpha : Int) : Bool :=
  let p0 := compare T.acomp0 alpha T.aref0
  let p1 := compare T.acomp1 alpha T.aref1
  match T.alogic with
  | 0 => p0 && p1
  | 1 => p0 || p1
  | 2 => p0 != p1
  | _ => p0 == p1

/-- Whether the alpha compare passes every alpha: the answer for the compare
register is kept, as it depends on that alone. -/
def alpha_always (T : TevSetup Tex) : Bool :=
  (List.range 256).all fun a => alpha_passes T a

/-- A swap table's two bits of a register pair. -/
def swap (bp : Nat → Word) (s : Nat) (i : Fin 4) : Fin 4 :=
  let k0 := (bp (0xF6 + 2 * s)).toNat
  let k1 := (bp (0xF7 + 2 * s)).toNat
  match i with
  | 0 => Fin.ofNat 4 k0
  | 1 => Fin.ofNat 4 (k0 >>> 2)
  | 2 => Fin.ofNat 4 k1
  | 3 => Fin.ofNat 4 (k1 >>> 2)

def tev_stage (regs : TevRegs) (bp : Nat → Word) (st : Nat) : Stage :=
  let tref := (bp (0x28 + st / 2)).toNat >>> (st % 2 * 12)
  let cenv := (bp (0xC0 + 2 * st)).toNat
  let aenv := (bp (0xC1 + 2 * st)).toNat
  let ksel := (bp (0xF6 + st / 2)).toNat
  let kc := if st % 2 ≠ 0 then bits ksel 14 5 else bits ksel 4 5
  let ka := if st % 2 ≠ 0 then bits ksel 19 5 else bits ksel 9 5
  { texmap := bits tref 0 3
    texcoord := bits tref 3 3
    texen := bits tref 6 1
    chan := bits tref 7 3
    cd := bits cenv 0 4
    cc := bits cenv 4 4
    cb := bits cenv 8 4
    ca := bits cenv 12 4
    cbias := bits cenv 16 2
    cop := bits cenv 18 1
    cclamp := bits cenv 19 1
    cshift := bits cenv 20 2
    cdest := bits cenv 22 2
    ad := bits aenv 4 3
    ac := bits aenv 7 3
    ab := bits aenv 10 3
    aa := bits aenv 13 3
    abias := bits aenv 16 2
    aop := bits aenv 18 1
    aclamp := bits aenv 19 1
    ashift := bits aenv 20 2
    adest := bits aenv 22 2
    rswap := swap bp (bits aenv 0 2)
    tswap := swap bp (bits aenv 2 2)
    konst := fun i => konst_value regs (if i < 3 then kc else ka) i
    ia := fun i => color_index (bits cenv 12 4) i
    ib := fun i => color_index (bits cenv 8 4) i
    ic := fun i => color_index (bits cenv 4 4) i
    id := fun i => color_index (bits cenv 0 4) i
    ja := alpha_index (bits aenv 13 3)
    jb := alpha_index (bits aenv 10 3)
    jc := alpha_index (bits aenv 7 3)
    jd := alpha_index (bits aenv 4 3) }

/-- Identity swaps, colour channel 0, no bias, adding, clamped, into the register
the output is read from. -/
def Stage.plain (S : Stage) : Bool :=
  S.chan = 0 &&
    S.rswap 0 = 0 && S.rswap 1 = 1 && S.rswap 2 = 2 && S.rswap 3 = 3 &&
    (S.texen = 0 || S.tswap 0 = 0 && S.tswap 1 = 1 && S.tswap 2 = 2 && S.tswap 3 = 3) &&
    S.cbias = 0 && S.cop = 0 && S.cclamp ≠ 0 && S.cdest = 0 && S.abias = 0 && S.aop = 0 &&
    S.aclamp ≠ 0 && S.adest = 0 && S.ashift = 0

def Stage.fast_c (S : Stage) : Nat :=
  if S.cshift = 0 ∧ ((S.ca = 10 ∧ S.cb = 15 ∧ S.cc = 15 ∧ S.cd = 15) ∨
      (S.ca = 15 ∧ S.cb = 15 ∧ S.cc = 15 ∧ S.cd = 10)) then 1
  else if S.texen ≠ 0 ∧ S.cshift ≤ 1 ∧ S.ca = 15 ∧ S.cb = 8 ∧ S.cc = 10 ∧ S.cd = 15 then 2
  else 0

def Stage.fast_a (S : Stage) : Nat :=
  if S.aa = 6 ∧ S.ab = 7 ∧ S.ac = 7 ∧ S.ad = 7 then 1
  else if (S.aa = 5 ∧ S.ab = 7 ∧ S.ac = 7 ∧ S.ad = 7) ∨
      (S.aa = 7 ∧ S.ab = 7 ∧ S.ac = 7 ∧ S.ad = 5) then 2
  else if S.texen ≠ 0 ∧ S.aa = 7 ∧ S.ab = 4 ∧ S.ac = 5 ∧ S.ad = 7 then 3
  else 0

/-- A draw's setup; `tex` is what the texture cache gives for each map. -/
def tev_prepare (regs : TevRegs) (tex : Nat → Tex) (bp : Nat → Word) : TevSetup Tex :=
  let ac := (bp 0xF3).toNat
  let stages := bits (bp 0).toNat 10 4 + 1
  let st := tev_stage regs bp
  let fast := stages = 1 ∧ (st 0).plain ∧ (st 0).fast_c ≠ 0 ∧ (st 0).fast_a ≠ 0
  let T : TevSetup Tex :=
    { stages, st, tex
      used_tex := (List.range stages).foldl
        (fun used i => if (st i).texen ≠ 0 then used ||| 1 <<< (st i).texcoord else used) 0
      used_chan := (List.range stages).foldl
        (fun used i => if (st i).chan < 2 then used ||| 1 <<< (st i).chan else used) 0
      aref0 := bits ac 0 8
      aref1 := bits ac 8 8
      acomp0 := bits ac 16 3
      acomp1 := bits ac 19 3
      alogic := bits ac 22 2
      alpha_always := false
      fast_c := if fast then (st 0).fast_c else 0
      fast_a := if fast then (st 0).fast_a else 0
      reg_init := regs.g_tev_reg }
  { T with alpha_always := alpha_always T }

end Setup

def clamp255 (v : Int) : Int := if v < 0 then 0 else if v > 255 then 255 else v

def clamp_s11 (v : Int) : Int := if v < -1024 then -1024 else if v > 1023 then 1023 else v

/-- `v & 0xFF` of an `int`. -/
def low8 (v : Int) : Int := v % 256

/-- The stage's blend of a and b by c. -/
def blend8 (a b c : Int) : Int :=
  let cc := c + c / 128
  (a * (256 - cc) + b * cc + 128) / 256

def bias_value (bias : Nat) : Int := if bias = 1 then 128 else if bias = 2 then -128 else 0

def shifted (shift : Nat) (r : Int) : Int :=
  if shift = 1 then r * 2 else if shift = 2 then r * 4 else if shift = 3 then r / 2 else r

/-- A stage's sum of one channel, its inputs as they stand in the bank. -/
def tev_add (op shift bias clamp : Nat) (a b c d : Int) : Int :=
  let v := blend8 (low8 a) (low8 b) (low8 c)
  let v := if op ≠ 0 then -v else v
  let r := shifted shift (d + v + bias_value bias)
  if clamp ≠ 0 then clamp255 r else clamp_s11 r

local instance channels_nonempty : NeZero 3 := ⟨by decide⟩

/-- The channels of a comparing stage's colour. -/
def tev_compare (S : Stage) (a b c d : Fin 3 → Int) (i : Fin 3) : Int :=
  let same := S.cop ≠ 0
  let a := fun i => low8 (a i)
  let b := fun i => low8 (b i)
  let test (av bv : Int) : Bool := if same then av == bv else av > bv
  let res :=
    if S.cshift = 0 then test (a 0) (b 0)
    else if S.cshift = 1 then test (a 1 * 256 + a 0) (b 1 * 256 + b 0)
    else if S.cshift = 2 then
      test (a 2 * 65536 + a 1 * 256 + a 0) (b 2 * 65536 + b 1 * 256 + b 0)
    else test (a i) (b i)
  let r := (if res then c i else 0) + d i
  if S.cclamp ≠ 0 then clamp255 r else clamp_s11 r

/-- `n` values from `at_` on. -/
def set_bank {n : Nat} (bank : Nat → Int) (at_ : Nat) (v : Fin n → Int) : Nat → Int := fun k =>
  if inside : at_ ≤ k ∧ k - at_ < n then v ⟨k - at_, inside.2⟩ else bank k

section Pixel

variable {F Tex : Type} [Div F] [BEq F] [OfNat F 0]
  (sample : Tex → F → F → F → Fin 4 → BitVec 8)

/-- The perspective divide: a coordinate is `s`, `t`, `q` and the level of detail. -/
def divided (tc : Fin 4 → F) (i : Fin 4) : F := if tc 2 != 0 then tc i / tc 2 else tc i

def texel (T : TevSetup Tex) (S : Stage) (tex : Nat → Fin 4 → F) : Fin 4 → BitVec 8 :=
  let tc := tex S.texcoord
  sample (T.tex S.texmap) (divided tc 0) (divided tc 1) (tc 3)

/-- What a stage reads, put into the bank. -/
def stage_inputs (T : TevSetup Tex) (ras : Nat → Fin 4 → Int) (tex : Nat → Fin 4 → F) (S : Stage)
    (bank : Nat → Int) : Nat → Int :=
  let bank :=
    if S.texen ≠ 0 then
      set_bank bank BANK_TEX fun i => (texel sample T S tex (S.tswap i)).toNat
    else bank
  let bank := if S.chan < 2 then set_bank bank BANK_RAS fun i => ras S.chan (S.rswap i) else bank
  set_bank bank BANK_KONST S.konst

def stage_color (S : Stage) (bank : Nat → Int) : Nat → Int :=
  set_bank bank (S.cdest * 4)
    (if S.cbias ≠ 3 then fun i =>
      tev_add S.cop S.cshift S.cbias S.cclamp (bank (S.ia i)) (bank (S.ib i)) (bank (S.ic i))
        (bank (S.id i))
    else
      tev_compare S (fun i => bank (S.ia i)) (fun i => bank (S.ib i)) (fun i => bank (S.ic i))
        fun i => bank (S.id i))

def stage_alpha (S : Stage) (bank : Nat → Int) : Nat → Int :=
  Function.update bank (S.adest * 4 + 3)
    (if S.abias ≠ 3 then
      tev_add S.aop S.ashift S.abias S.aclamp (bank S.ja) (bank S.jb) (bank S.jc) (bank S.jd)
    else
      let a := low8 (bank S.ja)
      let b := low8 (bank S.jb)
      let res : Bool := if S.aop ≠ 0 then a == b else a > b
      let r := bank S.jd + if res then bank S.jc else 0
      if S.aclamp ≠ 0 then clamp255 r else clamp_s11 r)

def start_bank (T : TevSetup Tex) : Nat → Int := fun k =>
  if inside : k < 16 then T.reg_init ⟨k / 4, by omega⟩ ⟨k % 4, by omega⟩
  else if k = BANK_ONE then 255
  else if k = BANK_HALF then 128
  else 0

/-- The stages one after another. -/
def tev_stages (T : TevSetup Tex) (ras : Nat → Fin 4 → Int) (tex : Nat → Fin 4 → F) :
    (Fin 4 → BitVec 8) × Bool :=
  let bank := (List.range T.stages).foldl
    (fun bank st => stage_alpha (T.st st) (stage_color (T.st st)
      (stage_inputs sample T ras tex (T.st st) bank))) (start_bank T)
  let out := fun i : Fin 4 => BitVec.ofInt 8 (clamp255 (bank i))
  (out, alpha_passes T (out 3).toNat)

/-- A shape that was recognised, run directly. -/
def tev_direct (T : TevSetup Tex) (ras : Nat → Fin 4 → Int) (tex : Nat → Fin 4 → F) :
    (Fin 4 → BitVec 8) × Bool :=
  let S := T.st 0
  let r := ras 0
  let t := if S.texen ≠ 0 then texel sample T S tex else fun _ => 0#8
  let color (i : Fin 4) : BitVec 8 :=
    if T.fast_c = 1 then BitVec.ofInt 8 (r i)
    else
      let cc := r i + r i / 128
      let v := ((t i).toNat * cc + 128) / 256
      BitVec.ofInt 8 (clamp255 (if S.cshift = 1 then v * 2 else v))
  let alpha : BitVec 8 :=
    if T.fast_a = 1 then BitVec.ofInt 8 (S.konst 3)
    else if T.fast_a = 2 then BitVec.ofInt 8 (r 3)
    else
      let cc := r 3 + r 3 / 128
      BitVec.ofInt 8 (clamp255 (((t 3).toNat * cc + 128) / 256))
  (fun i => if i = 3 then alpha else color i, alpha_passes T alpha.toNat)

/-- `narrate` is a debugging hook, which wants every stage told. -/
def tev_pixel (narrate : Bool) (T : TevSetup Tex) (ras : Nat → Fin 4 → Int)
    (tex : Nat → Fin 4 → F) : (Fin 4 → BitVec 8) × Bool :=
  if T.fast_c ≠ 0 ∧ !narrate then tev_direct sample T ras tex else tev_stages sample T ras tex

end Pixel

end SoaPort.Picture
