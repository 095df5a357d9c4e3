import SoaPort.Recomp.Emit

namespace SoaPort.Recomp

open SoaPort.Ppc

/-! The emitter's floating-point and paired-single templates, and what the C
they write does. Registers hold bit patterns; the host's arithmetic on doubles
is a parameter. -/

abbrev Double := BitVec 64

/-- The double-valued expressions of the templates. -/
inductive FExpr where
  | ps0 (n : Int)
  | ps1 (n : Int)
  | neg (a : FExpr)
  | fabs (a : FExpr)
  | sqrt (a : FExpr)
  | add (a b : FExpr)
  | sub (a b : FExpr)
  | mul (a b : FExpr)
  | div (a b : FExpr)
  | fma (a c b : FExpr)
  /-- `(double)(float)(a)`. -/
  | round (a : FExpr)
  /-- `1.0 / a`. -/
  | recip (a : FExpr)
  /-- `(double)(1.0f / (float)a)`. -/
  | recipf (a : FExpr)
  /-- `(a >= 0.0) ? c : b`. -/
  | sel (a c b : FExpr)
  deriving DecidableEq, Repr

inductive FSimple where
  /-- `ps0 = ps1 = (double)mem_rf32(s, ea)`. -/
  | load_f32 (rd : Int) (ea : Expr)
  /-- `ps0 = mem_rf64(s, ea)`. -/
  | load_f64 (rd : Int) (ea : Expr)
  | mem_wf32 (ea : Expr) (e : FExpr)
  | mem_wf64 (ea : Expr) (e : FExpr)
  /-- `mem_w32(s, ea, (uint32_t)fpr_bits(s, n))`. -/
  | store_bits (ea : Expr) (n : Int)
  | set_ps0 (rd : Int) (e : FExpr)
  /-- `ps0 = ps1 = (double)(float)(e)`. -/
  | set_single (rd : Int) (e : FExpr)
  /-- Both halves, each rounded into a temporary first. -/
  | set_pair (rd : Int) (e0 e1 : FExpr)
  | set_fctiw (rd : Int) (e : FExpr) (truncate : Bool)
  | set_fpscr_bits (rd : Int)
  | cr_fcmp (f : Nat) (a b : FExpr)
  /-- `s->fpscr = (s->fpscr & ~mask) | (fpr_bits(s, rb) & mask)`. -/
  | fpscr_fields (mask : Nat) (rb : Int)
  | fpscr_clear (bit : Nat)
  | fpscr_set (bit : Nat)
  | psq_load (rd : Int) (ea : Expr) (gqr : Int) (w : Nat)
  | psq_store (rs : Int) (ea : Expr) (gqr : Int) (w : Nat)
  /-- `cr_set_field(s, 1, (s->fpscr >> 28) & 0xF)`. -/
  | cr1_fpscr
  /-- `s->gpr[n] = ea`, at the end of an update form. -/
  | set_gpr (n : Int) (e : Expr)
  deriving DecidableEq, Repr

inductive FStmt where
  | simple (x : FSimple)
  /-- `{ uint32_t ea = e; body }`. -/
  | block (e : Expr) (body : List FSimple)
  deriving DecidableEq, Repr

/-! Templates. -/

/-- Float arithmetic: the value, and whether it is single (fills both halves). -/
def _FLOAT_ARITH (a b c : FExpr) : Mnemonic → Option (FExpr × Bool)
  | .fadds => some (.add a b, true)
  | .fsubs => some (.sub a b, true)
  | .fmuls => some (.mul a c, true)
  | .fdivs => some (.div a b, true)
  | .fmadds => some (.fma a c b, true)
  | .fmsubs => some (.fma a c (.neg b), true)
  | .fnmadds => some (.neg (.fma a c b), true)
  | .fnmsubs => some (.neg (.fma a c (.neg b)), true)
  | .fres => some (.recipf b, true)
  | .fadd => some (.add a b, false)
  | .fsub => some (.sub a b, false)
  | .fmul => some (.mul a c, false)
  | .fdiv => some (.div a b, false)
  | .fmadd => some (.fma a c b, false)
  | .fmsub => some (.fma a c (.neg b), false)
  | .fnmadd => some (.neg (.fma a c b), false)
  | .fnmsub => some (.neg (.fma a c (.neg b)), false)
  | .frsqrte => some (.recip (.sqrt b), false)
  | .fsel => some (.sel a c b, false)
  | _ => none

/-- Paired singles: the two halves, before rounding. -/
def _PS_PAIR (a0 a1 b0 b1 c0 c1 : FExpr) : Mnemonic → Option (FExpr × FExpr)
  | .ps_add => some (.add a0 b0, .add a1 b1)
  | .ps_sub => some (.sub a0 b0, .sub a1 b1)
  | .ps_mul => some (.mul a0 c0, .mul a1 c1)
  | .ps_div => some (.div a0 b0, .div a1 b1)
  | .ps_madd => some (.fma a0 c0 b0, .fma a1 c1 b1)
  | .ps_msub => some (.fma a0 c0 (.neg b0), .fma a1 c1 (.neg b1))
  | .ps_nmadd => some (.neg (.fma a0 c0 b0), .neg (.fma a1 c1 b1))
  | .ps_nmsub => some (.neg (.fma a0 c0 (.neg b0)), .neg (.fma a1 c1 (.neg b1)))
  | .ps_muls0 => some (.mul a0 c0, .mul a1 c0)
  | .ps_muls1 => some (.mul a0 c1, .mul a1 c1)
  | .ps_madds0 => some (.fma a0 c0 b0, .fma a1 c0 b1)
  | .ps_madds1 => some (.fma a0 c1 b0, .fma a1 c1 b1)
  | .ps_sum0 => some (.add a0 b1, c1)
  | .ps_sum1 => some (c0, .add a0 b1)
  | .ps_neg => some (.neg b0, .neg b1)
  | .ps_abs => some (.fabs b0, .fabs b1)
  | .ps_nabs => some (.neg (.fabs b0), .neg (.fabs b1))
  | .ps_mr => some (b0, b1)
  | .ps_res => some (.recip b0, .recip b1)
  | .ps_rsqrte => some (.recip (.sqrt b0), .recip (.sqrt b1))
  | .ps_sel => some (.sel a0 c0 b0, .sel a1 c1 b1)
  | .ps_merge00 => some (a0, b0)
  | .ps_merge01 => some (a0, b1)
  | .ps_merge10 => some (a1, b0)
  | .ps_merge11 => some (a1, b1)
  | _ => none

/-- A load or store, in its plain or its update form. -/
def float_mem (i : Insn) (update indexed : Bool) (body : Expr → FSimple) : List FStmt :=
  let ea := ea_expr i indexed
  if update then [.block ea [body .tmp, .set_gpr i.ra .tmp]]
  else [.simple (body ea)]

/-- `if i.rc_bit: cr_set_field(s, 1, (s->fpscr >> 28) & 0xF)`. -/
def cr1_rc (i : Insn) : List FStmt :=
  if i.rc_bit then [.simple .cr1_fpscr] else []

/-- The statements of the instructions `is_float` lists. -/
def _translate_float (i : Insn) : List FStmt :=
  let rd := i.rd
  let ra := i.ra
  let rb := i.rb
  let rc := i.rc
  let psq_load := fun ea => FSimple.psq_load rd ea i.gqr i.quant_w
  let psq_store := fun ea => FSimple.psq_store rd ea i.gqr i.quant_w
  match i.mnemonic with
  -- loads and stores
  | .lfs => float_mem i false false (.load_f32 rd)
  | .lfsu => float_mem i true false (.load_f32 rd)
  | .lfsx => float_mem i false true (.load_f32 rd)
  | .lfsux => float_mem i true true (.load_f32 rd)
  | .lfd => float_mem i false false (.load_f64 rd)
  | .lfdu => float_mem i true false (.load_f64 rd)
  | .lfdx => float_mem i false true (.load_f64 rd)
  | .lfdux => float_mem i true true (.load_f64 rd)
  | .stfs => float_mem i false false (.mem_wf32 · (.ps0 rd))
  | .stfsu => float_mem i true false (.mem_wf32 · (.ps0 rd))
  | .stfsx => float_mem i false true (.mem_wf32 · (.ps0 rd))
  | .stfsux => float_mem i true true (.mem_wf32 · (.ps0 rd))
  | .stfd => float_mem i false false (.mem_wf64 · (.ps0 rd))
  | .stfdu => float_mem i true false (.mem_wf64 · (.ps0 rd))
  | .stfdx => float_mem i false true (.mem_wf64 · (.ps0 rd))
  | .stfdux => float_mem i true true (.mem_wf64 · (.ps0 rd))
  | .stfiwx => [.simple (.store_bits (.call2 .add (GA ra) (G rb)) rd)]
  -- moves, conversions and the status register
  | .fmr => [.simple (.set_ps0 rd (.ps0 rb))]
  | .fneg => [.simple (.set_ps0 rd (.neg (.ps0 rb)))]
  | .fabs => [.simple (.set_ps0 rd (.fabs (.ps0 rb)))]
  | .fnabs => [.simple (.set_ps0 rd (.neg (.fabs (.ps0 rb))))]
  | .frsp => [.simple (.set_ps0 rd (.round (.ps0 rb)))]
  | .fctiw => [.simple (.set_fctiw rd (.ps0 rb) false)]
  | .fctiwz => [.simple (.set_fctiw rd (.ps0 rb) true)]
  | .fcmpu | .fcmpo => [.simple (.cr_fcmp i.crf_d (.ps0 ra) (.ps0 rb))]
  | .mffs => [.simple (.set_fpscr_bits rd)]
  | .mtfsf => [.simple (.fpscr_fields (crm_mask i.imm.toNat) rb)]
  | .mtfsb0 => [.simple (.fpscr_clear (31 - rd).toNat)]
  | .mtfsb1 => [.simple (.fpscr_set (31 - rd).toNat)]
  -- paired singles
  | .psq_l => float_mem i false false psq_load
  | .psq_lu => float_mem i true false psq_load
  | .psq_lx => float_mem i false true psq_load
  | .psq_lux => float_mem i true true psq_load
  | .psq_st => float_mem i false false psq_store
  | .psq_stu => float_mem i true false psq_store
  | .psq_stx => float_mem i false true psq_store
  | .psq_stux => float_mem i true true psq_store
  | .ps_cmpu0 | .ps_cmpo0 => [.simple (.cr_fcmp i.crf_d (.ps0 ra) (.ps0 rb))]
  | .ps_cmpu1 | .ps_cmpo1 => [.simple (.cr_fcmp i.crf_d (.ps1 ra) (.ps1 rb))]
  | m =>
      match _FLOAT_ARITH (.ps0 ra) (.ps0 rb) (.ps0 rc) m with
      | some (e, single) =>
          .simple (if single then .set_single rd e else .set_ps0 rd e) :: cr1_rc i
      | none =>
          match _PS_PAIR (.ps0 ra) (.ps1 ra) (.ps0 rb) (.ps1 rb) (.ps0 rc) (.ps1 rc) m with
          | some (e0, e1) => .simple (.set_pair rd e0 e1) :: cr1_rc i
          | none => []

/-! Execution. -/

/-- The host's floating-point operations, on bit patterns. -/
structure CDouble where
  add : Double → Double → Double
  sub : Double → Double → Double
  mul : Double → Double → Double
  div : Double → Double → Double
  fma : Double → Double → Double → Double
  sqrt : Double → Double
  lt : Double → Double → Bool
  le : Double → Double → Bool
  /-- `d != d`. -/
  isNan : Double → Bool
  nearbyint : Double → Double
  /-- `(double)n` of an `int`. -/
  ofInt : Int → Double
  /-- `(int32_t)d` of an integral part in range. -/
  toInt : Double → Int
  /-- `(float)d`. -/
  toFloat : Double → BitVec 32
  /-- `(double)f`. -/
  ofFloat : BitVec 32 → Double
  divf : BitVec 32 → BitVec 32 → BitVec 32

/-- The runtime's eight-byte device accesses. -/
structure Mmio64 (ρ : Type) where
  mmio_read64 : CpuState ρ → Word → BitVec 64 × CpuState ρ
  mmio_write64 : CpuState ρ → Word → BitVec 64 → CpuState ρ

def SIGN : Double := 0x8000000000000000#64

variable {ρ : Type} (rt : Runtime ρ) (cd : CDouble) (m64 : Mmio64 ρ)

def FExpr.eval (s : CpuState ρ) : FExpr → Double
  | .ps0 n => (s.fpr n).1
  | .ps1 n => (s.fpr n).2
  | .neg a => a.eval s ^^^ SIGN
  | .fabs a => a.eval s &&& ~~~SIGN
  | .sqrt a => cd.sqrt (a.eval s)
  | .add a b => cd.add (a.eval s) (b.eval s)
  | .sub a b => cd.sub (a.eval s) (b.eval s)
  | .mul a b => cd.mul (a.eval s) (b.eval s)
  | .div a b => cd.div (a.eval s) (b.eval s)
  | .fma a c b => cd.fma (a.eval s) (c.eval s) (b.eval s)
  | .round a => cd.ofFloat (cd.toFloat (a.eval s))
  | .recip a => cd.div (cd.ofInt 1) (a.eval s)
  | .recipf a => cd.ofFloat (cd.divf (cd.toFloat (cd.ofInt 1)) (cd.toFloat (a.eval s)))
  | .sel a c b => if cd.le (cd.ofInt 0) (a.eval s) then c.eval s else b.eval s

def BSWAP64 (x : BitVec 64) : BitVec 64 :=
  BSWAP32 (x.extractLsb' 0 32) ++ BSWAP32 (x.extractLsb' 32 32)

def mem_r64 (s : CpuState ρ) (ea : Word) : BitVec 64 × CpuState ρ :=
  if is_mmio ea then m64.mmio_read64 s ea
  else
    let p := mem_ptr ea
    (BSWAP64 (memcpy_r32 s.mem (p + 4) ++ memcpy_r32 s.mem p), s)

def mem_w64 (s : CpuState ρ) (ea : Word) (v : BitVec 64) : CpuState ρ :=
  if is_mmio ea then
    if is_gather_pipe ea then rt.gx_pipe_write s 8 v
    else m64.mmio_write64 s ea v
  else
    let p := mem_ptr ea
    let v := BSWAP64 v
    let low := memcpy_w32 s.mem p (v.extractLsb' 0 32)
    { s with mem := memcpy_w32 low (p + 4) (v.extractLsb' 32 32) }

namespace CpuState

def setPs0 (s : CpuState ρ) (n : Int) (v : Double) : CpuState ρ :=
  { s with fpr := Function.update s.fpr n (v, (s.fpr n).2) }

def setFpr (s : CpuState ρ) (n : Int) (v0 v1 : Double) : CpuState ρ :=
  { s with fpr := Function.update s.fpr n (v0, v1) }

end CpuState

def cr_fcmp (s : CpuState ρ) (f : Nat) (a b : Double) : CpuState ρ :=
  let c := if cd.isNan a || cd.isNan b then 1#32
    else if cd.lt a b then 8#32
    else if cd.lt b a then 4#32
    else 2#32
  let s := cr_set_field s f c
  { s with fpscr := (s.fpscr &&& ~~~0xF000#32) ||| (c <<< 12) }

/-- fctiw and fctiwz: NaN and out-of-range values saturate. -/
def ppc_fctiw (d : Double) (truncate : Bool) : Double :=
  let i : Int :=
    if cd.isNan d then INT32_MIN
    else if cd.le (cd.ofInt 2147483647) d then 2147483647
    else if cd.le d (cd.ofInt INT32_MIN) then INT32_MIN
    else if truncate then cd.toInt d
    else cd.toInt (cd.nearbyint d)
  0xFFF8000000000000#64 ||| (BitVec.ofInt 32 i).setWidth 64

/-! Quantized loads and stores. -/

def psq_sscale (six : Word) : Int :=
  let v : Int := (six &&& 63#32).toNat
  if v > 31 then v - 64 else v

/-- `2^k` from its bits: the biased exponent alone. -/
def psq_pow2 (k : Int) : Double :=
  BitVec.ofInt 64 (1023 + k) <<< 52

/-- One quantized element, and its size. -/
def psq_load1 (s : CpuState ρ) (ea type : Word) (deq : Double) : (Double × Word) × CpuState ρ :=
  if type = 4 then
    let (v, s) := mem_r8 rt s ea
    ((cd.mul (cd.ofInt v.toNat) deq, 1), s)
  else if type = 5 then
    let (v, s) := mem_r16 rt s ea
    ((cd.mul (cd.ofInt v.toNat) deq, 2), s)
  else if type = 6 then
    let (v, s) := mem_r8 rt s ea
    ((cd.mul (cd.ofInt v.toInt) deq, 1), s)
  else if type = 7 then
    let (v, s) := mem_r16 rt s ea
    ((cd.mul (cd.ofInt v.toInt) deq, 2), s)
  else
    let (v, s) := mem_r32 rt s ea
    ((cd.ofFloat v, 4), s)

def psq_load (s : CpuState ρ) (frd : Int) (ea : Word) (gqr : Int) (w : Nat) : CpuState ρ :=
  let g := s.gqr gqr
  let type := (g >>> 16) &&& 7#32
  let single := fun v => cd.ofFloat (cd.toFloat v)
  if type.toNat < 4 then
    let (v0, s) := mem_r32 rt s ea
    let (v1, s) :=
      if w ≠ 0 then (cd.ofInt 1, s)
      else
        let (v, s) := mem_r32 rt s (ea + 4)
        (cd.ofFloat v, s)
    s.setFpr frd (single (cd.ofFloat v0)) (single v1)
  else
    let deq := psq_pow2 (-psq_sscale (g >>> 24))
    let ((v0, size), s) := psq_load1 rt cd s ea type deq
    let (v1, s) :=
      if w ≠ 0 then (cd.ofInt 1, s)
      else
        let ((v, _), s) := psq_load1 rt cd s (ea + size) type deq
        (v, s)
    s.setFpr frd (single v0) (single v1)

/-- Truncates toward zero and saturates. -/
def psq_clamp (q : Double) (lo hi : Int) : Int :=
  if cd.isNan q then 0
  else
    let q := if cd.lt q (cd.ofInt lo) then cd.ofInt lo else q
    let q := if cd.lt (cd.ofInt hi) q then cd.ofInt hi else q
    cd.toInt q

def psq_store1 (s : CpuState ρ) (ea type : Word) (quant v : Double) : Word × CpuState ρ :=
  let q := cd.mul v quant
  if type = 4 then (1, mem_w8 rt s ea (BitVec.ofInt 8 (psq_clamp cd q 0 255)))
  else if type = 5 then (2, mem_w16 rt s ea (BitVec.ofInt 16 (psq_clamp cd q 0 65535)))
  else if type = 6 then (1, mem_w8 rt s ea (BitVec.ofInt 8 (psq_clamp cd q (-128) 127)))
  else if type = 7 then (2, mem_w16 rt s ea (BitVec.ofInt 16 (psq_clamp cd q (-32768) 32767)))
  else (4, mem_w32 rt s ea (cd.toFloat v))

def psq_store (s : CpuState ρ) (frs : Int) (ea : Word) (gqr : Int) (w : Nat) : CpuState ρ :=
  let g := s.gqr gqr
  let type := g &&& 7#32
  if type.toNat < 4 then
    let s := mem_w32 rt s ea (cd.toFloat (s.fpr frs).1)
    if w = 0 then mem_w32 rt s (ea + 4) (cd.toFloat (s.fpr frs).2) else s
  else
    let quant := psq_pow2 (psq_sscale (g >>> 8))
    let (size, s) := psq_store1 rt cd s ea type quant (s.fpr frs).1
    if w = 0 then (psq_store1 rt cd s (ea + size) type quant (s.fpr frs).2).2 else s

def FSimple.exec (t : Word) (s : CpuState ρ) : FSimple → CpuState ρ
  | load_f32 rd ea =>
      let (a, s) := ea.eval rt t s
      let (v, s) := mem_r32 rt s a
      s.setFpr rd (cd.ofFloat v) (cd.ofFloat v)
  | load_f64 rd ea =>
      let (a, s) := ea.eval rt t s
      let (v, s) := mem_r64 m64 s a
      s.setPs0 rd v
  | mem_wf32 ea e =>
      let (a, s) := ea.eval rt t s
      mem_w32 rt s a (cd.toFloat (e.eval cd s))
  | mem_wf64 ea e =>
      let (a, s) := ea.eval rt t s
      mem_w64 rt m64 s a (e.eval cd s)
  | store_bits ea n =>
      let (a, s) := ea.eval rt t s
      mem_w32 rt s a ((s.fpr n).1.setWidth 32)
  | set_ps0 rd e => s.setPs0 rd (e.eval cd s)
  | set_single rd e =>
      let v := FExpr.eval cd s (.round e)
      s.setFpr rd v v
  | set_pair rd e0 e1 => s.setFpr rd (FExpr.eval cd s (.round e0)) (FExpr.eval cd s (.round e1))
  | set_fctiw rd e truncate => s.setPs0 rd (ppc_fctiw cd (e.eval cd s) truncate)
  | set_fpscr_bits rd => s.setPs0 rd (s.fpscr.setWidth 64)
  | cr_fcmp f a b => Recomp.cr_fcmp cd s f (a.eval cd s) (b.eval cd s)
  | fpscr_fields mask rb =>
      let mask := BitVec.ofNat 32 mask
      { s with fpscr := (s.fpscr &&& ~~~mask) ||| ((s.fpr rb).1.setWidth 32 &&& mask) }
  | fpscr_clear bit => { s with fpscr := s.fpscr &&& ~~~(1#32 <<< bit) }
  | fpscr_set bit => { s with fpscr := s.fpscr ||| (1#32 <<< bit) }
  | psq_load rd ea gqr w =>
      let (a, s) := ea.eval rt t s
      Recomp.psq_load rt cd s rd a gqr w
  | psq_store rs ea gqr w =>
      let (a, s) := ea.eval rt t s
      Recomp.psq_store rt cd s rs a gqr w
  | cr1_fpscr => Recomp.cr_set_field s 1 ((s.fpscr >>> 28) &&& 0xF#32)
  | set_gpr n e =>
      let (v, s) := e.eval rt t s
      s.setGpr n v

def FStmt.exec (s : CpuState ρ) : FStmt → CpuState ρ
  | simple x => x.exec rt cd m64 0 s
  | block e body =>
      let (t, s) := e.eval rt 0 s
      body.foldl (fun s x => x.exec rt cd m64 t s) s

/-- The statements behind `float`, run in order. -/
def float_code : FloatCode ρ :=
  fun i s => (_translate_float i).foldl (fun s x => x.exec rt cd m64 s) s

end SoaPort.Recomp
