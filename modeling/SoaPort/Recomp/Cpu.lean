import Mathlib.Logic.Function.Basic

namespace SoaPort.Recomp

/-! Guest CPU state and memory access for the recompiled program, as the
generated C sees them. -/

abbrev Word := BitVec 32

/-- What `mem_ptr` narrows an address to: 32 MB. -/
def MEM_MASK : Word := 0x01FFFFFF#32

/-- Floating-point registers are kept as bit patterns, `(ps0, ps1)`. `user` is
the runtime's own state, devices included. -/
structure CpuState (ρ : Type) where
  gpr : Int → Word
  fpr : Int → BitVec 64 × BitVec 64
  cr : Word
  xer : Word
  lr : Word
  ctr : Word
  fpscr : Word
  msr : Word
  pc : Word
  gqr : Int → Word
  hid2 : Word
  wpar : Word
  spr : Int → Word
  sr : Int → Word
  mem : Nat → BitVec 8
  user : ρ

/-- What the runtime provides to the generated code: device models, the time
base and the decrementer, traps, interrupt polling, hooks, and the bodies of
the functions it calls. -/
structure Runtime (ρ : Type) where
  mmio_read8 : CpuState ρ → Word → BitVec 8 × CpuState ρ
  mmio_read16 : CpuState ρ → Word → BitVec 16 × CpuState ρ
  mmio_read32 : CpuState ρ → Word → BitVec 32 × CpuState ρ
  mmio_write8 : CpuState ρ → Word → BitVec 8 → CpuState ρ
  mmio_write16 : CpuState ρ → Word → BitVec 16 → CpuState ρ
  mmio_write32 : CpuState ρ → Word → BitVec 32 → CpuState ρ
  gx_pipe_write : CpuState ρ → Nat → BitVec 64 → CpuState ρ
  guest_timebase_lo : CpuState ρ → Word × CpuState ρ
  guest_timebase_hi : CpuState ρ → Word × CpuState ρ
  dec_read : CpuState ρ → Word × CpuState ρ
  dec_write : CpuState ρ → Word → CpuState ρ
  guest_syscall : CpuState ρ → Word → CpuState ρ
  guest_trap : CpuState ρ → Word → CpuState ρ
  guest_unimplemented : CpuState ρ → Word → CpuState ρ
  irq_poll : CpuState ρ → CpuState ρ
  hook : Nat → CpuState ρ → CpuState ρ
  trace_hit : Nat → CpuState ρ → CpuState ρ
  /-- The C function `fn_X` for the guest function at `X`, run to its return. -/
  fn : Nat → CpuState ρ → CpuState ρ
  dispatch : CpuState ρ → Word → CpuState ρ

namespace CpuState

variable {ρ : Type}

def setGpr (s : CpuState ρ) (n : Int) (v : Word) : CpuState ρ :=
  { s with gpr := Function.update s.gpr n v }

end CpuState

variable {ρ : Type}

/-! Memory. The image is in console byte order and the host is little-endian,
so every access copies host words and swaps them. -/

def BSWAP16 (x : BitVec 16) : BitVec 16 :=
  x.extractLsb' 0 8 ++ x.extractLsb' 8 8

def BSWAP32 (x : BitVec 32) : BitVec 32 :=
  x.extractLsb' 0 8 ++ x.extractLsb' 8 8 ++ x.extractLsb' 16 8 ++ x.extractLsb' 24 8

def memcpy_r16 (mem : Nat → BitVec 8) (p : Nat) : BitVec 16 :=
  mem (p + 1) ++ mem p

def memcpy_r32 (mem : Nat → BitVec 8) (p : Nat) : BitVec 32 :=
  mem (p + 3) ++ mem (p + 2) ++ mem (p + 1) ++ mem p

def memcpy_w16 (mem : Nat → BitVec 8) (p : Nat) (v : BitVec 16) : Nat → BitVec 8 :=
  Function.update (Function.update mem p (v.extractLsb' 0 8)) (p + 1) (v.extractLsb' 8 8)

def memcpy_w32 (mem : Nat → BitVec 8) (p : Nat) (v : BitVec 32) : Nat → BitVec 8 :=
  Function.update
    (Function.update
      (Function.update
        (Function.update mem p (v.extractLsb' 0 8)) (p + 1) (v.extractLsb' 8 8))
      (p + 2) (v.extractLsb' 16 8))
    (p + 3) (v.extractLsb' 24 8)

def is_mmio (ea : Word) : Bool :=
  let hi := ea >>> 24
  hi = 0xCC#32 || hi = 0xE0#32

def is_gather_pipe (ea : Word) : Bool :=
  (ea &&& 0xFFFFFF00#32) = 0xCC008000#32

/-- The offset of `ea` in the memory image. -/
def mem_ptr (ea : Word) : Nat :=
  (ea &&& MEM_MASK).toNat

def mem_r8 (rt : Runtime ρ) (s : CpuState ρ) (ea : Word) : BitVec 8 × CpuState ρ :=
  if is_mmio ea then rt.mmio_read8 s ea
  else (s.mem (mem_ptr ea), s)

def mem_r16 (rt : Runtime ρ) (s : CpuState ρ) (ea : Word) : BitVec 16 × CpuState ρ :=
  if is_mmio ea then rt.mmio_read16 s ea
  else (BSWAP16 (memcpy_r16 s.mem (mem_ptr ea)), s)

def mem_r32 (rt : Runtime ρ) (s : CpuState ρ) (ea : Word) : BitVec 32 × CpuState ρ :=
  if is_mmio ea then rt.mmio_read32 s ea
  else (BSWAP32 (memcpy_r32 s.mem (mem_ptr ea)), s)

def mem_w8 (rt : Runtime ρ) (s : CpuState ρ) (ea : Word) (v : BitVec 8) : CpuState ρ :=
  if is_mmio ea then
    if is_gather_pipe ea then rt.gx_pipe_write s 1 (v.setWidth 64)
    else rt.mmio_write8 s ea v
  else { s with mem := Function.update s.mem (mem_ptr ea) v }

def mem_w16 (rt : Runtime ρ) (s : CpuState ρ) (ea : Word) (v : BitVec 16) : CpuState ρ :=
  if is_mmio ea then
    if is_gather_pipe ea then rt.gx_pipe_write s 2 (v.setWidth 64)
    else rt.mmio_write16 s ea v
  else { s with mem := memcpy_w16 s.mem (mem_ptr ea) (BSWAP16 v) }

def mem_w32 (rt : Runtime ρ) (s : CpuState ρ) (ea : Word) (v : BitVec 32) : CpuState ρ :=
  if is_mmio ea then
    if is_gather_pipe ea then rt.gx_pipe_write s 4 (v.setWidth 64)
    else rt.mmio_write32 s ea v
  else { s with mem := memcpy_w32 s.mem (mem_ptr ea) (BSWAP32 v) }

/-- dcbz: zero the 32-byte cache line. -/
def mem_zero32 (s : CpuState ρ) (ea : Word) : CpuState ρ :=
  if is_mmio ea then s
  else
    let p := mem_ptr (ea &&& ~~~31#32)
    { s with mem := fun a => if p ≤ a && a < p + 32 then 0 else s.mem a }

/-- The body of `ppc_lmw`'s loop, `n` registers from `r` up. -/
def lmw_loop (rt : Runtime ρ) : Nat → CpuState ρ → Int → Word → CpuState ρ
  | 0, s, _, _ => s
  | n + 1, s, r, ea =>
      let (v, s) := mem_r32 rt s ea
      lmw_loop rt n (s.setGpr r v) (r + 1) (ea + 4)

def ppc_lmw (rt : Runtime ρ) (s : CpuState ρ) (rd : Int) (ea : Word) : CpuState ρ :=
  lmw_loop rt (32 - rd).toNat s rd ea

def stmw_loop (rt : Runtime ρ) : Nat → CpuState ρ → Int → Word → CpuState ρ
  | 0, s, _, _ => s
  | n + 1, s, r, ea => stmw_loop rt n (mem_w32 rt s ea (s.gpr r)) (r + 1) (ea + 4)

def ppc_stmw (rt : Runtime ρ) (s : CpuState ρ) (rs : Int) (ea : Word) : CpuState ρ :=
  stmw_loop rt (32 - rs).toNat s rs ea

/-! Condition register. Field `f` occupies bits `28-4f .. 31-4f`. -/

def cr_get_field (s : CpuState ρ) (f : Nat) : Word :=
  (s.cr >>> (28 - 4 * f)) &&& 0xF#32

def cr_set_field (s : CpuState ρ) (f : Nat) (bits4 : Word) : CpuState ρ :=
  let sh := 28 - 4 * f
  { s with cr := (s.cr &&& ~~~(0xF#32 <<< sh)) ||| ((bits4 &&& 0xF#32) <<< sh) }

def cr_bit (s : CpuState ρ) (bi : Nat) : Nat :=
  ((s.cr >>> (31 - bi)) &&& 1#32).toNat

def cr_set_bit (s : CpuState ρ) (bi : Nat) (v : Nat) : CpuState ρ :=
  let m := 1#32 <<< (31 - bi)
  { s with cr := if v ≠ 0 then s.cr ||| m else s.cr &&& ~~~m }

def XER_SO : Word := 0x80000000#32

def XER_CA : Word := 0x20000000#32

def xer_ca (s : CpuState ρ) : Word :=
  (s.xer >>> 29) &&& 1#32

def xer_set_ca (s : CpuState ρ) (c : Word) : CpuState ρ :=
  { s with xer := if c ≠ 0 then s.xer ||| XER_CA else s.xer &&& ~~~XER_CA }

def cr_cmp_s (s : CpuState ρ) (f : Nat) (a b : Word) : CpuState ρ :=
  let c := if a.toInt < b.toInt then 8#32 else if a.toInt > b.toInt then 4#32 else 2#32
  cr_set_field s f (c ||| (if s.xer &&& XER_SO ≠ 0 then 1#32 else 0#32))

def cr_cmp_u (s : CpuState ρ) (f : Nat) (a b : Word) : CpuState ρ :=
  let c := if a.toNat < b.toNat then 8#32 else if a.toNat > b.toNat then 4#32 else 2#32
  cr_set_field s f (c ||| (if s.xer &&& XER_SO ≠ 0 then 1#32 else 0#32))

/-- Record forms compare the result against zero into CR0. -/
def CR0_RC (s : CpuState ρ) (v : Word) : CpuState ρ :=
  cr_cmp_s s 0 v 0

/-! Integer helpers. -/

def rotl32 (v n : Word) : Word :=
  let n := n &&& 31#32
  if n ≠ 0 then (v <<< n.toNat) ||| (v >>> (32#32 - n).toNat) else v

/-- The 64-bit sum of the carry-producing helpers: carry-out is bit 32. -/
def carry_out (s : CpuState ρ) (r : BitVec 64) : Word × CpuState ρ :=
  (r.setWidth 32, xer_set_ca s ((r >>> 32).setWidth 32))

def ppc_addc (s : CpuState ρ) (a b : Word) : Word × CpuState ρ :=
  carry_out s (a.setWidth 64 + b.setWidth 64)

def ppc_adde (s : CpuState ρ) (a b : Word) : Word × CpuState ρ :=
  carry_out s (a.setWidth 64 + b.setWidth 64 + (xer_ca s).setWidth 64)

/-- `b - a`. -/
def ppc_subfc (s : CpuState ρ) (a b : Word) : Word × CpuState ρ :=
  carry_out s ((~~~a).setWidth 64 + b.setWidth 64 + 1#64)

def ppc_subfe (s : CpuState ρ) (a b : Word) : Word × CpuState ρ :=
  carry_out s ((~~~a).setWidth 64 + b.setWidth 64 + (xer_ca s).setWidth 64)

def ppc_addze (s : CpuState ρ) (a : Word) : Word × CpuState ρ :=
  carry_out s (a.setWidth 64 + (xer_ca s).setWidth 64)

def ppc_subfze (s : CpuState ρ) (a : Word) : Word × CpuState ρ :=
  carry_out s ((~~~a).setWidth 64 + (xer_ca s).setWidth 64)

def ppc_addme (s : CpuState ρ) (a : Word) : Word × CpuState ρ :=
  carry_out s (a.setWidth 64 + (xer_ca s).setWidth 64 + 0xFFFFFFFF#64)

def ppc_subfme (s : CpuState ρ) (a : Word) : Word × CpuState ρ :=
  carry_out s ((~~~a).setWidth 64 + (xer_ca s).setWidth 64 + 0xFFFFFFFF#64)

def ppc_slw (v n : Word) : Word :=
  let n := n &&& 63#32
  if n.toNat < 32 then v <<< n.toNat else 0

def ppc_srw (v n : Word) : Word :=
  let n := n &&& 63#32
  if n.toNat < 32 then v >>> n.toNat else 0

/-- Arithmetic right shift; CA is set when a negative value lost set bits. -/
def ppc_srawi (s : CpuState ρ) (v : Word) (sh : Nat) : Word × CpuState ρ :=
  let lost := v.toInt < 0 && sh ≠ 0 && (v &&& ((1#32 <<< sh) - 1#32)) ≠ 0
  (v.sshiftRight sh, xer_set_ca s (if lost then 1 else 0))

def ppc_sraw (s : CpuState ρ) (v n : Word) : Word × CpuState ρ :=
  let n := n &&& 63#32
  if n.toNat ≥ 32 then
    (v.sshiftRight 31, xer_set_ca s (if v.toInt < 0 then 1 else 0))
  else ppc_srawi s v n.toNat

/-- The counting loop of `ppc_cntlzw`, given `fuel` shifts. -/
def cntlzw_loop : Nat → Word → Word → Word
  | 0, _, n => n
  | fuel + 1, v, n =>
      if v &&& 0x80000000#32 = 0 then cntlzw_loop fuel (v <<< 1) (n + 1) else n

def ppc_cntlzw (v : Word) : Word :=
  if v = 0 then 32 else cntlzw_loop 32 v 0

def ppc_mulhw (a b : Word) : Word :=
  ((a.signExtend 64 * b.signExtend 64).sshiftRight 32).setWidth 32

def ppc_mulhwu (a b : Word) : Word :=
  ((a.setWidth 64 * b.setWidth 64) >>> 32).setWidth 32

def INT32_MIN : Int := -2147483648

def ppc_divw (a b : Word) : Word :=
  let x := a.toInt
  let y := b.toInt
  if y = 0 ∨ (x = INT32_MIN ∧ y = -1) then
    if y = 0 ∧ x < 0 then 0xFFFFFFFF else 0
  else BitVec.ofInt 32 (x.tdiv y)

def ppc_divwu (a b : Word) : Word :=
  if b ≠ 0 then a / b else 0

end SoaPort.Recomp
