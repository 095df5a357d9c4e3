import SoaPort.Ppc.Decode
import SoaPort.Recomp.Cpu

namespace SoaPort.Recomp

open SoaPort.Ppc

/-! The C the emitter writes: the expressions and statements of its string
templates, and what each does to the guest state. -/

/-- The assignable parts of the state. -/
inductive LVal where
  | gpr (n : Int)
  | xer | lr | ctr | cr | msr | hid2 | wpar
  | gqr (n : Int)
  | spr (n : Int)
  | sr (n : Int)
  deriving DecidableEq, Repr

/-- Helpers of `cpu.h` that take one value. -/
inductive Fn1 where
  | ppc_addze | ppc_subfze | ppc_addme | ppc_subfme | ppc_cntlzw
  | int8 | int16 | bswap16 | bswap32
  deriving DecidableEq, Repr

/-- Helpers of `cpu.h` and C operators that take two values. -/
inductive Fn2 where
  | ppc_addc | ppc_adde | ppc_subfc | ppc_subfe
  | ppc_mulhw | ppc_mulhwu | ppc_divw | ppc_divwu
  | ppc_slw | ppc_srw | ppc_sraw | ppc_srawi | rotl32
  | add | sub | mul | and | or | xor | shr
  deriving DecidableEq, Repr

inductive Expr where
  | u32 (v : Int)
  | lval (l : LVal)
  /-- The block's local variable. -/
  | tmp
  | not (a : Expr)
  | call1 (f : Fn1) (a : Expr)
  | call2 (f : Fn2) (a b : Expr)
  | mem_r8 (e : Expr)
  | mem_r16 (e : Expr)
  | mem_r32 (e : Expr)
  | cr_get_field (f : Nat)
  | dec_read
  | guest_timebase_lo
  | guest_timebase_hi
  deriving DecidableEq, Repr

/-- The condition-register logical operators, over the ints `cr_bit` returns. -/
inductive CrOp where
  | crand | crandc | cror | crorc | crxor | crnand | crnor | creqv
  deriving DecidableEq, Repr

/-- Statements that hold no others. -/
inductive Simple where
  | assign (l : LVal) (e : Expr)
  | CR0_RC (e : Expr)
  | cr_cmp_s (f : Nat) (a b : Expr)
  | cr_cmp_u (f : Nat) (a b : Expr)
  | cr_set_field (f : Nat) (e : Expr)
  /-- `cr_set_bit(s, bo, (a OP b) & 1)` over two CR bits. -/
  | cr_set_bit (bo : Nat) (op : CrOp) (bi rb : Nat)
  | mem_w8 (ea v : Expr)
  | mem_w16 (ea v : Expr)
  | mem_w32 (ea v : Expr)
  | ppc_lmw (rd : Int) (ea : Expr)
  | ppc_stmw (rs : Int) (ea : Expr)
  | mem_zero32 (ea : Expr)
  | dec_write (e : Expr)
  /-- `cr_set_field(s, 0, 2u | SO)`. -/
  | stwcx_cr
  | setPc (a : Nat)
  | ctr_dec
  | goto (a : Nat)
  | ret
  | call (a : Nat)
  | dispatch (e : Expr)
  /-- `{ uint32_t t = s->lr; s->lr = nxt; dispatch(s, t); }`. -/
  | dispatch_lr (nxt : Nat)
  | irq_poll
  | guest_trap (a : Nat)
  | guest_syscall (a : Nat)
  | guest_unimplemented (a : Nat)
  | hook (a : Nat)
  | trace_hit (a : Nat)
  /-- The floating-point statements of one instruction. -/
  | float (i : Insn)
  deriving DecidableEq, Repr

/-- One conjunct of a branch condition. -/
inductive CondPart where
  | cr_bit_eq (bi want : Nat)
  | ctr_eq_zero
  | ctr_ne_zero
  deriving DecidableEq, Repr

inductive Stmt where
  | simple (x : Simple)
  /-- `{ uint32_t ea = e; body }`. -/
  | block (e : Expr) (body : List Simple)
  | ite (cond : List CondPart) (body : List Simple)
  | switch_ctr (cases : List (Nat × List Simple)) (dflt : List Simple)
  /-- `if (setjmp(..) == 0) { body } else { guest_resumed(s); }`. -/
  | savepoint (body : List Simple)
  deriving DecidableEq, Repr

/-- Where control goes after a statement. -/
inductive Flow where
  | next
  | goto (a : Nat)
  | ret
  deriving DecidableEq, Repr

variable {ρ : Type}

namespace LVal

def get (s : CpuState ρ) : LVal → Word
  | gpr n => s.gpr n
  | xer => s.xer
  | lr => s.lr
  | ctr => s.ctr
  | cr => s.cr
  | msr => s.msr
  | hid2 => s.hid2
  | wpar => s.wpar
  | gqr n => s.gqr n
  | spr n => s.spr n
  | sr n => s.sr n

def set (s : CpuState ρ) (v : Word) : LVal → CpuState ρ
  | gpr n => s.setGpr n v
  | xer => { s with xer := v }
  | lr => { s with lr := v }
  | ctr => { s with ctr := v }
  | cr => { s with cr := v }
  | msr => { s with msr := v }
  | hid2 => { s with hid2 := v }
  | wpar => { s with wpar := v }
  | gqr n => { s with gqr := Function.update s.gqr n v }
  | spr n => { s with spr := Function.update s.spr n v }
  | sr n => { s with sr := Function.update s.sr n v }

end LVal

namespace Fn1

def eval (s : CpuState ρ) (a : Word) : Fn1 → Word × CpuState ρ
  | ppc_addze => Recomp.ppc_addze s a
  | ppc_subfze => Recomp.ppc_subfze s a
  | ppc_addme => Recomp.ppc_addme s a
  | ppc_subfme => Recomp.ppc_subfme s a
  | ppc_cntlzw => (Recomp.ppc_cntlzw a, s)
  | int8 => ((a.setWidth 8).signExtend 32, s)
  | int16 => ((a.setWidth 16).signExtend 32, s)
  | bswap16 => ((BSWAP16 (a.setWidth 16)).setWidth 32, s)
  | bswap32 => (BSWAP32 a, s)

end Fn1

namespace Fn2

def eval (s : CpuState ρ) (a b : Word) : Fn2 → Word × CpuState ρ
  | ppc_addc => Recomp.ppc_addc s a b
  | ppc_adde => Recomp.ppc_adde s a b
  | ppc_subfc => Recomp.ppc_subfc s a b
  | ppc_subfe => Recomp.ppc_subfe s a b
  | ppc_mulhw => (Recomp.ppc_mulhw a b, s)
  | ppc_mulhwu => (Recomp.ppc_mulhwu a b, s)
  | ppc_divw => (Recomp.ppc_divw a b, s)
  | ppc_divwu => (Recomp.ppc_divwu a b, s)
  | ppc_slw => (Recomp.ppc_slw a b, s)
  | ppc_srw => (Recomp.ppc_srw a b, s)
  | ppc_sraw => Recomp.ppc_sraw s a b
  | ppc_srawi => Recomp.ppc_srawi s a b.toNat
  | rotl32 => (Recomp.rotl32 a b, s)
  | add => (a + b, s)
  | sub => (a - b, s)
  | mul => (a * b, s)
  | and => (a &&& b, s)
  | or => (a ||| b, s)
  | xor => (a ^^^ b, s)
  | shr => (a >>> b.toNat, s)

end Fn2

/-- The value of an expression, with the effects of its helpers. `t` is the
block's local variable. -/
def Expr.eval (rt : Runtime ρ) (t : Word) : Expr → CpuState ρ → Word × CpuState ρ
  | .u32 v, s => (BitVec.ofInt 32 v, s)
  | .lval l, s => (l.get s, s)
  | .tmp, s => (t, s)
  | .not a, s =>
      let (x, s) := a.eval rt t s
      (~~~x, s)
  | .call1 f a, s =>
      let (x, s) := a.eval rt t s
      f.eval s x
  | .call2 f a b, s =>
      let (x, s) := a.eval rt t s
      let (y, s) := b.eval rt t s
      f.eval s x y
  | .mem_r8 e, s =>
      let (a, s) := e.eval rt t s
      let (v, s) := Recomp.mem_r8 rt s a
      (v.setWidth 32, s)
  | .mem_r16 e, s =>
      let (a, s) := e.eval rt t s
      let (v, s) := Recomp.mem_r16 rt s a
      (v.setWidth 32, s)
  | .mem_r32 e, s =>
      let (a, s) := e.eval rt t s
      Recomp.mem_r32 rt s a
  | .cr_get_field f, s => (Recomp.cr_get_field s f, s)
  | .dec_read, s => rt.dec_read s
  | .guest_timebase_lo, s => rt.guest_timebase_lo s
  | .guest_timebase_hi, s => rt.guest_timebase_hi s

/-- C's `!`. -/
def lnot (a : Nat) : Nat :=
  if a = 0 then 1 else 0

def CrOp.eval (a b : Nat) : CrOp → Nat
  | crand => a &&& b
  | crandc => a &&& lnot b
  | cror => a ||| b
  | crorc => a ||| lnot b
  | crxor => a ^^^ b
  | crnand => lnot (a &&& b)
  | crnor => lnot (a ||| b)
  | creqv => lnot (a ^^^ b)

/-- What the floating-point statements of an instruction do: the part of the
C not embedded here. -/
abbrev FloatCode (ρ : Type) := Insn → CpuState ρ → CpuState ρ

def Simple.exec (rt : Runtime ρ) (fc : FloatCode ρ) (t : Word) (s : CpuState ρ) :
    Simple → CpuState ρ × Flow
  | assign l e =>
      let (v, s) := e.eval rt t s
      (l.set s v, .next)
  | CR0_RC e =>
      let (v, s) := e.eval rt t s
      (Recomp.CR0_RC s v, .next)
  | cr_cmp_s f a b =>
      let (x, s) := a.eval rt t s
      let (y, s) := b.eval rt t s
      (Recomp.cr_cmp_s s f x y, .next)
  | cr_cmp_u f a b =>
      let (x, s) := a.eval rt t s
      let (y, s) := b.eval rt t s
      (Recomp.cr_cmp_u s f x y, .next)
  | cr_set_field f e =>
      let (v, s) := e.eval rt t s
      (Recomp.cr_set_field s f v, .next)
  | cr_set_bit bo op bi rb =>
      (Recomp.cr_set_bit s bo (op.eval (cr_bit s bi) (cr_bit s rb) &&& 1), .next)
  | mem_w8 ea v =>
      let (a, s) := ea.eval rt t s
      let (x, s) := v.eval rt t s
      (Recomp.mem_w8 rt s a (x.setWidth 8), .next)
  | mem_w16 ea v =>
      let (a, s) := ea.eval rt t s
      let (x, s) := v.eval rt t s
      (Recomp.mem_w16 rt s a (x.setWidth 16), .next)
  | mem_w32 ea v =>
      let (a, s) := ea.eval rt t s
      let (x, s) := v.eval rt t s
      (Recomp.mem_w32 rt s a x, .next)
  | ppc_lmw rd ea =>
      let (a, s) := ea.eval rt t s
      (Recomp.ppc_lmw rt s rd a, .next)
  | ppc_stmw rs ea =>
      let (a, s) := ea.eval rt t s
      (Recomp.ppc_stmw rt s rs a, .next)
  | mem_zero32 ea =>
      let (a, s) := ea.eval rt t s
      (Recomp.mem_zero32 s a, .next)
  | dec_write e =>
      let (v, s) := e.eval rt t s
      (rt.dec_write s v, .next)
  | stwcx_cr =>
      (Recomp.cr_set_field s 0 (2#32 ||| (if s.xer &&& XER_SO ≠ 0 then 1#32 else 0#32)), .next)
  | setPc a => ({ s with pc := BitVec.ofNat 32 a }, .next)
  | ctr_dec => ({ s with ctr := s.ctr - 1 }, .next)
  | goto a => (s, .goto a)
  | ret => (s, .ret)
  | call a => (rt.fn a s, .next)
  | dispatch e =>
      let (a, s) := e.eval rt t s
      (rt.dispatch s a, .next)
  | dispatch_lr nxt => (rt.dispatch { s with lr := BitVec.ofNat 32 nxt } s.lr, .next)
  | irq_poll => (rt.irq_poll s, .next)
  | guest_trap a => (rt.guest_trap s (BitVec.ofNat 32 a), .next)
  | guest_syscall a => (rt.guest_syscall s (BitVec.ofNat 32 a), .next)
  | guest_unimplemented a => (rt.guest_unimplemented s (BitVec.ofNat 32 a), .next)
  | hook a => (rt.hook a s, .next)
  | trace_hit a => (rt.trace_hit a s, .next)
  | float i => (fc i s, .next)

/-- A statement list runs until one of them transfers control. -/
def execSimples (rt : Runtime ρ) (fc : FloatCode ρ) (t : Word) :
    List Simple → CpuState ρ → CpuState ρ × Flow
  | [], s => (s, .next)
  | x :: xs, s =>
      match x.exec rt fc t s with
      | (s, .next) => execSimples rt fc t xs s
      | (s, f) => (s, f)

def CondPart.holds (s : CpuState ρ) : CondPart → Bool
  | cr_bit_eq bi want => cr_bit s bi = want
  | ctr_eq_zero => s.ctr = 0
  | ctr_ne_zero => s.ctr ≠ 0

def Stmt.exec (rt : Runtime ρ) (fc : FloatCode ρ) (s : CpuState ρ) :
    Stmt → CpuState ρ × Flow
  | simple x => x.exec rt fc 0 s
  | block e body =>
      let (t, s) := e.eval rt 0 s
      execSimples rt fc t body s
  | ite cond body =>
      if cond.all (·.holds s) then execSimples rt fc 0 body s else (s, .next)
  | switch_ctr cases dflt =>
      match cases.find? (fun c => BitVec.ofNat 32 c.1 = s.ctr) with
      | some c => execSimples rt fc 0 c.2 s
      | none => execSimples rt fc 0 dflt s
  | savepoint body => execSimples rt fc 0 body s

def execStmts (rt : Runtime ρ) (fc : FloatCode ρ) :
    List Stmt → CpuState ρ → CpuState ρ × Flow
  | [], s => (s, .next)
  | x :: xs, s =>
      match x.exec rt fc s with
      | (s, .next) => execStmts rt fc xs s
      | (s, f) => (s, f)

end SoaPort.Recomp
