import SoaPort.Recomp.FunctionC
import SoaPort.Recomp.Helpers

namespace SoaPort.Recomp

open SoaPort.Ppc

/-! Control flow of the guest: where an instruction sends control, as the
architecture defines the branches. -/

inductive Control where
  | fall
  | jump (t : Nat)
  | ret
  | call (t : Nat)
  | call_at (t : Word)
  deriving DecidableEq, Repr

namespace Guest

variable {ρ : Type}

/-- Bit `n` of a BO field, numbered from its most significant. -/
def boBit (bo n : Nat) : Bool := bo.testBit (4 - n)

/-- BO[2] set leaves CTR alone. -/
def decrement (bo : Nat) (s : CpuState ρ) : CpuState ρ :=
  if boBit bo 2 then s else { s with ctr := s.ctr - 1 }

/-- `ctr_ok ∧ cond_ok`, after the decrement: BO[3] asks for CTR = 0, BO[0]
ignores the condition and BO[1] is the value it must have. -/
def taken (bo bi : Nat) (s : CpuState ρ) : Bool :=
  (boBit bo 2 || ((s.ctr != 0) ^^ boBit bo 3)) &&
    (boBit bo 0 || (s.cr.getMsbD bi == boBit bo 1))

/-- Where the instruction sends control from state `s`. Nothing is specified
for a word that is no instruction, for `bcctr` with BO[2] clear (an invalid
form), or for a `bcctr` taken to where no resolved table leads. -/
def control (tables : Nat → Option (List Nat)) (i : Insn) (s : CpuState ρ) : Option Control :=
  let direct := if i.lk_bit then .call (i.target.getD 0) else .jump (i.target.getD 0)
  if ¬ i.valid then none
  else
    match i.mnemonic with
    | .b => some direct
    | .bc => some (if taken i.bo i.bi (decrement i.bo s) then direct else .fall)
    | .bclr =>
        some (if taken i.bo i.bi (decrement i.bo s) then
          if i.lk_bit then .call_at s.lr else .ret
        else .fall)
    | .bcctr =>
        if ¬ boBit i.bo 2 then none
        else if ¬ taken i.bo i.bi s then some .fall
        else if i.lk_bit then some (.call_at s.ctr)
        else if s.ctr.toNat ∈ (tables i.addr).getD [] then some (.jump s.ctr.toNat)
        else none
    | .rfi => some .ret
    | _ => some .fall

end Guest

section Simulation

variable {ρ : Type} (rt : Runtime ρ) (fc : FloatCode ρ) (em : Emitter) (fn : Ppc.Function)

/-- The state in which the instruction leaves control: CTR counted down by a
branch that does so, and the data effect of any other instruction. -/
def effect (i : Insn) (s : CpuState ρ) : CpuState ρ :=
  match i.mnemonic with
  | .b | .rfi => s
  | .bc | .bclr => Guest.decrement i.bo s
  | .bcctr =>
      if i.lk_bit || (em.tables i.addr).isSome then s
      else rt.guest_unimplemented s (BitVec.ofNat 32 i.addr)
  | _ => (execStmts rt fc ((em.enter fn)._translate i (· ∈ Emitter.addrs fn)) s).1

/-- Control passes from the instruction at `pc` to an address of the function,
or out of it. A taken branch reaches an emitted target inside; any other
target is a known function, run to its return, or a trap. -/
inductive Transfer (pc : Nat) (s : CpuState ρ) : Control → Option Nat → CpuState ρ → Prop where
  | fall : Transfer pc s .fall (some (pc + 4)) s
  | goto {t : Nat} (inside : t ∈ Emitter.addrs fn) : Transfer pc s (.jump t) (some t) s
  | goto_polled {t : Nat} (inside : t ∈ Emitter.addrs fn) :
      Transfer pc s (.jump t) (some t) (rt.irq_poll s)
  | tail_call {t : Nat} (outside : t ∉ Emitter.addrs fn) (known : em.functions t = true) :
      Transfer pc s (.jump t) none (rt.fn t s)
  | trap {t : Nat} (outside : t ∉ Emitter.addrs fn) (unknown : em.functions t = false) :
      Transfer pc s (.jump t) none (rt.guest_trap s (BitVec.ofNat 32 pc))
  | ret : Transfer pc s .ret none s
  | call {t : Nat} (known : em.functions t = true) :
      Transfer pc s (.call t) (some (pc + 4))
        (rt.fn t { s with lr := BitVec.ofNat 32 (pc + 4) })
  | call_unknown {t : Nat} (unknown : em.functions t = false) :
      Transfer pc s (.call t) (some (pc + 4))
        (rt.dispatch { s with lr := BitVec.ofNat 32 (pc + 4) } (BitVec.ofNat 32 t))
  | call_at {t : Word} :
      Transfer pc s (.call_at t) (some (pc + 4))
        (rt.dispatch { s with lr := BitVec.ofNat 32 (pc + 4) } t)

/-- The C program stands where the guest does: at the chunk of the same
address, or out of the function. -/
def Stands (body : List Chunk) : Option Nat → CpuState ρ → Config ρ → Prop
  | some a, s, .at place s' => s' = s ∧ place <:+ body ∧ place.head?.map (·.addr) = some a
  | none, s, .done s' => s' = s
  | _, _, _ => False

/-- The state an instruction starts in: its chunk's head has run. -/
def Chunk.enter (c : Chunk) (s : CpuState ρ) : CpuState ρ := (execStmts rt fc c.head s).1

/-- The addresses the guest passes from the function's entry, and the states
in which it reaches them; `none` once it has left the function. -/
inductive GuestRun (body : List Chunk) (s₀ : CpuState ρ) : Nat → Option Nat → CpuState ρ → Prop
  where
  | start : GuestRun body s₀ 0 (some fn.entry) s₀
  | step {n : Nat} {c : Chunk} {i : Insn} {ctl : Control} {next : Option Nat}
      {s s' : CpuState ρ} (run : GuestRun body s₀ n (some c.addr) s) (emitted : c ∈ body)
      (decoded : em.code c.addr = some i)
      (specified : Guest.control em.tables i (c.enter rt fc s) = some ctl)
      (moved : Transfer rt em fn c.addr (effect rt fc em fn i (c.enter rt fc s)) ctl next s') :
      GuestRun body s₀ (n + 1) next s'

/-- One chunk does what its instruction says. -/
def StepFollows (body : List Chunk) : Prop :=
  ∀ (c : Chunk) (place : List Chunk), c :: place <:+ body →
    ∀ (i : Insn) (s : CpuState ρ) (ctl : Control), em.code c.addr = some i →
      Guest.control em.tables i (c.enter rt fc s) = some ctl →
        ∃ next s', Transfer rt em fn c.addr (effect rt fc em fn i (c.enter rt fc s)) ctl next s' ∧
          Stands body next s' (c_step rt fc body (c :: place) s)

/-- How far a run of the body has followed the guest after `n` chunks: it
stands where the guest does, or has left the function as the guest has, or
the guest met an instruction that says nothing about control. -/
def RunFollows (body : List Chunk) (s₀ : CpuState ρ) (n : Nat) : Prop :=
  (∃ next s, GuestRun rt fc em fn body s₀ n next s ∧
      Stands body next s (c_run rt fc body n (.at body s₀))) ∨
    (∃ m < n, ∃ s, GuestRun rt fc em fn body s₀ m none s ∧
      c_run rt fc body n (.at body s₀) = .done s) ∨
    ∃ m < n, ∃ c ∈ body, ∃ i s, GuestRun rt fc em fn body s₀ m (some c.addr) s ∧
      em.code c.addr = some i ∧ Guest.control em.tables i (c.enter rt fc s) = none

end Simulation

/-- The C body of `fn` follows the guest: it is written, its first chunk is the
one of the entry, every chunk leaves control where its instruction sends it,
and so does every run from the start. -/
def Simulates (em : Emitter) (fn : Ppc.Function) : Prop :=
  ∃ body, em.function_c fn = some body ∧
    body.head?.map (·.addr) = some fn.entry ∧
    ∀ (ρ : Type) (rt : Runtime ρ) (fc : FloatCode ρ),
      StepFollows rt fc em fn body ∧ ∀ s₀ n, RunFollows rt fc em fn body s₀ n

/-- The instructions control can pass to the next address. -/
def falls_on (i : Insn) : Bool :=
  i.valid &&
    match i.mnemonic with
    | .b => i.lk_bit
    | .bc | .bclr => i.lk_bit || !i.is_unconditional
    | .bcctr => Guest.boBit i.bo 2 && (i.lk_bit || !Guest.boBit i.bo 0)
    | .rfi => false
    | _ => true

/-- The layout on which the body follows the guest: every emitted address
holds an instruction, the entry is the lowest of them, an instruction that can
pass control on is followed by the one at the next address, and no switch
dispatches on a condition. -/
structure LaidOut (em : Emitter) (fn : Ppc.Function) : Prop where
  decoded : ∀ a ∈ Emitter.addrs fn, (em.code a).isSome
  entry : (Emitter.addrs fn).head? = some fn.entry
  falls : ∀ a ∈ Emitter.addrs fn, ∀ i, em.code a = some i → falls_on i = true →
    a + 4 ∈ Emitter.addrs fn
  switches : ∀ a ∈ Emitter.addrs fn, ∀ i, em.code a = some i → i.valid = true →
    i.mnemonic = .bcctr → i.lk_bit = false → (em.tables a).isSome → Guest.boBit i.bo 2 = true →
      Guest.boBit i.bo 0 = true

end SoaPort.Recomp
