import Mathlib.Data.BitVec
import Mathlib.Data.List.FinRange
import Mathlib.Logic.Function.Basic

namespace SoaPort.Guest

/-! Guest threads on host fibers, and the delivery of interrupts on them. -/

abbrev Word := BitVec 32

def MAX_THREADS : Nat := 64

/-- The registers; `special` are those no context holds. -/
structure Regs where
  gpr : Fin 32 → Word
  fpr : Fin 32 → BitVec 64 × BitVec 64
  cr : Word
  xer : Word
  lr : Word
  ctr : Word
  fpscr : Word
  msr : Word
  pc : Word
  gqr : Fin 8 → Word
  special : Nat → Word

/-- A context in guest memory. -/
structure OSContext where
  gpr : Fin 32 → Word
  cr : Word
  lr : Word
  ctr : Word
  xer : Word
  fpr : Fin 32 → BitVec 64
  fpscr : Word
  srr0 : Word
  srr1 : Word
  gqr : Fin 8 → Word
  psf : Fin 32 → BitVec 64

structure GuestThread where
  ctx : Word
  fiber : Option Nat
  started : Bool
  jmp : Option Nat
  saved : Option Regs

/-- A host frame that something may jump or return to: a SelectThread that has
saved its context, a `deliver_pending`, and a `call_guest_handler` with the
registers it puts back. -/
inductive Frame where
  | savepoint (k : Nat)
  | pass
  | handler (d : Nat) (saved : Regs)

def Frame.saved : Frame → Option Nat
  | .savepoint k => some k
  | _ => none

def Frame.delivery : Frame → Option Nat
  | .handler d _ => some d
  | _ => none

/-- Where the guest last went on: a new thread's entry, or a savepoint. -/
inductive Now where
  | running
  | entry (pc : Word)
  | back (k : Nat)
  deriving DecidableEq

/-- The guest's registers and contexts, the thread table, the delivery in
progress, and each fiber's host stack, the newest frame first. -/
structure Machine where
  s : Regs
  contexts : Word → OSContext
  g_threads : Fin MAX_THREADS → GuestThread
  g_irq_jmp : Option Nat
  g_irq_ctx : Word
  g_in_handler : Int
  fiber : Nat
  stack : Nat → List Frame
  now : Now
  fibers : Nat
  saves : Nat
  deliveries : Nat
  /-- Of the deliveries, how many had begun when one was last abandoned. -/
  abandoned : Nat

/-- Nothing run yet: one fiber, an empty table. -/
def Machine.init (s : Regs) (contexts : Word → OSContext) : Machine where
  s := s
  contexts := contexts
  g_threads _ := ⟨0, none, false, none, none⟩
  g_irq_jmp := none
  g_irq_ctx := 0
  g_in_handler := 0
  fiber := 0
  stack _ := []
  now := .running
  fibers := 1
  saves := 0
  deliveries := 0
  abandoned := 0

def Machine.frames (m : Machine) : List Frame := m.stack m.fiber

def Machine.with_frames (m : Machine) (frames : List Frame) : Machine :=
  { m with stack := Function.update m.stack m.fiber frames }

def by_ctx (m : Machine) (ctx : Word) : Option (Fin MAX_THREADS) :=
  (List.finRange MAX_THREADS).find? fun i => (m.g_threads i).ctx = ctx

def by_fiber (m : Machine) (fiber : Nat) : Option (Fin MAX_THREADS) :=
  (List.finRange MAX_THREADS).find? fun i =>
    (m.g_threads i).ctx ≠ 0 && (m.g_threads i).fiber = some fiber

def Machine.with_thread (m : Machine) (i : Fin MAX_THREADS) (t : GuestThread) : Machine :=
  { m with g_threads := Function.update m.g_threads i t }

/-- A table entry for a context; none left, and the port exits. -/
def alloc (m : Machine) (ctx : Word) : Option (Fin MAX_THREADS × Machine) :=
  match (List.finRange MAX_THREADS).find? fun i => (m.g_threads i).ctx = 0 with
  | some i => some (i, m.with_thread i ⟨ctx, none, false, none, none⟩)
  | none => none

def find_or_alloc (m : Machine) (ctx : Word) : Option (Fin MAX_THREADS × Machine) :=
  match by_ctx m ctx with
  | some i => some (i, m)
  | none => alloc m ctx

/-- The context the registers make. -/
def context_of (s : Regs) : OSContext where
  gpr := s.gpr
  cr := s.cr
  lr := s.lr
  ctr := s.ctr
  xer := s.xer
  fpr i := (s.fpr i).1
  fpscr := s.fpscr
  srr0 := s.lr -- the return from OSSaveContext
  srr1 := s.msr
  gqr := s.gqr
  psf i := (s.fpr i).2

def ctx_write (m : Machine) (ctx : Word) : Machine :=
  { m with contexts := Function.update m.contexts ctx (context_of m.s) }

def ctx_read (m : Machine) (ctx : Word) : Machine :=
  let c := m.contexts ctx
  { m with
    s := { m.s with
      gpr := c.gpr
      cr := c.cr
      lr := c.lr
      ctr := c.ctr
      xer := c.xer
      fpr := fun i => (c.fpr i, c.psf i)
      fpscr := c.fpscr
      msr := c.srr1
      gqr := c.gqr } }

/-! Interrupts. -/

/-- A thread switch out of a handler discards the delivery in progress. -/
def irq_abandon_delivery (m : Machine) : Machine :=
  { m with g_in_handler := 0, g_irq_ctx := 0, abandoned := m.deliveries }

def regs_restore (s r : Regs) : Regs := { r with special := s.special }

/-- The end of `call_guest_handler`, the handler returned or jumped out of. -/
def end_delivery (m : Machine) (saved : Regs) (rest : List Frame) : Machine :=
  { m with
    s := regs_restore m.s saved
    g_in_handler := m.g_in_handler - 1
    g_irq_ctx := 0
    stack := Function.update m.stack m.fiber rest }

/-- A jump to the delivery's frame; none when it is not on the stack. -/
def irq_return_from_handler (m : Machine) : Option Machine :=
  match m.g_irq_jmp with
  | none => none
  | some d =>
      match m.frames.dropWhile fun f => f.delivery ≠ some d with
      | .handler _ saved :: rest => some (end_delivery m saved rest)
      | _ => none

/-- The start of a pass over what is pending, unless a handler runs. -/
def deliver_pending (m : Machine) : Machine :=
  if m.g_in_handler ≠ 0 then m else m.with_frames (.pass :: m.frames)

/-- A handler of a pass starts, `ctx` the current context. -/
def call_guest_handler (m : Machine) (number ctx : Word) : Option Machine :=
  match m.frames with
  | .pass :: _ =>
      some
        { m with
          s := { m.s with
            gpr := Function.update (Function.update m.s.gpr 3 number) 4 ctx
            msr := m.s.msr &&& ~~~0x8000 }
          g_irq_ctx := ctx
          g_in_handler := m.g_in_handler + 1
          g_irq_jmp := some m.deliveries
          deliveries := m.deliveries + 1
          stack := Function.update m.stack m.fiber (.handler m.deliveries m.s :: m.frames) }
  | _ => none

/-- The newest handler's `dispatch` returns. -/
def handler_returns (m : Machine) : Option Machine :=
  match m.frames with
  | .handler _ saved :: rest => some (end_delivery m saved rest)
  | _ => none

def pass_ends (m : Machine) : Option Machine :=
  match m.frames with
  | .pass :: rest => some (m.with_frames rest)
  | _ => none

/-! Switching threads. -/

/-- The call site's `setjmp` for the context in r3. -/
def guest_savepoint (m : Machine) : Option Machine :=
  match find_or_alloc m (m.s.gpr 3) with
  | none => none
  | some (i, m) =>
      let t := { m.g_threads i with fiber := some m.fiber, started := true, jmp := some m.saves }
      let m := m.with_thread i t
      some { m.with_frames (.savepoint m.saves :: m.frames) with saves := m.saves + 1 }

/-- The entry OSSaveContext keeps its registers in; one of its own only where
the call is not wrapped. -/
def saving_thread (m : Machine) (ctx : Word) : Option (Fin MAX_THREADS × Machine) :=
  match by_ctx m ctx with
  | some i => some (i, m)
  | none =>
      (alloc m ctx).map fun (i, m) =>
        (i, m.with_thread i { m.g_threads i with fiber := some m.fiber, started := true })

/-- OSSaveContext. -/
def fn_80233544 (m : Machine) : Option Machine :=
  let ctx := m.s.gpr 3
  match saving_thread m ctx with
  | none => none
  | some (i, m) =>
      let m := ctx_write m ctx
      let c := m.contexts ctx
      -- the guest's own setjmp trick
      let m := { m with
        contexts := Function.update m.contexts ctx { c with gpr := Function.update c.gpr 3 1 } }
      let m := m.with_thread i { m.g_threads i with saved := some m.s }
      some { m with s := { m.s with gpr := Function.update m.s.gpr 3 0 } }

/-- The wrapped call of OSSaveContext. -/
def save_call (m : Machine) : Option Machine := (guest_savepoint m).bind fn_80233544

/-- SelectThread returns: its frame, and its savepoint, are gone. -/
def select_returns (m : Machine) : Option Machine :=
  match m.frames with
  | .savepoint _ :: rest => some (m.with_frames rest)
  | _ => none

/-- A thread's savepoint jumped to and its registers put back; none when its
frame is not on the stack. -/
def guest_resumed (m : Machine) (i : Fin MAX_THREADS) : Option Machine :=
  match (m.g_threads i).jmp, (m.g_threads i).saved with
  | some k, some saved =>
      match m.frames.dropWhile fun f => f.saved ≠ some k with
      | [] => none
      | frames =>
          some
            (irq_abandon_delivery
              { m.with_frames frames with
                s := { saved with gpr := Function.update saved.gpr 3 1 }
                now := .back k })
  | _, _ => none

/-- The first run of a thread, on a fiber of its own. -/
def thread_entry (m : Machine) (ctx : Word) : Machine :=
  irq_abandon_delivery { ctx_read m ctx with now := .entry (m.contexts ctx).srr0 }

def resume_self (m : Machine) : Option Machine :=
  match by_fiber m m.fiber with
  | none => none
  | some me => guest_resumed m me

/-- A thread not started yet. -/
def load_new (m : Machine) (ctx : Word) : Option Machine :=
  if ctx = 0 ∨ (m.contexts ctx).srr0 = 0 then none
  else
    match find_or_alloc m ctx with
    | none => none
    | some (i, m) =>
        let t := { m.g_threads i with started := true, fiber := some m.fibers }
        let m := m.with_thread i t
        some (thread_entry { m with fiber := m.fibers, fibers := m.fibers + 1 } ctx)

/-- OSLoadContext. -/
def fn_802335C4 (m : Machine) : Option Machine :=
  let ctx := m.s.gpr 3
  if ctx ≠ 0 ∧ ctx = m.g_irq_ctx then irq_return_from_handler m
  else
    match by_ctx m ctx with
    | none => load_new m ctx
    | some i =>
        if (m.g_threads i).started then
          if (m.g_threads i).fiber = some m.fiber then guest_resumed m i
          else
            match (m.g_threads i).fiber with
            | none => none
            | some fiber => resume_self { m with fiber }
        else load_new m ctx

/-! Runs. -/

/-- What the guest does between its calls, and the calls and returns. -/
inductive Step where
  | guest (f : Regs → Regs)
  | create (ctx : Word) (c : OSContext)
  | save
  | select_returns
  | load
  | deliver_pending
  | call_guest_handler (number ctx : Word)
  | handler_returns
  | pass_ends

def Machine.step (m : Machine) : Step → Option Machine
  | .guest f => some { m with s := f m.s }
  | .create ctx c => some { m with contexts := Function.update m.contexts ctx c }
  | .save => save_call m
  | .select_returns => select_returns m
  | .load => fn_802335C4 m
  | .deliver_pending => some (deliver_pending m)
  | .call_guest_handler number ctx => call_guest_handler m number ctx
  | .handler_returns => handler_returns m
  | .pass_ends => pass_ends m

def Machine.run (m : Machine) : List Step → Option Machine
  | [] => some m
  | e :: es => (m.step e).bind fun m => m.run es

/-- Nothing in any register or context. -/
def zeros : Regs := ⟨fun _ => 0, fun _ => 0, 0, 0, 0, 0, 0, 0, 0, fun _ => 0, fun _ => 0⟩

def no_context : OSContext :=
  ⟨fun _ => 0, 0, 0, 0, 0, fun _ => 0, 0, 0, 0, fun _ => 0, fun _ => 0⟩

/-- A context in r3. -/
def with_r3 (ctx : Word) : Step := .guest fun s => { s with gpr := Function.update s.gpr 3 ctx }

end SoaPort.Guest
