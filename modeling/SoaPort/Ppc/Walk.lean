import SoaPort.Lib.Loop
import SoaPort.Ppc.Tables

namespace SoaPort.Ppc

/-! Basic blocks and functions, and the walk that recovers a function from its
entry. -/

/-- What ended a block. -/
inductive Terminator where
  | fall_through
  | insn (m : Mnemonic)
  | invalid
  | dead
  deriving DecidableEq, Repr

structure BasicBlock where
  start : Nat
  /-- Exclusive. -/
  «end» : Nat := 0
  successors : List Nat := []
  terminator : Terminator := .fall_through
  deriving DecidableEq, Repr

/-- `blocks` is keyed by block start; `calls` and `tail_calls` are sets. -/
structure Function where
  entry : Nat
  blocks : List BasicBlock := []
  calls : List Nat := []
  tail_calls : List Nat := []
  has_frame : Bool := false
  returns : Nat := 0
  indirect_calls : Nat := 0
  jump_tables : List Nat := []
  unresolved_indirect : Nat := 0
  deriving DecidableEq, Repr

namespace BasicBlock

/-- `range(b.start, b.end, 4)`. -/
def words (b : BasicBlock) : List Nat :=
  List.range' b.start ((b.end - b.start + 3) / 4) 4

end BasicBlock

namespace Function

/-- `fn.blocks[b.start] = b`. -/
def set_block (fn : Function) (b : BasicBlock) : Function :=
  if fn.blocks.any (·.start = b.start) then
    { fn with blocks := fn.blocks.map fun c => if c.start = b.start then b else c }
  else { fn with blocks := fn.blocks ++ [b] }

end Function

/-- What a scan of one block leaves behind. -/
structure Scan where
  addr : Nat
  budget : Nat
  fn : Function
  block : BasicBlock
  /-- The addresses pushed, latest first. -/
  pushed : List Nat := []

section Walk

variable (dol : Dol) (entry : Nat) (seeds : Nat → Bool) (tables : List JumpTable)

/-- `stwu r1, -N(r1)`. -/
def opens_frame (insn : Insn) : Bool :=
  insn.mnemonic = .stwu && insn.ra = 1 && insn.rd = 1 && insn.imm < 0

/-- The part of the block's end that is common to its conditional branches: the
untaken path. -/
def fall_on (insn : Insn) (r : Scan) : Scan :=
  if insn.is_unconditional then r
  else
    { r with
      block := { r.block with successors := r.block.successors ++ [r.addr] }
      pushed := r.addr :: r.pushed }

/-- A branch that is no call ends its block. -/
def end_block (insn : Insn) (r : Scan) : Scan :=
  let r := { r with block := { r.block with terminator := .insn insn.mnemonic } }
  match insn.mnemonic with
  | .bclr =>
      fall_on insn { r with fn := { r.fn with returns := r.fn.returns + 1 } }
  | .bcctr =>
      match table_at tables insn.addr with
      | some table =>
          let fresh := table.targets.foldl
            (fun acc t => if t ∈ acc then acc else acc ++ [t]) []
          fall_on insn { r with
            fn := { r.fn with jump_tables := r.fn.jump_tables ++ [insn.addr] }
            block := { r.block with successors := r.block.successors ++ fresh }
            pushed := fresh.reverse ++ r.pushed }
      | none =>
          fall_on insn
            { r with fn := { r.fn with unresolved_indirect := r.fn.unresolved_indirect + 1 } }
  | _ =>
      match insn.target with
      | some target =>
          if target ≠ entry ∧ seeds target then
            -- b into another function
            fall_on insn { r with fn := { r.fn with tail_calls := target :: r.fn.tail_calls } }
          else if CodeView.contains dol target then
            fall_on insn { r with
              block := { r.block with successors := r.block.successors ++ [target] }
              pushed := target :: r.pushed }
          else fall_on insn r
      | none => fall_on insn r

/-- A call returns; flow proceeds to the next instruction. -/
def note_call (insn : Insn) (fn : Function) : Function :=
  if insn.is_indirect_branch then { fn with indirect_calls := fn.indirect_calls + 1 }
  else
    match insn.target with
    | some target => { fn with calls := target :: fn.calls }
    | none => fn

/-- The inner loop of `_walk`: instructions from `addr` to the block's end. -/
def walk_block (seen : Nat → Bool) : Nat → Nat → Function → BasicBlock → Scan
  | 0, addr, fn, block => { addr, budget := 0, fn, block }
  | budget + 1, addr, fn, block =>
      match CodeView.valid dol addr with
      | none =>
          { addr, budget := budget + 1, fn, block := { block with terminator := .invalid } }
      | some insn =>
          let next := addr + 4
          let fn := if block.start = entry ∧ opens_frame insn then { fn with has_frame := true }
            else fn
          if insn.mnemonic = .rfi then
            { addr := next, budget, fn := { fn with returns := fn.returns + 1 }
              block := { block with terminator := .insn .rfi } }
          else if ¬ insn.is_branch then
            -- a new block begins wherever another branch lands
            if seen next then
              { addr := next, budget, fn
                block := { block with successors := block.successors ++ [next] } }
            else walk_block seen budget next fn block
          else if insn.is_call then walk_block seen budget next (note_call insn fn) block
          else end_block dol entry seeds tables insn { addr := next, budget, fn, block }

structure WalkState where
  /-- The stack, top first. -/
  pending : List Nat
  seen : List Nat
  budget : Nat
  fn : Function

def walk_step (s : WalkState) : Option WalkState :=
  match s.pending with
  | [] => none
  | block_start :: pending =>
      if block_start ∈ s.seen ∨ ¬ CodeView.contains dol block_start then
        some { s with pending }
      else
        let seen := block_start :: s.seen
        let r := walk_block dol entry seeds tables (· ∈ seen) s.budget block_start s.fn
          { start := block_start }
        some
          { pending := r.pushed ++ pending
            seen
            budget := r.budget
            fn := r.fn.set_block { r.block with «end» := r.addr } }

/-- The longest table, which bounds what one block can push. -/
def widest : Nat := (tables.map (·.targets.length)).foldr max 0

/-- The bytes of the text sections, where blocks can start. -/
def code_size : Nat := (dol.text.map (·.size)).sum

/-- More steps than the walk can take: each either drops a pending address or
starts a block somewhere new. -/
def walk_fuel : Nat := code_size dol * (widest tables + 2) + 1

/-- Trace one function's blocks from its entry. -/
def _walk (max_insns : Nat) : Function :=
  (Lib.whileSome (walk_step dol entry seeds tables) (walk_fuel dol tables)
    { pending := [entry], seen := [], budget := max_insns, fn := { entry } }).fn

end Walk

end SoaPort.Ppc
