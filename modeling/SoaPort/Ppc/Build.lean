import Mathlib
import SoaPort.Ppc.Walk

namespace SoaPort.Ppc

/-! Recovering every function of a program: seeds, pointers, gaps, pruning. -/

/-- The order in which a Python set is iterated: some permutation. -/
structure SetOrder where
  order : List Nat → List Nat
  perm : ∀ l, (order l).Perm l

namespace Function

variable (fn : Function)

/-- `fn.blocks[start]`. -/
def block_at (start : Nat) : Option BasicBlock := fn.blocks.find? (·.start = start)

/-- `start in fn.blocks`. -/
def has_block (start : Nat) : Bool := fn.blocks.any (·.start = start)

def start : Nat := ((fn.blocks.map (·.start)).min?).getD fn.entry

/-- The loop of `Function.end` over the sorted block starts. -/
def end_loop (cursor : Nat) : List Nat → Nat
  | [] => cursor
  | start :: rest =>
      if start < cursor then end_loop cursor rest
      else if start > cursor then cursor -- hole: stop claiming here
      else end_loop (((fn.block_at start).map (·.end)).getD cursor) rest

/-- End of the contiguous run of blocks starting at the entry. -/
def «end» : Nat :=
  fn.end_loop fn.entry ((fn.blocks.map (·.start)).insertionSort (· ≤ ·))

/-- A word of one of its blocks. -/
def claims (a : Nat) : Bool := fn.blocks.any (a ∈ ·.words)

end Function

/-! `functions` is keyed by entry, in the order of insertion. -/

/-- `functions[fn.entry] = fn`. -/
def set_function (functions : List Function) (fn : Function) : List Function :=
  if functions.any (·.entry = fn.entry) then
    functions.map fun g => if g.entry = fn.entry then fn else g
  else functions ++ [fn]

def function_at (functions : List Function) (entry : Nat) : Option Function :=
  functions.find? (·.entry = entry)

/-- `a in coverage(dol, functions)["claimed"]`. -/
def claimed (functions : List Function) (a : Nat) : Bool := functions.any (·.claims a)

/-- The scan of one section in `find_gaps`, `run_start` being where the run of
unclaimed words began. -/
def gap_runs (functions : List Function) (stop min_words : Nat) :
    Option Nat → List Nat → List (Nat × Nat)
  | run_start, [] =>
      match run_start with
      | some r => if (stop - r) / 4 ≥ min_words then [(r, stop)] else []
      | none => []
  | run_start, a :: rest =>
      if claimed functions a then
        match run_start with
        | some r =>
            if (a - r) / 4 ≥ min_words then
              (r, a) :: gap_runs functions stop min_words none rest
            else gap_runs functions stop min_words none rest
        | none => gap_runs functions stop min_words none rest
      else gap_runs functions stop min_words (some (run_start.getD a)) rest

section Seeds

variable (dol : Dol)

def find_gaps (functions : List Function) (min_words : Nat) : List (Nat × Nat) :=
  dol.text.flatMap fun s => gap_runs functions s.end min_words none s.words

/-- Every address reached by a direct branch-and-link. -/
def find_bl_targets : List Nat :=
  dol.text.flatMap fun s =>
    (dol.scan s).filterMap fun (addr, word) =>
      if word >>> 26 ≠ 18 ∨ word &&& 1 = 0 then none else (decode word addr).target

/-- The lowest text address and the end of the highest. -/
def text_bounds : Nat × Nat :=
  (((dol.text.map (·.address)).min?).getD 0, ((dol.text.map (·.end)).max?).getD 0)

def points_to_text (value : Nat) : Bool :=
  (text_bounds dol).1 ≤ value && value < (text_bounds dol).2 && value % 4 = 0

/-- Aligned words in data sections that point into .text. -/
def find_code_pointers : List Nat :=
  (dol.sections.filter (!·.is_text)).flatMap fun s =>
    ((dol.scan s).map (·.2)).filter (points_to_text dol)

/-- The low half that completes the `lis` into `reg`, among the next
instructions. -/
def low_half (reg high : Int) : List (Option Insn) → Option Nat
  | [] => none
  | none :: _ => none
  | some n :: rest =>
      if n.mnemonic = .addi ∧ n.ra = reg ∨ n.mnemonic = .ori ∧ n.rd = reg ∧ n.ra = reg then
        some ((high * 2 ^ 16 + n.imm) % 2 ^ 32).toNat
      else if reg ∈ gpr_defs n then none
      else low_half reg high rest

/-- The pointers a run of instructions forms. -/
def materialized : List (Option Insn) → List Nat
  | [] => []
  | none :: rest => materialized rest
  | some i :: rest =>
      if i.mnemonic ≠ .addis ∨ i.ra ≠ 0 then materialized rest
      else
        match low_half i.rd i.imm (rest.take 8) with
        | some value => value :: materialized rest
        | none => materialized rest

/-- Addresses of .text formed in registers by a lis/addi or lis/ori pair. -/
def find_materialized_pointers : List Nat :=
  dol.text.flatMap fun s =>
    (materialized (s.words.map (CodeView.valid dol))).filter (points_to_text dol)

def _MFLR_R0 : Nat := 0x7C0802A6

def _looks_like_entry (addr : Nat) : Bool :=
  match CodeView.valid dol addr with
  | none => false
  | some insn => insn.word = _MFLR_R0 || opens_frame insn

end Seeds

def _owns (fn : Function) (addr : Nat) : Bool :=
  fn.blocks.any fun b => b.start ≤ addr && addr < b.end

/-- The loop over a gap's instructions: the targets of its direct branches,
when every word of it decodes. -/
def gap_targets (dol : Dol) : List Nat → Option (List Nat)
  | [] => some []
  | a :: rest =>
      match CodeView.valid dol a with
      | none => none
      | some insn => do
          let targets ← gap_targets dol rest
          if insn.is_direct_branch then some (insn.target.toList ++ targets) else some targets

/-- `range(start, end, 4)`. -/
def gap_words (start stop : Nat) : List Nat :=
  List.range' start ((stop - start + 3) / 4) 4

/-- The function a gap is a dead hole inside of: `ends` are the functions with
a block that ends where the gap starts. -/
def _interior_owner (dol : Dol) (functions : List Function) (ends : List Nat)
    (start stop : Nat) : Option Nat :=
  ends.find? fun entry =>
    match function_at functions entry with
    | none => false
    | some fn =>
        fn.has_block stop ||
          match gap_targets dol (gap_words start stop) with
          | some targets => targets ≠ [] && targets.all (_owns fn)
          | none => false

/-- `end_index[start]`. -/
def end_index (functions : List Function) (start : Nat) : List Nat :=
  functions.flatMap fun fn => (fn.blocks.filter (·.end = start)).map fun _ => fn.entry

section Rounds

variable (dol : Dol) (main_text : Section) (orders : SetOrder) (max_insns : Nat)

def case_labels : List Nat := (find_jump_tables dol).flatMap (·.targets)

def plausible_entry (a : Nat) : Bool :=
  (CodeView.valid dol a).isSome && (main_text.contains a || _looks_like_entry dol a)

/-- Where the function in a gap begins: the first word that decodes. -/
def gap_entry : List Nat → Option Nat
  | [] => none
  | addr :: rest =>
      if addr ∈ case_labels dol then gap_entry rest
      else if (CodeView.valid dol addr).isNone then gap_entry rest
      else if main_text.contains addr || _looks_like_entry dol addr then some addr
      else none

def initial_hard : List Nat :=
  ((dol.entry_point :: find_bl_targets dol ++
      (find_materialized_pointers dol).filter (plausible_entry dol main_text)).filter
    fun a => CodeView.contains dol a && a ∉ case_labels dol).dedup

def pointers : List Nat :=
  ((find_code_pointers dol).filter
    fun a => CodeView.contains dol a && a ∉ case_labels dol).dedup

/-- `_walk` with the entries in `terminators` ending it. -/
def walk_from (terminators : List Nat) (entry : Nat) : Function :=
  _walk dol entry (· ∈ terminators) (find_jump_tables dol) max_insns

/-- The state of the loop that fills the holes. -/
structure Mined where
  functions : List Function
  soft : List Nat

/-- One gap of a pass: a dead hole goes to its owner, anything else may be a
new entry. -/
def mine_gap (ends : Nat → List Nat) (s : List Function × List Nat × Nat) (gap : Nat × Nat) :
    List Function × List Nat × Nat :=
  let (functions, gap_starts, absorbed) := s
  match _interior_owner dol functions (ends gap.1) gap.1 gap.2 with
  | some owner =>
      let dead : BasicBlock := { start := gap.1, «end» := gap.2, terminator := .dead }
      (functions.map fun fn => if fn.entry = owner then fn.set_block dead else fn,
        gap_starts, absorbed + 1)
  | none =>
      match gap_entry dol main_text (gap_words gap.1 gap.2) with
      | some entry => (functions, entry :: gap_starts, absorbed)
      | none => (functions, gap_starts, absorbed)

/-- One pass of the loop. -/
def mine_pass (hard : List Nat) (m : Mined) : Option Mined :=
  let (functions, found, absorbed) :=
    (find_gaps dol m.functions 1).foldl (mine_gap dol main_text (end_index m.functions))
      (m.functions, [], 0)
  let gap_starts := found.dedup.filter fun a => a ∉ hard && a ∉ m.soft
  if gap_starts = [] then
    if absorbed ≠ 0 then some { m with functions } -- coverage changed; look again
    else none
  else
    some
      { functions := (orders.order gap_starts).foldl
          (fun fns entry => set_function fns (walk_from dol max_insns hard entry)) functions
        soft := m.soft ++ gap_starts }

/-- Every pass that goes on claims a word of the text sections. -/
def mine_fuel : Nat := (dol.text.map (·.words.length)).sum + 1

def extent_le (f g : Function) : Prop :=
  f.start < g.start ∨ f.start = g.start ∧ (f.end < g.end ∨ f.end = g.end ∧ f.entry ≤ g.entry)

instance : DecidableRel extent_le := fun _ _ => inferInstanceAs (Decidable (_ ∨ _))

/-- The sweep over the extents: the entries pruned, from `reach` on. -/
def prune_sweep (soft : List Nat) : Nat → List Function → List Nat
  | _, [] => []
  | reach, f :: rest =>
      if f.entry ∈ soft ∧ f.start < reach then f.entry :: prune_sweep soft reach rest
      else prune_sweep soft (max reach f.end) rest

/-- One round, up to its pruning. -/
structure Round where
  hard : List Nat
  fresh : List Nat
  mined : Mined

namespace Round

def pruned (r : Round) : List Nat :=
  prune_sweep r.mined.soft 0 (r.mined.functions.insertionSort extent_le)

/-- What the round leaves in `functions`. -/
def functions (r : Round) : List Function :=
  r.mined.functions.filter fun f => f.entry ∉ r.pruned

/-- The soft entries that were not pruned. -/
def survivors (r : Round) : List Nat := r.mined.soft.filter (· ∉ r.pruned)

def grew (r : Round) : Bool := r.fresh ≠ [] || r.survivors ≠ []

/-- The soft survivors are hardened for the next pass. -/
def next_hard (r : Round) : List Nat := r.hard ++ r.survivors

end Round

def round (hard : List Nat) : Round :=
  let walked := (hard.dedup.insertionSort (· ≤ ·)).map (walk_from dol max_insns hard)
  let fresh := orders.order ((pointers dol).filter fun a => a ∉ hard && !claimed walked a)
  let functions := fresh.foldl
    (fun fns entry => set_function fns (walk_from dol max_insns hard entry)) walked
  let hard := hard ++ fresh
  { hard, fresh
    mined := Lib.whileSome (mine_pass dol main_text orders max_insns hard) (mine_fuel dol)
      { functions, soft := [] } }

/-- The last round of at most `n + 1`. -/
def rounds : Nat → List Nat → Round
  | 0, hard => round dol main_text orders max_insns hard
  | n + 1, hard =>
      let r := round dol main_text orders max_insns hard
      if r.grew then rounds n r.next_hard else r

end Rounds

/-- `max(dol.text, key=lambda s: s.size)`: the first of the largest. -/
def main_text (dol : Dol) : Option Section :=
  dol.text.foldl
    (fun best s =>
      match best with
      | none => some s
      | some b => if s.size > b.size then some s else some b) none

/-- The default arguments of `build_iterative`; `max_rounds` counts the rounds
after the first. -/
def last_round (dol : Dol) (orders : SetOrder) : Option Round :=
  (main_text dol).map fun main => rounds dol main orders 200000 31 (initial_hard dol main)

/-- Recover functions, then mine the gaps for entries the seeds missed. The
source fails where there is no text section. -/
def build_iterative (dol : Dol) (orders : SetOrder) : Option (List Function) :=
  (last_round dol orders).map (·.functions)

end SoaPort.Ppc
