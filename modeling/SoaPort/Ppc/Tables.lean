import SoaPort.Ppc.Dol
import SoaPort.Ppc.Regs

namespace SoaPort.Ppc

/-! Switch tables: resolving the `bctr` sites that dispatch through one. -/

structure JumpTable where
  site : Nat
  base : Nat
  targets : List Nat
  deriving DecidableEq, Repr

def _SPR_CTR : Int := 9

def _MAX_TABLE : Nat := 4096

/-- How far a register's definition chain may be followed. -/
def _TRACK_BACK : Nat := 256

/-- How far above the bgt the bound check may be hoisted. -/
def _BOUND_BACK : Nat := 64

variable (dol : Dol)

/-- The loop of `_track_address`, `n` instructions from `addr` down. -/
def track_loop : Nat → Nat → Int → Int → Option Nat
  | 0, _, _, _ => none
  | n + 1, addr, reg, lo =>
      match CodeView.before dol addr 4 with
      | none => none
      | some insn =>
          if insn.mnemonic = .bclr ∧ insn.is_unconditional then none
          else if reg ∉ gpr_defs insn then track_loop n (addr - 4) reg lo
          else
            match insn.mnemonic with
            | .addi =>
                if insn.ra = 0 then some ((lo + insn.imm) % 2 ^ 32).toNat
                else track_loop n (addr - 4) insn.ra (lo + insn.imm)
            | .ori =>
                -- ori's source sits in the rD field
                track_loop n (addr - 4) insn.rd (lo + insn.imm)
            | .addis =>
                if insn.ra ≠ 0 then none
                else some ((insn.imm * 2 ^ 16 + lo) % 2 ^ 32).toNat
            | _ => if is_mr insn then track_loop n (addr - 4) insn.rd lo else none

def _track_address (from_addr : Nat) (reg : Int) : Option Nat :=
  track_loop dol _TRACK_BACK from_addr reg 0

/-- Look backward from `addr`, at most `n` instructions from the `k`-th above
it, until `f` decides. An address that holds no instruction ends the search. -/
def scan_back {β : Type} (addr : Nat) (f : Insn → Option (Option β)) : Nat → Nat → Option β
  | 0, _ => none
  | n + 1, k =>
      match CodeView.before dol addr (4 * k) with
      | none => none
      | some insn =>
          match f insn with
          | some answer => answer
          | none => scan_back addr f n (k + 1)

/-- Entry count from the switch's bound check: the `bgt`, then the nearest
instruction above it that defines CR0. -/
def _bound_count (lwzx_addr : Nat) : Option Int := do
  let bgt ← scan_back dol lwzx_addr (fun insn =>
    if (insn.mnemonic = .bc ∨ insn.mnemonic = .bclr) ∧ insn.bo = 12 ∧ insn.bi = 1 then
      some (some insn.addr)
    else none) 15 1
  scan_back dol bgt (fun insn =>
    let m := insn.mnemonic
    if (m = .cmpli ∨ m = .cmpi) ∧ insn.crf_d = 0 then
      some (if insn.imm ≥ 0 then some (insn.imm + 1) else none)
    else if (m = .cmp ∨ m = .cmpl) ∧ insn.crf_d = 0 then some none
    else if insn.rc_bit then some none
    else if m = .bclr ∧ insn.is_unconditional then some none
    else none) (_BOUND_BACK - 1) 1

def _resolve_table (site : Nat) : Option JumpTable := do
  let mtctr ← scan_back dol site (fun insn =>
    if insn.mnemonic = .mtspr ∧ insn.spr = _SPR_CTR then some (some insn) else none) 4 1
  let ctr_src := mtctr.rd
  let load ← scan_back dol mtctr.addr (fun insn =>
    if insn.mnemonic = .lwzx ∧ insn.rd = ctr_src then some (some insn)
    else if ctr_src ∈ gpr_defs insn then some none
    else none) 8 1
  -- either operand may hold the table
  let base ← (_track_address dol load.addr load.ra).orElse fun _ =>
    _track_address dol load.addr load.rb
  let bound ← _bound_count dol load.addr
  if ¬ (0 < bound ∧ bound ≤ _MAX_TABLE) then none
  else
    let count := bound.toNat
    let section_ ← dol.section_at base
    if section_.is_text || !section_.contains (base + 4 * count - 4) then none
    else
      let targets := (List.range count).map fun k => dol.word (base + 4 * k)
      if targets.all (CodeView.contains dol) then some { site, base, targets } else none

/-- Every resolved `bctr`, in address order of the text sections. -/
def find_jump_tables : List JumpTable :=
  dol.text.flatMap fun s =>
    (dol.scan s).filterMap fun (site, word) =>
      if word = BCTR then _resolve_table dol site else none

/-- `tables.get(addr)`. -/
def table_at (tables : List JumpTable) (addr : Nat) : Option JumpTable :=
  tables.find? (·.site = addr)

variable {dol}

theorem resolve_table_lt {site : Nat} {table : JumpTable}
    (resolved : _resolve_table dol site = some table) {t : Nat} (member : t ∈ table.targets) :
    t < 2 ^ 32 := by
  simp only [_resolve_table, Option.bind_eq_bind, Option.bind_eq_some_iff,
    Option.ite_none_left_eq_some, Option.ite_none_right_eq_some, Option.some.injEq] at resolved
  obtain ⟨_, _, _, _, _, _, bound, _, _, _, _, _, _, rfl⟩ := resolved
  obtain ⟨k, _, rfl⟩ := List.mem_map.mp member
  exact dol.word_lt _

theorem table_targets_lt {table : JumpTable} (found : table ∈ find_jump_tables dol) {t : Nat}
    (member : t ∈ table.targets) : t < 2 ^ 32 := by
  obtain ⟨s, _, scanned⟩ := List.mem_flatMap.mp found
  obtain ⟨⟨site, word⟩, _, resolved⟩ := List.mem_filterMap.mp scanned
  rw [Option.ite_none_right_eq_some] at resolved
  exact resolve_table_lt resolved.2 member

end SoaPort.Ppc
