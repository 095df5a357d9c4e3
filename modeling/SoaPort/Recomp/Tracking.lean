import SoaPort.Ppc.Tables
import SoaPort.Recomp.Effect

namespace SoaPort.Recomp

open SoaPort.Ppc

/-! Following a register's definitions backward over a straight-line run, and
what executing the run leaves in that register. -/

/-- Executing a run, given newest instruction first. -/
inductive Run : List Insn → Regs → Regs → Prop where
  | nil (g : Regs) : Run [] g g
  | cons {i : Insn} {older : List Insn} {g mid g' : Regs} :
      Run older g mid → Effect i mid g' → Run (i :: older) g g'

/-- Neither a branch nor a return from an interrupt. -/
def straight (i : Insn) : Prop := i.is_branch = false ∧ i.mnemonic ≠ .rfi

variable (dol : Dol)

/-- The straight-line run of valid instructions that ends just above `addr`,
newest first. -/
def Above : Nat → List Insn → Prop
  | _, [] => True
  | addr, i :: older =>
      CodeView.before dol addr 4 = some i ∧ straight i ∧ Above (addr - 4) older

variable {dol}

theorem Run.exists_end (run : List Insn) (g : Regs) : ∃ g', Run run g g' := by
  induction run with
  | nil => exact ⟨g, .nil g⟩
  | cons i older ih =>
      obtain ⟨mid, ran⟩ := ih
      obtain ⟨g', effect⟩ := effect_exists i mid
      exact ⟨g', ran.cons effect⟩

/-! Which definition the walk goes to next. -/

/-- The register whose value before `i` decides that of `r` after it, as far
as the walk follows one. -/
def next (i : Insn) (r : Int) : Option Int :=
  if r ∉ gpr_defs i then some r
  else
    match i.mnemonic with
    | .addi => if i.ra = 0 then none else some i.ra
    | .ori => some i.rd
    | .or => some i.rd
    | _ => none

/-- `P` holds at every instruction the walk from `r` passes; `P` is given the
instruction, the register followed at its end and the run above it. -/
def Along (P : Insn → Int → List Insn → Prop) : List Insn → Int → Prop
  | [], _ => True
  | i :: older, r =>
      P i r older ∧
        match next i r with
        | some source => Along P older source
        | none => True

/-- `gpr_defs` names the register if the instruction can write it. -/
def reported (i : Insn) (r : Int) (_older : List Insn) : Prop := r ∈ results i → r ∈ gpr_defs i

/-- The immediate of an `ori` has no bit in common with the register it is
or-ed into, whenever it executes. -/
def disjoint (i : Insn) (r : Int) (older : List Insn) : Prop :=
  r ∈ gpr_defs i → i.mnemonic = .ori →
    ∀ g mid, Run older g mid → mid.gpr i.rd &&& BitVec.ofInt 32 i.imm = 0#32

/-- One instruction of the walk, and what is left to do above it. -/
inductive Walked (rest : Int → Int → Option Nat) (i : Insn) (reg lo : Int) (v : Nat) : Prop where
  | skip (other : reg ∉ gpr_defs i) (above : rest reg lo = some v)
  | li (defines : reg ∈ gpr_defs i) (m : i.mnemonic = .addi) (base : i.ra = 0)
      (value : v = ((lo + i.imm) % 2 ^ 32).toNat)
  | addi (defines : reg ∈ gpr_defs i) (m : i.mnemonic = .addi) (base : i.ra ≠ 0)
      (above : rest i.ra (lo + i.imm) = some v)
  | ori (defines : reg ∈ gpr_defs i) (m : i.mnemonic = .ori)
      (above : rest i.rd (lo + i.imm) = some v)
  | lis (defines : reg ∈ gpr_defs i) (m : i.mnemonic = .addis) (base : i.ra = 0)
      (value : v = ((i.imm * 2 ^ 16 + lo) % 2 ^ 32).toNat)
  | mr (defines : reg ∈ gpr_defs i) (m : i.mnemonic = .or) (copy : i.rd = i.rb)
      (above : rest i.rd lo = some v)

theorem gpr_defs_rd {i : Insn} {reg : Int} (m : i.mnemonic = .addi ∨ i.mnemonic = .addis)
    (defined : reg ∈ gpr_defs i) : reg = i.rd := by
  unfold gpr_defs at defined
  split at defined
  · cases defined
  · rcases m with m | m <;> simpa [m, _WRITES_RD, _WRITES_RA, _UPDATE] using defined

theorem gpr_defs_ra {i : Insn} {reg : Int} (m : i.mnemonic = .ori ∨ i.mnemonic = .or)
    (defined : reg ∈ gpr_defs i) : reg = i.ra := by
  unfold gpr_defs at defined
  split at defined
  · cases defined
  · rcases m with m | m <;> simpa [m, _WRITES_RD, _WRITES_RA, _UPDATE] using defined

theorem track_walked {n addr : Nat} {i : Insn} {reg lo : Int} {v : Nat}
    (found : CodeView.before dol addr 4 = some i)
    (tracked : track_loop dol (n + 1) addr reg lo = some v) :
    Walked (track_loop dol n (addr - 4)) i reg lo v := by
  unfold track_loop at tracked
  rw [found] at tracked
  simp only at tracked
  split at tracked
  · cases tracked
  split at tracked
  next other => exact .skip other tracked
  next defines =>
    have defines := not_not.mp defines
    split at tracked
    next m =>
      split at tracked
      next base => exact .li defines m base (Option.some.inj tracked).symm
      next base => exact .addi defines m base tracked
    next m => exact .ori defines m tracked
    next m =>
      split at tracked
      next => cases tracked
      next base => exact .lis defines m (not_not.mp base) (Option.some.inj tracked).symm
    next =>
      split at tracked
      next copy =>
        simp only [is_mr, Bool.and_eq_true, decide_eq_true_eq] at copy
        exact .mr defines copy.1.2 copy.2 tracked
      next => cases tracked

/-! The immediate of an `ori`: sixteen bits, not extended. -/

/-- The tables, with the width of the field that indexes each. -/
def opcode_tables : List ((Nat → Option Entry) × Nat) :=
  [(PRIMARY, 6), (OP19, 10), (OP31, 10), (PS_A, 5), (PS_QX, 6), (PS_X, 10),
    (FLOAT_A_SINGLE, 5), (FLOAT_A_DOUBLE, 5), (OP63_X, 10)]

theorem and_lt {x m bits : Nat} (small : m < 2 ^ bits) : x &&& m < 2 ^ bits :=
  Nat.lt_of_le_of_lt Nat.and_le_right small

/-- An entry that one of the tables holds. -/
def Tabled (entry : Entry) : Prop :=
  ∃ table ∈ opcode_tables, ∃ n < 2 ^ table.2, table.1 n = some entry

theorem tabled {entry : Entry} {table : Nat → Option Entry} {b n : Nat}
    (mem : (table, b) ∈ opcode_tables) (small : n < 2 ^ b) (hit : table n = some entry) :
    Tabled entry :=
  ⟨(table, b), mem, n, small, hit⟩

theorem tabled_of_decode_entry {w : Nat} {entry : Entry} (found : decode_entry w = some entry) :
    Tabled entry := by
  unfold decode_entry at found
  dsimp only at found
  split at found
  · unfold _decode_op4 at found
    split at found
    next hit =>
      rw [found] at hit
      exact tabled (b := 5) (by simp [opcode_tables]) (and_lt (by decide)) hit
    next =>
      split at found
      next hit =>
        rw [found] at hit
        exact tabled (b := 6) (by simp [opcode_tables]) (and_lt (by decide)) hit
      next => exact tabled (b := 10) (by simp [opcode_tables]) (and_lt (by decide)) found
  split at found
  · exact tabled (b := 10) (by simp [opcode_tables]) (and_lt (by decide)) found
  split at found
  · unfold _decode_op31 at found
    dsimp only at found
    split at found
    next hit =>
      rw [found] at hit
      exact tabled (b := 10) (by simp [opcode_tables]) (and_lt (by decide)) hit
    next =>
      split at found
      next hit =>
        split at found
        · rw [found] at hit
          exact tabled (b := 10) (by simp [opcode_tables]) (and_lt (by decide)) hit
        · cases found
      next => cases found
  split at found
  · exact tabled (b := 5) (by simp [opcode_tables]) (and_lt (by decide)) found
  split at found
  · split at found
    next hit =>
      split at hit
      · rw [found] at hit
        exact tabled (b := 5) (by simp [opcode_tables]) (and_lt (by decide)) hit
      · cases hit
    next => exact tabled (b := 10) (by simp [opcode_tables]) (and_lt (by decide)) found
  · exact tabled (b := 6) (by simp [opcode_tables]) (and_lt (by decide)) found

/-- What holds of every entry of the tables. -/
theorem Tabled.all {entry : Entry} (tabled : Tabled entry) {p : Entry → Bool}
    (checked : (opcode_tables.all fun table => (List.range (2 ^ table.2)).all fun n =>
      (table.1 n).all p) = true) : p entry = true := by
  obtain ⟨table, mem, n, small, hit⟩ := tabled
  have entry := List.all_eq_true.mp (List.all_eq_true.mp checked table mem) n
    (List.mem_range.mpr small)
  rw [hit] at entry
  exact entry

theorem form_of_ori {w : Nat} {form : Form} {allowed : Nat}
    (found : decode_entry w = some (.ori, form, allowed)) : form = .D := by
  have listed := (tabled_of_decode_entry found).all (p := fun e => e.1 ≠ .ori || e.2.1 = .D)
    (by decide +kernel)
  simpa using listed

/-- Filling in operands changes no mnemonic but the time base's. -/
theorem decode_fields_mnemonic (w : Nat) (m : Mnemonic) (form : Form) (i : Insn)
    (named : i.mnemonic = m) :
    (decode_fields w m form i).mnemonic = m ∨ (decode_fields w m form i).mnemonic = .mftbu := by
  cases form with
  | XFX =>
      simp only [decode_fields]
      split
      · split
        · exact .inr rfl
        · exact .inl named
      · split
        · exact .inl named
        · exact .inl named
  | X | SC =>
      simp only [decode_fields]
      split
      · exact .inl named
      · exact .inl named
  | I | B | D | XL | XFL | XO | A | M | PSQ | PSQX => exact .inl named

theorem decode_shape (w addr : Nat) :
    (decode w addr).mnemonic = .unknown ∨
      ∃ m form allowed i, decode_entry (w &&& 0xFFFFFFFF) = some (m, form, allowed) ∧
        i.mnemonic = m ∧ decode w addr = decode_fields (w &&& 0xFFFFFFFF) m form i := by
  unfold decode
  dsimp only
  split
  · exact .inl rfl
  next mnemonic form allowed found =>
    split
    · exact .inl rfl
    · refine .inr ⟨mnemonic, form, allowed, _, found, ?_, rfl⟩
      rfl

theorem decode_ori_imm {w addr : Nat} (m : (decode w addr).mnemonic = .ori) :
    ∃ y : Nat, y < 2 ^ 16 ∧ (decode w addr).imm = y := by
  obtain unknown | ⟨m', form, allowed, i, found, named, shape⟩ := decode_shape w addr
  · rw [m] at unknown
    cases unknown
  · rw [shape] at m ⊢
    obtain same | other := decode_fields_mnemonic (w &&& 0xFFFFFFFF) m' form i named
    · obtain rfl : Mnemonic.ori = m' := m.symm.trans same
      obtain rfl := form_of_ori found
      refine ⟨w &&& 0xFFFFFFFF &&& 0xFFFF, ?_, rfl⟩
      exact Nat.lt_of_le_of_lt Nat.and_le_right (by decide)
    · rw [m] at other
      cases other

theorem before_valid {addr back : Nat} {i : Insn}
    (found : CodeView.before dol addr back = some i) : i.valid = true := by
  unfold CodeView.before at found
  split at found
  · exact (CodeView.valid_eq_some.mp found).2
  · cases found

theorem before_ori_imm {addr back : Nat} {i : Insn} (found : CodeView.before dol addr back = some i)
    (m : i.mnemonic = .ori) : (BitVec.ofInt 32 i.imm).toNat < 2 ^ 16 ∧ 0 ≤ i.imm := by
  unfold CodeView.before at found
  split at found
  next =>
    obtain ⟨got, _⟩ := CodeView.valid_eq_some.mp found
    unfold CodeView.get at got
    split at got
    · cases got
    split at got
    · obtain rfl := Option.some.inj got
      obtain ⟨y, small, imm⟩ := decode_ori_imm m
      rw [imm, BitVec.ofInt_natCast, BitVec.toNat_ofNat]
      omega
    · cases got
  next => cases found

/-! What the instructions of the walk leave in the register they define. -/

section Effects

variable {i : Insn} {g g' : Regs} (effect : Effect i g g')

include effect

theorem effect_addi (m : i.mnemonic = .addi) :
    g'.gpr i.rd = g.base i.ra + BitVec.ofInt 32 i.imm := by
  have gpr := effect.gpr
  simp only [GprEffect, m] at gpr
  rw [gpr, Function.update_self]

theorem effect_addis (m : i.mnemonic = .addis) :
    g'.gpr i.rd = g.base i.ra + BitVec.ofInt 32 (i.imm * 2 ^ 16) := by
  have gpr := effect.gpr
  simp only [GprEffect, m] at gpr
  rw [gpr, Function.update_self]

theorem effect_ori (m : i.mnemonic = .ori) :
    g'.gpr i.ra = g.gpr i.rd ||| BitVec.ofInt 32 i.imm := by
  have gpr := effect.gpr
  simp only [GprEffect, m] at gpr
  rw [gpr, Function.update_self]

theorem effect_mr (m : i.mnemonic = .or) (copy : i.rd = i.rb) : g'.gpr i.ra = g.gpr i.rd := by
  have gpr := effect.gpr
  simp only [GprEffect, m] at gpr
  rw [gpr, Function.update_self, ← copy, BitVec.or_self]

end Effects

theorem ofInt_emod_toNat (x : Int) :
    BitVec.ofNat 32 (x % 2 ^ 32).toNat = BitVec.ofInt 32 x := by
  have small : (x % 2 ^ 32).toNat < 2 ^ 32 := by omega
  apply BitVec.eq_of_toNat_eq
  rw [BitVec.toNat_ofNat, Nat.mod_eq_of_lt small, BitVec.toNat_ofInt]
  rfl

section Next

variable {i : Insn} {reg : Int}

theorem next_li (defines : reg ∈ gpr_defs i) (m : i.mnemonic = .addi) (base : i.ra = 0) :
    next i reg = none := by
  simp [next, defines, m, base]

theorem next_addi (defines : reg ∈ gpr_defs i) (m : i.mnemonic = .addi) (base : i.ra ≠ 0) :
    next i reg = some i.ra := by
  simp [next, defines, m, base]

theorem next_ori (defines : reg ∈ gpr_defs i) (m : i.mnemonic = .ori) :
    next i reg = some i.rd := by
  simp [next, defines, m]

theorem next_mr (defines : reg ∈ gpr_defs i) (m : i.mnemonic = .or) :
    next i reg = some i.rd := by
  simp [next, defines, m]

theorem next_lis (defines : reg ∈ gpr_defs i) (m : i.mnemonic = .addis) :
    next i reg = none := by
  simp [next, defines, m]

end Next

/-! The register at the start of the walk is the tracked constant, short of the
bits that some `ori` found already set. -/

theorem tracked_value {n addr : Nat} {run : List Insn} {reg lo : Int} {v : Nat}
    (above : Above dol addr run) (fits : n ≤ run.length)
    (tracked : track_loop dol n addr reg lo = some v) (seen : Along reported run reg) :
    ∃ short : Nat, short ≤ 65535 * n ∧ (short = 0 ↔ Along disjoint run reg) ∧
      ∀ g g', Run run g g' →
        g'.gpr reg + BitVec.ofInt 32 lo + BitVec.ofNat 32 short = BitVec.ofNat 32 v := by
  induction n generalizing addr run reg lo with
  | zero => cases tracked
  | succ n ih =>
      cases run with
      | nil => cases fits
      | cons i older =>
          obtain ⟨found, _, rest⟩ := above
          have fits := Nat.le_of_succ_le_succ fits
          obtain ⟨named, seen⟩ := seen
          cases track_walked found tracked with
          | skip other tracked =>
              have goes : next i reg = some reg := if_pos other
              rw [goes] at seen
              obtain ⟨short, bound, exact_, values⟩ := ih rest fits tracked seen
              refine ⟨short, by omega, ?_, ?_⟩
              · rw [exact_, Along, goes]
                exact (and_iff_right fun defines => absurd defines other).symm
              · rintro g g' (_ | ⟨ran, effect⟩)
                rw [effect.frame fun written => other (named written)]
                exact values _ _ ran
          | li defines m base value =>
              refine ⟨0, Nat.zero_le _, ?_, ?_⟩
              · simp [Along, next_li defines m base, disjoint, m]
              · rintro g g' (_ | ⟨ran, effect⟩)
                rw [gpr_defs_rd (.inl m) defines, effect_addi effect m, Regs.base, if_pos base,
                  value, ofInt_emod_toNat, BitVec.ofInt_add, BitVec.zero_add, BitVec.add_zero]
                exact BitVec.add_comm ..
          | addi defines m base tracked =>
              rw [next_addi defines m base] at seen
              obtain ⟨short, bound, none_short, values⟩ := ih rest fits tracked seen
              refine ⟨short, by omega, ?_, ?_⟩
              · simp [Along, next_addi defines m base, disjoint, m, none_short]
              · rintro g g' (_ | ⟨ran, effect⟩)
                have value := values _ _ ran
                rw [BitVec.ofInt_add] at value
                rw [gpr_defs_rd (.inl m) defines, effect_addi effect m, Regs.base, if_neg base,
                  ← value]
                ac_rfl
          | ori defines m tracked =>
              rw [next_ori defines m] at seen
              obtain ⟨short, bound, none_short, values⟩ := ih rest fits tracked seen
              obtain ⟨small, _⟩ := before_ori_imm found m
              -- the value before the `ori`, the same in every execution
              let source := BitVec.ofNat 32 v - BitVec.ofNat 32 short - BitVec.ofInt 32 (lo + i.imm)
              have held : ∀ g mid, Run older g mid → mid.gpr i.rd = source := by
                intro g mid ran
                rw [eq_sub_iff_add_eq, eq_sub_iff_add_eq]
                exact values g mid ran
              let common := source &&& BitVec.ofInt 32 i.imm
              refine ⟨short + common.toNat, ?_, ?_, ?_⟩
              · have low : common.toNat ≤ (BitVec.ofInt 32 i.imm).toNat := by
                  rw [BitVec.toNat_and]
                  exact Nat.and_le_right
                omega
              · have zero : common.toNat = 0 ↔ disjoint i reg older := by
                  rw [show common.toNat = 0 ↔ common = 0#32 from BitVec.toNat_inj (y := 0#32)]
                  constructor
                  · intro none _ _ g mid ran
                    rw [held g mid ran]
                    exact none
                  · intro apart
                    obtain ⟨mid, ran⟩ := Run.exists_end older ⟨fun _ => 0, fun _ => false, 0, fun _ => 0⟩
                    have none := apart defines m _ mid ran
                    rwa [held _ mid ran] at none
                rw [Nat.add_eq_zero_iff, none_short, zero, Along, next_ori defines m, and_comm]
              · rintro g g' (_ | ⟨ran, effect⟩)
                have value := values _ _ ran
                have whole := Lib.or_add_and source (BitVec.ofInt 32 i.imm)
                rw [held _ _ ran, BitVec.ofInt_add] at value
                rw [gpr_defs_ra (.inl m) defines, effect_ori effect m, held _ _ ran,
                  BitVec.ofNat_add, BitVec.ofNat_toNat, BitVec.setWidth_eq, ← value]
                calc
                  _ = ((source ||| BitVec.ofInt 32 i.imm) + common) + BitVec.ofInt 32 lo +
                      BitVec.ofNat 32 short := by ac_rfl
                  _ = source + BitVec.ofInt 32 i.imm + BitVec.ofInt 32 lo +
                      BitVec.ofNat 32 short := by rw [whole]
                  _ = _ := by ac_rfl
          | lis defines m base value =>
              refine ⟨0, Nat.zero_le _, ?_, ?_⟩
              · simp [Along, next_lis defines m, disjoint, m]
              · rintro g g' (_ | ⟨ran, effect⟩)
                rw [gpr_defs_rd (.inr m) defines, effect_addis effect m, Regs.base, if_pos base,
                  value, ofInt_emod_toNat, BitVec.ofInt_add, BitVec.zero_add, BitVec.add_zero]
          | mr defines m copy tracked =>
              rw [next_mr defines m] at seen
              obtain ⟨short, bound, none_short, values⟩ := ih rest fits tracked seen
              refine ⟨short, by omega, ?_, ?_⟩
              · simp [Along, next_mr defines m, disjoint, m, none_short]
              · rintro g g' (_ | ⟨ran, effect⟩)
                rw [gpr_defs_ra (.inr m) defines, effect_mr effect m copy]
                exact values _ _ ran

/-! An instruction that writes the tracked register unreported can leave
anything there, and what the walk follows below it keeps the difference. -/

/-- `gpr_defs` lists the mnemonic where the architecture has it write. -/
def listed (m : Mnemonic) : Bool :=
  match dest m with
  | .none => true
  | .rd | .string => _WRITES_RD m
  | .ra => _WRITES_RA m || _UPDATE m
  | .rd_and_ra => _UPDATE m && integer_load_update m
  | .multiple => m = .lmw

theorem listed_of_ne {m : Mnemonic} (other : m ≠ .eciwx) : listed m = true := by
  cases m with
  | eciwx => exact absurd rfl other
  | _ => rfl

/-- The instructions whose writes `gpr_defs` does not report in full: `eciwx`,
and the string loads past their first register. -/
theorem unreported_mnemonic {i : Insn} {r : Int} (valid : i.valid = true) (written : r ∈ results i)
    (silent : r ∉ gpr_defs i) :
    i.mnemonic = .eciwx ∨ i.mnemonic = .lswi ∨ i.mnemonic = .lswx := by
  by_contra others
  obtain ⟨external, string⟩ := not_or.mp others
  have named := listed_of_ne external
  apply silent
  unfold results at written
  unfold listed at named
  simp only [gpr_defs, valid, not_true_eq_false, if_false]
  split at written
  case h_1 => cases written
  case h_2 d =>
      rw [d] at named
      simp [named, List.mem_singleton.mp written]
  case h_3 d =>
      rw [d] at named
      rcases Bool.or_eq_true_iff.mp named with named | named
      · simp [named, List.mem_singleton.mp written]
      · simp [named, List.mem_singleton.mp written]
  case h_4 d =>
      rw [d] at named
      obtain ⟨update, load⟩ := Bool.and_eq_true_iff.mp named
      simp only [List.mem_cons, List.not_mem_nil, or_false] at written
      rcases written with rfl | rfl
      · simp [update, load]
      · simp [update]
  case h_5 d =>
      rw [d] at named
      simp only [List.mem_append]
      exact .inr (by rwa [if_pos (of_decide_eq_true named)])
  case h_6 d =>
      exfalso
      apply string
      revert d
      cases i.mnemonic with
      | lswi => exact fun _ => .inl rfl
      | lswx => exact fun _ => .inr rfl
      | _ => exact nofun

/-- What an unreported write leaves is any value. -/
theorem silent_any {i : Insn} {r : Int} (valid : i.valid = true) (written : r ∈ results i)
    (silent : r ∉ gpr_defs i) (g : Regs) (w : Word) : ∃ g', Effect i g g' ∧ g'.gpr r = w := by
  obtain ⟨g₁, effect⟩ := effect_exists i g
  refine ⟨{ g₁ with gpr := Function.update g₁.gpr r w }, ⟨?_, effect.cr, effect.ctr⟩,
    Function.update_self ..⟩
  have frame : ∀ k, k ∉ results i → Function.update g₁.gpr r w k = g.gpr k := by
    intro k outside
    have apart : k ≠ r := by
      rintro rfl
      exact outside written
    exact (Function.update_of_ne apart _ _).trans (effect.frame outside)
  rcases unreported_mnemonic valid written silent with m | m | m <;>
    simpa only [GprEffect, m] using frame

/-- Two executions of a run that differ by 2^16 in a register. -/
def Strays (run : List Insn) (r : Int) : Prop :=
  ∃ g g₁ g₂, Run run g g₁ ∧ Run run g g₂ ∧ g₂.gpr r = g₁.gpr r + BitVec.twoPow 32 16

theorem Strays.of_silent {i : Insn} {older : List Insn} {r : Int} (valid : i.valid = true)
    (written : r ∈ results i) (silent : r ∉ gpr_defs i) : Strays (i :: older) r := by
  let g : Regs := ⟨fun _ => 0, fun _ => false, 0, fun _ => 0⟩
  obtain ⟨mid, ran⟩ := Run.exists_end older g
  obtain ⟨g₁, effect₁, value₁⟩ := silent_any valid written silent mid 0#32
  obtain ⟨g₂, effect₂, value₂⟩ := silent_any valid written silent mid (BitVec.twoPow 32 16)
  refine ⟨g, g₁, g₂, ran.cons effect₁, ran.cons effect₂, ?_⟩
  rw [value₁, value₂, BitVec.zero_add]

/-- A difference carries through an instruction that adds the same to both. -/
theorem Strays.step {i : Insn} {older : List Insn} {source r : Int} (strays : Strays older source)
    (carries : ∀ mid₁ mid₂ g₁ g₂, Effect i mid₁ g₁ → Effect i mid₂ g₂ →
      mid₂.gpr source = mid₁.gpr source + BitVec.twoPow 32 16 →
        g₂.gpr r = g₁.gpr r + BitVec.twoPow 32 16) : Strays (i :: older) r := by
  obtain ⟨g, mid₁, mid₂, ran₁, ran₂, apart⟩ := strays
  obtain ⟨g₁, effect₁⟩ := effect_exists i mid₁
  obtain ⟨g₂, effect₂⟩ := effect_exists i mid₂
  exact ⟨g, g₁, g₂, ran₁.cons effect₁, ran₂.cons effect₂,
    carries mid₁ mid₂ g₁ g₂ effect₁ effect₂ apart⟩

theorem tracked_strays {n addr : Nat} {run : List Insn} {reg lo : Int} {v : Nat}
    (above : Above dol addr run) (fits : n ≤ run.length)
    (tracked : track_loop dol n addr reg lo = some v) (unseen : ¬ Along reported run reg) :
    Strays run reg := by
  induction n generalizing addr run reg lo with
  | zero => cases tracked
  | succ n ih =>
      cases run with
      | nil => cases fits
      | cons i older =>
          obtain ⟨found, _, rest⟩ := above
          have fits := Nat.le_of_succ_le_succ fits
          cases track_walked found tracked with
          | skip other tracked =>
              have goes : next i reg = some reg := if_pos other
              by_cases written : reg ∈ results i
              · exact Strays.of_silent (before_valid found) written other
              · refine (ih rest fits tracked ?_).step ?_
                · intro seen
                  apply unseen
                  rw [Along, goes]
                  exact ⟨fun inside => absurd inside written, seen⟩
                · intro mid₁ mid₂ g₁ g₂ effect₁ effect₂ apart
                  rw [effect₁.frame written, effect₂.frame written]
                  exact apart
          | li defines m base value =>
              exact absurd (by simp [Along, next_li defines m base, reported, defines]) unseen
          | addi defines m base tracked =>
              refine (ih rest fits tracked ?_).step ?_
              · intro seen
                apply unseen
                rw [Along, next_addi defines m base]
                exact ⟨fun _ => defines, seen⟩
              · intro mid₁ mid₂ g₁ g₂ effect₁ effect₂ apart
                rw [gpr_defs_rd (.inl m) defines, effect_addi effect₁ m, effect_addi effect₂ m,
                  Regs.base, Regs.base, if_neg base, if_neg base, apart]
                ac_rfl
          | ori defines m tracked =>
              refine (ih rest fits tracked ?_).step ?_
              · intro seen
                apply unseen
                rw [Along, next_ori defines m]
                exact ⟨fun _ => defines, seen⟩
              · intro mid₁ mid₂ g₁ g₂ effect₁ effect₂ apart
                rw [gpr_defs_ra (.inl m) defines, effect_ori effect₁ m, effect_ori effect₂ m, apart]
                exact Lib.add_twoPow_or _ _ (by decide) (before_ori_imm found m).1
          | lis defines m base value =>
              exact absurd (by simp [Along, next_lis defines m, reported, defines]) unseen
          | mr defines m copy tracked =>
              refine (ih rest fits tracked ?_).step ?_
              · intro seen
                apply unseen
                rw [Along, next_mr defines m]
                exact ⟨fun _ => defines, seen⟩
              · intro mid₁ mid₂ g₁ g₂ effect₁ effect₂ apart
                rw [gpr_defs_ra (.inr m) defines, effect_mr effect₁ m copy,
                  effect_mr effect₂ m copy]
                exact apart

/-! The whole walk. -/

theorem track_loop_mono {n m addr : Nat} {reg lo : Int} {v : Nat} (le : n ≤ m)
    (tracked : track_loop dol n addr reg lo = some v) :
    track_loop dol m addr reg lo = some v := by
  induction n generalizing m addr reg lo with
  | zero => cases tracked
  | succ n ih =>
      obtain ⟨m, rfl⟩ := Nat.exists_eq_succ_of_ne_zero (Nat.ne_of_gt (Nat.lt_of_lt_of_le n.succ_pos le))
      have le := Nat.le_of_succ_le_succ le
      unfold track_loop at tracked ⊢
      split
      next found =>
        rw [found] at tracked
        cases tracked
      next i found =>
        rw [found] at tracked
        simp only at tracked
        split
        next stops =>
          rw [if_pos stops] at tracked
          cases tracked
        next goes =>
          rw [if_neg goes] at tracked
          split
          next other =>
            rw [if_pos other] at tracked
            exact ih le tracked
          next defines =>
            rw [if_neg defines] at tracked
            split
            next m =>
              simp only [m] at tracked
              split
              next base =>
                rw [if_pos base] at tracked
                exact tracked
              next base =>
                rw [if_neg base] at tracked
                exact ih le tracked
            next m =>
              simp only [m] at tracked
              exact ih le tracked
            next m =>
              simp only [m] at tracked
              exact tracked
            next =>
              split
              next copy =>
                simp only [copy] at tracked
                exact ih le tracked
              next copy =>
                simp only [copy] at tracked
                exact absurd tracked nofun

/-- Executing the run leaves the tracked constant in the register exactly when
nothing on the walk writes the register unreported and every `ori` it follows
sets only bits that were clear. -/
theorem tracked_iff {from_addr : Nat} {reg : Int} {run : List Insn} {v : Nat}
    (above : Above dol from_addr run) (tracked : _track_address dol from_addr reg = some v)
    (inside : (track_loop dol run.length from_addr reg 0).isSome = true) :
    (∀ g g', Run run g g' → g'.gpr reg = BitVec.ofNat 32 v) ↔
      Along reported run reg ∧ Along disjoint run reg := by
  have within : track_loop dol (min run.length _TRACK_BACK) from_addr reg 0 = some v := by
    obtain ⟨v', decided⟩ := Option.isSome_iff_exists.mp inside
    by_cases long : run.length ≤ _TRACK_BACK
    · rw [Nat.min_eq_left long, decided]
      exact (track_loop_mono long decided).symm.trans tracked
    · rwa [Nat.min_eq_right (Nat.le_of_not_le long)]
  have fits : min run.length _TRACK_BACK ≤ run.length := Nat.min_le_left ..
  have few : min run.length _TRACK_BACK ≤ 256 := Nat.min_le_right ..
  constructor
  · intro leaves
    have seen : Along reported run reg := by
      by_contra unseen
      obtain ⟨g, g₁, g₂, ran₁, ran₂, apart⟩ := tracked_strays above fits within unseen
      rw [leaves g g₁ ran₁, leaves g g₂ ran₂] at apart
      exact absurd (left_eq_add.mp apart) (by decide)
    obtain ⟨short, bound, none_short, values⟩ := tracked_value above fits within seen
    obtain ⟨g', ran⟩ := Run.exists_end run ⟨fun _ => 0, fun _ => false, 0, fun _ => 0⟩
    have value := values _ g' ran
    rw [leaves _ g' ran, show BitVec.ofInt 32 0 = 0#32 from rfl, BitVec.add_zero] at value
    have zero := congrArg BitVec.toNat (add_eq_left.mp value)
    rw [BitVec.toNat_ofNat, Nat.mod_eq_of_lt (by omega)] at zero
    exact ⟨seen, none_short.mp zero⟩
  · rintro ⟨seen, apart⟩ g g' ran
    obtain ⟨short, bound, none_short, values⟩ := tracked_value above fits within seen
    have value := values g g' ran
    rw [none_short.mpr apart] at value
    simpa using value

/-- `lis r4, 0x8040; addi r4, r4, 0x10; ori r4, r4, 0x10` at 0x80003100. -/
def overlapping : Dol where
  sections := [{ file_offset := 0, address := 0x80003100, size := 12, is_text := true }]
  entry_point := 0x80003100
  data := [0x3C, 0x80, 0x80, 0x40, 0x38, 0x84, 0x00, 0x10, 0x60, 0x84, 0x00, 0x10]

def overlapping_run : List Insn :=
  [decode 0x60840010 0x80003108, decode 0x38840010 0x80003104, decode 0x3C808040 0x80003100]

theorem above_overlapping : Above overlapping 0x8000310C overlapping_run := by
  refine ⟨?_, ⟨?_, ?_⟩, ?_, ⟨?_, ?_⟩, ?_, ⟨?_, ?_⟩, trivial⟩ <;> decide

theorem tracked_overlapping : _track_address overlapping 0x8000310C 4 = some 0x80400020 := by
  decide

theorem inside_overlapping :
    (track_loop overlapping overlapping_run.length 0x8000310C 4 0).isSome = true := by
  decide

theorem tracked_iff_overlapping :
    (∀ g g', Run overlapping_run g g' → g'.gpr 4 = BitVec.ofNat 32 0x80400020) ↔
      Along reported overlapping_run 4 ∧ Along disjoint overlapping_run 4 :=
  tracked_iff above_overlapping tracked_overlapping inside_overlapping

/-- The walk answers 0x80400020; the instructions compute 0x80400010. -/
theorem overlap_added_twice :
    ¬ ∀ (dol : Dol) (from_addr : Nat) (reg : Int) (run : List Insn) (v : Nat),
      Above dol from_addr run → _track_address dol from_addr reg = some v →
        (track_loop dol run.length from_addr reg 0).isSome = true →
          ∀ g g', Run run g g' → g'.gpr reg = BitVec.ofNat 32 v := by
  intro claim
  let g : Regs := ⟨fun _ => 0, fun _ => false, 0, fun _ => 0⟩
  obtain ⟨g₁, lis⟩ := effect_exists (decode 0x3C808040 0x80003100) g
  obtain ⟨g₂, addi⟩ := effect_exists (decode 0x38840010 0x80003104) g₁
  obtain ⟨g₃, ori⟩ := effect_exists (decode 0x60840010 0x80003108) g₂
  have told := claim overlapping 0x8000310C 4 overlapping_run 0x80400020 above_overlapping
    tracked_overlapping inside_overlapping g g₃ ((((Run.nil g).cons lis).cons addi).cons ori)
  have high := effect_addis lis (by decide)
  have low := effect_addi addi (by decide)
  have whole := effect_ori ori (by decide)
  rw [show (decode 0x3C808040 0x80003100).rd = 4 by decide, Regs.base, if_pos (by decide),
    show (decode 0x3C808040 0x80003100).imm = -0x7FC0 by decide] at high
  rw [show (decode 0x38840010 0x80003104).rd = 4 by decide, Regs.base, if_neg (by decide),
    show (decode 0x38840010 0x80003104).ra = 4 by decide,
    show (decode 0x38840010 0x80003104).imm = 0x10 by decide, high] at low
  rw [show (decode 0x60840010 0x80003108).ra = 4 by decide,
    show (decode 0x60840010 0x80003108).rd = 4 by decide,
    show (decode 0x60840010 0x80003108).imm = 0x10 by decide, low] at whole
  rw [whole] at told
  revert told
  decide

end SoaPort.Recomp
