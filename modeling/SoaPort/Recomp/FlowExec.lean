import SoaPort.Recomp.Flow

namespace SoaPort.Recomp

open SoaPort.Ppc

/-! How the emitted statements of one chunk transfer control. -/

variable {ρ : Type} (rt : Runtime ρ) (fc : FloatCode ρ)

/-- Statements that always run on to the next. -/
def Simple.plain : Simple → Bool
  | goto _ | ret => false
  | _ => true

def Stmt.plain : Stmt → Bool
  | simple x => x.plain
  | block _ body => body.all Simple.plain
  | _ => false

theorem Simple.exec_plain {x : Simple} (plain : x.plain = true) (t : Word) (s : CpuState ρ) :
    (x.exec rt fc t s).2 = .next := by
  cases x <;> first | rfl | cases plain

theorem execSimples_plain {xs : List Simple} (plain : xs.all Simple.plain = true) (t : Word)
    (s : CpuState ρ) : (execSimples rt fc t xs s).2 = .next := by
  induction xs generalizing s with
  | nil => rfl
  | cons x xs ih =>
      simp only [List.all_cons, Bool.and_eq_true] at plain
      have flows := Simple.exec_plain rt fc plain.1 t s
      rcases h : x.exec rt fc t s with ⟨s', f⟩
      rw [h] at flows
      cases flows
      simpa only [execSimples, h] using ih plain.2 s'

theorem Stmt.exec_plain {x : Stmt} (plain : x.plain = true) (s : CpuState ρ) :
    (x.exec rt fc s).2 = .next := by
  cases x with
  | simple x => exact Simple.exec_plain rt fc plain 0 s
  | block e body => exact execSimples_plain rt fc plain _ _
  | _ => cases plain

/-- Plain statements hand their state to what follows them. -/
theorem execStmts_append {xs : List Stmt} (plain : xs.all Stmt.plain = true) (ys : List Stmt)
    (s : CpuState ρ) :
    execStmts rt fc (xs ++ ys) s = execStmts rt fc ys (execStmts rt fc xs s).1 := by
  induction xs generalizing s with
  | nil => rfl
  | cons x xs ih =>
      simp only [List.all_cons, Bool.and_eq_true] at plain
      have flows := Stmt.exec_plain rt fc plain.1 s
      rcases h : x.exec rt fc s with ⟨s', f⟩
      rw [h] at flows
      cases flows
      simpa only [List.cons_append, execStmts, h] using ih plain.2 s'

theorem execStmts_plain {xs : List Stmt} (plain : xs.all Stmt.plain = true) (s : CpuState ρ) :
    execStmts rt fc xs s = ((execStmts rt fc xs s).1, .next) := by
  have onward := execStmts_append rt fc plain [] s
  rw [List.append_nil] at onward
  exact onward

theorem execStmts_simples (xs : List Simple) (s : CpuState ρ) :
    execStmts rt fc (xs.map .simple) s = execSimples rt fc 0 xs s := by
  induction xs generalizing s with
  | nil => rfl
  | cons x xs ih =>
      simp only [List.map_cons, execStmts, execSimples, Stmt.exec]
      obtain ⟨s', f⟩ := x.exec rt fc 0 s
      cases f with
      | next => exact ih s'
      | goto a => rfl
      | ret => rfl

namespace Emitter

variable (em : Emitter) (addr_set : Nat → Bool)

/-! The instructions that are no branches. -/

def transfers : Mnemonic → Bool
  | .b | .bc | .bclr | .bcctr | .rfi => true
  | _ => false

theorem load_plain {m : Mnemonic} {value : Expr → Expr} {update indexed : Bool} (i : Insn)
    (_entry : _LOADS m = some (value, update, indexed)) :
    (load_stmts i value update indexed).all Stmt.plain = true := by
  unfold load_stmts
  cases update <;> rfl

theorem store_plain {m : Mnemonic} {tmpl : Expr → Expr → Simple} {update indexed : Bool}
    (i : Insn) (entry : _STORES m = some (tmpl, update, indexed)) :
    (store_stmts i tmpl update indexed).all Stmt.plain = true := by
  unfold _STORES at entry
  split at entry <;> cases entry <;> rfl

theorem result_plain (i : Insn) (n : Int) (e : Expr) :
    (result i n e).all Stmt.plain = true := by
  unfold result
  cases i.rc_bit <;> rfl

theorem branch_plain (i : Insn) (other : transfers i.mnemonic = false) :
    (em._translate_branch i addr_set).all Stmt.plain = true := by
  unfold _translate_branch
  split <;> first | rfl | (rename_i is_branch; rw [is_branch] at other; cases other)

theorem _translate_plain (i : Insn) (other : transfers i.mnemonic = false) :
    (em._translate i addr_set).all Stmt.plain = true := by
  unfold _translate
  split
  · rfl
  · dsimp only
    split <;> first | rfl | exact result_plain .. | exact branch_plain _ _ _ other | skip
    · split <;> rfl
    · split <;> rfl
    · cases load : _LOADS i.mnemonic with
      | some entry => exact load_plain i load
      | none =>
          cases store : _STORES i.mnemonic with
          | some entry => exact store_plain i store
          | none =>
              dsimp only
              cases _LOGICAL (G i.rd) (G i.rb) i.mnemonic with
              | some e => exact result_plain ..
              | none =>
                  cases _CR_OPS i.mnemonic with
                  | some op => rfl
                  | none => cases _NOP_MNEMONICS i.mnemonic <;> cases is_float i.mnemonic <;> rfl

/-- What stands before the translation runs on into it. -/
theorem chunk_head_plain {labels : Nat → Bool} {a : Nat} {c : Chunk}
    (made : em.chunk addr_set labels a = some c) : c.head.all Stmt.plain = true := by
  obtain ⟨i, _, rfl⟩ := Option.map_eq_some_iff.mp made
  cases labels a <;> cases em.hooks a <;> cases em.traces a <;> rfl

/-! The branch templates. -/

theorem exec_call (target nxt : Nat) (s : CpuState ρ) :
    execSimples rt fc 0 (em._call target nxt) s =
      (if em.functions target then rt.fn target { s with lr := BitVec.ofNat 32 nxt }
        else rt.dispatch { s with lr := BitVec.ofNat 32 nxt } (BitVec.ofNat 32 target), .next) := by
  unfold _call
  cases em.functions target with
  | true => rfl
  | false => rfl

theorem exec_jump_inside {target : Nat} (pc : Nat) (s : CpuState ρ)
    (inside : addr_set target = true) :
    execSimples rt fc 0 (em._jump target addr_set pc) s =
      (if target ≤ pc ∧ ¬ em._hooked then rt.irq_poll s else s, .goto target) := by
  unfold _jump
  rw [if_pos inside]
  split <;> rfl

theorem exec_jump_outside {target : Nat} (pc : Nat) (s : CpuState ρ)
    (outside : addr_set target = false) :
    execSimples rt fc 0 (em._jump target addr_set pc) s =
      (if em.functions target then rt.fn target s
        else rt.guest_trap s (BitVec.ofNat 32 pc), .ret) := by
  unfold _jump
  rw [if_neg (by simp [outside])]
  cases em.functions target with
  | true => rfl
  | false => rfl

theorem bit_clear (bo k : Nat) : bo &&& 2 ^ k = 0 ↔ bo.testBit k = false := by
  rw [Nat.and_two_pow]
  cases bo.testBit k <;> simp

theorem exec_ctr_step (bo : Nat) (ys : List Stmt) (s : CpuState ρ) :
    execStmts rt fc (ctr_step bo ++ ys) s = execStmts rt fc ys (Guest.decrement bo s) := by
  have bit : bo &&& 4 = 0 ↔ Guest.boBit bo 2 = false := bit_clear bo 2
  unfold ctr_step Guest.decrement
  cases h : Guest.boBit bo 2 with
  | true =>
      rw [if_neg (by simp [bit, h]), if_pos rfl]
      rfl
  | false =>
      rw [if_pos (bit.mpr h), if_neg (by simp)]
      rfl

theorem cond_cr {bo bi : Nat} (inside : bi < 32) (s : CpuState ρ) :
    (if bo &&& 16 = 0 then [CondPart.cr_bit_eq bi ((bo >>> 3) &&& 1)] else []).all (·.holds s) =
      (Guest.boBit bo 0 || (s.cr.getMsbD bi == Guest.boBit bo 1)) := by
  have bit : bo &&& 16 = 0 ↔ bo.testBit 4 = false := bit_clear bo 4
  have want : (bo >>> 3) &&& 1 = (bo.testBit 3).toNat := by
    rw [Nat.testBit, Nat.and_comm]
    rcases Nat.mod_two_eq_zero_or_one (bo >>> 3) with h | h <;>
      simp [Nat.one_and_eq_mod_two, h]
  cases ignored : bo.testBit 4 with
  | true =>
      rw [if_neg (by simp [bit, ignored])]
      simp [Guest.boBit, ignored]
  | false =>
      rw [if_pos (bit.mpr ignored)]
      cases cr : s.cr.getMsbD bi <;> cases value : bo.testBit 3 <;>
        simp [CondPart.holds, cr_bit_eq s inside, want, Guest.boBit, ignored, cr, value]

theorem cond_ctr (bo : Nat) (s : CpuState ρ) :
    (if bo &&& 4 = 0 then
      [if bo &&& 2 ≠ 0 then CondPart.ctr_eq_zero else CondPart.ctr_ne_zero] else []).all
        (·.holds s) = (Guest.boBit bo 2 || ((s.ctr != 0) ^^ Guest.boBit bo 3)) := by
  have bit : bo &&& 4 = 0 ↔ bo.testBit 2 = false := bit_clear bo 2
  have sense : bo &&& 2 = 0 ↔ bo.testBit 1 = false := bit_clear bo 1
  cases ignored : bo.testBit 2 with
  | true =>
      rw [if_neg (by simp [bit, ignored])]
      simp [Guest.boBit, ignored]
  | false =>
      rw [if_pos (bit.mpr ignored)]
      cases zero : bo.testBit 1 with
      | true =>
          rw [if_pos (by simp [sense, zero])]
          simp [CondPart.holds, Guest.boBit, ignored, zero, bne, beq_eq_decide]
      | false =>
          rw [if_neg (by simp [sense, zero])]
          simp [CondPart.holds, Guest.boBit, ignored, zero, bne, beq_eq_decide]

/-- The C condition is the architecture's. -/
theorem cond_taken {bo bi : Nat} (inside : bi < 32) (s : CpuState ρ) :
    (_cond bo bi).all (·.holds s) = Guest.taken bo bi s := by
  rw [_cond, List.all_append, cond_cr inside, cond_ctr, Guest.taken, Bool.and_comm]

theorem execStmts_single (x : Stmt) (s : CpuState ρ) :
    execStmts rt fc [x] s = x.exec rt fc s := by
  rw [execStmts]
  rcases x.exec rt fc s with ⟨s', f⟩
  cases f <;> rfl

theorem exec_guarded {bo bi : Nat} (inside : bi < 32) (xs : List Simple) (s : CpuState ρ) :
    execStmts rt fc (guarded (_cond bo bi) xs) s =
      if Guest.taken bo bi s then execSimples rt fc 0 xs s else (s, .next) := by
  rw [← cond_taken inside]
  unfold guarded
  split
  · rename_i always
    rw [always, execStmts_simples]
    rfl
  · rw [execStmts_single, Stmt.exec]

/-! The branches themselves. -/

variable {i : Insn}

theorem exec_b (m : i.mnemonic = .b) (s : CpuState ρ) :
    execStmts rt fc (em._translate_branch i addr_set) s =
      execSimples rt fc 0
        (if i.lk_bit then em._call (i.target.getD 0) (i.addr + 4)
          else em._jump (i.target.getD 0) addr_set i.addr) s := by
  simp only [_translate_branch, m]
  cases i.lk_bit with
  | false => exact execStmts_simples ..
  | true =>
      cases em.savepoints i.addr with
      | false => exact execStmts_simples ..
      | true => exact execStmts_single ..

theorem exec_bc (m : i.mnemonic = .bc) (inside : i.bi < 32) (s : CpuState ρ) :
    execStmts rt fc (em._translate_branch i addr_set) s =
      if Guest.taken i.bo i.bi (Guest.decrement i.bo s) then
        execSimples rt fc 0
          (if i.lk_bit then em._call (i.target.getD 0) (i.addr + 4)
            else em._jump (i.target.getD 0) addr_set i.addr) (Guest.decrement i.bo s)
      else (Guest.decrement i.bo s, .next) := by
  simp only [_translate_branch, m]
  rw [exec_ctr_step, exec_guarded rt fc inside]

theorem exec_bclr (m : i.mnemonic = .bclr) (inside : i.bi < 32) (s : CpuState ρ) :
    execStmts rt fc (em._translate_branch i addr_set) s =
      if Guest.taken i.bo i.bi (Guest.decrement i.bo s) then
        execSimples rt fc 0 (if i.lk_bit then [.dispatch_lr (i.addr + 4)] else [.ret])
          (Guest.decrement i.bo s)
      else (Guest.decrement i.bo s, .next) := by
  simp only [_translate_branch, m]
  rw [exec_ctr_step, exec_guarded rt fc inside]

theorem exec_bcctr_link (m : i.mnemonic = .bcctr) (linked : i.lk_bit = true)
    (inside : i.bi < 32) (s : CpuState ρ) :
    execStmts rt fc (em._translate_branch i addr_set) s =
      if Guest.taken i.bo i.bi s then
        (rt.dispatch { s with lr := BitVec.ofNat 32 (i.addr + 4) } s.ctr, .next)
      else (s, .next) := by
  simp only [_translate_branch, m, linked, if_true]
  rw [exec_guarded rt fc inside]
  rfl

theorem exec_bcctr_switch (m : i.mnemonic = .bcctr) (unlinked : i.lk_bit = false)
    {targets : List Nat} (resolved : em.tables i.addr = some targets) (s : CpuState ρ) :
    execStmts rt fc (em._translate_branch i addr_set) s =
      (Stmt.switch_ctr ((targets.dedup.insertionSort (· ≤ ·)).map
          fun t => (t, em._jump t addr_set i.addr)) [.guest_trap i.addr, .ret]).exec rt fc s := by
  simp only [_translate_branch, m, unlinked, resolved]
  exact execStmts_single ..

theorem exec_bcctr_unresolved (m : i.mnemonic = .bcctr) (unlinked : i.lk_bit = false)
    (unresolved : em.tables i.addr = none) (s : CpuState ρ) :
    execStmts rt fc (em._translate_branch i addr_set) s =
      (rt.guest_unimplemented s (BitVec.ofNat 32 i.addr), .next) := by
  simp only [_translate_branch, m, unlinked, unresolved]
  rfl

end Emitter

/-! What decoding guarantees. -/

theorem decode_cases (word a : Nat) :
    (∃ w, decode word a = { addr := a, word := w }) ∨
      ∃ w m form i, decode word a = decode_fields w m form i ∧ i.addr = a ∧ i.bi = 0 := by
  simp only [decode]
  cases decode_entry (word &&& 0xFFFFFFFF) with
  | none => exact .inl ⟨_, rfl⟩
  | some entry =>
      simp only
      split
      · exact .inl ⟨_, rfl⟩
      · exact .inr ⟨word &&& 0xFFFFFFFF, entry.1, entry.2.1, _, rfl, rfl, rfl⟩

theorem _ra_lt (w : Nat) : _ra w < 32 :=
  Nat.lt_of_le_of_lt Nat.and_le_right (by decide)

theorem decode_bi_lt (word a : Nat) : (decode word a).bi < 32 := by
  rcases decode_cases word a with ⟨w, invalid⟩ | ⟨w, m, form, i, fields, _, clear⟩
  · rw [invalid]
    exact Nat.zero_lt_succ _
  · rw [fields]
    cases form with
    | B | XL => exact _ra_lt w
    | XFX | X | SC =>
        dsimp only [decode_fields]
        repeat' split
        all_goals exact clear ▸ Nat.zero_lt_succ _
    | _ => exact clear ▸ Nat.zero_lt_succ _

theorem CodeView.get_spec {dol : Dol} {a : Nat} {i : Insn} (found : CodeView.get dol a = some i) :
    a % 4 = 0 ∧ i.addr = a ∧ i.bi < 32 := by
  unfold CodeView.get at found
  split at found
  · cases found
  · rename_i aligned
    split at found
    · cases found
      exact ⟨not_not.mp aligned, decode_addr .., decode_bi_lt ..⟩
    · cases found

end SoaPort.Recomp
