import SoaPort.Recomp.Assigned

namespace SoaPort.Recomp

open SoaPort.Ppc

/-! Running the emitted statements changes no register but those they assign. -/

section Frame

variable {ρ : Type} {rt : Runtime ρ} (quiet : Quiet rt)

theorem carry_out_gpr (s : CpuState ρ) (r : BitVec 64) : (carry_out s r).2.gpr = s.gpr := by
  simp only [carry_out, xer_set_ca]

theorem ppc_srawi_gpr (s : CpuState ρ) (v : Word) (sh : Nat) :
    (ppc_srawi s v sh).2.gpr = s.gpr := by
  simp only [ppc_srawi, xer_set_ca]

theorem ppc_sraw_gpr (s : CpuState ρ) (v n : Word) : (ppc_sraw s v n).2.gpr = s.gpr := by
  unfold ppc_sraw
  dsimp only
  split
  · simp only [xer_set_ca]
  · exact ppc_srawi_gpr s v _

theorem Fn1.eval_gpr (s : CpuState ρ) (a : Word) (f : Fn1) : (f.eval s a).2.gpr = s.gpr := by
  cases f with
  | ppc_addze | ppc_subfze | ppc_addme | ppc_subfme => exact carry_out_gpr s _
  | ppc_cntlzw | int8 | int16 | bswap16 | bswap32 => simp only [Fn1.eval]

theorem Fn2.eval_gpr (s : CpuState ρ) (a b : Word) (f : Fn2) : (f.eval s a b).2.gpr = s.gpr := by
  cases f with
  | ppc_addc | ppc_adde | ppc_subfc | ppc_subfe => exact carry_out_gpr s _
  | ppc_sraw => exact ppc_sraw_gpr s a b
  | ppc_srawi => exact ppc_srawi_gpr s a _
  | ppc_mulhw | ppc_mulhwu | ppc_divw | ppc_divwu | ppc_slw | ppc_srw | rotl32
  | add | sub | mul | and | or | xor | shr => simp only [Fn2.eval]

include quiet in
theorem mem_r8_gpr (s : CpuState ρ) (ea : Word) : (mem_r8 rt s ea).2.gpr = s.gpr := by
  unfold mem_r8
  split
  · exact (quiet.mmio_read8 s ea).1
  · rfl

include quiet in
theorem mem_r16_gpr (s : CpuState ρ) (ea : Word) : (mem_r16 rt s ea).2.gpr = s.gpr := by
  unfold mem_r16
  split
  · exact (quiet.mmio_read16 s ea).1
  · rfl

include quiet in
theorem mem_r32_gpr (s : CpuState ρ) (ea : Word) : (mem_r32 rt s ea).2.gpr = s.gpr := by
  unfold mem_r32
  split
  · exact (quiet.mmio_read32 s ea).1
  · rfl

include quiet in
theorem Expr.eval_gpr (t : Word) (e : Expr) (s : CpuState ρ) :
    (e.eval rt t s).2.gpr = s.gpr := by
  induction e generalizing s with
  | u32 | lval | tmp | cr_get_field => rfl
  | not a iha => exact iha s
  | call1 f a iha => exact (Fn1.eval_gpr _ _ f).trans (iha s)
  | call2 f a b iha ihb => exact (Fn2.eval_gpr _ _ _ f).trans ((ihb _).trans (iha s))
  | mem_r8 e ih => exact (mem_r8_gpr quiet _ _).trans (ih s)
  | mem_r16 e ih => exact (mem_r16_gpr quiet _ _).trans (ih s)
  | mem_r32 e ih => exact (mem_r32_gpr quiet _ _).trans (ih s)
  | dec_read => exact (quiet.dec_read s).1
  | guest_timebase_lo => exact (quiet.guest_timebase_lo s).1
  | guest_timebase_hi => exact (quiet.guest_timebase_hi s).1

include quiet in
theorem mem_w8_gpr (s : CpuState ρ) (ea : Word) (v : BitVec 8) :
    (mem_w8 rt s ea v).gpr = s.gpr := by
  unfold mem_w8
  split
  · split
    · exact (quiet.gx_pipe_write s 1 _).1
    · exact (quiet.mmio_write8 s ea v).1
  · rfl

include quiet in
theorem mem_w16_gpr (s : CpuState ρ) (ea : Word) (v : BitVec 16) :
    (mem_w16 rt s ea v).gpr = s.gpr := by
  unfold mem_w16
  split
  · split
    · exact (quiet.gx_pipe_write s 2 _).1
    · exact (quiet.mmio_write16 s ea v).1
  · rfl

include quiet in
theorem mem_w32_gpr (s : CpuState ρ) (ea : Word) (v : BitVec 32) :
    (mem_w32 rt s ea v).gpr = s.gpr := by
  unfold mem_w32
  split
  · split
    · exact (quiet.gx_pipe_write s 4 _).1
    · exact (quiet.mmio_write32 s ea v).1
  · rfl

include quiet in
theorem stmw_loop_gpr (n : Nat) (s : CpuState ρ) (r : Int) (ea : Word) :
    (stmw_loop rt n s r ea).gpr = s.gpr := by
  induction n generalizing s r ea with
  | zero => rfl
  | succ n ih => exact (ih _ _ _).trans (mem_w32_gpr quiet s ea _)

include quiet in
theorem lmw_loop_gpr (n : Nat) (s : CpuState ρ) (r : Int) (ea : Word) {k : Int}
    (outside : k < r ∨ r + n ≤ k) : (lmw_loop rt n s r ea).gpr k = s.gpr k := by
  induction n generalizing s r ea with
  | zero => rfl
  | succ n ih =>
      have other : k ≠ r := by omega
      refine (ih _ (r + 1) _ (by omega)).trans ?_
      refine (Function.update_of_ne other _ _).trans ?_
      exact congrFun (mem_r32_gpr quiet s ea) k

/-! Floating-point statements. -/

/-- The eight-byte device accesses leave the registers alone. -/
structure Quiet64 (m64 : Mmio64 ρ) : Prop where
  mmio_read64 : ∀ s ea, (m64.mmio_read64 s ea).2.gpr = s.gpr
  mmio_write64 : ∀ s ea v, (m64.mmio_write64 s ea v).gpr = s.gpr

variable (cd : CDouble) {m64 : Mmio64 ρ} (quiet64 : Quiet64 m64)

include quiet64 in
theorem mem_r64_gpr (s : CpuState ρ) (ea : Word) : (mem_r64 m64 s ea).2.gpr = s.gpr := by
  unfold mem_r64
  split
  · exact quiet64.mmio_read64 s ea
  · rfl

include quiet quiet64 in
theorem mem_w64_gpr (s : CpuState ρ) (ea : Word) (v : BitVec 64) :
    (mem_w64 rt m64 s ea v).gpr = s.gpr := by
  unfold mem_w64
  split
  · split
    · exact (quiet.gx_pipe_write s 8 v).1
    · exact quiet64.mmio_write64 s ea v
  · rfl

include quiet in
theorem psq_load1_gpr (s : CpuState ρ) (ea type : Word) (deq : Double) :
    (psq_load1 rt cd s ea type deq).2.gpr = s.gpr := by
  unfold psq_load1
  split
  · exact mem_r8_gpr quiet s ea
  split
  · exact mem_r16_gpr quiet s ea
  split
  · exact mem_r8_gpr quiet s ea
  split
  · exact mem_r16_gpr quiet s ea
  · exact mem_r32_gpr quiet s ea

include quiet in
theorem psq_load_gpr (s : CpuState ρ) (frd : Int) (ea : Word) (gqr : Int) (w : Nat) :
    (psq_load rt cd s frd ea gqr w).gpr = s.gpr := by
  unfold psq_load
  dsimp only
  split
  · split
    · exact mem_r32_gpr quiet s ea
    · exact (mem_r32_gpr quiet _ _).trans (mem_r32_gpr quiet s ea)
  · split
    · exact psq_load1_gpr quiet cd s ea _ _
    · exact (psq_load1_gpr quiet cd _ _ _ _).trans (psq_load1_gpr quiet cd s ea _ _)

include quiet in
theorem psq_store1_gpr (s : CpuState ρ) (ea type : Word) (quant v : Double) :
    (psq_store1 rt cd s ea type quant v).2.gpr = s.gpr := by
  unfold psq_store1
  dsimp only
  split
  · exact mem_w8_gpr quiet s ea _
  split
  · exact mem_w16_gpr quiet s ea _
  split
  · exact mem_w8_gpr quiet s ea _
  split
  · exact mem_w16_gpr quiet s ea _
  · exact mem_w32_gpr quiet s ea _

include quiet in
theorem psq_store_gpr (s : CpuState ρ) (frs : Int) (ea : Word) (gqr : Int) (w : Nat) :
    (psq_store rt cd s frs ea gqr w).gpr = s.gpr := by
  unfold psq_store
  dsimp only
  split
  · split
    · exact (mem_w32_gpr quiet _ _ _).trans (mem_w32_gpr quiet s ea _)
    · exact mem_w32_gpr quiet s ea _
  · split
    · exact (psq_store1_gpr quiet cd _ _ _ _ _).trans (psq_store1_gpr quiet cd s ea _ _ _)
    · exact psq_store1_gpr quiet cd s ea _ _ _

include quiet quiet64 in
theorem FSimple.exec_gpr (t : Word) (s : CpuState ρ) (x : FSimple) {n : Int}
    (other : n ∉ x.gprs) : (x.exec rt cd m64 t s).gpr n = s.gpr n := by
  have addressed (ea : Expr) : (ea.eval rt t s).2.gpr = s.gpr := Expr.eval_gpr quiet t ea s
  cases x with
  | load_f32 rd ea => exact congrFun ((mem_r32_gpr quiet _ _).trans (addressed ea)) n
  | load_f64 rd ea => exact congrFun ((mem_r64_gpr quiet64 _ _).trans (addressed ea)) n
  | mem_wf32 ea e => exact congrFun ((mem_w32_gpr quiet _ _ _).trans (addressed ea)) n
  | mem_wf64 ea e => exact congrFun ((mem_w64_gpr quiet quiet64 _ _ _).trans (addressed ea)) n
  | store_bits ea m => exact congrFun ((mem_w32_gpr quiet _ _ _).trans (addressed ea)) n
  | psq_load rd ea gqr w => exact congrFun ((psq_load_gpr quiet cd _ _ _ _ _).trans (addressed ea)) n
  | psq_store rs ea gqr w =>
      exact congrFun ((psq_store_gpr quiet cd _ _ _ _ _).trans (addressed ea)) n
  | set_gpr m e =>
      have apart : n ≠ m := fun same => other (List.mem_singleton.mpr same)
      exact (Function.update_of_ne apart _ _).trans (congrFun (addressed e) n)
  | set_ps0 | set_single | set_pair | set_fctiw | set_fpscr_bits | cr_fcmp | fpscr_fields
  | fpscr_clear | fpscr_set | cr1_fpscr => rfl

theorem foldl_gpr {τ : Type} (step : CpuState ρ → τ → CpuState ρ) (gprs : τ → List Int)
    {n : Int} (keeps : ∀ s x, n ∉ gprs x → (step s x).gpr n = s.gpr n) (xs : List τ)
    (s : CpuState ρ) (other : n ∉ xs.flatMap gprs) : (xs.foldl step s).gpr n = s.gpr n := by
  induction xs generalizing s with
  | nil => rfl
  | cons x xs ih =>
      rw [List.flatMap_cons, List.mem_append, not_or] at other
      exact (ih (step s x) other.2).trans (keeps s x other.1)

include quiet quiet64 in
theorem FStmt.exec_gpr (s : CpuState ρ) (x : FStmt) {n : Int} (other : n ∉ x.gprs) :
    (x.exec rt cd m64 s).gpr n = s.gpr n := by
  cases x with
  | simple x => exact FSimple.exec_gpr quiet cd quiet64 0 s x other
  | block e body =>
      have kept := foldl_gpr _ FSimple.gprs
        (fun s' x => FSimple.exec_gpr quiet cd quiet64 (e.eval rt 0 s).1 s' x) body
        (e.eval rt 0 s).2 other
      exact kept.trans (congrFun (Expr.eval_gpr quiet 0 e s) n)

/-! Statements that stay in the function. -/

/-- The statement calls no other function and does not enter the runtime for
more than a device access. -/
def Simple.stays : Simple → Bool
  | .call _ | .dispatch _ | .dispatch_lr _ | .irq_poll | .guest_trap _ | .guest_syscall _
  | .guest_unimplemented _ | .hook _ | .trace_hit _ => false
  | _ => true

def Stmt.stays : Stmt → Bool
  | .simple x => x.stays
  | .block _ body => body.all Simple.stays
  | _ => false

theorem LVal.set_gpr {l : LVal} {e : Expr} {n : Int} (other : n ∉ (Simple.assign l e).gprs)
    (s : CpuState ρ) (v : Word) : (l.set s v).gpr n = s.gpr n := by
  cases l with
  | gpr m => exact Function.update_of_ne (fun same => other (List.mem_singleton.mpr same)) v s.gpr
  | xer | lr | ctr | cr | msr | hid2 | wpar | gqr | spr | sr => rfl

theorem mem_lmw_gprs {rd n : Int} (outside : n ∉ lmw_gprs rd) :
    n < rd ∨ rd + (32 - rd).toNat ≤ n := by
  by_contra inside
  push Not at inside
  apply outside
  refine List.mem_map.mpr ⟨(n - rd).toNat, List.mem_range.mpr (by omega), by omega⟩

include quiet quiet64 in
theorem Simple.exec_gpr (t : Word) (s : CpuState ρ) (x : Simple) (stays : x.stays = true)
    {n : Int} (other : n ∉ x.gprs) :
    (x.exec rt (float_code rt cd m64) t s).1.gpr n = s.gpr n := by
  have value (e : Expr) (s : CpuState ρ) : (e.eval rt t s).2.gpr = s.gpr :=
    Expr.eval_gpr quiet t e s
  cases x with
  | assign l e => exact (LVal.set_gpr other _ _).trans (congrFun (value e s) n)
  | CR0_RC e | cr_set_field f e => exact congrFun (value e s) n
  | cr_cmp_s f a b | cr_cmp_u f a b => exact congrFun ((value b _).trans (value a s)) n
  | mem_w8 ea v =>
      exact congrFun ((mem_w8_gpr quiet _ _ _).trans ((value v _).trans (value ea s))) n
  | mem_w16 ea v =>
      exact congrFun ((mem_w16_gpr quiet _ _ _).trans ((value v _).trans (value ea s))) n
  | mem_w32 ea v =>
      exact congrFun ((mem_w32_gpr quiet _ _ _).trans ((value v _).trans (value ea s))) n
  | ppc_lmw rd ea =>
      exact (lmw_loop_gpr quiet _ _ rd _ (mem_lmw_gprs other)).trans (congrFun (value ea s) n)
  | ppc_stmw rs ea => exact congrFun ((stmw_loop_gpr quiet _ _ rs _).trans (value ea s)) n
  | mem_zero32 ea =>
      have zeroed (s : CpuState ρ) (a : Word) : (Recomp.mem_zero32 s a).gpr = s.gpr := by
        unfold Recomp.mem_zero32
        split
        · rfl
        · rfl
      exact congrFun ((zeroed _ _).trans (value ea s)) n
  | dec_write e => exact congrFun ((quiet.dec_write _ _).1.trans (value e s)) n
  | float i => exact foldl_gpr _ FStmt.gprs (fun s x => FStmt.exec_gpr quiet cd quiet64 s x) _ s other
  | cr_set_bit | stwcx_cr | setPc | ctr_dec | goto | ret => rfl
  | call | dispatch | dispatch_lr | irq_poll | guest_trap | guest_syscall | guest_unimplemented
  | hook | trace_hit => cases stays

include quiet quiet64 in
theorem execSimples_gpr (t : Word) (xs : List Simple) (s : CpuState ρ)
    (stays : xs.all Simple.stays = true) {n : Int} (other : n ∉ xs.flatMap Simple.gprs) :
    (execSimples rt (float_code rt cd m64) t xs s).1.gpr n = s.gpr n := by
  induction xs generalizing s with
  | nil => rfl
  | cons x xs ih =>
      rw [List.all_cons, Bool.and_eq_true] at stays
      rw [List.flatMap_cons, List.mem_append, not_or] at other
      have kept := Simple.exec_gpr quiet cd quiet64 t s x stays.1 other.1
      rw [execSimples]
      split
      next s' ran =>
        rw [ran] at kept
        exact (ih s' stays.2 other.2).trans kept
      next s' f left ran =>
        rw [ran] at kept
        exact kept

include quiet quiet64 in
theorem execStmts_gpr (xs : List Stmt) (s : CpuState ρ) (stays : xs.all Stmt.stays = true)
    {n : Int} (other : n ∉ assigned xs) :
    (execStmts rt (float_code rt cd m64) xs s).1.gpr n = s.gpr n := by
  induction xs generalizing s with
  | nil => rfl
  | cons x xs ih =>
      rw [List.all_cons, Bool.and_eq_true] at stays
      rw [assigned, List.flatMap_cons, List.mem_append, not_or] at other
      have kept : (x.exec rt (float_code rt cd m64) s).1.gpr n = s.gpr n := by
        cases x with
        | simple x => exact Simple.exec_gpr quiet cd quiet64 0 s x stays.1 other.1
        | block e body =>
            have run := execSimples_gpr quiet cd quiet64 (e.eval rt 0 s).1 body (e.eval rt 0 s).2
              stays.1 other.1
            exact run.trans (congrFun (Expr.eval_gpr quiet 0 e s) n)
        | ite | switch_ctr | savepoint => cases stays.1
      rw [execStmts]
      split
      next s' ran =>
        rw [ran] at kept
        exact (ih s' stays.2 other.2).trans kept
      next s' f left ran =>
        rw [ran] at kept
        exact kept

/-! The templates. -/

/-- The instructions whose statements call a function or enter the runtime. -/
def leaves : Mnemonic → Bool
  | .b | .bc | .bclr | .bcctr | .sc | .tw | .twi => true
  | _ => false

variable {em : Emitter} {addr_set : Nat → Bool}

theorem stays_result (i : Insn) (n : Int) (e : Expr) :
    (Emitter.result i n e).all Stmt.stays = true := by
  unfold Emitter.result
  split
  · rfl
  · rfl

theorem stays_translate {i : Insn} (valid : i.valid = true) (inside : leaves i.mnemonic = false)
    (translated : em.translates i addr_set) :
    (em._translate i addr_set).all Stmt.stays = true := by
  obtain ⟨addr, word, m, form, v, rd, ra, rb, rc, imm, mb, me, bo, bi, crf_d, crf_s, spr, gqr,
    quant_w, rc_bit, oe_bit, lk_bit, aa_bit⟩ := i
  cases valid
  cases m with
  | add | subf | neg | addc | adde | subfc | subfe | addze | subfze | addme | subfme | mullw
  | mulhw | mulhwu | divw | divwu => exact stays_result _ rd _
  | slw | srw | sraw | srawi | cntlzw | extsb | extsh | rlwinm | rlwimi | rlwnm
  | and | andc | or | orc | xor | nand | nor | eqv => exact stays_result _ ra _
  | mfspr | mtspr =>
      unfold Emitter._translate
      simp only [not_true_eq_false, if_false]
      split
      · rfl
      · rfl
  | b | bc | bclr | bcctr | sc | tw | twi => cases inside
  | unknown | lswi | lswx | stswi | stswx | mfsrin | mtsrin | mcrfs | mtfsfi | tlbie
  | eciwx | ecowx => exact absurd rfl translated
  | _ => rfl

include quiet quiet64 in
/-- Running the statements of a translated word that makes no call changes only
registers the dataflow table lists. -/
theorem translated_frame {word addr : Nat} (inside : leaves (decode word addr).mnemonic = false)
    (translated : em.translates (decode word addr) addr_set) (s : CpuState ρ) {n : Int}
    (other : n ∉ gpr_defs (decode word addr)) :
    (execStmts rt (float_code rt cd m64) (em._translate (decode word addr) addr_set) s).1.gpr n =
      s.gpr n := by
  cases valid : (decode word addr).valid with
  | false => exact absurd translated (not_translates_invalid valid)
  | true =>
      apply execStmts_gpr quiet cd quiet64
      · exact stays_translate valid inside translated
      · exact fun listed => other ((mem_assigned valid decode_lmw_rd translated n).mp listed)

end Frame

end SoaPort.Recomp
