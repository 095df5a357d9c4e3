import SoaPort.Recomp.Float
import SoaPort.Recomp.Tracking

namespace SoaPort.Recomp

open SoaPort.Ppc

/-! The general-purpose registers the emitted statements assign, against the
registers the dataflow table lists. -/

def FSimple.gprs : FSimple → List Int
  | .set_gpr n _ => [n]
  | _ => []

def FStmt.gprs : FStmt → List Int
  | .simple x => x.gprs
  | .block _ body => body.flatMap FSimple.gprs

/-- The registers `ppc_lmw` loads. -/
def lmw_gprs (rd : Int) : List Int :=
  (List.range (32 - rd).toNat).map fun (k : Nat) => rd + k

/-- The left-hand sides a statement holds. What a called function does to the
registers is that function's own. -/
def Simple.gprs : Simple → List Int
  | .assign (.gpr n) _ => [n]
  | .ppc_lmw rd _ => lmw_gprs rd
  | .float i => (_translate_float i).flatMap FStmt.gprs
  | _ => []

def Stmt.gprs : Stmt → List Int
  | .simple x => x.gprs
  | .block _ body => body.flatMap Simple.gprs
  | .ite _ body => body.flatMap Simple.gprs
  | .switch_ctr cases dflt =>
      (cases.flatMap fun c => c.2.flatMap Simple.gprs) ++ dflt.flatMap Simple.gprs
  | .savepoint body => body.flatMap Simple.gprs

def assigned (xs : List Stmt) : List Int := xs.flatMap Stmt.gprs

/-- The emitter has a template for the instruction, and it applies. -/
def Emitter.translates (em : Emitter) (i : Insn) (addr_set : Nat → Bool) : Prop :=
  em._translate i addr_set ≠ Emitter._unsupported i

instance (em : Emitter) (i : Insn) (addr_set : Nat → Bool) :
    Decidable (em.translates i addr_set) :=
  inferInstanceAs (Decidable (_ ≠ _))

variable (em : Emitter) (addr_set : Nat → Bool)

/-! Branches assign none. -/

theorem gprs_call (target next_pc : Nat) :
    (em._call target next_pc).flatMap Simple.gprs = [] := by
  unfold Emitter._call
  split
  · rfl
  · rfl

theorem gprs_jump (target pc : Nat) :
    (em._jump target addr_set pc).flatMap Simple.gprs = [] := by
  unfold Emitter._jump
  split
  · split
    · rfl
    · rfl
  · split
    · rfl
    · rfl

theorem assigned_map_simple (xs : List Simple) :
    assigned (xs.map .simple) = xs.flatMap Simple.gprs := by
  induction xs with
  | nil => rfl
  | cons x xs ih => exact congrArg (x.gprs ++ ·) ih

theorem assigned_append (xs ys : List Stmt) : assigned (xs ++ ys) = assigned xs ++ assigned ys :=
  List.flatMap_append

theorem assigned_guarded (cond : List CondPart) {body : List Simple}
    (none : body.flatMap Simple.gprs = []) : assigned (Emitter.guarded cond body) = [] := by
  unfold Emitter.guarded
  split
  · rw [assigned_map_simple, none]
  · exact (List.append_nil _).trans none

theorem assigned_ctr_step (bo : Nat) : assigned (Emitter.ctr_step bo) = [] := by
  unfold Emitter.ctr_step
  split
  · rfl
  · rfl

theorem assigned_branch (i : Insn) : assigned (em._translate_branch i addr_set) = [] := by
  unfold Emitter._translate_branch
  dsimp only
  split
  · split
    · exact (List.append_nil _).trans (gprs_call em _ _)
    · split
      · rw [assigned_map_simple, gprs_call]
      · rw [assigned_map_simple, gprs_jump]
  · rw [assigned_append, assigned_ctr_step, List.nil_append]
    apply assigned_guarded
    split
    · exact gprs_call em _ _
    · exact gprs_jump em addr_set _ _
  · rw [assigned_append, assigned_ctr_step, List.nil_append]
    apply assigned_guarded
    split
    · rfl
    · rfl
  · split
    · exact assigned_guarded _ rfl
    · split
      · refine (List.append_nil _).trans ((List.append_nil _).trans ?_)
        rw [List.flatMap_map]
        apply List.flatMap_eq_nil_iff.mpr
        intro t _
        exact gprs_jump em addr_set _ _
      · rfl
  all_goals rfl

/-! The other templates. -/

theorem assigned_result (i : Insn) (n : Int) (e : Expr) :
    assigned (Emitter.result i n e) = [n] := by
  unfold Emitter.result
  split
  · rfl
  · rfl

theorem gprs_cr1_rc (i : Insn) : (cr1_rc i).flatMap FStmt.gprs = [] := by
  unfold cr1_rc
  split
  · rfl
  · rfl

theorem gprs_spr_lval (spr : Int) (e : Expr) : (Simple.assign (spr_lval spr) e).gprs = [] := by
  unfold spr_lval
  split
  next l field =>
    unfold _SPR_FIELDS at field
    split_ifs at field
    all_goals
      cases field
      rfl
  next =>
    split
    · rfl
    · rfl

theorem lmw_gprs_eq {rd : Int} (field : 0 ≤ rd) :
    lmw_gprs rd = (List.range (32 - rd.toNat)).map fun (k : Nat) => rd + k := by
  have count : (32 - rd).toNat = 32 - rd.toNat := by omega
  rw [lmw_gprs, count]

theorem mem_of_eq {xs ys : List Int} (same : xs = ys) (n : Int) : n ∈ xs ↔ n ∈ ys := by
  rw [same]

variable {em addr_set}

theorem mem_assigned {i : Insn} (valid : i.valid = true) (multiple : i.mnemonic = .lmw → 0 ≤ i.rd)
    (translated : em.translates i addr_set) (n : Int) :
    n ∈ assigned (em._translate i addr_set) ↔ n ∈ gpr_defs i := by
  have branch := assigned_branch em addr_set i
  obtain ⟨addr, word, m, form, v, rd, ra, rb, rc, imm, mb, me, bo, bi, crf_d, crf_s, spr, gqr,
    quant_w, rc_bit, oe_bit, lk_bit, aa_bit⟩ := i
  cases valid
  cases m with
  | add | subf | neg | addc | adde | subfc | subfe | addze | subfze | addme | subfme | mullw
  | mulhw | mulhwu | divw | divwu =>
      exact mem_of_eq (assigned_result _ rd _) n
  | slw | srw | sraw | srawi | cntlzw | extsb | extsh | rlwinm | rlwimi | rlwnm
  | and | andc | or | orc | xor | nand | nor | eqv =>
      exact mem_of_eq (assigned_result _ ra _) n
  -- one left-hand side, or none
  | addi | addis | addic | addicDot | subfic | mulli
  | lwz | lbz | lhz | lha | lwzx | lbzx | lhzx | lhax | lwbrx | lhbrx | lwarx
  | mfcr | mfmsr | mfsr | mftb | mftbu
  | ori | xori | oris | xoris | andiDot | andisDot
  | stwu | stbu | sthu | stwux | stbux | sthux
  | lfsu | lfsux | lfdu | lfdux | stfsu | stfsux | stfdu | stfdux
  | psq_lu | psq_lux | psq_stu | psq_stux
  | cmpi | cmpli | cmp | cmpl | stwcxDot | stmw | dcbz | dcbz_l
  | stw | stb | sth | stwx | stbx | sthx | stwbrx | sthbrx
  | mtcrf | mcrf | mcrxr | mtsr | mtmsr
  | crand | crandc | cror | crorc | crxor | crnand | crnor | creqv
  | sync | isync | eieio | dcbf | dcbst | dcbi | dcbt | dcbtst | icbi | tlbsync
  | lfs | lfsx | lfd | lfdx | stfs | stfsx | stfd | stfdx | stfiwx
  | psq_l | psq_lx | psq_st | psq_stx
  | fmr | fneg | fabs | fnabs | frsp | fctiw | fctiwz | fcmpu | fcmpo
  | mffs | mtfsf | mtfsb0 | mtfsb1
  | ps_cmpu0 | ps_cmpo0 | ps_cmpu1 | ps_cmpo1 => exact Iff.rfl
  -- the loaded value, then the address
  | lwzu | lbzu | lhzu | lhau | lwzux | lbzux | lhzux | lhaux =>
      exact List.Perm.mem_iff (List.Perm.swap ra rd [])
  | lmw =>
      exact mem_of_eq ((List.append_nil _).trans (lmw_gprs_eq (multiple rfl))) n
  | fadds | fsubs | fmuls | fdivs | fmadds | fmsubs | fnmadds | fnmsubs | fres
  | fadd | fsub | fmul | fdiv | fmadd | fmsub | fnmadd | fnmsub | frsqrte | fsel
  | ps_add | ps_sub | ps_mul | ps_div | ps_madd | ps_msub | ps_nmadd | ps_nmsub
  | ps_muls0 | ps_muls1 | ps_madds0 | ps_madds1 | ps_sum0 | ps_sum1
  | ps_neg | ps_abs | ps_nabs | ps_mr | ps_res | ps_rsqrte | ps_sel
  | ps_merge00 | ps_merge01 | ps_merge10 | ps_merge11 =>
      exact mem_of_eq ((List.append_nil _).trans (gprs_cr1_rc _)) n
  | mfspr =>
      rcases eq_or_ne spr 22 with rfl | other
      · exact Iff.rfl
      · exact mem_of_eq (congrArg assigned (if_neg other)) n
  | mtspr =>
      rcases eq_or_ne spr 22 with rfl | other
      · exact Iff.rfl
      · have none : assigned [.simple (.assign (spr_lval spr) (G rd))] = [] :=
          (List.append_nil _).trans (gprs_spr_lval spr (G rd))
        exact mem_of_eq ((congrArg assigned (if_neg other)).trans none) n
  | b | bc | bclr | bcctr | rfi | sc | tw | twi =>
      exact mem_of_eq branch n
  | unknown | lswi | lswx | stswi | stswx | mfsrin | mtsrin | mcrfs | mtfsfi | tlbie
  | eciwx | ecowx => exact absurd rfl translated

/-! A decoded word. -/

theorem form_of_lmw {w : Nat} {form : Form} {allowed : Nat}
    (found : decode_entry w = some (.lmw, form, allowed)) : form = .D := by
  have listed := (tabled_of_decode_entry found).all (p := fun e => e.1 ≠ .lmw || e.2.1 = .D)
    (by decide +kernel)
  simpa using listed

theorem decode_lmw_rd {w addr : Nat} (m : (decode w addr).mnemonic = .lmw) :
    0 ≤ (decode w addr).rd := by
  obtain unknown | ⟨m', form, allowed, i, found, named, shape⟩ := decode_shape w addr
  · rw [m] at unknown
    cases unknown
  · rw [shape] at m ⊢
    obtain same | other := decode_fields_mnemonic (w &&& 0xFFFFFFFF) m' form i named
    · obtain rfl : Mnemonic.lmw = m' := m.symm.trans same
      obtain rfl := form_of_lmw found
      exact Int.natCast_nonneg _
    · rw [m] at other
      cases other

theorem not_translates_invalid {i : Insn} (invalid : i.valid = false) :
    ¬ em.translates i addr_set := by
  intro translated
  apply translated
  unfold Emitter._translate
  rw [if_pos]
  rw [invalid]
  exact Bool.false_ne_true

/-- The statements emitted for a word assign the registers `gpr_defs` lists for
it, and no others. -/
theorem translated_gprs_iff (em : Emitter) (word addr : Nat) (addr_set : Nat → Bool)
    (translated : em.translates (decode word addr) addr_set) (n : Int) :
    n ∈ assigned (em._translate (decode word addr) addr_set) ↔
      n ∈ gpr_defs (decode word addr) := by
  cases valid : (decode word addr).valid with
  | false => exact absurd translated (not_translates_invalid valid)
  | true => exact mem_assigned valid decode_lmw_rd translated n

/-- `lmw r29, 8(r1)` assigns r30. -/
theorem translated_gprs_iff_lmw :
    (30 : Int) ∈ assigned
        (Emitter._translate ⟨fun _ => false, fun _ => none, fun _ => none, fun _ => false,
          fun _ => false, fun _ => false, false⟩ (decode 0xBBA10008 0x80003100) fun _ => false) ↔
      (30 : Int) ∈ gpr_defs (decode 0xBBA10008 0x80003100) :=
  translated_gprs_iff _ 0xBBA10008 0x80003100 _ (by decide) 30

end SoaPort.Recomp
