import SoaPort.Recomp.Assigned

namespace SoaPort.Recomp

open SoaPort.Ppc SoaPort.Lib

/-! Record forms: the condition register an instruction with its Rc bit set
leaves behind. -/

/-- The integer instructions with an Rc bit. -/
def integer_record : Mnemonic → Bool
  | .add | .addc | .adde | .addme | .addze | .subf | .subfc | .subfe | .subfme | .subfze
  | .neg | .mullw | .mulhw | .mulhwu | .divw | .divwu
  | .and | .andc | .or | .orc | .xor | .nand | .nor | .eqv
  | .slw | .srw | .sraw | .srawi | .cntlzw | .extsb | .extsh
  | .rlwinm | .rlwimi | .rlwnm => true
  | _ => false

/-- The floating-point and paired-single instructions whose template tests Rc. -/
def float_record : Mnemonic → Bool
  | .fadds | .fsubs | .fmuls | .fdivs | .fmadds | .fmsubs | .fnmadds | .fnmsubs | .fres
  | .fadd | .fsub | .fmul | .fdiv | .fmadd | .fmsub | .fnmadd | .fnmsub | .frsqrte | .fsel
  | .ps_add | .ps_sub | .ps_mul | .ps_div | .ps_madd | .ps_msub | .ps_nmadd | .ps_nmsub
  | .ps_muls0 | .ps_muls1 | .ps_madds0 | .ps_madds1 | .ps_sum0 | .ps_sum1
  | .ps_neg | .ps_abs | .ps_nabs | .ps_mr | .ps_res | .ps_rsqrte | .ps_sel
  | .ps_merge00 | .ps_merge01 | .ps_merge10 | .ps_merge11 => true
  | _ => false

/-- Those whose template does not. -/
def drops_cr1 : Mnemonic → Bool
  | .fmr | .fneg | .fabs | .fnabs | .frsp | .fctiw | .fctiwz
  | .mffs | .mtfsf | .mtfsb0 | .mtfsb1 => true
  | _ => false

/-- The last statement emitted is the update of the condition register. -/
def EndsRecorded (em : Emitter) (i : Insn) (addr_set : Nat → Bool) : Prop :=
  if Emitter.is_float i.mnemonic then
    em._translate i addr_set = [.simple (.float i)] ∧
      ∃ body, _translate_float i = body ++ [.simple .cr1_fpscr]
  else
    ∃ n body, gpr_defs i = [n] ∧ em._translate i addr_set = body ++ [.simple (.CR0_RC (G n))]

/-- CR1 is FPSCR bits 0-3; CR0 compares the result with zero and copies XER[SO]. -/
def Recorded {ρ : Type} (i : Insn) (s : CpuState ρ) : Prop :=
  if Emitter.is_float i.mnemonic then cr_get_field s 1 = s.fpscr >>> 28
  else
    ∃ n, gpr_defs i = [n] ∧
      cr_get_field s 0 =
        (if (s.gpr n).toInt < 0 then 8#32 else if (s.gpr n).toInt > 0 then 4#32 else 2#32) |||
          (if s.xer &&& XER_SO ≠ 0 then 1#32 else 0#32)

/-- The emitted statements end with the update, and it holds whenever they run. -/
def Records (em : Emitter) (i : Insn) (addr_set : Nat → Bool) : Prop :=
  EndsRecorded em i addr_set ∧
    ∀ (ρ : Type) (rt : Runtime ρ) (cd : CDouble) (m64 : Mmio64 ρ) (s : CpuState ρ),
      Recorded i (execStmts rt (float_code rt cd m64) (em._translate i addr_set) s).1

/-! The decoder's tables allow Rc on these mnemonics only. -/

def record_form (m : Mnemonic) : Bool :=
  integer_record m || float_record m || drops_cr1 m || m = .mtfsfi

theorem record_form_of_entry {w : Nat} {m : Mnemonic} {form : Form} {allowed : Nat}
    (found : decode_entry w = some (m, form, allowed)) (rc : (allowed &&& RC) ≠ 0) :
    record_form m = true := by
  have listed := (tabled_of_decode_entry found).all
    (p := fun e => (e.2.2 &&& RC) = 0 || record_form e.1) (by decide +kernel)
  rw [Bool.or_eq_true, decide_eq_true_eq] at listed
  exact listed.resolve_left rc

theorem decode_fields_rc_bit (w : Nat) (m : Mnemonic) (form : Form) (i : Insn) :
    (decode_fields w m form i).rc_bit = i.rc_bit := by
  cases form with
  | XFX =>
      simp only [decode_fields]
      split
      · split
        · rfl
        · rfl
      · split
        · rfl
        · rfl
  | X | SC =>
      simp only [decode_fields]
      split
      · rfl
      · rfl
  | I | B | D | XL | XFL | XO | A | M | PSQ | PSQX => rfl

theorem mftb_of_mftbu {w : Nat} {m : Mnemonic} {form : Form} {i : Insn} (named : i.mnemonic = m)
    (upper : (decode_fields w m form i).mnemonic = .mftbu) : m = .mftb ∨ m = .mftbu := by
  cases form with
  | XFX =>
      simp only [decode_fields] at upper
      split at upper
      · split at upper
        next half =>
          rw [Bool.and_eq_true, decide_eq_true_eq] at half
          exact .inl half.1
        next => exact .inr (named.symm.trans upper)
      · split at upper
        · exact .inr (named.symm.trans upper)
        · exact .inr (named.symm.trans upper)
  | X | SC =>
      simp only [decode_fields] at upper
      split at upper
      · exact .inr (named.symm.trans upper)
      · exact .inr (named.symm.trans upper)
  | I | B | D | XL | XFL | XO | A | M | PSQ | PSQX => exact .inr (named.symm.trans upper)

theorem decode_record_form {w addr : Nat} (rc : (decode w addr).rc_bit = true) :
    record_form (decode w addr).mnemonic = true := by
  unfold decode at rc ⊢
  dsimp only at rc ⊢
  split at rc
  · cases rc
  next m form allowed found =>
    split at rc
    · cases rc
    next regular =>
      rw [if_neg regular]
      rw [decode_fields_rc_bit] at rc
      have allows : (allowed &&& RC) ≠ 0 :=
        of_decide_eq_true (Bool.and_eq_true_iff.mp rc).1
      let i : Insn :=
        { addr, word := w &&& 0xFFFFFFFF, mnemonic := m, form := some form, valid := true,
          rc_bit := (_flags (w &&& 0xFFFFFFFF) allowed).1,
          oe_bit := (_flags (w &&& 0xFFFFFFFF) allowed).2.1,
          lk_bit := (_flags (w &&& 0xFFFFFFFF) allowed).2.2.1,
          aa_bit := (_flags (w &&& 0xFFFFFFFF) allowed).2.2.2 }
      have records := record_form_of_entry found allows
      have named : i.mnemonic = m := rfl
      obtain same | other := decode_fields_mnemonic (w &&& 0xFFFFFFFF) m form i named
      · exact (congrArg record_form same).trans records
      · obtain rfl | rfl := mftb_of_mftbu named other
        · cases records
        · cases records

/-! The templates. -/

variable (em : Emitter) (addr_set : Nat → Bool)

theorem translate_integer_record {i : Insn} (valid : i.valid = true)
    (integer : integer_record i.mnemonic = true) :
    Emitter.is_float i.mnemonic = false ∧
      ∃ n e, gpr_defs i = [n] ∧ em._translate i addr_set = Emitter.result i n e := by
  obtain ⟨addr, word, m, form, v, rd, ra, rb, rc, imm, mb, me, bo, bi, crf_d, crf_s, spr, gqr,
    quant_w, rc_bit, oe_bit, lk_bit, aa_bit⟩ := i
  cases valid
  cases m with
  | add | subf | neg | addc | adde | subfc | subfe | addze | subfze | addme | subfme | mullw
  | mulhw | mulhwu | divw | divwu => exact ⟨rfl, rd, _, rfl, rfl⟩
  | slw | srw | sraw | srawi | cntlzw | extsb | extsh | rlwinm | rlwimi | rlwnm
  | and | andc | or | orc | xor | nand | nor | eqv => exact ⟨rfl, ra, _, rfl, rfl⟩
  | _ => cases integer

theorem translate_float_record {i : Insn} (valid : i.valid = true)
    (float : float_record i.mnemonic = true) :
    Emitter.is_float i.mnemonic = true ∧ em._translate i addr_set = [.simple (.float i)] ∧
      ∃ x, _translate_float i = .simple x :: cr1_rc i := by
  obtain ⟨addr, word, m, form, v, rd, ra, rb, rc, imm, mb, me, bo, bi, crf_d, crf_s, spr, gqr,
    quant_w, rc_bit, oe_bit, lk_bit, aa_bit⟩ := i
  cases valid
  cases m with
  | fadds | fsubs | fmuls | fdivs | fmadds | fmsubs | fnmadds | fnmsubs | fres
  | fadd | fsub | fmul | fdiv | fmadd | fmsub | fnmadd | fnmsub | frsqrte | fsel
  | ps_add | ps_sub | ps_mul | ps_div | ps_madd | ps_msub | ps_nmadd | ps_nmsub
  | ps_muls0 | ps_muls1 | ps_madds0 | ps_madds1 | ps_sum0 | ps_sum1
  | ps_neg | ps_abs | ps_nabs | ps_mr | ps_res | ps_rsqrte | ps_sel
  | ps_merge00 | ps_merge01 | ps_merge10 | ps_merge11 => exact ⟨rfl, rfl, _, rfl⟩
  | _ => cases float

/-- One statement, and no update after it. -/
theorem translate_drops_cr1 {i : Insn} (valid : i.valid = true)
    (drops : drops_cr1 i.mnemonic = true) :
    Emitter.is_float i.mnemonic = true ∧ em._translate i addr_set = [.simple (.float i)] := by
  obtain ⟨addr, word, m, form, v, rd, ra, rb, rc, imm, mb, me, bo, bi, crf_d, crf_s, spr, gqr,
    quant_w, rc_bit, oe_bit, lk_bit, aa_bit⟩ := i
  cases valid
  cases m with
  | fmr | fneg | fabs | fnabs | frsp | fctiw | fctiwz | mffs | mtfsf | mtfsb0 | mtfsb1 =>
      exact ⟨rfl, rfl⟩
  | _ => cases drops

/-! What running them leaves. -/

section Run

variable {ρ : Type} (rt : Runtime ρ) (cd : CDouble) (m64 : Mmio64 ρ) (s : CpuState ρ)

theorem cr_get_set_field {f : Nat} (hf : f < 8) (v : Word) :
    cr_get_field (cr_set_field s f v) f = v &&& 0xF#32 := by
  apply BitVec.eq_of_getLsbD_eq
  intro i hi
  have insert := getLsbD_insertField s.cr v 4 (28 - 4 * f)
  have low : (0xF#32).getLsbD i = decide (i < 4) :=
    (getLsbD_lowMask 4 i).trans (decide_eq_decide.mpr (and_iff_right hi))
  rw [cr_get_field, cr_set_field, BitVec.getLsbD_and, BitVec.getLsbD_and, low,
    BitVec.getLsbD_ushiftRight]
  by_cases lane : i < 4
  · have inserted := insert (28 - 4 * f + i) (by omega)
    rw [if_pos (by omega), Nat.add_sub_cancel_left] at inserted
    exact congrArg (· && decide (i < 4)) inserted
  · rw [decide_eq_false lane, Bool.and_false, Bool.and_false]

theorem compared_nibble (x : Int) (so : Prop) [Decidable so] :
    ((if x < 0 then 8#32 else if x > 0 then 4#32 else 2#32) |||
        (if so then 1#32 else 0#32)) &&& 0xF#32 =
      (if x < 0 then 8#32 else if x > 0 then 4#32 else 2#32) |||
        (if so then 1#32 else 0#32) := by
  split_ifs <;> decide

theorem top_nibble (x : Word) : x >>> 28 &&& 0xF#32 = x >>> 28 := by
  apply BitVec.eq_of_toNat_eq
  apply Nat.and_two_pow_sub_one_of_lt_two_pow (n := 4)
  have small := x.isLt
  rw [BitVec.toNat_ushiftRight, Nat.shiftRight_eq_div_pow]
  omega

theorem recorded_result {i : Insn} {n : Int} (integer : Emitter.is_float i.mnemonic = false)
    (defs : gpr_defs i = [n]) (rc : i.rc_bit = true) (fc : FloatCode ρ) (e : Expr) :
    Recorded i (execStmts rt fc (Emitter.result i n e) s).1 := by
  rw [Recorded, integer, if_neg Bool.false_ne_true]
  refine ⟨n, defs, ?_⟩
  rw [Emitter.result, rc, if_pos rfl]
  generalize ran : e.eval rt 0 s = r
  have run : execStmts rt fc [.simple (setG n e), .simple (.CR0_RC (G n))] s =
      (CR0_RC (r.2.setGpr n r.1) ((r.2.setGpr n r.1).gpr n), .next) := by
    rw [← ran]
    rfl
  rw [run]
  have field := cr_get_set_field (r.2.setGpr n r.1) (f := 0) (by decide)
  refine (field _).trans ?_
  exact compared_nibble ((r.2.setGpr n r.1).gpr n).toInt (r.2.xer &&& XER_SO ≠ 0)

theorem recorded_float {i : Insn} (float : Emitter.is_float i.mnemonic = true)
    (rc : i.rc_bit = true) {x : FSimple} (shape : _translate_float i = .simple x :: cr1_rc i) :
    Recorded i (execStmts rt (float_code rt cd m64) [.simple (.float i)] s).1 := by
  rw [Recorded, float, if_pos rfl]
  let s' := x.exec rt cd m64 0 s
  have code : float_code rt cd m64 i s = cr_set_field s' 1 ((s'.fpscr >>> 28) &&& 0xF#32) := by
    rw [float_code, shape, cr1_rc, rc]
    rfl
  have run : (execStmts rt (float_code rt cd m64) [.simple (.float i)] s).1 =
      float_code rt cd m64 i s := rfl
  rw [run, code, cr_get_set_field s' (by decide)]
  change s'.fpscr >>> 28 &&& 0xF#32 &&& 0xF#32 = s'.fpscr >>> 28
  rw [top_nibble, top_nibble]

end Run

/-! Where the update is missing. -/

/-- FPSCR and the floating-point registers all ones, CR zero. -/
def ones : CpuState Unit where
  gpr _ := 0
  fpr _ := (BitVec.allOnes 64, BitVec.allOnes 64)
  cr := 0
  xer := 0
  lr := 0
  ctr := 0
  fpscr := BitVec.allOnes 32
  msr := 0
  pc := 0
  gqr _ := 0
  hid2 := 0
  wpar := 0
  spr _ := 0
  sr _ := 0
  mem _ := 0
  user := ()

/-- A runtime that does nothing. -/
def idle : Runtime Unit where
  mmio_read8 s _ := (0, s)
  mmio_read16 s _ := (0, s)
  mmio_read32 s _ := (0, s)
  mmio_write8 s _ _ := s
  mmio_write16 s _ _ := s
  mmio_write32 s _ _ := s
  gx_pipe_write s _ _ := s
  guest_timebase_lo s := (0, s)
  guest_timebase_hi s := (0, s)
  dec_read s := (0, s)
  dec_write s _ := s
  guest_syscall s _ := s
  guest_trap s _ := s
  guest_unimplemented s _ := s
  irq_poll s := s
  hook _ s := s
  trace_hit _ s := s
  fn _ s := s
  dispatch s _ := s

/-- Arithmetic whose every result is zero. -/
def zeros : CDouble where
  add _ _ := 0
  sub _ _ := 0
  mul _ _ := 0
  div _ _ := 0
  fma _ _ _ := 0
  sqrt _ := 0
  lt _ _ := false
  le _ _ := false
  isNan _ := false
  nearbyint _ := 0
  ofInt _ := 0
  toInt _ := 0
  toFloat _ := 0
  ofFloat _ := 0
  divf _ _ := 0

def idle64 : Mmio64 Unit where
  mmio_read64 s _ := (0, s)
  mmio_write64 s _ _ := s

theorem clear_bit_ne_zero (bit : Nat) : (BitVec.allOnes 32 &&& ~~~(1#32 <<< bit)) >>> 28 ≠ 0 := by
  intro zero
  have b28 := congrArg (BitVec.getLsbD · 0) zero
  have b29 := congrArg (BitVec.getLsbD · 1) zero
  simp at b28 b29
  omega

theorem all_ones_fields (mask : Word) :
    (BitVec.allOnes 32 &&& ~~~mask) ||| ((BitVec.allOnes 64).setWidth 32 &&& mask) =
      BitVec.allOnes 32 := by
  apply BitVec.eq_of_getLsbD_eq
  intro i hi
  have narrow : (BitVec.allOnes 64).setWidth 32 = BitVec.allOnes 32 := rfl
  rw [narrow, BitVec.getLsbD_or, BitVec.getLsbD_and, BitVec.getLsbD_and, BitVec.getLsbD_not,
    BitVec.getLsbD_allOnes, decide_eq_true hi]
  cases mask.getLsbD i with
  | false => rfl
  | true => rfl

/-- These leave CR as it is, and the top of FPSCR other than zero. -/
theorem float_code_ones {i : Insn} (drops : drops_cr1 i.mnemonic = true) :
    (float_code idle zeros idle64 i ones).cr = 0 ∧
      (float_code idle zeros idle64 i ones).fpscr >>> 28 ≠ 0 := by
  obtain ⟨addr, word, m, form, v, rd, ra, rb, rc, imm, mb, me, bo, bi, crf_d, crf_s, spr, gqr,
    quant_w, rc_bit, oe_bit, lk_bit, aa_bit⟩ := i
  have full : BitVec.allOnes 32 >>> 28 ≠ 0 := by decide
  cases m with
  | fmr | fneg | fabs | fnabs | frsp | fctiw | fctiwz | mffs => exact ⟨rfl, full⟩
  | mtfsf =>
      refine ⟨rfl, fun zero => full ?_⟩
      rw [← all_ones_fields (BitVec.ofNat 32 (crm_mask imm.toNat))]
      exact zero
  | mtfsb0 => exact ⟨rfl, clear_bit_ne_zero (31 - rd).toNat⟩
  | mtfsb1 =>
      have same : BitVec.allOnes 32 ||| 1#32 <<< (31 - rd).toNat = BitVec.allOnes 32 :=
        BitVec.allOnes_or
      refine ⟨rfl, fun zero => full ?_⟩
      rw [← same]
      exact zero
  | _ => cases drops

theorem not_recorded_ones {i : Insn} (valid : i.valid = true)
    (drops : drops_cr1 i.mnemonic = true) :
    ¬ Recorded i (execStmts idle (float_code idle zeros idle64)
      (em._translate i addr_set) ones).1 := by
  obtain ⟨float, shape⟩ := translate_drops_cr1 em addr_set valid drops
  obtain ⟨cr, fpscr⟩ := float_code_ones drops
  rw [shape, Recorded, float, if_pos rfl]
  have field : cr_get_field (float_code idle zeros idle64 i ones) 1 = 0 := by
    rw [cr_get_field, cr]
    rfl
  intro same
  exact fpscr (same.symm.trans field)

/-! Every record form. -/

theorem untranslated_mtfsfi {i : Insn} (valid : i.valid = true) (m : i.mnemonic = .mtfsfi) :
    em._translate i addr_set = Emitter._unsupported i := by
  obtain ⟨addr, word, _, form, v, rd, ra, rb, rc, imm, mb, me, bo, bi, crf_d, crf_s, spr, gqr,
    quant_w, rc_bit, oe_bit, lk_bit, aa_bit⟩ := i
  cases valid
  cases m
  rfl

/-- The update follows every record form the emitter translates, but for the
floating-point moves and conversions and the FPSCR instructions. -/
theorem records_iff (em : Emitter) (word addr : Nat) (addr_set : Nat → Bool)
    (valid : (decode word addr).valid = true) (rc : (decode word addr).rc_bit = true)
    (translated : em.translates (decode word addr) addr_set) :
    Records em (decode word addr) addr_set ↔ drops_cr1 (decode word addr).mnemonic = false := by
  constructor
  · intro records
    by_contra kept
    exact not_recorded_ones em addr_set valid (Bool.eq_true_of_not_eq_false kept)
      (records.2 Unit idle zeros idle64 ones)
  · intro kept
    have form := decode_record_form rc
    unfold record_form at form
    rw [kept, Bool.or_false, Bool.or_eq_true, Bool.or_eq_true, decide_eq_true_eq] at form
    obtain (integer | float) | unsupported := form
    · obtain ⟨plain, n, e, defs, shape⟩ :=
        translate_integer_record em addr_set valid integer
      constructor
      · rw [EndsRecorded, plain, if_neg Bool.false_ne_true]
        refine ⟨n, [.simple (setG n e)], defs, ?_⟩
        rw [shape, Emitter.result, rc]
        rfl
      · intro ρ rt cd m64 s
        rw [shape]
        exact recorded_result rt s plain defs rc _ e
    · obtain ⟨listed, shape, x, body⟩ :=
        translate_float_record em addr_set valid float
      constructor
      · rw [EndsRecorded, listed, if_pos rfl]
        refine ⟨shape, [.simple x], ?_⟩
        rw [body, cr1_rc, rc]
        rfl
      · intro ρ rt cd m64 s
        rw [shape]
        exact recorded_float rt cd m64 s listed rc body
    · exact absurd (untranslated_mtfsfi em addr_set valid unsupported) translated

/-- `add. r3, r4, r5`. -/
theorem records_iff_add :
    Records ⟨fun _ => false, fun _ => none, fun _ => none, fun _ => false, fun _ => false,
        fun _ => false, false⟩ (decode 0x7C642A15 0x80003100) (fun _ => false) ↔
      drops_cr1 (decode 0x7C642A15 0x80003100).mnemonic = false :=
  records_iff _ 0x7C642A15 0x80003100 _ (by decide) (by decide) (by decide)

/-- `fmr. f1, f2` is decoded and translated, and leaves CR1 as it was: FPSCR
bits 0-3 are set, CR is zero before and after. -/
theorem fmr_dot_drops :
    ∃ (em : Emitter) (addr_set : Nat → Bool),
      let i := decode 0xFC201091 0x80003100
      i.valid = true ∧ i.rc_bit = true ∧ em.translates i addr_set ∧
        ¬ Records em i addr_set ∧
        ¬ Recorded i (execStmts idle (float_code idle zeros idle64)
          (em._translate i addr_set) ones).1 := by
  refine ⟨⟨fun _ => false, fun _ => none, fun _ => none, fun _ => false, fun _ => false,
    fun _ => false, false⟩, fun _ => false, by decide, by decide, by decide, ?_, ?_⟩
  · intro records
    exact not_recorded_ones _ _ (by decide) (by decide) (records.2 Unit idle zeros idle64 ones)
  · exact not_recorded_ones _ _ (by decide) (by decide)

end SoaPort.Recomp
