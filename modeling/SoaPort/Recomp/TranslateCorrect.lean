import SoaPort.Recomp.TranslateMove

namespace SoaPort.Recomp

open SoaPort.Ppc Emitter

/-! From an instruction word to its effect: decoding, translation and
execution in one step. -/

variable {ρ : Type} (rt : Runtime ρ) (fc : FloatCode ρ) (em : Emitter) (addr_set : Nat → Bool)
  (s : CpuState ρ) (addr : Nat)

/-- The C emitted for an instruction word runs to its end in a state the
architecture allows. -/
def Translates (rt : Runtime ρ) (fc : FloatCode ρ) (em : Emitter) (addr_set : Nat → Bool)
    (addr : Nat) (s : CpuState ρ) (i : Arch.Instr) : Prop :=
  ∃ s', execStmts rt fc (em._translate (decode i.encode.toNat addr) addr_set) s = (s', .next) ∧
    Arch.Step rt s s' i

theorem translates_of_eq {i : Arch.Instr} {w : Word} {insn : Insn} {s' : CpuState ρ}
    (encoded : i.encode = w) (decoded : decode w.toNat addr = insn)
    (run : execStmts rt fc (em._translate insn addr_set) s = (s', .next))
    (step : Arch.Step rt s s' i) : Translates rt fc em addr_set addr s i :=
  ⟨s', by rw [encoded, decoded, run], step⟩

section Decoded

open Arch

variable (rD rA rB : Reg)

theorem decode_dArith (op : DArith) (simm : BitVec 16) :
    decode (dForm op.opcd rD rA simm).toNat addr =
      dInsn rD rA simm addr (dForm op.opcd rD rA simm).toNat op.mnemonic := by
  apply decode_dForm
  · cases op <;> rfl
  · cases op <;> simp [isCompare, DArith.mnemonic]

theorem decode_dLogic (op : DLogic) (uimm : BitVec 16) :
    decode (dForm op.opcd rD rA uimm).toNat addr =
      dInsn rD rA uimm addr (dForm op.opcd rD rA uimm).toNat op.mnemonic := by
  apply decode_dForm
  · cases op <;> rfl
  · cases op <;> simp [isCompare, DLogic.mnemonic]

/-- The L bit of a comparison is clear in its field slot. -/
theorem slot_even (crfD : BitVec 3) : (crfD ++ 0#2).toNat % 2 = 0 := by
  rw [Lib.toNat_append_add, BitVec.toNat_ofNat]
  omega

theorem decode_xoArith (op : XOArith) (rc : Bool) :
    decode (xForm 31 rD rA rB op.xo rc).toNat addr =
      xoInsn rD rA rB rc addr (xForm 31 rD rA rB op.xo rc).toNat op.mnemonic := by
  apply decode_xoForm
  · cases op with
    | mulhw => exact .inl rfl
    | mulhwu => exact .inl rfl
    | _ => exact .inr rfl
  · cases op <;> decide
  · cases op <;> rfl

theorem decode_xoUnary (op : XOUnary) (rc : Bool) :
    decode (xForm 31 rD rA 0 op.xo rc).toNat addr =
      xoInsn rD rA 0 rc addr (xForm 31 rD rA 0 op.xo rc).toNat op.mnemonic := by
  apply decode_xoForm
  · cases op <;> exact .inr rfl
  · cases op <;> decide
  · cases op <;> rfl

theorem decode_xLogic (op : XLogic) (rc : Bool) :
    decode (xForm 31 rD rA rB op.xo rc).toNat addr =
      xInsn rD rA rB rc addr (xForm 31 rD rA rB op.xo rc).toNat op.mnemonic := by
  apply decode_xForm_rc
  · cases op <;> rfl
  · cases op <;> rfl

theorem decode_xUnary (op : XUnary) (rc : Bool) :
    decode (xForm 31 rD rA 0 op.xo rc).toNat addr =
      xInsn rD rA 0 rc addr (xForm 31 rD rA 0 op.xo rc).toNat op.mnemonic := by
  apply decode_xForm_rc
  · cases op <;> rfl
  · cases op <;> rfl

theorem decode_crLogic (op : CRLogic) :
    decode (xForm 19 rD rA rB op.xo false).toNat addr =
      xlInsn rD rA rB addr (xForm 19 rD rA rB op.xo false).toNat op.mnemonic := by
  apply decode_xlForm
  · cases op <;> rfl
  · cases op <;> rfl

theorem decode_load (op : Load) (update : Bool) (d : BitVec 16) :
    decode (dForm (op.opcd update) rD rA d).toNat addr =
      dInsn rD rA d addr (dForm (op.opcd update) rD rA d).toNat (op.mnemonic update) := by
  apply decode_dForm
  · cases op <;> cases update <;> rfl
  · cases op <;> cases update <;> simp [isCompare, Load.mnemonic]

theorem decode_loadx (op : Load) (update : Bool) :
    decode (xForm 31 rD rA rB (op.xo update) false).toNat addr =
      xInsn rD rA rB false addr (xForm 31 rD rA rB (op.xo update) false).toNat
        (op.mnemonicx update) := by
  apply decode_xForm
  · cases op <;> cases update <;> rfl
  · cases op <;> cases update <;> simp [isCompare, Load.mnemonicx]

theorem decode_store (op : Store) (update : Bool) (d : BitVec 16) :
    decode (dForm (op.opcd update) rD rA d).toNat addr =
      dInsn rD rA d addr (dForm (op.opcd update) rD rA d).toNat (op.mnemonic update) := by
  apply decode_dForm
  · cases op <;> cases update <;> rfl
  · cases op <;> cases update <;> simp [isCompare, Store.mnemonic]

theorem decode_storex (op : Store) (update : Bool) :
    decode (xForm 31 rD rA rB (op.xo update) false).toNat addr =
      xInsn rD rA rB false addr (xForm 31 rD rA rB (op.xo update) false).toNat
        (op.mnemonicx update) := by
  apply decode_xForm
  · cases op <;> cases update <;> rfl
  · cases op <;> cases update <;> simp [isCompare, Store.mnemonicx]

/-- An opcode-31 instruction of fixed mnemonic. -/
theorem decode_x (m : Mnemonic) (xo : BitVec 10) (entry : OP31 xo.toNat = some (m, .X, 0))
    (plain : isCompare m = false) :
    decode (xForm 31 rD rA rB xo false).toNat addr =
      xInsn rD rA rB false addr (xForm 31 rD rA rB xo false).toNat m :=
  decode_xForm rD rA rB addr entry fun compares => absurd compares (by rw [plain]; decide)

end Decoded

section SimpleMoves

open Arch

variable (w : Nat) (r : Reg)

/-- The reads of one whole register. -/
theorem translate_mfcr :
    execStmts rt fc (em._translate (xInsn r 0 0 false addr w .mfcr) addr_set) s =
      (setGprOf s r s.cr, .next) :=
  exec_setG rt fc s r (.lval .cr) rfl

theorem translate_mfmsr :
    execStmts rt fc (em._translate (xInsn r 0 0 false addr w .mfmsr) addr_set) s =
      (setGprOf s r s.msr, .next) :=
  exec_setG rt fc s r (.lval .msr) rfl

theorem translate_mtmsr :
    execStmts rt fc (em._translate (xInsn r 0 0 false addr w .mtmsr) addr_set) s =
      ({ s with msr := gprOf s r }, .next) :=
  exec_simple rt fc s _ rfl

theorem segment_number (sr : BitVec 4) : ((0#1 ++ sr).toNat : Int) % 16 = sr.toNat := by
  have bound := sr.isLt
  rw [Lib.toNat_append_add, BitVec.toNat_ofNat]
  omega

theorem translate_mfsr (sr : BitVec 4) :
    execStmts rt fc (em._translate (xInsn r (0#1 ++ sr) 0 false addr w .mfsr) addr_set) s =
      (setGprOf s r (s.sr sr.toNat), .next) := by
  rw [← segment_number]
  exact exec_setG rt fc s r (.lval (.sr (((0#1 ++ sr).toNat : Int) % 16))) rfl

theorem translate_mtsr (sr : BitVec 4) :
    execStmts rt fc (em._translate (xInsn r (0#1 ++ sr) 0 false addr w .mtsr) addr_set) s =
      ({ s with sr := Function.update s.sr sr.toNat (gprOf s r) }, .next) := by
  rw [← segment_number]
  exact exec_simple rt fc s _ rfl

end SimpleMoves

open Arch in
theorem translate_correct (i : Instr) : Translates rt fc em addr_set addr s i := by
  cases i with
  | dArith op rD rA simm =>
      exact translates_of_eq rt fc em addr_set s addr rfl (decode_dArith addr rD rA op simm)
        (translate_dArith rt fc em addr_set s rD rA addr _ op simm) rfl
  | dLogic op rS rA uimm =>
      exact translates_of_eq rt fc em addr_set s addr rfl (decode_dLogic addr rS rA op uimm)
        (translate_dLogic rt fc em addr_set s rS rA addr _ op uimm) rfl
  | cmpi crfD rA simm =>
      exact translates_of_eq rt fc em addr_set s addr rfl
        (decode_dForm (crfD ++ 0#2) rA simm addr rfl fun _ => slot_even crfD)
        (translate_cmpi rt fc em addr_set s addr _ crfD rA simm) rfl
  | cmpli crfD rA uimm =>
      exact translates_of_eq rt fc em addr_set s addr rfl
        (decode_dForm (crfD ++ 0#2) rA uimm addr rfl fun _ => slot_even crfD)
        (translate_cmpli rt fc em addr_set s addr _ crfD rA uimm) rfl
  | cmp crfD rA rB =>
      exact translates_of_eq rt fc em addr_set s addr rfl
        (decode_xForm (crfD ++ 0#2) rA rB addr rfl fun _ => slot_even crfD)
        (translate_cmp rt fc em addr_set s addr _ crfD rA rB) rfl
  | cmpl crfD rA rB =>
      exact translates_of_eq rt fc em addr_set s addr rfl
        (decode_xForm (crfD ++ 0#2) rA rB addr rfl fun _ => slot_even crfD)
        (translate_cmpl rt fc em addr_set s addr _ crfD rA rB) rfl
  | xoArith op rD rA rB rc =>
      obtain ⟨s', run, step⟩ := translate_xoArith rt fc em addr_set s rD rA rB rc addr _ op
      exact translates_of_eq rt fc em addr_set s addr rfl (decode_xoArith addr rD rA rB op rc)
        run step
  | xoUnary op rD rA rc =>
      exact translates_of_eq rt fc em addr_set s addr rfl (decode_xoUnary addr rD rA op rc)
        (translate_xoUnary rt fc em addr_set s rD rA rc addr _ op) rfl
  | xLogic op rS rA rB rc =>
      exact translates_of_eq rt fc em addr_set s addr rfl (decode_xLogic addr rS rA rB op rc)
        (translate_xLogic rt fc em addr_set s rS rA rB rc addr _ op) rfl
  | xUnary op rS rA rc =>
      exact translates_of_eq rt fc em addr_set s addr rfl (decode_xUnary addr rS rA op rc)
        (translate_xUnary rt fc em addr_set s rS rA rc addr _ op) rfl
  | srawi rS rA sh rc =>
      exact translates_of_eq rt fc em addr_set s addr rfl
        (decode_xForm_rc rS rA sh rc addr rfl rfl)
        (translate_srawi rt fc em addr_set s rS rA rc addr _ sh) rfl
  | rlwinm rS rA sh mb me rc =>
      exact translates_of_eq rt fc em addr_set s addr rfl
        (decode_mForm rS rA sh mb me rc addr rfl rfl)
        (translate_rlwinm rt fc em addr_set s rS rA sh mb me rc addr _) rfl
  | rlwimi rS rA sh mb me rc =>
      exact translates_of_eq rt fc em addr_set s addr rfl
        (decode_mForm rS rA sh mb me rc addr rfl rfl)
        (translate_rlwimi rt fc em addr_set s rS rA sh mb me rc addr _) rfl
  | rlwnm rS rA rB mb me rc =>
      exact translates_of_eq rt fc em addr_set s addr rfl
        (decode_mForm rS rA rB mb me rc addr rfl rfl)
        (translate_rlwnm rt fc em addr_set s rS rA mb me rc addr _ rB) rfl
  | crLogic op crbD crbA crbB =>
      exact translates_of_eq rt fc em addr_set s addr rfl
        (decode_crLogic addr crbD crbA crbB op)
        (translate_crLogic rt fc em addr_set s addr _ op crbD crbA crbB) rfl
  | mcrf crfD crfS =>
      exact translates_of_eq rt fc em addr_set s addr rfl
        (decode_xlForm (crfD ++ 0#2) (crfS ++ 0#2) 0 addr rfl rfl)
        (translate_mcrf rt fc em addr_set s addr _ crfD crfS) rfl
  | mcrxr crfD =>
      exact translates_of_eq rt fc em addr_set s addr rfl
        (decode_x addr (crfD ++ 0#2) 0 0 .mcrxr 512 rfl rfl)
        (translate_mcrxr rt fc em addr_set s addr _ crfD) rfl
  | mfcr rD =>
      exact translates_of_eq rt fc em addr_set s addr rfl
        (decode_x addr rD 0 0 .mfcr 19 rfl rfl)
        (translate_mfcr rt fc em addr_set s addr _ rD) rfl
  | mtcrf crm rS =>
      exact translates_of_eq rt fc em addr_set s addr rfl (decode_mtcrf rS addr crm)
        (translate_mtcrf rt fc em addr_set s rS addr _ crm) rfl
  | mfspr rD spr =>
      obtain ⟨s', run, step⟩ := translate_mfspr rt fc em addr_set s rD addr _ spr
      exact translates_of_eq rt fc em addr_set s addr rfl
        (decode_spr rD addr spr rfl (.inl rfl)) run step
  | mtspr spr rS =>
      obtain ⟨s', run, step⟩ := translate_mtspr rt fc em addr_set s rS addr _ spr
      exact translates_of_eq rt fc em addr_set s addr rfl
        (decode_spr rS addr spr rfl (.inr rfl)) run step
  | mftb rD upper =>
      cases upper with
      | false =>
          exact translates_of_eq rt fc em addr_set s addr rfl (decode_mftb rD addr false)
            (exec_setG rt fc s rD .guest_timebase_lo rfl) rfl
      | true =>
          exact translates_of_eq rt fc em addr_set s addr rfl (decode_mftb rD addr true)
            (exec_setG rt fc s rD .guest_timebase_hi rfl) rfl
  | mfmsr rD =>
      exact translates_of_eq rt fc em addr_set s addr rfl
        (decode_x addr rD 0 0 .mfmsr 83 rfl rfl)
        (translate_mfmsr rt fc em addr_set s addr _ rD) rfl
  | mtmsr rS =>
      exact translates_of_eq rt fc em addr_set s addr rfl
        (decode_x addr rS 0 0 .mtmsr 146 rfl rfl)
        (translate_mtmsr rt fc em addr_set s addr _ rS) rfl
  | mfsr rD sr =>
      exact translates_of_eq rt fc em addr_set s addr rfl
        (decode_x addr rD (0#1 ++ sr) 0 .mfsr 595 rfl rfl)
        (translate_mfsr rt fc em addr_set s addr _ rD sr) rfl
  | mtsr sr rS =>
      exact translates_of_eq rt fc em addr_set s addr rfl
        (decode_x addr rS (0#1 ++ sr) 0 .mtsr 210 rfl rfl)
        (translate_mtsr rt fc em addr_set s addr _ rS sr) rfl
  | load op update rD rA d =>
      exact translates_of_eq rt fc em addr_set s addr rfl (decode_load addr rD rA op update d)
        (translate_load rt fc em addr_set s rD rA d addr _ op update) rfl
  | loadx op update rD rA rB =>
      exact translates_of_eq rt fc em addr_set s addr rfl (decode_loadx addr rD rA rB op update)
        (translate_loadx rt fc em addr_set s rD rA rB addr _ op update) rfl
  | lwbrx rD rA rB =>
      exact translates_of_eq rt fc em addr_set s addr rfl
        (decode_x addr rD rA rB .lwbrx 534 rfl rfl)
        (translate_lwbrx rt fc em addr_set s rD rA rB addr _) rfl
  | lhbrx rD rA rB =>
      exact translates_of_eq rt fc em addr_set s addr rfl
        (decode_x addr rD rA rB .lhbrx 790 rfl rfl)
        (translate_lhbrx rt fc em addr_set s rD rA rB addr _) rfl
  | store op update rS rA d =>
      exact translates_of_eq rt fc em addr_set s addr rfl (decode_store addr rS rA op update d)
        (translate_store rt fc em addr_set s rS rA d addr _ op update) rfl
  | storex op update rS rA rB =>
      exact translates_of_eq rt fc em addr_set s addr rfl (decode_storex addr rS rA rB op update)
        (translate_storex rt fc em addr_set s rS rA rB addr _ op update) rfl
  | stwbrx rS rA rB =>
      exact translates_of_eq rt fc em addr_set s addr rfl
        (decode_x addr rS rA rB .stwbrx 662 rfl rfl)
        (translate_stwbrx rt fc em addr_set s rS rA rB addr _) rfl
  | sthbrx rS rA rB =>
      exact translates_of_eq rt fc em addr_set s addr rfl
        (decode_x addr rS rA rB .sthbrx 918 rfl rfl)
        (translate_sthbrx rt fc em addr_set s rS rA rB addr _) rfl
  | lmw rD rA d =>
      exact translates_of_eq rt fc em addr_set s addr rfl
        (decode_dForm rD rA d addr rfl (by simp [isCompare]))
        (translate_lmw rt fc em addr_set s rA d addr _ rD) rfl
  | stmw rS rA d =>
      exact translates_of_eq rt fc em addr_set s addr rfl
        (decode_dForm rS rA d addr rfl (by simp [isCompare]))
        (translate_stmw rt fc em addr_set s rA d addr _ rS) rfl

end SoaPort.Recomp
