import SoaPort.Recomp.Emit
import SoaPort.Recomp.Encode
import SoaPort.Recomp.Helpers

namespace SoaPort.Recomp

open SoaPort.Lib SoaPort.Ppc Emitter

/-! The statements emitted for the integer, logical, rotate, compare and
condition-register instructions do what the architecture says. -/

namespace Arch

def XOArith.mnemonic : XOArith → Mnemonic
  | add => .add | addc => .addc | adde => .adde | subf => .subf | subfc => .subfc
  | subfe => .subfe | mullw => .mullw | mulhw => .mulhw | mulhwu => .mulhwu
  | divw => .divw | divwu => .divwu

def XOUnary.mnemonic : XOUnary → Mnemonic
  | neg => .neg | addze => .addze | addme => .addme | subfze => .subfze | subfme => .subfme

def DArith.mnemonic : DArith → Mnemonic
  | addi => .addi | addis => .addis | addic => .addic | addicDot => .addicDot
  | subfic => .subfic | mulli => .mulli

def DLogic.mnemonic : DLogic → Mnemonic
  | ori => .ori | oris => .oris | xori => .xori | xoris => .xoris
  | andiDot => .andiDot | andisDot => .andisDot

def CRLogic.mnemonic : CRLogic → Mnemonic
  | crand => .crand | crandc => .crandc | cror => .cror | crorc => .crorc
  | crxor => .crxor | crnand => .crnand | crnor => .crnor | creqv => .creqv

def CRLogic.crOp : CRLogic → CrOp
  | crand => .crand | crandc => .crandc | cror => .cror | crorc => .crorc
  | crxor => .crxor | crnand => .crnand | crnor => .crnor | creqv => .creqv

def XLogic.mnemonic : XLogic → Mnemonic
  | and => .and | andc => .andc | or => .or | orc => .orc | xor => .xor | nand => .nand
  | nor => .nor | eqv => .eqv | slw => .slw | srw => .srw | sraw => .sraw

def XUnary.mnemonic : XUnary → Mnemonic
  | cntlzw => .cntlzw | extsb => .extsb | extsh => .extsh

end Arch

variable {ρ : Type} (rt : Runtime ρ) (fc : FloatCode ρ) (em : Emitter) (addr_set : Nat → Bool)
  (s : CpuState ρ)

section Templates

theorem exec_result (i : Insn) (n : Int) (e : Expr) {v : Word} {s' : CpuState ρ}
    (value : e.eval rt 0 s = (v, s')) :
    execStmts rt fc (result i n e) s = (Arch.record i.rc_bit (s'.setGpr n v) v, .next) := by
  have written : (G n).eval rt 0 (s'.setGpr n v) = (v, s'.setGpr n v) := by
    simp [G, Expr.eval, LVal.get, CpuState.setGpr]
  rw [result, execStmts, Stmt.exec, setG, Simple.exec, value]
  cases i.rc_bit with
  | false => rfl
  | true =>
      simp only [if_true, execStmts, Stmt.exec, Simple.exec, LVal.set, written, CR0_RC_eq]

/-- The arithmetic and logical templates: one result, written back and
recorded when the instruction's Rc bit is set. -/
theorem exec_writeBack (i : Insn) (r : Arch.Reg) (e : Expr) {v : Word} {s' : CpuState ρ}
    (value : e.eval rt 0 s = (v, s')) :
    execStmts rt fc (result i r.toNat e) s = (Arch.writeBack s' r v i.rc_bit, .next) :=
  exec_result rt fc s i r.toNat e value

/-- One assignment to a register. -/
theorem exec_setG (r : Arch.Reg) (e : Expr) {v : Word} {s' : CpuState ρ}
    (value : e.eval rt 0 s = (v, s')) :
    execStmts rt fc [.simple (setG r.toNat e)] s = (Arch.setGprOf s' r v, .next) := by
  rw [execStmts, Stmt.exec, setG, Simple.exec, value]
  rfl

/-- An assignment compared against zero: the dotted immediates. -/
theorem exec_setG_record (r : Arch.Reg) (e : Expr) {v : Word} {s' : CpuState ρ}
    (value : e.eval rt 0 s = (v, s')) :
    execStmts rt fc [.simple (setG r.toNat e), .simple (.CR0_RC (G r.toNat))] s =
      (Arch.writeBack s' r v true, .next) :=
  exec_result rt fc s { addr := 0, word := 0, rc_bit := true } r.toNat e value

/-- A register operand in a base position: register 0 reads as zero. -/
theorem eval_GA (r : Arch.Reg) (t : Word) :
    (GA r.toNat).eval rt t s = (Arch.baseOf s r, s) := by
  rw [GA, Arch.baseOf]
  by_cases zero : r = 0
  · subst zero
    rfl
  · have number : (r.toNat : Int) ≠ 0 := by
      intro value
      exact zero (BitVec.eq_of_toNat_eq (by exact_mod_cast value))
    rw [if_neg number, if_neg zero]
    rfl

end Templates

section Arithmetic

theorem add_eq (a b : Word) : a + b = BitVec.ofNat 32 (a.toNat + b.toNat) := by
  rw [BitVec.ofNat_add, BitVec.ofNat_toNat, BitVec.ofNat_toNat, BitVec.setWidth_eq,
    BitVec.setWidth_eq]

theorem sub_eq (a b : Word) : b - a = BitVec.ofNat 32 (Arch.inv a + b.toNat + 1) := by
  have bound := a.isLt
  apply BitVec.eq_of_toNat_eq
  rw [BitVec.toNat_sub, BitVec.toNat_ofNat, Arch.inv]
  congr 1
  omega

theorem neg_eq (a : Word) : 0#32 - a = BitVec.ofNat 32 (Arch.inv a + 1) :=
  sub_eq a 0

theorem mul_eq (a b : Word) : a * b = BitVec.ofInt 32 (a.toInt * b.toInt) := by
  rw [BitVec.ofInt_mul, BitVec.ofInt_toInt, BitVec.ofInt_toInt]

theorem ppc_divw_eq {a b : Word} (defined : ¬ Arch.divwUndefined a b) :
    ppc_divw a b = BitVec.ofInt 32 (a.toInt.tdiv b.toInt) := by
  rw [Arch.divwUndefined, ← BitVec.toInt_inj] at defined
  rw [ppc_divw]
  exact if_neg defined

theorem ppc_divwu_eq {a b : Word} (defined : b ≠ 0) :
    ppc_divwu a b = BitVec.ofNat 32 (a.toNat / b.toNat) := by
  have bound : a.toNat / b.toNat ≤ a.toNat := Nat.div_le_self _ _
  have word := a.isLt
  apply BitVec.eq_of_toNat_eq
  rw [ppc_divwu, if_pos defined, BitVec.toNat_udiv, BitVec.toNat_ofNat,
    Nat.mod_eq_of_lt (by omega)]

variable (rD rA rB : Arch.Reg) (rc : Bool) (addr w : Nat)

theorem translate_xoArith (op : Arch.XOArith) :
    ∃ s', execStmts rt fc
        (em._translate (Arch.xoInsn rD rA rB rc addr w op.mnemonic) addr_set) s = (s', .next) ∧
      op.Step s rD rA rB rc s' := by
  let a := Arch.gprOf s rA
  let b := Arch.gprOf s rB
  cases op with
  | add => exact ⟨_, exec_writeBack rt fc s _ rD _ (Prod.ext (add_eq a b) rfl), rfl⟩
  | addc => exact ⟨_, exec_writeBack rt fc s _ rD _ (ppc_addc_eq s a b), rfl⟩
  | adde => exact ⟨_, exec_writeBack rt fc s _ rD _ (ppc_adde_eq s a b), rfl⟩
  | subf => exact ⟨_, exec_writeBack rt fc s _ rD _ (Prod.ext (sub_eq a b) rfl), rfl⟩
  | subfc => exact ⟨_, exec_writeBack rt fc s _ rD _ (ppc_subfc_eq s a b), rfl⟩
  | subfe => exact ⟨_, exec_writeBack rt fc s _ rD _ (ppc_subfe_eq s a b), rfl⟩
  | mullw => exact ⟨_, exec_writeBack rt fc s _ rD _ (Prod.ext (mul_eq a b) rfl), rfl⟩
  | mulhw => exact ⟨_, exec_writeBack rt fc s _ rD _ (Prod.ext (ppc_mulhw_eq a b) rfl), rfl⟩
  | mulhwu => exact ⟨_, exec_writeBack rt fc s _ rD _ (Prod.ext (ppc_mulhwu_eq a b) rfl), rfl⟩
  | divw =>
      by_cases undefined : Arch.divwUndefined a b
      · exact ⟨_, exec_writeBack rt fc s _ rD _ rfl, (if_pos undefined).mpr ⟨_, rfl⟩⟩
      · exact ⟨_, exec_writeBack rt fc s _ rD _ (Prod.ext (ppc_divw_eq undefined) rfl),
          (if_neg undefined).mpr rfl⟩
  | divwu =>
      by_cases undefined : b = 0
      · exact ⟨_, exec_writeBack rt fc s _ rD _ rfl, (if_pos undefined).mpr ⟨_, rfl⟩⟩
      · exact ⟨_, exec_writeBack rt fc s _ rD _ (Prod.ext (ppc_divwu_eq undefined) rfl),
          (if_neg undefined).mpr rfl⟩

theorem translate_xoUnary (op : Arch.XOUnary) :
    execStmts rt fc (em._translate (Arch.xoInsn rD rA 0 rc addr w op.mnemonic) addr_set) s =
      (op.exec s rD rA rc, .next) := by
  let a := Arch.gprOf s rA
  cases op with
  | neg => exact exec_writeBack rt fc s _ rD _ (Prod.ext (neg_eq a) rfl)
  | addze => exact exec_writeBack rt fc s _ rD _ (ppc_addze_eq s a)
  | addme => exact exec_writeBack rt fc s _ rD _ (ppc_addme_eq s a)
  | subfze => exact exec_writeBack rt fc s _ rD _ (ppc_subfze_eq s a)
  | subfme => exact exec_writeBack rt fc s _ rD _ (ppc_subfme_eq s a)

/-- A base register plus a constant. -/
theorem base_plus (a : Word) (k : Int) :
    a + BitVec.ofInt 32 k = BitVec.ofInt 32 (a.toInt + k) := by
  rw [BitVec.ofInt_add, BitVec.ofInt_toInt]

theorem translate_dArith (op : Arch.DArith) (simm : BitVec 16) :
    execStmts rt fc (em._translate (Arch.dInsn rD rA simm addr w op.mnemonic) addr_set) s =
      (op.exec s rD rA simm, .next) := by
  let a := Arch.gprOf s rA
  have sum (e : Expr) {k : Int} (constant : e.eval rt 0 s = (BitVec.ofInt 32 k, s)) :
      (Expr.call2 .add (GA rA.toNat) e).eval rt 0 s =
        (BitVec.ofInt 32 ((Arch.baseOf s rA).toInt + k), s) := by
    rw [Expr.eval, eval_GA, ← base_plus]
    simp only [constant]
    rfl
  cases op with
  | addi => exact exec_setG rt fc s rD _ (sum (.u32 simm.toInt) rfl)
  | addis => exact exec_setG rt fc s rD _ (sum (.u32 (simm.toInt * 2 ^ 16)) rfl)
  | addic => exact exec_setG rt fc s rD _ (ppc_addc_eq s a (Arch.exts simm))
  | addicDot => exact exec_setG_record rt fc s rD _ (ppc_addc_eq s a (Arch.exts simm))
  | subfic => exact exec_setG rt fc s rD _ (ppc_subfc_eq s a (Arch.exts simm))
  | mulli =>
      have product : a * Arch.exts simm = BitVec.ofInt 32 (a.toInt * simm.toInt) := by
        rw [BitVec.ofInt_mul, BitVec.ofInt_toInt, Arch.exts]
      exact exec_setG rt fc s rD _ (Prod.ext product rfl)

end Arithmetic

section Logic

variable (rS rA rB : Arch.Reg) (rc : Bool) (addr w : Nat)

theorem and_eq (x y : Word) :
    x &&& y = Arch.ofMsb fun i => x.getMsbD i && y.getMsbD i :=
  Arch.eq_ofMsb fun _ _ => BitVec.getMsbD_and

theorem andc_eq (x y : Word) :
    x &&& ~~~y = Arch.ofMsb fun i => x.getMsbD i && !y.getMsbD i :=
  Arch.eq_ofMsb fun i hi => by simp [hi]

theorem or_eq (x y : Word) :
    x ||| y = Arch.ofMsb fun i => x.getMsbD i || y.getMsbD i :=
  Arch.eq_ofMsb fun _ _ => BitVec.getMsbD_or

theorem orc_eq (x y : Word) :
    x ||| ~~~y = Arch.ofMsb fun i => x.getMsbD i || !y.getMsbD i :=
  Arch.eq_ofMsb fun i hi => by simp [hi]

theorem xor_eq (x y : Word) :
    x ^^^ y = Arch.ofMsb fun i => x.getMsbD i ^^ y.getMsbD i :=
  Arch.eq_ofMsb fun _ _ => BitVec.getMsbD_xor

theorem nand_eq (x y : Word) :
    ~~~(x &&& y) = Arch.ofMsb fun i => !(x.getMsbD i && y.getMsbD i) :=
  Arch.eq_ofMsb fun i hi => by simp [hi]

theorem nor_eq (x y : Word) :
    ~~~(x ||| y) = Arch.ofMsb fun i => !(x.getMsbD i || y.getMsbD i) :=
  Arch.eq_ofMsb fun i hi => by simp [hi]

theorem eqv_eq (x y : Word) :
    ~~~(x ^^^ y) = Arch.ofMsb fun i => !(x.getMsbD i ^^ y.getMsbD i) :=
  Arch.eq_ofMsb fun i hi => by simp [hi]

theorem translate_xLogic (op : Arch.XLogic) :
    execStmts rt fc (em._translate (Arch.xInsn rS rA rB rc addr w op.mnemonic) addr_set) s =
      (op.exec s rS rA rB rc, .next) := by
  let x := Arch.gprOf s rS
  let y := Arch.gprOf s rB
  cases op with
  | and => exact exec_writeBack rt fc s _ rA _ (Prod.ext (and_eq x y) rfl)
  | andc => exact exec_writeBack rt fc s _ rA _ (Prod.ext (andc_eq x y) rfl)
  | or => exact exec_writeBack rt fc s _ rA _ (Prod.ext (or_eq x y) rfl)
  | orc => exact exec_writeBack rt fc s _ rA _ (Prod.ext (orc_eq x y) rfl)
  | xor => exact exec_writeBack rt fc s _ rA _ (Prod.ext (xor_eq x y) rfl)
  | nand => exact exec_writeBack rt fc s _ rA _ (Prod.ext (nand_eq x y) rfl)
  | nor => exact exec_writeBack rt fc s _ rA _ (Prod.ext (nor_eq x y) rfl)
  | eqv => exact exec_writeBack rt fc s _ rA _ (Prod.ext (eqv_eq x y) rfl)
  | slw => exact exec_writeBack rt fc s _ rA _ (Prod.ext (ppc_slw_eq x y) rfl)
  | srw => exact exec_writeBack rt fc s _ rA _ (Prod.ext (ppc_srw_eq x y) rfl)
  | sraw => exact exec_writeBack rt fc s _ rA _ (ppc_sraw_eq s x y)

theorem translate_xUnary (op : Arch.XUnary) :
    execStmts rt fc (em._translate (Arch.xInsn rS rA 0 rc addr w op.mnemonic) addr_set) s =
      (op.exec s rS rA rc, .next) := by
  let x := Arch.gprOf s rS
  cases op with
  | cntlzw => exact exec_writeBack rt fc s _ rA _ (Prod.ext (ppc_cntlzw_eq x) rfl)
  | extsb => exact exec_writeBack rt fc s _ rA _ (Prod.ext (int8_eq x) rfl)
  | extsh => exact exec_writeBack rt fc s _ rA _ (Prod.ext (int16_eq x) rfl)

theorem translate_dLogic (op : Arch.DLogic) (uimm : BitVec 16) :
    execStmts rt fc (em._translate (Arch.dInsn rS rA uimm addr w op.mnemonic) addr_set) s =
      (op.exec s rS rA uimm, .next) := by
  let x := Arch.gprOf s rS
  have low : BitVec.ofInt 32 (uimm.toNat : Int) = BitVec.ofNat 32 uimm.toNat :=
    BitVec.ofInt_natCast 32 _
  have high : BitVec.ofInt 32 ((uimm.toNat : Int) * 2 ^ 16) =
      BitVec.ofNat 32 (uimm.toNat * 2 ^ 16) := by
    rw [← BitVec.ofInt_natCast]
    norm_cast
  cases op with
  | ori =>
      have bits := (congrArg (x ||| ·) low).trans (or_eq x _)
      exact exec_setG rt fc s rA _ (Prod.ext bits rfl)
  | oris =>
      have bits := (congrArg (x ||| ·) high).trans (or_eq x _)
      exact exec_setG rt fc s rA _ (Prod.ext bits rfl)
  | xori =>
      have bits := (congrArg (x ^^^ ·) low).trans (xor_eq x _)
      exact exec_setG rt fc s rA _ (Prod.ext bits rfl)
  | xoris =>
      have bits := (congrArg (x ^^^ ·) high).trans (xor_eq x _)
      exact exec_setG rt fc s rA _ (Prod.ext bits rfl)
  | andiDot =>
      have bits := (congrArg (x &&& ·) low).trans (and_eq x _)
      exact exec_setG_record rt fc s rA _ (Prod.ext bits rfl)
  | andisDot =>
      have bits := (congrArg (x &&& ·) high).trans (and_eq x _)
      exact exec_setG_record rt fc s rA _ (Prod.ext bits rfl)

theorem ofInt_toNat (sh : BitVec 5) : (BitVec.ofInt 32 (sh.toNat : Int)).toNat = sh.toNat := by
  have bound := sh.isLt
  rw [BitVec.ofInt_natCast, BitVec.toNat_ofNat]
  omega

theorem translate_srawi (sh : BitVec 5) :
    execStmts rt fc (em._translate (Arch.xInsn rS rA sh rc addr w .srawi) addr_set) s =
      (Arch.shiftRightAlgebraic s rS rA sh.toNat rc, .next) := by
  have shifted := ppc_srawi_eq s (Arch.gprOf s rS) sh.isLt
  have amount := congrArg (ppc_srawi s (Arch.gprOf s rS)) (ofInt_toNat sh)
  exact exec_writeBack rt fc s _ rA _ (amount.trans shifted)

end Logic

section Rotates

/-- The mask constant's bits, MSB-numbered and wrapping. -/
theorem ppc_mask_bit {mb me i : Nat} (he : me < 32) (hi : i < 32) :
    (BitVec.ofInt 32 (ppc_mask mb me)).getMsbD i = Arch.inMask mb me i := by
  have ones (j : Nat) : (0xFFFFFFFF : Nat).testBit j = decide (j < 32) :=
    Nat.testBit_two_pow_sub_one 32 j
  have lo : (0xFFFFFFFF >>> mb).testBit (31 - i) = decide (mb ≤ i) := by
    rw [Nat.testBit_shiftRight, ones, decide_eq_decide]
    omega
  have hi_bit : ((0xFFFFFFFF <<< (31 - me)) &&& 0xFFFFFFFF).testBit (31 - i) = decide (i ≤ me) := by
    rw [Nat.testBit_and, Nat.testBit_shiftLeft, ones, ones, ← Bool.decide_and,
      ← Bool.decide_and, decide_eq_decide]
    omega
  rw [BitVec.ofInt_natCast, getMsbD_of_lt _ hi, BitVec.getLsbD_ofNat,
    decide_eq_true (by omega), Bool.true_and, ppc_mask, Arch.inMask]
  by_cases ordered : mb ≤ me
  · rw [if_pos ordered, if_pos ordered, Nat.testBit_and, lo, hi_bit, ← Bool.decide_and]
  · rw [if_neg ordered, if_neg ordered, Nat.testBit_or, lo, hi_bit, ← Bool.decide_or]

/-- The complement of a constant, as Python writes it. -/
theorem complement_eq (m : Nat) : BitVec.ofInt 32 (-(m : Int) - 1) = ~~~BitVec.ofInt 32 m := by
  rw [BitVec.not_eq_neg_add, Int.sub_eq_add_neg, BitVec.ofInt_add, BitVec.ofInt_neg,
    BitVec.sub_eq_add_neg]
  rfl

variable (rS rA sh mb me : BitVec 5) (rc : Bool) (addr w : Nat)

theorem rot_expr_eval (m : Mnemonic) (t : Word) :
    (rot_expr (Arch.mInsn rS rA sh mb me rc addr w m)).eval rt t s =
      ((Arch.gprOf s rS).rotateLeft sh.toNat, s) := by
  have amount := ofInt_toNat sh
  have imm : (Arch.mInsn rS rA sh mb me rc addr w m).imm = sh.toNat := rfl
  by_cases zero : (sh.toNat : Int) ≠ 0
  · rw [rot_expr, imm, if_pos zero]
    have rotated := rotl32_eq (Arch.gprOf s rS) (BitVec.ofInt 32 (sh.toNat : Int))
    rw [amount, Nat.mod_eq_of_lt sh.isLt] at rotated
    exact Prod.ext rotated rfl
  · have none : sh.toNat = 0 := by omega
    rw [rot_expr, imm, if_neg zero, none, rotateLeft_zero]
    rfl

theorem rotateLeft_bit (x : Word) {n i : Nat} (hi : i < 32) :
    (x.rotateLeft n).getMsbD i = Arch.rotlBit x n i := by
  rw [BitVec.getMsbD_rotateLeft, decide_eq_true hi, Bool.true_and, Arch.rotlBit, Nat.add_comm n]

theorem translate_rlwinm :
    execStmts rt fc (em._translate (Arch.mInsn rS rA sh mb me rc addr w .rlwinm) addr_set) s =
      (Arch.writeBack s rA (Arch.ofMsb fun i =>
        Arch.inMask mb.toNat me.toNat i && Arch.rotlBit (Arch.gprOf s rS) sh.toNat i) rc,
        .next) := by
  have masked : (Arch.gprOf s rS).rotateLeft sh.toNat &&&
      BitVec.ofInt 32 (ppc_mask mb.toNat me.toNat) = Arch.ofMsb fun i =>
        Arch.inMask mb.toNat me.toNat i && Arch.rotlBit (Arch.gprOf s rS) sh.toNat i := by
    apply Arch.eq_ofMsb
    intro i hi
    rw [BitVec.getMsbD_and, ppc_mask_bit me.isLt hi, rotateLeft_bit _ hi, Bool.and_comm]
  have rotated := rot_expr_eval rt s rS rA sh mb me rc addr w .rlwinm 0
  apply exec_writeBack rt fc s _ rA
  rw [Expr.eval, rotated]
  exact Prod.ext masked rfl

theorem translate_rlwimi :
    execStmts rt fc (em._translate (Arch.mInsn rS rA sh mb me rc addr w .rlwimi) addr_set) s =
      (Arch.writeBack s rA (Arch.ofMsb fun i =>
        if Arch.inMask mb.toNat me.toNat i then Arch.rotlBit (Arch.gprOf s rS) sh.toNat i
        else (Arch.gprOf s rA).getMsbD i) rc, .next) := by
  have inserted : ((Arch.gprOf s rS).rotateLeft sh.toNat &&&
      BitVec.ofInt 32 (ppc_mask mb.toNat me.toNat)) |||
        (Arch.gprOf s rA &&& BitVec.ofInt 32 (-(ppc_mask mb.toNat me.toNat : Int) - 1)) =
      Arch.ofMsb fun i =>
        if Arch.inMask mb.toNat me.toNat i then Arch.rotlBit (Arch.gprOf s rS) sh.toNat i
        else (Arch.gprOf s rA).getMsbD i := by
    apply Arch.eq_ofMsb
    intro i hi
    rw [complement_eq, BitVec.getMsbD_or, BitVec.getMsbD_and, BitVec.getMsbD_and,
      BitVec.getMsbD_not, ppc_mask_bit me.isLt hi, rotateLeft_bit _ hi]
    cases Arch.inMask mb.toNat me.toNat i <;> simp [hi]
  have rotated := rot_expr_eval rt s rS rA sh mb me rc addr w .rlwimi 0
  apply exec_writeBack rt fc s _ rA
  rw [Expr.eval, Expr.eval, rotated]
  exact Prod.ext inserted rfl

theorem translate_rlwnm (rB : Arch.Reg) :
    execStmts rt fc (em._translate (Arch.mInsn rS rA rB mb me rc addr w .rlwnm) addr_set) s =
      (Arch.writeBack s rA (Arch.ofMsb fun i =>
        Arch.inMask mb.toNat me.toNat i &&
          Arch.rotlBit (Arch.gprOf s rS) ((Arch.gprOf s rB).toNat % 32) i) rc, .next) := by
  have amount : (Arch.gprOf s rB &&& 31#32).toNat = (Arch.gprOf s rB).toNat % 32 :=
    Nat.and_two_pow_sub_one_eq_mod _ 5
  have masked : rotl32 (Arch.gprOf s rS) (Arch.gprOf s rB &&& 31#32) &&&
      BitVec.ofInt 32 (ppc_mask mb.toNat me.toNat) = Arch.ofMsb fun i =>
        Arch.inMask mb.toNat me.toNat i &&
          Arch.rotlBit (Arch.gprOf s rS) ((Arch.gprOf s rB).toNat % 32) i := by
    apply Arch.eq_ofMsb
    intro i hi
    rw [BitVec.getMsbD_and, ppc_mask_bit me.isLt hi, rotl32_eq, amount, Nat.mod_mod,
      rotateLeft_bit _ hi, Bool.and_comm]
  exact exec_writeBack rt fc s _ rA _ (Prod.ext masked rfl)

end Rotates

section Conditions

variable (addr w : Nat)

theorem field_of_slot (crfD : BitVec 3) : (crfD ++ 0#2).toNat / 4 = crfD.toNat := by
  rw [toNat_append_add, BitVec.toNat_ofNat]
  omega

theorem exec_simple (x : Simple) {s' : CpuState ρ} (run : x.exec rt fc 0 s = (s', .next)) :
    execStmts rt fc [.simple x] s = (s', .next) := by
  rw [execStmts, Stmt.exec, run]
  rfl

theorem translate_cmpi (crfD : BitVec 3) (rA : Arch.Reg) (simm : BitVec 16) :
    execStmts rt fc (em._translate (Arch.dInsn (crfD ++ 0#2) rA simm addr w .cmpi) addr_set) s =
      (Arch.compare s crfD.toNat (Arch.gprOf s rA).toInt simm.toInt, .next) := by
  have compared := cr_cmp_s_eq s crfD.isLt (Arch.gprOf s rA) (Arch.exts simm)
  have value : (Arch.exts simm).toInt = simm.toInt := BitVec.toInt_signExtend_of_le (by decide)
  rw [value, ← field_of_slot] at compared
  rw [← field_of_slot]
  exact exec_simple rt fc s _ (Prod.ext compared rfl)

theorem translate_cmpli (crfD : BitVec 3) (rA : Arch.Reg) (uimm : BitVec 16) :
    execStmts rt fc
        (em._translate (Arch.dInsn (crfD ++ 0#2) rA uimm addr w .cmpli) addr_set) s =
      (Arch.compare s crfD.toNat (Arch.gprOf s rA).toNat uimm.toNat, .next) := by
  have compared := cr_cmp_u_eq s crfD.isLt (Arch.gprOf s rA) (BitVec.ofInt 32 (uimm.toNat : Int))
  have value : (BitVec.ofInt 32 (uimm.toNat : Int)).toNat = uimm.toNat := by
    rw [BitVec.ofInt_natCast, BitVec.toNat_ofNat]
    omega
  rw [value, ← field_of_slot] at compared
  rw [← field_of_slot]
  exact exec_simple rt fc s _ (Prod.ext compared rfl)

theorem translate_cmp (crfD : BitVec 3) (rA rB : Arch.Reg) :
    execStmts rt fc
        (em._translate (Arch.xInsn (crfD ++ 0#2) rA rB false addr w .cmp) addr_set) s =
      (Arch.compare s crfD.toNat (Arch.gprOf s rA).toInt (Arch.gprOf s rB).toInt, .next) := by
  have compared := cr_cmp_s_eq s crfD.isLt (Arch.gprOf s rA) (Arch.gprOf s rB)
  rw [← field_of_slot] at compared ⊢
  exact exec_simple rt fc s _ (Prod.ext compared rfl)

theorem translate_cmpl (crfD : BitVec 3) (rA rB : Arch.Reg) :
    execStmts rt fc
        (em._translate (Arch.xInsn (crfD ++ 0#2) rA rB false addr w .cmpl) addr_set) s =
      (Arch.compare s crfD.toNat (Arch.gprOf s rA).toNat (Arch.gprOf s rB).toNat, .next) := by
  have compared := cr_cmp_u_eq s crfD.isLt (Arch.gprOf s rA) (Arch.gprOf s rB)
  rw [← field_of_slot] at compared ⊢
  exact exec_simple rt fc s _ (Prod.ext compared rfl)

/-- C's operators over the ints `cr_bit` returns. -/
theorem crOp_eval (op : Arch.CRLogic) (a b : Bool) :
    decide ((op.crOp.eval a.toNat b.toNat &&& 1) ≠ 0) = op.eval a b := by
  cases op <;> cases a <;> cases b <;> rfl

theorem translate_crLogic (op : Arch.CRLogic) (crbD crbA crbB : BitVec 5) :
    execStmts rt fc
        (em._translate (Arch.xlInsn crbD crbA crbB addr w op.mnemonic) addr_set) s =
      ({ s with cr := Arch.ofMsb fun i =>
        if i = crbD.toNat then op.eval (s.cr.getMsbD crbA.toNat) (s.cr.getMsbD crbB.toNat)
        else s.cr.getMsbD i }, .next) := by
  have run := cr_set_bit_eq s crbD.isLt
    (op.crOp.eval (cr_bit s crbA.toNat) (cr_bit s crbB.toNat) &&& 1)
  rw [cr_bit_eq s crbA.isLt, cr_bit_eq s crbB.isLt, crOp_eval] at run
  rw [← run, ← cr_bit_eq s crbA.isLt, ← cr_bit_eq s crbB.isLt]
  cases op <;> exact exec_simple rt fc s _ rfl

theorem translate_mcrf (crfD crfS : BitVec 3) :
    execStmts rt fc
        (em._translate (Arch.xlInsn (crfD ++ 0#2) (crfS ++ 0#2) 0 addr w .mcrf) addr_set) s =
      (Arch.setCrField s crfD.toNat fun k => s.cr.getMsbD (4 * crfS.toNat + k), .next) := by
  have source := crfS.isLt
  have field := cr_set_field_eq s crfD.isLt (cr_get_field s crfS.toNat)
  have bits (k : Nat) (hk : k < 4) :
      (cr_get_field s crfS.toNat).getMsbD (28 + k) = s.cr.getMsbD (4 * crfS.toNat + k) := by
    have low : (0xF#32).getLsbD (31 - (28 + k)) = true :=
      (getLsbD_lowMask 4 _).trans (decide_eq_true (by omega))
    rw [cr_get_field, getMsbD_of_lt _ (by omega), getMsbD_of_lt _ (by omega),
      BitVec.getLsbD_and, BitVec.getLsbD_ushiftRight, low, Bool.and_true]
    congr 1
    omega
  rw [Arch.setCrField_congr s crfD.toNat bits] at field
  rw [← field, ← field_of_slot crfS, ← field_of_slot crfD]
  exact exec_simple rt fc s _ rfl

theorem translate_mcrxr (crfD : BitVec 3) :
    execStmts rt fc
        (em._translate (Arch.xInsn (crfD ++ 0#2) 0 0 false addr w .mcrxr) addr_set) s =
      ({ Arch.setCrField s crfD.toNat (fun k => s.xer.getMsbD k) with
        xer := Arch.ofMsb fun i => if i < 4 then false else s.xer.getMsbD i }, .next) := by
  have field := cr_set_field_eq s crfD.isLt (s.xer >>> 28)
  have bits (k : Nat) (hk : k < 4) : (s.xer >>> 28).getMsbD (28 + k) = s.xer.getMsbD k := by
    rw [getMsbD_of_lt _ (by omega), getMsbD_of_lt _ (by omega), BitVec.getLsbD_ushiftRight]
    congr 1
    omega
  have cleared : s.xer &&& 0x0FFFFFFF#32 =
      Arch.ofMsb fun i => if i < 4 then false else s.xer.getMsbD i := by
    apply Arch.eq_ofMsb
    intro i hi
    have low : (0x0FFFFFFF#32).getMsbD i = decide (4 ≤ i) := by
      rw [getMsbD_of_lt _ hi]
      refine (getLsbD_lowMask 28 _).trans (decide_eq_decide.mpr ?_)
      omega
    rw [BitVec.getMsbD_and, low]
    by_cases flag : i < 4
    · rw [if_pos flag, decide_eq_false (by omega), Bool.and_false]
    · rw [if_neg flag, decide_eq_true (by omega), Bool.and_true]
  rw [Arch.setCrField_congr s crfD.toNat bits] at field
  rw [← field, ← cleared, ← field_of_slot crfD]
  rfl

end Conditions

end SoaPort.Recomp
