import SoaPort.Recomp.Memory
import SoaPort.Recomp.TranslateInteger

namespace SoaPort.Recomp

open SoaPort.Lib SoaPort.Ppc Emitter

/-! The same for the register moves and the loads and stores. -/

namespace Arch

def Load.mnemonic : Load → Bool → Mnemonic
  | lbz, false => .lbz | lbz, true => .lbzu | lhz, false => .lhz | lhz, true => .lhzu
  | lha, false => .lha | lha, true => .lhau | lwz, false => .lwz | lwz, true => .lwzu

def Load.mnemonicx : Load → Bool → Mnemonic
  | lbz, false => .lbzx | lbz, true => .lbzux | lhz, false => .lhzx | lhz, true => .lhzux
  | lha, false => .lhax | lha, true => .lhaux | lwz, false => .lwzx | lwz, true => .lwzux

def Store.mnemonic : Store → Bool → Mnemonic
  | stb, false => .stb | stb, true => .stbu | sth, false => .sth | sth, true => .sthu
  | stw, false => .stw | stw, true => .stwu

def Store.mnemonicx : Store → Bool → Mnemonic
  | stb, false => .stbx | stb, true => .stbux | sth, false => .sthx | sth, true => .sthux
  | stw, false => .stwx | stw, true => .stwux

end Arch

variable {ρ : Type} (rt : Runtime ρ) (fc : FloatCode ρ) (em : Emitter) (addr_set : Nat → Bool)
  (s : CpuState ρ)

section Moves

variable (rD rS : Arch.Reg) (addr w : Nat)

/-- A loop that joins the parts whose condition holds. -/
theorem testBit_foldl_or (c : Nat → Prop) [DecidablePred c] (part : Nat → Nat) (j : Nat)
    (l : List Nat) (m : Nat) :
    (l.foldl (fun m i => if c i then m ||| part i else m) m).testBit j =
      (m.testBit j || l.any fun i => decide (c i) && (part i).testBit j) := by
  induction l generalizing m with
  | nil => simp
  | cons i l ih =>
      rw [List.foldl_cons, ih, List.any_cons, ← Bool.or_assoc]
      by_cases included : c i
      · simp [included]
      · simp [included]

theorem nibble_bit {i j : Nat} (hi : i < 8) (hj : j < 32) :
    (0xF <<< (28 - 4 * i) : Nat).testBit j = decide (i = 7 - j / 4) := by
  have ones : (0xF : Nat).testBit (j - (28 - 4 * i)) = decide (j - (28 - 4 * i) < 4) :=
    Nat.testBit_two_pow_sub_one 4 _
  rw [Nat.testBit_shiftLeft, ones, ← Bool.decide_and, decide_eq_decide]
  omega

theorem crm_bit (crm : BitVec 8) {i : Nat} (hi : i < 8) :
    decide ((crm.toNat &&& (0x80 >>> i)) ≠ 0) = crm.getMsbD i := by
  have single : (0x80 >>> i : Nat) = 2 ^ (7 - i) := by
    interval_cases i <;> rfl
  rw [single, getMsbD_of_lt _ hi, BitVec.getLsbD, Nat.and_two_pow]
  cases crm.toNat.testBit (7 - i) <;> simp

/-- The fields a CR mask selects, as bits. -/
theorem crm_mask_bit (crm : BitVec 8) {i : Nat} (hi : i < 32) :
    (BitVec.ofInt 32 (crm_mask crm.toNat)).getMsbD i = crm.getMsbD (i / 4) := by
  rw [BitVec.ofInt_natCast, getMsbD_of_lt _ hi, BitVec.getLsbD_ofNat,
    decide_eq_true (by omega), Bool.true_and, crm_mask, testBit_foldl_or, Nat.zero_testBit,
    Bool.false_or]
  have lane : 7 - (31 - i) / 4 = i / 4 := by omega
  rw [Bool.eq_iff_iff, List.any_eq_true]
  constructor
  · rintro ⟨k, member, selected⟩
    have hk : k < 8 := List.mem_range.mp member
    rw [crm_bit crm hk, nibble_bit hk (by omega), lane, Bool.and_eq_true,
      decide_eq_true_eq] at selected
    rw [← selected.2]
    exact selected.1
  · intro selected
    have hk : i / 4 < 8 := by omega
    refine ⟨i / 4, List.mem_range.mpr hk, ?_⟩
    rw [crm_bit crm hk, nibble_bit hk (by omega), lane, selected]
    simp

theorem translate_mtcrf (crm : BitVec 8) :
    execStmts rt fc
        (em._translate
          { Arch.blank w addr .mtcrf .XFX false with rd := rS.toNat, imm := crm.toNat }
          addr_set) s =
      ({ s with cr := Arch.ofMsb fun i =>
        if crm.getMsbD (i / 4) then (Arch.gprOf s rS).getMsbD i else s.cr.getMsbD i },
        .next) := by
  have merged : (s.cr &&& BitVec.ofInt 32 (-(crm_mask crm.toNat : Int) - 1)) |||
      (Arch.gprOf s rS &&& BitVec.ofInt 32 (crm_mask crm.toNat)) = Arch.ofMsb fun i =>
        if crm.getMsbD (i / 4) then (Arch.gprOf s rS).getMsbD i else s.cr.getMsbD i := by
    apply Arch.eq_ofMsb
    intro i hi
    rw [complement_eq, BitVec.getMsbD_or, BitVec.getMsbD_and, BitVec.getMsbD_and,
      BitVec.getMsbD_not, crm_mask_bit crm hi]
    cases crm.getMsbD (i / 4) <;> simp [hi]
  rw [← merged]
  exact exec_simple rt fc s _ rfl

/-- The SPR slots of the state. -/
theorem spr_lval_cases (n : Nat) :
    spr_lval n =
      if n = 1 then .xer else if n = 8 then .lr else if n = 9 then .ctr
      else if 912 ≤ n ∧ n < 920 then .gqr (n - 912) else if n = 920 then .hid2
      else if n = 921 then .wpar else .spr n := by
  have gqr : (GQR_SPRS (n : Int) = true) ↔ 912 ≤ n ∧ n < 920 := by
    simp only [GQR_SPRS, Bool.and_eq_true, decide_eq_true_eq]
    omega
  simp only [spr_lval, _SPR_FIELDS, gqr]
  norm_cast
  split_ifs <;> first | rfl | omega

theorem spr_lval_get (n : Nat) : (spr_lval n).get s = Arch.sprGet s n := by
  rw [spr_lval_cases, Arch.sprGet]
  split_ifs <;> rfl

theorem spr_lval_set (n : Nat) (v : Word) : (spr_lval n).set s v = Arch.sprSet s n v := by
  rw [spr_lval_cases, Arch.sprSet]
  split_ifs <;> rfl

theorem translate_mfspr (spr : BitVec 10) :
    ∃ s', execStmts rt fc (em._translate (Arch.sprInsn rD addr spr w .mfspr) addr_set) s =
        (s', .next) ∧ Arch.Step rt s s' (.mfspr rD spr) := by
  have number : (spr.toNat : Int) = 22 ↔ spr = 22 := by
    rw [← BitVec.toNat_inj]
    exact Int.ofNat_inj
  simp only [Arch.Step]
  by_cases dec : spr = 22
  · subst dec
    exact ⟨_, exec_setG rt fc s rD .dec_read rfl, rfl⟩
  · have read : em._translate (Arch.sprInsn rD addr spr w .mfspr) addr_set =
        [.simple (setG rD.toNat (.lval (spr_lval spr.toNat)))] :=
      if_neg (mt number.mp dec)
    rw [read]
    exact ⟨_, exec_setG rt fc s rD _ (Prod.ext (spr_lval_get s spr.toNat) rfl),
      (if_neg dec).mpr rfl⟩

theorem translate_mtspr (spr : BitVec 10) :
    ∃ s', execStmts rt fc (em._translate (Arch.sprInsn rS addr spr w .mtspr) addr_set) s =
        (s', .next) ∧ Arch.Step rt s s' (.mtspr spr rS) := by
  have number : (spr.toNat : Int) = 22 ↔ spr = 22 := by
    rw [← BitVec.toNat_inj]
    exact Int.ofNat_inj
  simp only [Arch.Step]
  by_cases dec : spr = 22
  · subst dec
    exact ⟨_, exec_simple rt fc s _ rfl, rfl⟩
  · have write : em._translate (Arch.sprInsn rS addr spr w .mtspr) addr_set =
        [.simple (.assign (spr_lval spr.toNat) (G rS.toNat))] :=
      if_neg (mt number.mp dec)
    rw [write]
    exact ⟨_, exec_simple rt fc s _ rfl, (if_neg dec).mpr (spr_lval_set s spr.toNat _)⟩

end Moves

section Loads

variable (rD rA rB : Arch.Reg) (d : BitVec 16) (addr w : Nat)

/-- `(rA|0) + d`. -/
theorem eval_displacement (t : Word) :
    (Expr.call2 .add (GA rA.toNat) (.u32 d.toInt)).eval rt t s =
      (Arch.baseOf s rA + Arch.exts d, s) := by
  rw [Expr.eval, eval_GA]
  rfl

/-- `(rA|0) + rB`. -/
theorem eval_index (t : Word) :
    (Expr.call2 .add (GA rA.toNat) (G rB.toNat)).eval rt t s =
      (Arch.baseOf s rA + Arch.gprOf s rB, s) := by
  rw [Expr.eval, eval_GA]
  rfl

/-- The load template, from what its value expression reads at the address. -/
theorem exec_load (i : Insn) (value : Expr → Expr) (update indexed : Bool)
    (target : i.rd = rD.toNat) (base : i.ra = rA.toNat) {ea : Word} {v : Word × CpuState ρ}
    (address : ∀ t, (ea_expr i indexed).eval rt t s = (ea, s))
    (loaded : ∀ e t, e.eval rt t s = (ea, s) → (value e).eval rt t s = v) :
    execStmts rt fc (load_stmts i value update indexed) s =
      (Arch.updateBase update (Arch.setGprOf v.2 rD v.1) rA ea, .next) := by
  rw [load_stmts, target, base]
  cases update with
  | false => exact exec_setG rt fc s rD _ (loaded _ 0 (address 0))
  | true =>
      have value_at := loaded .tmp ea rfl
      simp only [if_true, execStmts, Stmt.exec, address, execSimples, Simple.exec, setG,
        value_at]
      rfl

def Arch.Load.expr : Arch.Load → Expr → Expr
  | .lbz => .mem_r8
  | .lhz => .mem_r16
  | .lha => fun e => .call1 .int16 (.mem_r16 e)
  | .lwz => .mem_r32

theorem load_value (op : Arch.Load) (ea : Word) (e : Expr) (t : Word)
    (address : e.eval rt t s = (ea, s)) : (op.expr e).eval rt t s = op.read rt s ea := by
  cases op with
  | lbz =>
      rw [Arch.Load.read, ← mem_r8_eq, BitVec.ofNat_toNat, Arch.Load.expr, Expr.eval, address]
  | lhz =>
      rw [Arch.Load.read, ← mem_r16_eq, BitVec.ofNat_toNat, Arch.Load.expr, Expr.eval, address]
  | lha =>
      have narrow (v : BitVec 16) : (v.setWidth 32).setWidth 16 = v :=
        BitVec.setWidth_setWidth_of_le v (by decide)
      rw [Arch.Load.read, ← mem_r16_eq, BitVec.ofNat_toNat, Arch.Load.expr, Expr.eval,
        Expr.eval, address]
      simp only [Fn1.eval, narrow, BitVec.setWidth_eq]
      rfl
  | lwz =>
      rw [Arch.Load.read, ← mem_r32_eq, BitVec.ofNat_toNat, BitVec.setWidth_eq, Arch.Load.expr,
        Expr.eval, address]

theorem translate_load (op : Arch.Load) (update : Bool) :
    execStmts rt fc
        (em._translate (Arch.dInsn rD rA d addr w (op.mnemonic update)) addr_set) s =
      (Arch.loadInto rt s op update rD rA (Arch.baseOf s rA + Arch.exts d), .next) := by
  have stmts : em._translate (Arch.dInsn rD rA d addr w (op.mnemonic update)) addr_set =
      load_stmts (Arch.dInsn rD rA d addr w (op.mnemonic update)) op.expr update false := by
    cases op <;> cases update <;> rfl
  have address (t : Word) :
      (ea_expr (Arch.dInsn rD rA d addr w (op.mnemonic update)) false).eval rt t s =
        (Arch.baseOf s rA + Arch.exts d, s) := by
    cases op <;> cases update <;> exact eval_displacement rt s rA d t
  rw [stmts]
  exact exec_load rt fc s rD rA _ _ _ _ rfl rfl address (load_value rt s op _)

theorem translate_loadx (op : Arch.Load) (update : Bool) :
    execStmts rt fc
        (em._translate (Arch.xInsn rD rA rB false addr w (op.mnemonicx update)) addr_set) s =
      (Arch.loadInto rt s op update rD rA (Arch.baseOf s rA + Arch.gprOf s rB), .next) := by
  have stmts :
      em._translate (Arch.xInsn rD rA rB false addr w (op.mnemonicx update)) addr_set =
        load_stmts (Arch.xInsn rD rA rB false addr w (op.mnemonicx update)) op.expr update
          true := by
    cases op <;> cases update <;> rfl
  rw [stmts]
  exact exec_load rt fc s rD rA _ _ _ _ rfl rfl (eval_index rt s rA rB)
    (load_value rt s op _)

theorem BSWAP32_toNat_eq (v : Word) : (BSWAP32 v).toNat = Arch.byteReverse 4 v.toNat := by
  have bound := v.isLt
  rw [BSWAP32_toNat]
  simp only [Arch.byteReverse, Arch.readBE, BitVec.toNat_ofNat, Nat.zero_add, Nat.reducePow,
    Nat.div_one]
  omega

theorem BSWAP32_eq (v : Word) : BSWAP32 v = BitVec.ofNat 32 (Arch.byteReverse 4 v.toNat) := by
  rw [← BSWAP32_toNat_eq, BitVec.ofNat_toNat, BitVec.setWidth_eq]

theorem byteReverse_two (n : Nat) : Arch.byteReverse 2 n = n % 256 * 256 + n / 256 % 256 := by
  simp only [Arch.byteReverse, Arch.readBE, BitVec.toNat_ofNat, Nat.zero_add, Nat.reducePow,
    Nat.div_one, Nat.zero_mul]

theorem BSWAP16_eq (v : BitVec 16) :
    (BSWAP16 v).setWidth 32 = BitVec.ofNat 32 (Arch.byteReverse 2 v.toNat) := by
  have bound := v.isLt
  have high : v.toNat / 256 % 256 = v.toNat / 256 := Nat.mod_eq_of_lt (by omega)
  rw [← BitVec.ofNat_toNat, BSWAP16_toNat, byteReverse_two, high]
  rfl

theorem translate_lwbrx :
    execStmts rt fc (em._translate (Arch.xInsn rD rA rB false addr w .lwbrx) addr_set) s =
      (Arch.setGprOf (Arch.readWord rt s (Arch.baseOf s rA + Arch.gprOf s rB)).2 rD
        (BitVec.ofNat 32 (Arch.byteReverse 4
          (Arch.readWord rt s (Arch.baseOf s rA + Arch.gprOf s rB)).1)), .next) := by
  have loaded (e : Expr) (t : Word)
      (address : e.eval rt t s = (Arch.baseOf s rA + Arch.gprOf s rB, s)) :
      (Expr.call1 .bswap32 (.mem_r32 e)).eval rt t s =
        (BitVec.ofNat 32 (Arch.byteReverse 4
          (Arch.readWord rt s (Arch.baseOf s rA + Arch.gprOf s rB)).1),
          (Arch.readWord rt s (Arch.baseOf s rA + Arch.gprOf s rB)).2) := by
    rw [Expr.eval, Expr.eval, address, ← mem_r32_eq, ← BSWAP32_eq]
    rfl
  exact exec_load rt fc s rD rA (Arch.xInsn rD rA rB false addr w .lwbrx) _ false true rfl rfl
    (eval_index rt s rA rB) loaded

theorem translate_lhbrx :
    execStmts rt fc (em._translate (Arch.xInsn rD rA rB false addr w .lhbrx) addr_set) s =
      (Arch.setGprOf (Arch.readHalf rt s (Arch.baseOf s rA + Arch.gprOf s rB)).2 rD
        (BitVec.ofNat 32 (Arch.byteReverse 2
          (Arch.readHalf rt s (Arch.baseOf s rA + Arch.gprOf s rB)).1)), .next) := by
  have loaded (e : Expr) (t : Word)
      (address : e.eval rt t s = (Arch.baseOf s rA + Arch.gprOf s rB, s)) :
      (Expr.call1 .bswap16 (.mem_r16 e)).eval rt t s =
        (BitVec.ofNat 32 (Arch.byteReverse 2
          (Arch.readHalf rt s (Arch.baseOf s rA + Arch.gprOf s rB)).1),
          (Arch.readHalf rt s (Arch.baseOf s rA + Arch.gprOf s rB)).2) := by
    have narrow (v : BitVec 16) : (v.setWidth 32).setWidth 16 = v :=
      BitVec.setWidth_setWidth_of_le v (by decide)
    rw [Expr.eval, Expr.eval, address, ← mem_r16_eq, ← BSWAP16_eq]
    simp only [Fn1.eval, narrow]
  exact exec_load rt fc s rD rA (Arch.xInsn rD rA rB false addr w .lhbrx) _ false true rfl rfl
    (eval_index rt s rA rB) loaded

end Loads

section Stores

variable (rS rA rB : Arch.Reg) (d : BitVec 16) (addr w : Nat)

/-- The store template, from what its statement does at the address. -/
theorem exec_store (i : Insn) (tmpl : Expr → Expr → Simple) (update indexed : Bool)
    (source : i.rd = rS.toNat) (base : i.ra = rA.toNat) {ea : Word} {s' : CpuState ρ}
    (address : ∀ t, (ea_expr i indexed).eval rt t s = (ea, s))
    (stored : ∀ e t, e.eval rt t s = (ea, s) →
      (tmpl e (G rS.toNat)).exec rt fc t s = (s', .next)) :
    execStmts rt fc (store_stmts i tmpl update indexed) s =
      (Arch.updateBase update s' rA ea, .next) := by
  rw [store_stmts, source, base]
  cases update with
  | false => exact exec_simple rt fc s _ (stored _ 0 (address 0))
  | true =>
      have store_at := stored .tmp ea rfl
      simp only [if_true, execStmts, Stmt.exec, address, execSimples, store_at]
      rfl

def Arch.Store.stmt : Arch.Store → Expr → Expr → Simple
  | .stb => .mem_w8
  | .sth => .mem_w16
  | .stw => .mem_w32

theorem store_effect (op : Arch.Store) (ea : Word) (e : Expr) (t : Word)
    (address : e.eval rt t s = (ea, s)) :
    (op.stmt e (G rS.toNat)).exec rt fc t s =
      (op.write rt s ea (Arch.gprOf s rS).toNat, .next) := by
  cases op with
  | stb =>
      rw [Arch.Store.write, ← mem_w8_eq, Arch.Store.stmt, Simple.exec, address]
      rfl
  | sth =>
      rw [Arch.Store.write, ← mem_w16_eq, Arch.Store.stmt, Simple.exec, address]
      rfl
  | stw =>
      rw [Arch.Store.write, ← mem_w32_eq, Arch.Store.stmt, Simple.exec, address]
      rfl

theorem translate_store (op : Arch.Store) (update : Bool) :
    execStmts rt fc
        (em._translate (Arch.dInsn rS rA d addr w (op.mnemonic update)) addr_set) s =
      (Arch.storeFrom rt s op update rS rA (Arch.baseOf s rA + Arch.exts d), .next) := by
  have stmts : em._translate (Arch.dInsn rS rA d addr w (op.mnemonic update)) addr_set =
      store_stmts (Arch.dInsn rS rA d addr w (op.mnemonic update)) op.stmt update false := by
    cases op <;> cases update <;> rfl
  have address (t : Word) :
      (ea_expr (Arch.dInsn rS rA d addr w (op.mnemonic update)) false).eval rt t s =
        (Arch.baseOf s rA + Arch.exts d, s) := by
    cases op <;> cases update <;> exact eval_displacement rt s rA d t
  rw [stmts]
  exact exec_store rt fc s rS rA _ _ _ _ rfl rfl address (store_effect rt fc s rS op _)

theorem translate_storex (op : Arch.Store) (update : Bool) :
    execStmts rt fc
        (em._translate (Arch.xInsn rS rA rB false addr w (op.mnemonicx update)) addr_set) s =
      (Arch.storeFrom rt s op update rS rA (Arch.baseOf s rA + Arch.gprOf s rB), .next) := by
  have stmts :
      em._translate (Arch.xInsn rS rA rB false addr w (op.mnemonicx update)) addr_set =
        store_stmts (Arch.xInsn rS rA rB false addr w (op.mnemonicx update)) op.stmt update
          true := by
    cases op <;> cases update <;> rfl
  rw [stmts]
  exact exec_store rt fc s rS rA _ _ _ _ rfl rfl (eval_index rt s rA rB)
    (store_effect rt fc s rS op _)

theorem BSWAP16_toNat_eq (v : Word) :
    ((BSWAP16 (v.setWidth 16)).setWidth 32).toNat = Arch.byteReverse 2 v.toNat := by
  have low : v.toNat % 2 ^ 16 % 256 = v.toNat % 256 := by omega
  have high : v.toNat % 2 ^ 16 / 256 % 256 = v.toNat / 256 % 256 := by omega
  rw [BSWAP16_eq, BitVec.toNat_setWidth, BitVec.toNat_ofNat, byteReverse_two, byteReverse_two,
    low, high]
  omega

theorem translate_stwbrx :
    execStmts rt fc (em._translate (Arch.xInsn rS rA rB false addr w .stwbrx) addr_set) s =
      (Arch.writeWord rt s (Arch.baseOf s rA + Arch.gprOf s rB)
        (Arch.byteReverse 4 (Arch.gprOf s rS).toNat), .next) := by
  have stored (e : Expr) (t : Word)
      (address : e.eval rt t s = (Arch.baseOf s rA + Arch.gprOf s rB, s)) :
      (Simple.mem_w32 e (.call1 .bswap32 (G rS.toNat))).exec rt fc t s =
        (Arch.writeWord rt s (Arch.baseOf s rA + Arch.gprOf s rB)
          (Arch.byteReverse 4 (Arch.gprOf s rS).toNat), .next) := by
    rw [← BSWAP32_toNat_eq, ← mem_w32_eq, Simple.exec, address]
    rfl
  exact exec_store rt fc s rS rA (Arch.xInsn rS rA rB false addr w .stwbrx)
    (fun e v => .mem_w32 e (.call1 .bswap32 v)) false true rfl rfl (eval_index rt s rA rB) stored

theorem translate_sthbrx :
    execStmts rt fc (em._translate (Arch.xInsn rS rA rB false addr w .sthbrx) addr_set) s =
      (Arch.writeHalf rt s (Arch.baseOf s rA + Arch.gprOf s rB)
        (Arch.byteReverse 2 (Arch.gprOf s rS).toNat), .next) := by
  have stored (e : Expr) (t : Word)
      (address : e.eval rt t s = (Arch.baseOf s rA + Arch.gprOf s rB, s)) :
      (Simple.mem_w16 e (.call1 .bswap16 (G rS.toNat))).exec rt fc t s =
        (Arch.writeHalf rt s (Arch.baseOf s rA + Arch.gprOf s rB)
          (Arch.byteReverse 2 (Arch.gprOf s rS).toNat), .next) := by
    rw [← BSWAP16_toNat_eq, ← mem_w16_eq, Simple.exec, address]
    rfl
  exact exec_store rt fc s rS rA (Arch.xInsn rS rA rB false addr w .sthbrx)
    (fun e v => .mem_w16 e (.call1 .bswap16 v)) false true rfl rfl (eval_index rt s rA rB) stored

end Stores

section Multiple

variable (rA : Arch.Reg) (d : BitVec 16) (addr w : Nat)

theorem word_after (ea : Word) (k : Nat) :
    ea + BitVec.ofNat 32 (4 * k) + 4 = ea + BitVec.ofNat 32 (4 * (k + 1)) := by
  rw [BitVec.add_assoc, Nat.mul_succ, BitVec.ofNat_add]
  rfl

theorem register_after (r k : Nat) : ((r : Int) + k + 1) = r + (k + 1 : Nat) := by
  push_cast
  ring

theorem lmw_loop_eq (ea : Word) (rD : Arch.Reg) (n k : Nat) :
    lmw_loop rt n s (rD.toNat + k) (ea + BitVec.ofNat 32 (4 * k)) =
      (List.range' k n).foldl (Arch.loadMultipleStep rt ea rD) s := by
  induction n generalizing s k with
  | zero => rfl
  | succ n ih =>
      have step : Arch.loadMultipleStep rt ea rD s k =
          (mem_r32 rt s (ea + BitVec.ofNat 32 (4 * k))).2.setGpr (rD.toNat + k)
            (mem_r32 rt s (ea + BitVec.ofNat 32 (4 * k))).1 := by
        rw [Arch.loadMultipleStep, ← mem_r32_eq]
        simp only [BitVec.ofNat_toNat, BitVec.setWidth_eq]
      rw [List.range'_succ, List.foldl_cons, step, ← ih, ← word_after, ← register_after]
      rfl

theorem stmw_loop_eq (ea : Word) (rS : Arch.Reg) (n k : Nat) :
    stmw_loop rt n s (rS.toNat + k) (ea + BitVec.ofNat 32 (4 * k)) =
      (List.range' k n).foldl (Arch.storeMultipleStep rt ea rS) s := by
  induction n generalizing s k with
  | zero => rfl
  | succ n ih =>
      rw [List.range'_succ, List.foldl_cons, Arch.storeMultipleStep, ← mem_w32_eq, ← ih,
        ← word_after, ← register_after]
      rfl

theorem registers_left (r : Arch.Reg) : (32 - (r.toNat : Int)).toNat = 32 - r.toNat := by
  omega

theorem translate_lmw (rD : Arch.Reg) :
    execStmts rt fc (em._translate (Arch.dInsn rD rA d addr w .lmw) addr_set) s =
      ((List.range (32 - rD.toNat)).foldl
        (Arch.loadMultipleStep rt (Arch.baseOf s rA + Arch.exts d) rD) s, .next) := by
  have loop := lmw_loop_eq rt s (Arch.baseOf s rA + Arch.exts d) rD (32 - rD.toNat) 0
  rw [← List.range_eq_range', ← registers_left, Nat.mul_zero, Nat.cast_zero, Int.add_zero,
    BitVec.add_zero] at loop
  have stmts : em._translate (Arch.dInsn rD rA d addr w .lmw) addr_set =
      [.simple (.ppc_lmw rD.toNat (.call2 .add (GA rA.toNat) (.u32 d.toInt)))] := rfl
  rw [stmts, ← registers_left, ← loop]
  apply exec_simple rt fc s
  rw [Simple.exec, eval_displacement]
  rfl

theorem translate_stmw (rS : Arch.Reg) :
    execStmts rt fc (em._translate (Arch.dInsn rS rA d addr w .stmw) addr_set) s =
      ((List.range (32 - rS.toNat)).foldl
        (Arch.storeMultipleStep rt (Arch.baseOf s rA + Arch.exts d) rS) s, .next) := by
  have loop := stmw_loop_eq rt s (Arch.baseOf s rA + Arch.exts d) rS (32 - rS.toNat) 0
  rw [← List.range_eq_range', ← registers_left, Nat.mul_zero, Nat.cast_zero, Int.add_zero,
    BitVec.add_zero] at loop
  have stmts : em._translate (Arch.dInsn rS rA d addr w .stmw) addr_set =
      [.simple (.ppc_stmw rS.toNat (.call2 .add (GA rA.toNat) (.u32 d.toInt)))] := rfl
  rw [stmts, ← registers_left, ← loop]
  apply exec_simple rt fc s
  rw [Simple.exec, eval_displacement]
  rfl

end Multiple

end SoaPort.Recomp
