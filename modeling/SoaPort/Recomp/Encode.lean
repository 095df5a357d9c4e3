import SoaPort.Lib.Bits
import SoaPort.Ppc.Decode
import SoaPort.Recomp.Arch

namespace SoaPort.Recomp.Arch

open SoaPort.Lib SoaPort.Ppc

/-! What the decoder reads back from an encoded instruction. -/

section Fields

variable (opcd : BitVec 6) (rD rA rB mb me : BitVec 5) (imm : BitVec 16)
  (xo : BitVec 10) (rc : Bool)

theorem dForm_toNat :
    (dForm opcd rD rA imm).toNat =
      opcd.toNat * 2 ^ 26 + rD.toNat * 2 ^ 21 + rA.toNat * 2 ^ 16 + imm.toNat := by
  simp only [dForm, toNat_append_add]
  omega

theorem xForm_toNat :
    (xForm opcd rD rA rB xo rc).toNat =
      opcd.toNat * 2 ^ 26 + rD.toNat * 2 ^ 21 + rA.toNat * 2 ^ 16 + rB.toNat * 2 ^ 11 +
        xo.toNat * 2 + rc.toNat := by
  simp only [xForm, toNat_append_add, BitVec.toNat_ofBool]
  omega

theorem mForm_toNat :
    (mForm opcd rD rA rB mb me rc).toNat =
      opcd.toNat * 2 ^ 26 + rD.toNat * 2 ^ 21 + rA.toNat * 2 ^ 16 + rB.toNat * 2 ^ 11 +
        mb.toNat * 2 ^ 6 + me.toNat * 2 + rc.toNat := by
  simp only [mForm, toNat_append_add, BitVec.toNat_ofBool]
  omega

end Fields

/-- The operand slots of a word, as the decoder's masks and shifts read them. -/
structure Slots (w : Nat) (op d a b : Nat) : Prop where
  whole : w &&& 0xFFFFFFFF = w
  opcd : Ppc.opcd w = op
  rd : _rd w = d
  ra : _ra w = a
  rb : _rb w = b
  crf_d : (w >>> 23) &&& 7 = d / 4
  l_bit : (w >>> 21) &&& 1 = d % 2
  crf_s : (w >>> 18) &&& 7 = a / 4

theorem slots_of_sum {w op d a b : Nat} (low : Nat)
    (sum : w = op * 2 ^ 26 + d * 2 ^ 21 + a * 2 ^ 16 + b * 2 ^ 11 + low)
    (hop : op < 2 ^ 6) (hd : d < 2 ^ 5) (ha : a < 2 ^ 5) (hb : b < 2 ^ 5)
    (hlow : low < 2 ^ 11) : Slots w op d a b where
  whole := by
    rw [Nat.and_two_pow_sub_one_eq_mod w 32]
    omega
  opcd := Eq.trans (field_eq 6 rfl) (by omega)
  rd := Eq.trans (field_eq 5 rfl) (by omega)
  ra := Eq.trans (field_eq 5 rfl) (by omega)
  rb := Eq.trans (field_eq 5 rfl) (by omega)
  crf_d := Eq.trans (field_eq 3 rfl) (by omega)
  l_bit := Eq.trans (field_eq 1 rfl) (by omega)
  crf_s := Eq.trans (field_eq 3 rfl) (by omega)

section Words

variable (opcd : BitVec 6) (rD rA rB mb me : BitVec 5) (imm : BitVec 16)
  (xo : BitVec 10) (rc : Bool)

theorem dForm_slots :
    Slots (dForm opcd rD rA imm).toNat opcd.toNat rD.toNat rA.toNat (imm.toNat / 2 ^ 11) := by
  apply slots_of_sum (imm.toNat % 2 ^ 11) _ opcd.isLt rD.isLt rA.isLt
  · omega
  · omega
  · rw [dForm_toNat]
    omega

theorem xForm_slots :
    Slots (xForm opcd rD rA rB xo rc).toNat opcd.toNat rD.toNat rA.toNat rB.toNat := by
  have bit : rc.toNat < 2 := Bool.toNat_lt rc
  apply slots_of_sum (xo.toNat * 2 + rc.toNat) _ opcd.isLt rD.isLt rA.isLt rB.isLt
  · omega
  · rw [xForm_toNat]
    omega

theorem mForm_slots :
    Slots (mForm opcd rD rA rB mb me rc).toNat opcd.toNat rD.toNat rA.toNat rB.toNat := by
  have bit : rc.toNat < 2 := Bool.toNat_lt rc
  apply slots_of_sum (mb.toNat * 2 ^ 6 + me.toNat * 2 + rc.toNat) _
    opcd.isLt rD.isLt rA.isLt rB.isLt
  · omega
  · rw [mForm_toNat]
    omega

theorem dForm_imm : (dForm opcd rD rA imm).toNat &&& 0xFFFF = imm.toNat := by
  rw [Nat.and_two_pow_sub_one_eq_mod _ 16, dForm_toNat]
  omega

theorem xForm_xo : ((xForm opcd rD rA rB xo rc).toNat >>> 1) &&& 0x3FF = xo.toNat := by
  have bit : rc.toNat < 2 := Bool.toNat_lt rc
  have sum := xForm_toNat opcd rD rA rB xo rc
  exact Eq.trans (field_eq 10 rfl) (by omega)

theorem xForm_rc : (xForm opcd rD rA rB xo rc).toNat &&& 1 = rc.toNat := by
  have bit : rc.toNat < 2 := Bool.toNat_lt rc
  rw [Nat.and_two_pow_sub_one_eq_mod _ 1, xForm_toNat]
  omega

theorem xForm_oe :
    ((xForm opcd rD rA rB xo rc).toNat >>> 10) &&& 1 = xo.toNat / 2 ^ 9 := by
  have bit : rc.toNat < 2 := Bool.toNat_lt rc
  have sum := xForm_toNat opcd rD rA rB xo rc
  exact Eq.trans (field_eq 1 rfl) (by omega)

theorem mForm_rc : (mForm opcd rD rA rB mb me rc).toNat &&& 1 = rc.toNat := by
  have bit : rc.toNat < 2 := Bool.toNat_lt rc
  rw [Nat.and_two_pow_sub_one_eq_mod _ 1, mForm_toNat]
  omega

theorem mForm_mb : ((mForm opcd rD rA rB mb me rc).toNat >>> 6) &&& 0x1F = mb.toNat := by
  have bit : rc.toNat < 2 := Bool.toNat_lt rc
  have sum := mForm_toNat opcd rD rA rB mb me rc
  exact Eq.trans (field_eq 5 rfl) (by omega)

theorem mForm_me : ((mForm opcd rD rA rB mb me rc).toNat >>> 1) &&& 0x1F = me.toNat := by
  have bit : rc.toNat < 2 := Bool.toNat_lt rc
  have sum := mForm_toNat opcd rD rA rB mb me rc
  exact Eq.trans (field_eq 5 rfl) (by omega)

end Words

theorem sign_extend_eq (imm : BitVec 16) : sign_extend imm.toNat 16 = imm.toInt :=
  xor_sub_sign imm

theorem bit_ne_zero (b : Bool) : decide (b.toNat ≠ 0) = b := by
  cases b <;> rfl

/-! The table lookup. -/

theorem decode_entry_primary {w op : Nat} {entry : Entry} (opcode : opcd w = op)
    (found : PRIMARY op = some entry) : decode_entry w = some entry := by
  have reserved : op ≠ 4 ∧ op ≠ 19 ∧ op ≠ 31 ∧ op ≠ 59 ∧ op ≠ 63 := by
    refine ⟨?_, ?_, ?_, ?_, ?_⟩ <;>
      · intro same
        subst same
        cases found
  obtain ⟨h4, h19, h31, h59, h63⟩ := reserved
  simp only [decode_entry, opcode, h4, h19, h31, h59, h63, if_false]
  exact found

theorem decode_entry_op31 {w ext : Nat} {entry : Entry} (opcode : opcd w = 31)
    (field : (w >>> 1) &&& 0x3FF = ext) (found : OP31 ext = some entry) :
    decode_entry w = some entry := by
  simp [decode_entry, opcode, _decode_op31, field, found]

theorem decode_entry_op19 {w ext : Nat} {entry : Entry} (opcode : opcd w = 19)
    (field : (w >>> 1) &&& 0x3FF = ext) (found : OP19 ext = some entry) :
    decode_entry w = some entry := by
  simp [decode_entry, opcode, field, found]

/-- The comparisons, whose L bit must be clear. -/
def isCompare (m : Mnemonic) : Bool :=
  m = .cmp || m = .cmpl || m = .cmpi || m = .cmpli

/-- The instruction before its operand fields are filled in. -/
def blank (w addr : Nat) (m : Mnemonic) (form : Form) (rc : Bool) : Insn :=
  { addr, word := w, mnemonic := m, form := some form, valid := true, rc_bit := rc }

theorem decode_of_entry {w op d a b : Nat} {m : Mnemonic} {form : Form} {allowed : Nat}
    {rc : Bool} (slots : Slots w op d a b) (entry : decode_entry w = some (m, form, allowed))
    (L : isCompare m = true → d % 2 = 0)
    (flags : _flags w allowed = (rc, false, false, false)) (addr : Nat) :
    decode w addr = decode_fields w m form (blank w addr m form rc) := by
  have supported : (isCompare m && decide (((w >>> 21) &&& 1) ≠ 0)) = false := by
    rw [slots.l_bit]
    by_cases compares : isCompare m = true
    · simp [L compares]
    · simp [compares]
  unfold decode
  simp only [slots.whole, entry, flags]
  rw [← isCompare, supported]
  rfl

section Forms

variable {m : Mnemonic} {allowed : Nat} (rD rA rB mb me : BitVec 5) (imm : BitVec 16)
  (rc : Bool) (addr : Nat)

def dInsn (w : Nat) (m : Mnemonic) : Insn :=
  { blank w addr m .D false with
    rd := rD.toNat
    ra := rA.toNat
    imm := if unsigned_imm m then (imm.toNat : Int) else imm.toInt
    crf_d := rD.toNat / 4 }

def mInsn (w : Nat) (m : Mnemonic) : Insn :=
  { blank w addr m .M rc with
    rd := rD.toNat
    ra := rA.toNat
    rb := rB.toNat
    imm := rB.toNat
    mb := mb.toNat
    me := me.toNat }

def xoInsn (w : Nat) (m : Mnemonic) : Insn :=
  { blank w addr m .XO rc with rd := rD.toNat, ra := rA.toNat, rb := rB.toNat }

def xInsn (w : Nat) (m : Mnemonic) : Insn :=
  { blank w addr m .X rc with
    rd := rD.toNat
    ra := rA.toNat
    rb := rB.toNat
    crf_d := rD.toNat / 4
    crf_s := rA.toNat / 4
    imm := if m = .srawi then (rB.toNat : Int) else 0 }

def xlInsn (w : Nat) (m : Mnemonic) : Insn :=
  { blank w addr m .XL false with
    bo := rD.toNat
    bi := rA.toNat
    rb := rB.toNat
    crf_d := rD.toNat / 4
    crf_s := rA.toNat / 4 }

theorem decode_dForm {opcd : BitVec 6} (entry : PRIMARY opcd.toNat = some (m, .D, 0))
    (L : isCompare m = true → rD.toNat % 2 = 0) :
    decode (dForm opcd rD rA imm).toNat addr =
      dInsn rD rA imm addr (dForm opcd rD rA imm).toNat m := by
  have slots := dForm_slots opcd rD rA imm
  have flags : _flags (dForm opcd rD rA imm).toNat 0 = (false, false, false, false) := by
    simp [_flags]
  rw [decode_of_entry slots (decode_entry_primary slots.opcd entry) L flags]
  simp only [decode_fields, dForm_imm, slots.rd, slots.ra, slots.crf_d, sign_extend_eq]
  rfl

theorem flags_rc {w : Nat} (low : w &&& 1 = rc.toNat) :
    _flags w RC = (rc, false, false, false) := by
  simp only [_flags, low]
  cases rc <;> rfl

theorem flags_rc_oe {w : Nat} (low : w &&& 1 = rc.toNat) (oe : (w >>> 10) &&& 1 = 0) :
    _flags w (RC ||| OE) = (rc, false, false, false) := by
  simp only [_flags, low, oe]
  cases rc <;> rfl

theorem flags_none (w : Nat) : _flags w 0 = (false, false, false, false) := by
  simp only [_flags]
  rfl

theorem decode_mForm {opcd : BitVec 6} (entry : PRIMARY opcd.toNat = some (m, .M, RC))
    (L : isCompare m = false) :
    decode (mForm opcd rD rA rB mb me rc).toNat addr =
      mInsn rD rA rB mb me rc addr (mForm opcd rD rA rB mb me rc).toNat m := by
  have slots := mForm_slots opcd rD rA rB mb me rc
  have flags := flags_rc rc (mForm_rc opcd rD rA rB mb me rc)
  rw [decode_of_entry slots (decode_entry_primary slots.opcd entry)
    (fun compares => absurd compares (by rw [L]; decide)) flags]
  simp only [decode_fields, mForm_mb, mForm_me, slots.rd, slots.ra, slots.rb]
  rfl

/-- An opcode-31 word, with its flags already read. -/
theorem decode_op31 {form : Form} {xo : BitVec 10} {bit : Bool}
    (entry : OP31 xo.toNat = some (m, form, allowed))
    (L : isCompare m = true → rD.toNat % 2 = 0)
    (flags : _flags (xForm 31 rD rA rB xo bit).toNat allowed = (rc, false, false, false)) :
    decode (xForm 31 rD rA rB xo bit).toNat addr =
      decode_fields (xForm 31 rD rA rB xo bit).toNat m form
        (blank (xForm 31 rD rA rB xo bit).toNat addr m form rc) := by
  have slots := xForm_slots 31 rD rA rB xo bit
  have field := xForm_xo 31 rD rA rB xo bit
  exact decode_of_entry slots (decode_entry_op31 slots.opcd field entry) L flags addr

theorem decode_fields_X (opcd : BitVec 6) (xo : BitVec 10) (bit : Bool) :
    decode_fields (xForm opcd rD rA rB xo bit).toNat m .X
        (blank (xForm opcd rD rA rB xo bit).toNat addr m .X rc) =
      xInsn rD rA rB rc addr (xForm opcd rD rA rB xo bit).toNat m := by
  have slots := xForm_slots opcd rD rA rB xo bit
  simp only [decode_fields, slots.rd, slots.ra, slots.rb, slots.crf_d, slots.crf_s, xInsn]
  by_cases shift : m = .srawi
  · simp [shift, blank]
  · simp [shift, blank]

theorem decode_xForm {xo : BitVec 10} (entry : OP31 xo.toNat = some (m, .X, 0))
    (L : isCompare m = true → rD.toNat % 2 = 0) :
    decode (xForm 31 rD rA rB xo false).toNat addr =
      xInsn rD rA rB false addr (xForm 31 rD rA rB xo false).toNat m := by
  rw [decode_op31 rD rA rB false addr entry L (flags_none _), decode_fields_X]

theorem decode_xForm_rc {xo : BitVec 10} (entry : OP31 xo.toNat = some (m, .X, RC))
    (L : isCompare m = false) :
    decode (xForm 31 rD rA rB xo rc).toNat addr =
      xInsn rD rA rB rc addr (xForm 31 rD rA rB xo rc).toNat m := by
  rw [decode_op31 rD rA rB rc addr entry (fun compares => absurd compares (by rw [L]; decide))
    (flags_rc rc (xForm_rc 31 rD rA rB xo rc)), decode_fields_X]

theorem decode_xoForm {xo : BitVec 10}
    (entry : OP31 xo.toNat = some (m, .XO, RC) ∨ OP31 xo.toNat = some (m, .XO, RC ||| OE))
    (noOE : xo.toNat < 2 ^ 9) (L : isCompare m = false) :
    decode (xForm 31 rD rA rB xo rc).toNat addr =
      xoInsn rD rA rB rc addr (xForm 31 rD rA rB xo rc).toNat m := by
  have slots := xForm_slots 31 rD rA rB xo rc
  have low := xForm_rc 31 rD rA rB xo rc
  have oe : ((xForm 31 rD rA rB xo rc).toNat >>> 10) &&& 1 = 0 := by
    rw [xForm_oe, Nat.div_eq_of_lt noOE]
  have compares : isCompare m = true → rD.toNat % 2 = 0 :=
    fun compares => absurd compares (by rw [L]; decide)
  rcases entry with entry | entry
  · rw [decode_op31 rD rA rB rc addr entry compares (flags_rc rc low)]
    simp only [decode_fields, slots.rd, slots.ra, slots.rb, xoInsn]
  · rw [decode_op31 rD rA rB rc addr entry compares (flags_rc_oe rc low oe)]
    simp only [decode_fields, slots.rd, slots.ra, slots.rb, xoInsn]

theorem decode_xlForm {xo : BitVec 10} (entry : OP19 xo.toNat = some (m, .XL, 0))
    (L : isCompare m = false) :
    decode (xForm 19 rD rA rB xo false).toNat addr =
      xlInsn rD rA rB addr (xForm 19 rD rA rB xo false).toNat m := by
  have slots := xForm_slots 19 rD rA rB xo false
  have field := xForm_xo 19 rD rA rB xo false
  rw [decode_of_entry slots (decode_entry_op19 slots.opcd field entry)
    (fun compares => absurd compares (by rw [L]; decide)) (flags_none _)]
  simp only [decode_fields, slots.rd, slots.ra, slots.rb, slots.crf_d, slots.crf_s, xlInsn]

def sprInsn (spr : BitVec 10) (w : Nat) (m : Mnemonic) : Insn :=
  { blank w addr m .XFX false with rd := rD.toNat, spr := spr.toNat }

/-- The SPR number survives the swap of its halves. -/
theorem sprField_number (spr : BitVec 10) :
    (sprField spr).1.toNat ||| ((sprField spr).2.toNat <<< 5) = spr.toNat := by
  have bound := spr.isLt
  have low : (sprField spr).1.toNat = spr.toNat % 2 ^ 5 := by
    simp only [sprField, BitVec.extractLsb'_toNat, Nat.shiftRight_zero]
  have high : (sprField spr).2.toNat = spr.toNat / 2 ^ 5 := by
    simp only [sprField, BitVec.extractLsb'_toNat, Nat.shiftRight_eq_div_pow]
    omega
  have small : spr.toNat % 2 ^ 5 < 2 ^ 5 := Nat.mod_lt _ (by decide)
  rw [low, high, Nat.or_comm, ← Nat.shiftLeft_add_eq_or_of_lt small, Nat.shiftLeft_eq]
  omega

theorem spr_number_eq (xo spr : BitVec 10) :
    spr_number (xForm 31 rD (sprField spr).1 (sprField spr).2 xo false).toNat = spr.toNat := by
  have slots := xForm_slots 31 rD (sprField spr).1 (sprField spr).2 xo false
  have halves := sprField_number spr
  rw [← slots.ra, ← slots.rb] at halves
  exact halves

theorem decode_fields_spr {w : Nat} (spr : BitVec 10) (rd : _rd w = rD.toNat)
    (number : spr_number w = spr.toNat) (move : m = .mfspr ∨ m = .mtspr) :
    decode_fields w m .XFX (blank w addr m .XFX false) = sprInsn rD addr spr w m := by
  rcases move with rfl | rfl <;> simp [decode_fields, number, rd, sprInsn]

theorem decode_spr {xo : BitVec 10} (spr : BitVec 10)
    (entry : OP31 xo.toNat = some (m, .XFX, 0)) (move : m = .mfspr ∨ m = .mtspr) :
    decode (xForm 31 rD (sprField spr).1 (sprField spr).2 xo false).toNat addr =
      sprInsn rD addr spr
        (xForm 31 rD (sprField spr).1 (sprField spr).2 xo false).toNat m := by
  have slots := xForm_slots 31 rD (sprField spr).1 (sprField spr).2 xo false
  rw [decode_op31 _ _ _ false addr entry _ (flags_none _)]
  · exact decode_fields_spr rD addr spr slots.rd (spr_number_eq rD xo spr) move
  · rcases move with rfl | rfl <;> simp [isCompare]

/-- The two time-base registers have mnemonics of their own. -/
theorem decode_mftb (upper : Bool) :
    decode (Instr.mftb rD upper).encode.toNat addr =
      sprInsn rD addr (if upper then 269 else 268) (Instr.mftb rD upper).encode.toNat
        (if upper then .mftbu else .mftb) := by
  have fields {w spr : Nat} (rd : _rd w = rD.toNat) (number : spr_number w = spr) :
      decode_fields w .mftb .XFX (blank w addr .mftb .XFX false) =
        { blank w addr (if spr = SPR_TBU then .mftbu else .mftb) .XFX false with
          rd := rD.toNat
          spr := spr } := by
    by_cases tbu : spr = SPR_TBU
    · simp [decode_fields, number, rd, tbu, blank]
    · simp [decode_fields, number, rd, tbu, blank]
  have slots := xForm_slots 31 rD (sprField (if upper then 269 else 268)).1
    (sprField (if upper then 269 else 268)).2 371 false
  rw [Instr.encode, decode_op31 _ _ _ false addr rfl (by simp [isCompare]) (flags_none _),
    fields slots.rd (spr_number_eq rD 371 _)]
  cases upper <;> rfl

theorem decode_fields_mtcrf {w : Nat} (crm : BitVec 8) (rd : _rd w = rD.toNat)
    (field : (w >>> 12) &&& 0xFF = crm.toNat) :
    decode_fields w .mtcrf .XFX (blank w addr .mtcrf .XFX false) =
      { blank w addr .mtcrf .XFX false with rd := rD.toNat, imm := crm.toNat } := by
  simp [decode_fields, field, rd]

theorem decode_mtcrf (crm : BitVec 8) :
    decode (Instr.mtcrf crm rD).encode.toNat addr =
      { blank (Instr.mtcrf crm rD).encode.toNat addr .mtcrf .XFX false with
        rd := rD.toNat
        imm := crm.toNat } := by
  have bound := crm.isLt
  have sum := xForm_toNat 31 rD (0#1 ++ crm.extractLsb' 4 4) (crm.extractLsb' 0 4 ++ 0#1) 144
    false
  have slots := xForm_slots 31 rD (0#1 ++ crm.extractLsb' 4 4) (crm.extractLsb' 0 4 ++ 0#1) 144
    false
  have high : (0#1 ++ crm.extractLsb' 4 4).toNat = crm.toNat / 2 ^ 4 := by
    rw [toNat_append_add, BitVec.extractLsb'_toNat, Nat.shiftRight_eq_div_pow]
    simp
    omega
  have low : (crm.extractLsb' 0 4 ++ 0#1).toNat = crm.toNat % 2 ^ 4 * 2 := by
    rw [toNat_append_add, BitVec.extractLsb'_toNat]
    simp
  have xo : (144#10).toNat = 144 := rfl
  have field : ((Instr.mtcrf crm rD).encode.toNat >>> 12) &&& 0xFF = crm.toNat := by
    rw [high, low] at sum
    refine Eq.trans (field_eq 8 rfl) ?_
    rw [Instr.encode, sum]
    change (_ + 144 * 2 + 0) / 2 ^ 12 % 2 ^ 8 = _
    omega
  rw [Instr.encode] at field ⊢
  rw [decode_op31 _ _ _ false addr rfl (by simp [isCompare]) (flags_none _)]
  exact decode_fields_mtcrf rD addr crm slots.rd field

end Forms

end SoaPort.Recomp.Arch
