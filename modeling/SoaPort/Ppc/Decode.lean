import Mathlib
import SoaPort.Ppc.Isa

namespace SoaPort.Ppc

/-! Field extraction. -/

def sign_extend (value bits : Nat) : Int :=
  let sign := 1 <<< (bits - 1)
  ((value ^^^ sign : Nat) : Int) - (sign : Int)

def opcd (w : Nat) : Nat := (w >>> 26) &&& 0x3F

def _rd (w : Nat) : Nat := (w >>> 21) &&& 0x1F

def _ra (w : Nat) : Nat := (w >>> 16) &&& 0x1F

def _rb (w : Nat) : Nat := (w >>> 11) &&& 0x1F

def _rc_reg (w : Nat) : Nat := (w >>> 6) &&& 0x1F

/-- SPR fields are stored with their two 5-bit halves swapped. -/
def spr_number (w : Nat) : Nat :=
  ((w >>> 16) &&& 0x1F) ||| (((w >>> 11) &&& 0x1F) <<< 5)

structure Insn where
  addr : Nat
  word : Nat
  mnemonic : Mnemonic := .unknown
  form : Option Form := none
  valid : Bool := false
  -- register operands (-1 when unused)
  rd : Int := -1
  ra : Int := -1
  rb : Int := -1
  rc : Int := -1
  -- SIMM / UIMM / d / LI / BD / SH
  imm : Int := 0
  mb : Nat := 0
  me : Nat := 0
  bo : Nat := 0
  bi : Nat := 0
  crf_d : Nat := 0
  crf_s : Nat := 0
  spr : Int := -1
  -- quantized load/store
  gqr : Int := -1
  quant_w : Nat := 0
  -- optional bits
  rc_bit : Bool := false
  oe_bit : Bool := false
  lk_bit : Bool := false
  aa_bit : Bool := false
  deriving DecidableEq, Repr

namespace Insn

def is_branch (i : Insn) : Bool :=
  i.mnemonic = .b || i.mnemonic = .bc || i.mnemonic = .bclr || i.mnemonic = .bcctr

def is_direct_branch (i : Insn) : Bool :=
  i.mnemonic = .b || i.mnemonic = .bc

def is_indirect_branch (i : Insn) : Bool :=
  i.mnemonic = .bclr || i.mnemonic = .bcctr

/-- A branch that sets LR: the caller expects to come back. -/
def is_call (i : Insn) : Bool :=
  i.is_branch && i.lk_bit

def is_unconditional (i : Insn) : Bool :=
  if i.mnemonic = .b then true
  else
    -- BO bits 2 and 4 both set: ignore CTR and condition
    (i.mnemonic = .bc || i.mnemonic = .bclr || i.mnemonic = .bcctr) &&
      (i.bo &&& 0b10100) = 0b10100

/-- Resolved target for a direct branch. -/
def target (i : Insn) : Option Nat :=
  if i.mnemonic = .b || i.mnemonic = .bc then
    some (((if i.aa_bit then i.imm else (i.addr : Int) + i.imm) % 2 ^ 32).toNat)
  else none

end Insn

/-- The words that appear constantly and are worth naming. -/
def BCTR : Nat := 0x4E800420

def _flags (w allowed : Nat) : Bool × Bool × Bool × Bool :=
  ((allowed &&& RC) ≠ 0 && (w &&& 1) ≠ 0,
    (allowed &&& OE) ≠ 0 && ((w >>> 10) &&& 1) ≠ 0,
    (allowed &&& LK) ≠ 0 && (w &&& 1) ≠ 0,
    (allowed &&& AA) ≠ 0 && ((w >>> 1) &&& 1) ≠ 0)

/-- Primary opcode 31 mixes two extended-opcode widths: the ten-bit field
first, and on a miss the field with the OE bit cleared, for an entry that
permits OE. -/
def _decode_op31 (word : Nat) : Option Entry :=
  let ext := (word >>> 1) &&& 0x3FF
  match OP31 ext with
  | some entry => some entry
  | none =>
      match OP31 (ext &&& 0x1FF) with
      | some candidate => if (candidate.2.2 &&& OE) ≠ 0 then some candidate else none
      | none => none

/-- Primary opcode 4 packs three extended-opcode widths. -/
def _decode_op4 (word : Nat) : Option Entry :=
  match PS_A ((word >>> 1) &&& 0x1F) with
  | some entry => some entry
  | none =>
      match PS_QX ((word >>> 1) &&& 0x3F) with
      | some entry => some entry
      | none => PS_X ((word >>> 1) &&& 0x3FF)

/-- The table lookup that opens `decode`. -/
def decode_entry (word : Nat) : Option Entry :=
  let op := opcd word
  if op = 4 then _decode_op4 word
  else if op = 19 then OP19 ((word >>> 1) &&& 0x3FF)
  else if op = 31 then _decode_op31 word
  else if op = 59 then FLOAT_A_SINGLE ((word >>> 1) &&& 0x1F)
  else if op = 63 then
    let ext5 := (word >>> 1) &&& 0x1F
    match (if ext5 ≥ 18 then FLOAT_A_DOUBLE ext5 else none) with
    | some entry => some entry
    | none => OP63_X ((word >>> 1) &&& 0x3FF)
  else PRIMARY op

/-- The D-form instructions whose immediate is not sign-extended. -/
def unsigned_imm (m : Mnemonic) : Bool :=
  m = .ori || m = .oris || m = .xori || m = .xoris || m = .andiDot || m = .andisDot ||
    m = .cmpli

/-- The operand fields a form fills in. -/
def decode_fields (word : Nat) (mnemonic : Mnemonic) (form : Form) (i : Insn) : Insn :=
  match form with
  | .I => { i with imm := sign_extend (word &&& 0x03FFFFFC) 26 }
  | .B => { i with bo := _rd word, bi := _ra word, imm := sign_extend (word &&& 0xFFFC) 16 }
  | .D =>
      let imm := word &&& 0xFFFF
      { i with
        rd := _rd word
        ra := _ra word
        imm := if unsigned_imm mnemonic then (imm : Int) else sign_extend imm 16
        crf_d := (word >>> 23) &&& 7 }
  | .M =>
      { i with
        rd := _rd word
        ra := _ra word
        -- rB for rlwnm, SH for rlwinm and rlwimi
        rb := _rb word
        imm := _rb word
        mb := (word >>> 6) &&& 0x1F
        me := (word >>> 1) &&& 0x1F }
  | .XO => { i with rd := _rd word, ra := _ra word, rb := _rb word }
  | .A => { i with rd := _rd word, ra := _ra word, rb := _rb word, rc := _rc_reg word }
  | .XL =>
      -- for the CR logical ops the three slots are crbD, crbA, crbB
      { i with
        bo := _rd word
        bi := _ra word
        rb := _rb word
        crf_d := (word >>> 23) &&& 7
        crf_s := (word >>> 18) &&& 7 }
  | .XFX =>
      let i := { i with rd := (_rd word : Int) }
      if mnemonic = .mfspr || mnemonic = .mtspr || mnemonic = .mftb then
        let spr := spr_number word
        let i := { i with spr := (spr : Int) }
        -- the time-base halves are separate mnemonics
        if mnemonic = .mftb && spr = SPR_TBU then { i with mnemonic := .mftbu } else i
      else if mnemonic = .mtcrf then { i with imm := ((word >>> 12) &&& 0xFF : Nat) }
      else i
  | .XFL => { i with rb := _rb word, imm := ((word >>> 17) &&& 0xFF : Nat) }
  | .PSQ =>
      { i with
        rd := _rd word
        ra := _ra word
        quant_w := (word >>> 15) &&& 1
        gqr := ((word >>> 12) &&& 7 : Nat)
        imm := sign_extend (word &&& 0xFFF) 12 }
  | .PSQX =>
      { i with
        rd := _rd word
        ra := _ra word
        rb := _rb word
        quant_w := (word >>> 10) &&& 1
        gqr := ((word >>> 7) &&& 7 : Nat) }
  | .X | .SC =>
      let i := { i with
        rd := (_rd word : Int)
        ra := (_ra word : Int)
        rb := (_rb word : Int)
        crf_d := (word >>> 23) &&& 7
        crf_s := (word >>> 18) &&& 7 }
      if mnemonic = .srawi then { i with imm := (_rb word : Int) } else i

/-- Decode one big-endian instruction word. The decoder is total: a word that
is no instruction comes back with `valid` false. -/
def decode (word addr : Nat) : Insn :=
  let word := word &&& 0xFFFFFFFF
  match decode_entry word with
  | none => { addr, word }
  | some (mnemonic, form, allowed) =>
      -- L=1 selects a 64-bit compare, which this 32-bit machine does not have
      if (mnemonic = .cmp || mnemonic = .cmpl || mnemonic = .cmpi || mnemonic = .cmpli) &&
          ((word >>> 21) &&& 1) ≠ 0 then
        { addr, word }
      else
        let (rc_bit, oe_bit, lk_bit, aa_bit) := _flags word allowed
        decode_fields word mnemonic form
          { addr, word, mnemonic, form := some form, valid := true,
            rc_bit, oe_bit, lk_bit, aa_bit }

theorem decode_fields_addr (w : Nat) (m : Mnemonic) (form : Form) (i : Insn) :
    (decode_fields w m form i).addr = i.addr := by
  cases form with
  | XFX =>
      simp only [decode_fields]
      split
      · split
        · rfl
        · rfl
      · split
        · rfl
        · rfl
  | X | SC =>
      simp only [decode_fields]
      split
      · rfl
      · rfl
  | I | B | D | XL | XFL | XO | A | M | PSQ | PSQX => rfl

theorem decode_addr (w addr : Nat) : (decode w addr).addr = addr := by
  unfold decode
  dsimp only
  split
  · rfl
  · split
    · rfl
    · exact decode_fields_addr ..

end SoaPort.Ppc
