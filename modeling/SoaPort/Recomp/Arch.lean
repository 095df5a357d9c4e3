import SoaPort.Lib.Bits
import SoaPort.Recomp.Cpu

namespace SoaPort.Recomp.Arch

/-! The 32-bit PowerPC definitions of the integer, logical, shift, compare,
condition-register, register-move and load/store instructions: their
encodings, and what each does to the processor state. Bits are numbered from
the most significant, as the architecture numbers them. -/

abbrev Reg := BitVec 5

inductive DArith where
  | addi | addis | addic | addicDot | subfic | mulli
  deriving DecidableEq, Repr

inductive DLogic where
  | ori | oris | xori | xoris | andiDot | andisDot
  deriving DecidableEq, Repr

inductive XOArith where
  | add | addc | adde | subf | subfc | subfe | mullw | mulhw | mulhwu | divw | divwu
  deriving DecidableEq, Repr

inductive XOUnary where
  | neg | addze | addme | subfze | subfme
  deriving DecidableEq, Repr

inductive XLogic where
  | and | andc | or | orc | xor | nand | nor | eqv | slw | srw | sraw
  deriving DecidableEq, Repr

inductive XUnary where
  | cntlzw | extsb | extsh
  deriving DecidableEq, Repr

inductive CRLogic where
  | crand | crandc | cror | crorc | crxor | crnand | crnor | creqv
  deriving DecidableEq, Repr

inductive Load where
  | lbz | lhz | lha | lwz
  deriving DecidableEq, Repr

inductive Store where
  | stb | sth | stw
  deriving DecidableEq, Repr

/-- Instructions with their operand fields, each as wide as in the word. -/
inductive Instr where
  | dArith (op : DArith) (rD rA : Reg) (simm : BitVec 16)
  | dLogic (op : DLogic) (rS rA : Reg) (uimm : BitVec 16)
  | cmpi (crfD : BitVec 3) (rA : Reg) (simm : BitVec 16)
  | cmpli (crfD : BitVec 3) (rA : Reg) (uimm : BitVec 16)
  | cmp (crfD : BitVec 3) (rA rB : Reg)
  | cmpl (crfD : BitVec 3) (rA rB : Reg)
  | xoArith (op : XOArith) (rD rA rB : Reg) (rc : Bool)
  | xoUnary (op : XOUnary) (rD rA : Reg) (rc : Bool)
  | xLogic (op : XLogic) (rS rA rB : Reg) (rc : Bool)
  | xUnary (op : XUnary) (rS rA : Reg) (rc : Bool)
  | srawi (rS rA : Reg) (sh : BitVec 5) (rc : Bool)
  | rlwinm (rS rA : Reg) (sh mb me : BitVec 5) (rc : Bool)
  | rlwimi (rS rA : Reg) (sh mb me : BitVec 5) (rc : Bool)
  | rlwnm (rS rA rB : Reg) (mb me : BitVec 5) (rc : Bool)
  | crLogic (op : CRLogic) (crbD crbA crbB : BitVec 5)
  | mcrf (crfD crfS : BitVec 3)
  | mcrxr (crfD : BitVec 3)
  | mfcr (rD : Reg)
  | mtcrf (crm : BitVec 8) (rS : Reg)
  | mfspr (rD : Reg) (spr : BitVec 10)
  | mtspr (spr : BitVec 10) (rS : Reg)
  | mftb (rD : Reg) (upper : Bool)
  | mfmsr (rD : Reg)
  | mtmsr (rS : Reg)
  | mfsr (rD : Reg) (sr : BitVec 4)
  | mtsr (sr : BitVec 4) (rS : Reg)
  | load (op : Load) (update : Bool) (rD rA : Reg) (d : BitVec 16)
  | loadx (op : Load) (update : Bool) (rD rA rB : Reg)
  | lwbrx (rD rA rB : Reg)
  | lhbrx (rD rA rB : Reg)
  | store (op : Store) (update : Bool) (rS rA : Reg) (d : BitVec 16)
  | storex (op : Store) (update : Bool) (rS rA rB : Reg)
  | stwbrx (rS rA rB : Reg)
  | sthbrx (rS rA rB : Reg)
  | lmw (rD rA : Reg) (d : BitVec 16)
  | stmw (rS rA : Reg) (d : BitVec 16)
  deriving DecidableEq, Repr

/-! Encodings. -/

def dForm (opcd : BitVec 6) (rD rA : Reg) (imm : BitVec 16) : BitVec 32 :=
  opcd ++ rD ++ rA ++ imm

def xForm (opcd : BitVec 6) (rD rA rB : Reg) (xo : BitVec 10) (rc : Bool) : BitVec 32 :=
  opcd ++ rD ++ rA ++ rB ++ xo ++ BitVec.ofBool rc

def mForm (opcd : BitVec 6) (rS rA sh mb me : BitVec 5) (rc : Bool) : BitVec 32 :=
  opcd ++ rS ++ rA ++ sh ++ mb ++ me ++ BitVec.ofBool rc

def DArith.opcd : DArith → BitVec 6
  | addi => 14 | addis => 15 | addic => 12 | addicDot => 13 | subfic => 8 | mulli => 7

def DLogic.opcd : DLogic → BitVec 6
  | ori => 24 | oris => 25 | xori => 26 | xoris => 27 | andiDot => 28 | andisDot => 29

/-- The nine-bit extended opcode; the OE bit above it is zero. -/
def XOArith.xo : XOArith → BitVec 10
  | add => 266 | addc => 10 | adde => 138 | subf => 40 | subfc => 8 | subfe => 136
  | mullw => 235 | mulhw => 75 | mulhwu => 11 | divw => 491 | divwu => 459

def XOUnary.xo : XOUnary → BitVec 10
  | neg => 104 | addze => 202 | addme => 234 | subfze => 200 | subfme => 232

def XLogic.xo : XLogic → BitVec 10
  | and => 28 | andc => 60 | or => 444 | orc => 412 | xor => 316 | nand => 476
  | nor => 124 | eqv => 284 | slw => 24 | srw => 536 | sraw => 792

def XUnary.xo : XUnary → BitVec 10
  | cntlzw => 26 | extsb => 954 | extsh => 922

def CRLogic.xo : CRLogic → BitVec 10
  | crand => 257 | crandc => 129 | cror => 449 | crorc => 417
  | crxor => 193 | crnand => 225 | crnor => 33 | creqv => 289

def Load.opcd (op : Load) (update : Bool) : BitVec 6 :=
  match op, update with
  | lwz, false => 32 | lwz, true => 33 | lbz, false => 34 | lbz, true => 35
  | lhz, false => 40 | lhz, true => 41 | lha, false => 42 | lha, true => 43

def Load.xo (op : Load) (update : Bool) : BitVec 10 :=
  match op, update with
  | lwz, false => 23 | lwz, true => 55 | lbz, false => 87 | lbz, true => 119
  | lhz, false => 279 | lhz, true => 311 | lha, false => 343 | lha, true => 375

def Store.opcd (op : Store) (update : Bool) : BitVec 6 :=
  match op, update with
  | stw, false => 36 | stw, true => 37 | stb, false => 38 | stb, true => 39
  | sth, false => 44 | sth, true => 45

def Store.xo (op : Store) (update : Bool) : BitVec 10 :=
  match op, update with
  | stw, false => 151 | stw, true => 183 | stb, false => 215 | stb, true => 247
  | sth, false => 407 | sth, true => 439

/-- An SPR number's two 5-bit halves swapped, as the word holds them. -/
def sprField (spr : BitVec 10) : Reg × Reg :=
  (spr.extractLsb' 0 5, spr.extractLsb' 5 5)

def Instr.encode : Instr → BitVec 32
  | dArith op rD rA simm => dForm op.opcd rD rA simm
  | dLogic op rS rA uimm => dForm op.opcd rS rA uimm
  | cmpi crfD rA simm => dForm 11 (crfD ++ 0#2) rA simm
  | cmpli crfD rA uimm => dForm 10 (crfD ++ 0#2) rA uimm
  | cmp crfD rA rB => xForm 31 (crfD ++ 0#2) rA rB 0 false
  | cmpl crfD rA rB => xForm 31 (crfD ++ 0#2) rA rB 32 false
  | xoArith op rD rA rB rc => xForm 31 rD rA rB op.xo rc
  | xoUnary op rD rA rc => xForm 31 rD rA 0 op.xo rc
  | xLogic op rS rA rB rc => xForm 31 rS rA rB op.xo rc
  | xUnary op rS rA rc => xForm 31 rS rA 0 op.xo rc
  | srawi rS rA sh rc => xForm 31 rS rA sh 824 rc
  | rlwinm rS rA sh mb me rc => mForm 21 rS rA sh mb me rc
  | rlwimi rS rA sh mb me rc => mForm 20 rS rA sh mb me rc
  | rlwnm rS rA rB mb me rc => mForm 23 rS rA rB mb me rc
  | crLogic op crbD crbA crbB => xForm 19 crbD crbA crbB op.xo false
  | mcrf crfD crfS => xForm 19 (crfD ++ 0#2) (crfS ++ 0#2) 0 0 false
  | mcrxr crfD => xForm 31 (crfD ++ 0#2) 0 0 512 false
  | mfcr rD => xForm 31 rD 0 0 19 false
  | mtcrf crm rS =>
      xForm 31 rS (0#1 ++ crm.extractLsb' 4 4) (crm.extractLsb' 0 4 ++ 0#1) 144 false
  | mfspr rD spr => xForm 31 rD (sprField spr).1 (sprField spr).2 339 false
  | mtspr spr rS => xForm 31 rS (sprField spr).1 (sprField spr).2 467 false
  | mftb rD upper =>
      let tbr : BitVec 10 := if upper then 269 else 268
      xForm 31 rD (sprField tbr).1 (sprField tbr).2 371 false
  | mfmsr rD => xForm 31 rD 0 0 83 false
  | mtmsr rS => xForm 31 rS 0 0 146 false
  | mfsr rD sr => xForm 31 rD (0#1 ++ sr) 0 595 false
  | mtsr sr rS => xForm 31 rS (0#1 ++ sr) 0 210 false
  | load op update rD rA d => dForm (op.opcd update) rD rA d
  | loadx op update rD rA rB => xForm 31 rD rA rB (op.xo update) false
  | lwbrx rD rA rB => xForm 31 rD rA rB 534 false
  | lhbrx rD rA rB => xForm 31 rD rA rB 790 false
  | store op update rS rA d => dForm (op.opcd update) rS rA d
  | storex op update rS rA rB => xForm 31 rS rA rB (op.xo update) false
  | stwbrx rS rA rB => xForm 31 rS rA rB 662 false
  | sthbrx rS rA rB => xForm 31 rS rA rB 918 false
  | lmw rD rA d => dForm 46 rD rA d
  | stmw rS rA d => dForm 47 rS rA d

/-! The processor state. -/

variable {ρ : Type}

/-- The word with bit `i`, counted from the most significant, equal to `f i`. -/
def ofMsb (f : Nat → Bool) : Word :=
  BitVec.ofFnBE fun i : Fin 32 => f i

theorem eq_ofMsb {x : Word} {f : Nat → Bool}
    (bits : ∀ i, i < 32 → x.getMsbD i = f i) : x = ofMsb f :=
  Lib.eq_ofFnBE fun i => bits i i.isLt

def gprOf (s : CpuState ρ) (r : Reg) : Word := s.gpr r.toNat

/-- `(rA|0)`: register 0 as a base reads as zero. -/
def baseOf (s : CpuState ρ) (r : Reg) : Word :=
  if r = 0 then 0 else gprOf s r

def setGprOf (s : CpuState ρ) (r : Reg) (v : Word) : CpuState ρ :=
  s.setGpr r.toNat v

/-- CR field `f` replaced by four bits. -/
def setCrField (s : CpuState ρ) (f : Nat) (v : Nat → Bool) : CpuState ρ :=
  { s with cr := ofMsb fun i => if i / 4 = f then v (i % 4) else s.cr.getMsbD i }

theorem setCrField_congr (s : CpuState ρ) (f : Nat) {v v' : Nat → Bool}
    (same : ∀ k, k < 4 → v k = v' k) : setCrField s f v = setCrField s f v' := by
  have bits : ∀ i, v (i % 4) = v' (i % 4) := fun i => same _ (Nat.mod_lt i (by decide))
  simp only [setCrField, bits]

/-- XER[SO] is bit 0. -/
def so (s : CpuState ρ) : Bool := s.xer.getMsbD 0

/-- XER[CA] is bit 2. -/
def ca (s : CpuState ρ) : Bool := s.xer.getMsbD 2

def setCa (s : CpuState ρ) (c : Bool) : CpuState ρ :=
  { s with xer := ofMsb fun i => if i = 2 then c else s.xer.getMsbD i }

/-- The four bits a comparison leaves: LT, GT, EQ and a copy of XER[SO]. -/
def compareBits (s : CpuState ρ) (a b : Int) : Nat → Bool
  | 0 => a < b
  | 1 => a > b
  | 2 => a = b
  | _ => so s

def compare (s : CpuState ρ) (f : Nat) (a b : Int) : CpuState ρ :=
  setCrField s f (compareBits s a b)

/-- The record form of a result: CR0 from its signed comparison with zero. -/
def record (rc : Bool) (s : CpuState ρ) (v : Word) : CpuState ρ :=
  if rc then compare s 0 v.toInt 0 else s

/-- `r ← v`, recorded when `rc`. -/
def writeBack (s : CpuState ρ) (r : Reg) (v : Word) (rc : Bool) : CpuState ρ :=
  record rc (setGprOf s r v) v

/-- `r ← x + y + c` with CA the carry out of the 33-bit sum. -/
def addCarrying (s : CpuState ρ) (r : Reg) (x y c : Nat) (rc : Bool) : CpuState ρ :=
  writeBack (setCa s (2 ^ 32 ≤ x + y + c)) r (BitVec.ofNat 32 (x + y + c)) rc

/-- `¬ x` as an unsigned number. -/
def inv (x : Word) : Nat := 2 ^ 32 - 1 - x.toNat

/-- MASK(mb, me): ones from bit `mb` to bit `me`, wrapping when `mb > me`. -/
def inMask (mb me i : Nat) : Bool :=
  if mb ≤ me then mb ≤ i ∧ i ≤ me else mb ≤ i ∨ i ≤ me

/-- ROTL(x, n): bit `i` is bit `i + n` of `x`. -/
def rotlBit (x : Word) (n i : Nat) : Bool := x.getMsbD ((i + n) % 32)

/-- The number of zero bits before the first one. -/
def leadingZeros (x : Word) : Nat :=
  ((List.range 32).takeWhile fun i => !x.getMsbD i).length

/-! Memory: big-endian operands at the physical address an effective address
names, or a device's registers. -/

def deviceSpace (ea : Word) : Bool :=
  ea.toNat / 2 ^ 24 = 0xCC ∨ ea.toNat / 2 ^ 24 = 0xE0

/-- The write-gather pipe's page. -/
def gatherPipe (ea : Word) : Bool := ea.toNat / 2 ^ 8 = 0xCC0080

def physical (ea : Word) : Nat := ea.toNat % 2 ^ 25

def readBE (mem : Nat → BitVec 8) (p : Nat) : Nat → Nat
  | 0 => 0
  | n + 1 => readBE mem p n * 256 + (mem (p + n)).toNat

/-- The `n` bytes at `p` become the big-endian bytes of `v`. -/
def writeBE (mem : Nat → BitVec 8) (p n v : Nat) : Nat → BitVec 8 := fun a =>
  if p ≤ a ∧ a < p + n then BitVec.ofNat 8 (v / 256 ^ (p + n - 1 - a)) else mem a

def readByte (rt : Runtime ρ) (s : CpuState ρ) (ea : Word) : Nat × CpuState ρ :=
  if deviceSpace ea then ((rt.mmio_read8 s ea).1.toNat, (rt.mmio_read8 s ea).2)
  else (readBE s.mem (physical ea) 1, s)

def readHalf (rt : Runtime ρ) (s : CpuState ρ) (ea : Word) : Nat × CpuState ρ :=
  if deviceSpace ea then ((rt.mmio_read16 s ea).1.toNat, (rt.mmio_read16 s ea).2)
  else (readBE s.mem (physical ea) 2, s)

def readWord (rt : Runtime ρ) (s : CpuState ρ) (ea : Word) : Nat × CpuState ρ :=
  if deviceSpace ea then ((rt.mmio_read32 s ea).1.toNat, (rt.mmio_read32 s ea).2)
  else (readBE s.mem (physical ea) 4, s)

def writeByte (rt : Runtime ρ) (s : CpuState ρ) (ea : Word) (v : Nat) : CpuState ρ :=
  if gatherPipe ea then rt.gx_pipe_write s 1 (BitVec.ofNat 64 (v % 2 ^ 8))
  else if deviceSpace ea then rt.mmio_write8 s ea (BitVec.ofNat 8 v)
  else { s with mem := writeBE s.mem (physical ea) 1 v }

def writeHalf (rt : Runtime ρ) (s : CpuState ρ) (ea : Word) (v : Nat) : CpuState ρ :=
  if gatherPipe ea then rt.gx_pipe_write s 2 (BitVec.ofNat 64 (v % 2 ^ 16))
  else if deviceSpace ea then rt.mmio_write16 s ea (BitVec.ofNat 16 v)
  else { s with mem := writeBE s.mem (physical ea) 2 v }

def writeWord (rt : Runtime ρ) (s : CpuState ρ) (ea : Word) (v : Nat) : CpuState ρ :=
  if gatherPipe ea then rt.gx_pipe_write s 4 (BitVec.ofNat 64 (v % 2 ^ 32))
  else if deviceSpace ea then rt.mmio_write32 s ea (BitVec.ofNat 32 v)
  else { s with mem := writeBE s.mem (physical ea) 4 v }

/-- The bytes of an `n`-byte operand in the other order. -/
def byteReverse (n v : Nat) : Nat :=
  readBE (fun a => BitVec.ofNat 8 (v / 256 ^ a)) 0 n

/-- The value a load leaves in its register. -/
def Load.read (rt : Runtime ρ) (s : CpuState ρ) (ea : Word) : Load → Word × CpuState ρ
  | lbz => (BitVec.ofNat 32 (readByte rt s ea).1, (readByte rt s ea).2)
  | lhz => (BitVec.ofNat 32 (readHalf rt s ea).1, (readHalf rt s ea).2)
  | lha =>
      (BitVec.ofInt 32 (BitVec.ofNat 16 (readHalf rt s ea).1).toInt, (readHalf rt s ea).2)
  | lwz => (BitVec.ofNat 32 (readWord rt s ea).1, (readWord rt s ea).2)

def Store.write (rt : Runtime ρ) (s : CpuState ρ) (ea : Word) (v : Nat) :
    Store → CpuState ρ
  | stb => writeByte rt s ea v
  | sth => writeHalf rt s ea v
  | stw => writeWord rt s ea v

/-- The displacement, sign-extended. -/
def exts (d : BitVec 16) : Word := BitVec.ofInt 32 d.toInt

/-- `rA ← EA` for an update form. -/
def updateBase (update : Bool) (s : CpuState ρ) (rA : Reg) (ea : Word) : CpuState ρ :=
  if update then setGprOf s rA ea else s

def loadInto (rt : Runtime ρ) (s : CpuState ρ) (op : Load) (update : Bool) (rD rA : Reg)
    (ea : Word) : CpuState ρ :=
  updateBase update (setGprOf (op.read rt s ea).2 rD (op.read rt s ea).1) rA ea

def storeFrom (rt : Runtime ρ) (s : CpuState ρ) (op : Store) (update : Bool) (rS rA : Reg)
    (ea : Word) : CpuState ρ :=
  updateBase update (op.write rt s ea (gprOf s rS).toNat) rA ea

/-- One word of `lmw`. -/
def loadMultipleStep (rt : Runtime ρ) (ea : Word) (rD : Reg) (s : CpuState ρ) (k : Nat) :
    CpuState ρ :=
  let w := readWord rt s (ea + BitVec.ofNat 32 (4 * k))
  w.2.setGpr (rD.toNat + k) (BitVec.ofNat 32 w.1)

/-- One word of `stmw`. -/
def storeMultipleStep (rt : Runtime ρ) (ea : Word) (rS : Reg) (s : CpuState ρ) (k : Nat) :
    CpuState ρ :=
  writeWord rt s (ea + BitVec.ofNat 32 (4 * k)) (s.gpr (rS.toNat + k)).toNat

/-- The special purpose registers other than the decrementer. -/
def sprGet (s : CpuState ρ) (n : Nat) : Word :=
  if n = 1 then s.xer
  else if n = 8 then s.lr
  else if n = 9 then s.ctr
  else if 912 ≤ n ∧ n < 920 then s.gqr (n - 912)
  else if n = 920 then s.hid2
  else if n = 921 then s.wpar
  else s.spr n

def sprSet (s : CpuState ρ) (n : Nat) (v : Word) : CpuState ρ :=
  if n = 1 then { s with xer := v }
  else if n = 8 then { s with lr := v }
  else if n = 9 then { s with ctr := v }
  else if 912 ≤ n ∧ n < 920 then { s with gqr := Function.update s.gqr (n - 912) v }
  else if n = 920 then { s with hid2 := v }
  else if n = 921 then { s with wpar := v }
  else { s with spr := Function.update s.spr n v }

/-! What each instruction does. -/

def DArith.exec (s : CpuState ρ) (rD rA : Reg) (simm : BitVec 16) : DArith → CpuState ρ
  | addi => setGprOf s rD (BitVec.ofInt 32 ((baseOf s rA).toInt + simm.toInt))
  | addis => setGprOf s rD (BitVec.ofInt 32 ((baseOf s rA).toInt + simm.toInt * 2 ^ 16))
  | addic => addCarrying s rD (gprOf s rA).toNat (exts simm).toNat 0 false
  | addicDot => addCarrying s rD (gprOf s rA).toNat (exts simm).toNat 0 true
  | subfic => addCarrying s rD (inv (gprOf s rA)) (exts simm).toNat 1 false
  | mulli => setGprOf s rD (BitVec.ofInt 32 ((gprOf s rA).toInt * simm.toInt))

/-- The second operand of a D-form logical instruction, in unsigned terms. -/
def DLogic.operand (uimm : BitVec 16) : DLogic → Nat
  | ori | xori | andiDot => uimm.toNat
  | oris | xoris | andisDot => uimm.toNat * 2 ^ 16

def DLogic.exec (s : CpuState ρ) (rS rA : Reg) (uimm : BitVec 16) (op : DLogic) :
    CpuState ρ :=
  let y := BitVec.ofNat 32 (op.operand uimm)
  let bits (f : Bool → Bool → Bool) :=
    ofMsb fun i => f ((gprOf s rS).getMsbD i) (y.getMsbD i)
  match op with
  | ori | oris => setGprOf s rA (bits (· || ·))
  | xori | xoris => setGprOf s rA (bits (· ^^ ·))
  | andiDot | andisDot => writeBack s rA (bits (· && ·)) true

/-- Division is undefined by zero and for the most negative number over -1. -/
def divwUndefined (a b : Word) : Prop :=
  b = 0 ∨ a.toInt = -2 ^ 31 ∧ b.toInt = -1

instance (a b : Word) : Decidable (divwUndefined a b) :=
  inferInstanceAs (Decidable (_ ∨ _ ∧ _))

/-- The relation between the states before and after; it is a function except
where a division leaves its result undefined. -/
def XOArith.Step (s : CpuState ρ) (rD rA rB : Reg) (rc : Bool) (s' : CpuState ρ)
    (op : XOArith) : Prop :=
  let a := gprOf s rA
  let b := gprOf s rB
  match op with
  | add => s' = writeBack s rD (BitVec.ofNat 32 (a.toNat + b.toNat)) rc
  | addc => s' = addCarrying s rD a.toNat b.toNat 0 rc
  | adde => s' = addCarrying s rD a.toNat b.toNat (ca s).toNat rc
  | subf => s' = writeBack s rD (BitVec.ofNat 32 (inv a + b.toNat + 1)) rc
  | subfc => s' = addCarrying s rD (inv a) b.toNat 1 rc
  | subfe => s' = addCarrying s rD (inv a) b.toNat (ca s).toNat rc
  | mullw => s' = writeBack s rD (BitVec.ofInt 32 (a.toInt * b.toInt)) rc
  | mulhw => s' = writeBack s rD (BitVec.ofInt 32 (a.toInt * b.toInt / 2 ^ 32)) rc
  | mulhwu => s' = writeBack s rD (BitVec.ofNat 32 (a.toNat * b.toNat / 2 ^ 32)) rc
  | divw =>
      if divwUndefined a b then ∃ q, s' = writeBack s rD q rc
      else s' = writeBack s rD (BitVec.ofInt 32 (a.toInt.tdiv b.toInt)) rc
  | divwu =>
      if b = 0 then ∃ q, s' = writeBack s rD q rc
      else s' = writeBack s rD (BitVec.ofNat 32 (a.toNat / b.toNat)) rc

def XOUnary.exec (s : CpuState ρ) (rD rA : Reg) (rc : Bool) (op : XOUnary) : CpuState ρ :=
  let a := gprOf s rA
  match op with
  | neg => writeBack s rD (BitVec.ofNat 32 (inv a + 1)) rc
  | addze => addCarrying s rD a.toNat 0 (ca s).toNat rc
  | addme => addCarrying s rD a.toNat (2 ^ 32 - 1) (ca s).toNat rc
  | subfze => addCarrying s rD (inv a) 0 (ca s).toNat rc
  | subfme => addCarrying s rD (inv a) (2 ^ 32 - 1) (ca s).toNat rc

/-- `rA ← rS >> n`, arithmetic, with CA set when a negative value lost ones. -/
def shiftRightAlgebraic (s : CpuState ρ) (rS rA : Reg) (n : Nat) (rc : Bool) :
    CpuState ρ :=
  let x := (gprOf s rS).toInt
  writeBack (setCa s (x < 0 ∧ x % 2 ^ n ≠ 0)) rA (BitVec.ofInt 32 (x / 2 ^ n)) rc

def XLogic.exec (s : CpuState ρ) (rS rA rB : Reg) (rc : Bool) (op : XLogic) :
    CpuState ρ :=
  let bits (f : Bool → Bool → Bool) :=
    writeBack s rA (ofMsb fun i => f ((gprOf s rS).getMsbD i) ((gprOf s rB).getMsbD i)) rc
  let n := (gprOf s rB).toNat % 64
  match op with
  | and => bits (· && ·)
  | andc => bits fun x y => x && !y
  | or => bits (· || ·)
  | orc => bits fun x y => x || !y
  | xor => bits (· ^^ ·)
  | nand => bits fun x y => !(x && y)
  | nor => bits fun x y => !(x || y)
  | eqv => bits fun x y => !(x ^^ y)
  | slw => writeBack s rA (BitVec.ofNat 32 ((gprOf s rS).toNat * 2 ^ n)) rc
  | srw => writeBack s rA (BitVec.ofNat 32 ((gprOf s rS).toNat / 2 ^ n)) rc
  | sraw => shiftRightAlgebraic s rS rA n rc

def XUnary.exec (s : CpuState ρ) (rS rA : Reg) (rc : Bool) (op : XUnary) : CpuState ρ :=
  let x := gprOf s rS
  match op with
  | cntlzw => writeBack s rA (BitVec.ofNat 32 (leadingZeros x)) rc
  | extsb => writeBack s rA (ofMsb fun i => x.getMsbD (max i 24)) rc
  | extsh => writeBack s rA (ofMsb fun i => x.getMsbD (max i 16)) rc

def CRLogic.eval (a b : Bool) : CRLogic → Bool
  | crand => a && b
  | crandc => a && !b
  | cror => a || b
  | crorc => a || !b
  | crxor => a ^^ b
  | crnand => !(a && b)
  | crnor => !(a || b)
  | creqv => !(a ^^ b)

/-- The operation of one instruction. Everything an equation does not name
stays as it was. -/
def Step (rt : Runtime ρ) (s s' : CpuState ρ) : Instr → Prop
  | .dArith op rD rA simm => s' = op.exec s rD rA simm
  | .dLogic op rS rA uimm => s' = op.exec s rS rA uimm
  | .cmpi crfD rA simm => s' = compare s crfD.toNat (gprOf s rA).toInt simm.toInt
  | .cmpli crfD rA uimm => s' = compare s crfD.toNat (gprOf s rA).toNat uimm.toNat
  | .cmp crfD rA rB => s' = compare s crfD.toNat (gprOf s rA).toInt (gprOf s rB).toInt
  | .cmpl crfD rA rB => s' = compare s crfD.toNat (gprOf s rA).toNat (gprOf s rB).toNat
  | .xoArith op rD rA rB rc => op.Step s rD rA rB rc s'
  | .xoUnary op rD rA rc => s' = op.exec s rD rA rc
  | .xLogic op rS rA rB rc => s' = op.exec s rS rA rB rc
  | .xUnary op rS rA rc => s' = op.exec s rS rA rc
  | .srawi rS rA sh rc => s' = shiftRightAlgebraic s rS rA sh.toNat rc
  | .rlwinm rS rA sh mb me rc =>
      s' = writeBack s rA (ofMsb fun i =>
        inMask mb.toNat me.toNat i && rotlBit (gprOf s rS) sh.toNat i) rc
  | .rlwimi rS rA sh mb me rc =>
      s' = writeBack s rA (ofMsb fun i =>
        if inMask mb.toNat me.toNat i then rotlBit (gprOf s rS) sh.toNat i
        else (gprOf s rA).getMsbD i) rc
  | .rlwnm rS rA rB mb me rc =>
      s' = writeBack s rA (ofMsb fun i =>
        inMask mb.toNat me.toNat i &&
          rotlBit (gprOf s rS) ((gprOf s rB).toNat % 32) i) rc
  | .crLogic op crbD crbA crbB =>
      s' = { s with cr := ofMsb fun i =>
        if i = crbD.toNat then op.eval (s.cr.getMsbD crbA.toNat) (s.cr.getMsbD crbB.toNat)
        else s.cr.getMsbD i }
  | .mcrf crfD crfS =>
      s' = setCrField s crfD.toNat fun k => s.cr.getMsbD (4 * crfS.toNat + k)
  | .mcrxr crfD =>
      s' = { setCrField s crfD.toNat (fun k => s.xer.getMsbD k) with
        xer := ofMsb fun i => if i < 4 then false else s.xer.getMsbD i }
  | .mfcr rD => s' = setGprOf s rD s.cr
  | .mtcrf crm rS =>
      s' = { s with cr := ofMsb fun i =>
        if crm.getMsbD (i / 4) then (gprOf s rS).getMsbD i else s.cr.getMsbD i }
  | .mfspr rD spr =>
      if spr = 22 then s' = setGprOf (rt.dec_read s).2 rD (rt.dec_read s).1
      else s' = setGprOf s rD (sprGet s spr.toNat)
  | .mtspr spr rS =>
      if spr = 22 then s' = rt.dec_write s (gprOf s rS)
      else s' = sprSet s spr.toNat (gprOf s rS)
  | .mftb rD false =>
      s' = setGprOf (rt.guest_timebase_lo s).2 rD (rt.guest_timebase_lo s).1
  | .mftb rD true =>
      s' = setGprOf (rt.guest_timebase_hi s).2 rD (rt.guest_timebase_hi s).1
  | .mfmsr rD => s' = setGprOf s rD s.msr
  | .mtmsr rS => s' = { s with msr := gprOf s rS }
  | .mfsr rD sr => s' = setGprOf s rD (s.sr sr.toNat)
  | .mtsr sr rS => s' = { s with sr := Function.update s.sr sr.toNat (gprOf s rS) }
  | .load op update rD rA d => s' = loadInto rt s op update rD rA (baseOf s rA + exts d)
  | .loadx op update rD rA rB =>
      s' = loadInto rt s op update rD rA (baseOf s rA + gprOf s rB)
  | .lwbrx rD rA rB =>
      let w := readWord rt s (baseOf s rA + gprOf s rB)
      s' = setGprOf w.2 rD (BitVec.ofNat 32 (byteReverse 4 w.1))
  | .lhbrx rD rA rB =>
      let w := readHalf rt s (baseOf s rA + gprOf s rB)
      s' = setGprOf w.2 rD (BitVec.ofNat 32 (byteReverse 2 w.1))
  | .store op update rS rA d => s' = storeFrom rt s op update rS rA (baseOf s rA + exts d)
  | .storex op update rS rA rB =>
      s' = storeFrom rt s op update rS rA (baseOf s rA + gprOf s rB)
  | .stwbrx rS rA rB =>
      s' = writeWord rt s (baseOf s rA + gprOf s rB) (byteReverse 4 (gprOf s rS).toNat)
  | .sthbrx rS rA rB =>
      s' = writeHalf rt s (baseOf s rA + gprOf s rB) (byteReverse 2 (gprOf s rS).toNat)
  | .lmw rD rA d =>
      s' = (List.range (32 - rD.toNat)).foldl
        (loadMultipleStep rt (baseOf s rA + exts d) rD) s
  | .stmw rS rA d =>
      s' = (List.range (32 - rS.toNat)).foldl
        (storeMultipleStep rt (baseOf s rA + exts d) rS) s

end SoaPort.Recomp.Arch
