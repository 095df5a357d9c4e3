import Mathlib.Tactic.IntervalCases
import SoaPort.Aram.Engine
import SoaPort.Aram.ArqService

namespace SoaPort.Aram

/-! ### The registers a transfer is written to -/

def Aligned (a : Word) : Prop := a.toNat % 32 = 0

theorem Aligned.bits {a : Word} (aligned : Aligned a) {i : Nat} (here : i < 32) (low : i < 5) :
    a[i] = false := by
  have bit : (a.toNat % 2 ^ 5).testBit i = false := by
    rw [show a.toNat % 2 ^ 5 = 0 from aligned, Nat.zero_testBit]
  rw [Nat.testBit_mod_two_pow, decide_eq_true low, Bool.true_and] at bit
  rw [BitVec.getElem_eq_testBit_toNat]
  exact bit

theorem aligned_of_and {a : Word} (low : a &&& 0x1F = 0) : Aligned a := by
  have bits := congrArg BitVec.toNat low
  rw [BitVec.toNat_and] at bits
  exact (Nat.and_two_pow_sub_one_eq_mod a.toNat 5).symm.trans bits

/-- A 16-bit half of a register with the bits of `mask` replaced. -/
def merged (old : Half) (mask bits : Word) : Half :=
  (old.setWidth 32 &&& ~~~mask ||| bits).setWidth 16

/-- An address written half by half: the ten bits and the eleven of it that count. -/
def addressed (old a : Word) : Word :=
  let high := (old &&& 0xFFFF) |||
    ((merged ((old >>> 16).setWidth 16) 0x03ff (a >>> 16)).setWidth 32 <<< 16)
  (high &&& 0xFFFF0000) ||| (merged (high.setWidth 16) 0xffe0 (a &&& 0xffff)).setWidth 32

theorem addressed_eq {old a : Word} (clean : Aligned old) (aligned : Aligned a) :
    addressed old a &&& 0x03FFFFFF = a &&& 0x03FFFFFF := by
  apply BitVec.eq_of_getLsbD_eq
  intro i lt
  simp only [addressed, merged, BitVec.getLsbD_and, BitVec.getLsbD_or, BitVec.getLsbD_shiftLeft,
    BitVec.getLsbD_setWidth, BitVec.getLsbD_not, BitVec.getLsbD_ushiftRight]
  interval_cases i <;> simp [clean.bits, aligned.bits]

theorem and_sub {x y m k : Word} (same : x &&& m = y &&& m) (sub : m &&& k = k) :
    x &&& k = y &&& k := by
  rw [← sub, ← BitVec.and_assoc, ← BitVec.and_assoc, same]

theorem addressed_aligned {old a : Word} (clean : Aligned old) (aligned : Aligned a) :
    Aligned (addressed old a) := by
  apply aligned_of_and
  rw [and_sub (addressed_eq clean aligned) (by decide)]
  apply BitVec.eq_of_getLsbD_eq
  intro i lt
  rw [BitVec.getLsbD_and]
  interval_cases i <;> simp [aligned.bits]

/-- The count written half by half. -/
def counted_hi (old : Half) (type length : Word) : Half :=
  merged (merged old 0x8000 (type <<< 15)) 0x03ff (length >>> 16)

def counted (old : Half) (type length : Word) : Word :=
  ((counted_hi old type length).setWidth 32 <<< 16) ||| (merged 0 0xffe0 (length &&& 0xffff)).setWidth 32

/-- No stray bit of the count's high half is set. -/
def Spare (h : Half) : Prop := h &&& 0x7C00 = 0

theorem Spare.bits {h : Half} (spare : Spare h) {i : Nat} (here : i < 16) (low : 10 ≤ i)
    (high : i < 15) : h[i] = false := by
  have bit := congrArg (fun x : Half => x.getLsbD i) spare
  rw [BitVec.getLsbD_and] at bit
  interval_cases i <;> simpa using bit

theorem high_bits {length : Word} (short : length.toNat < 2 ^ 26) {i : Nat} (here : i < 32)
    (high : 26 ≤ i) : length[i] = false := by
  rw [BitVec.getElem_eq_testBit_toNat]
  exact Nat.testBit_lt_two_pow (Nat.lt_of_lt_of_le short (Nat.pow_le_pow_right (by decide) high))

theorem counted_eq {old : Half} {type length : Word} (spare : Spare old)
    (short : length.toNat < 2 ^ 26) (known : type = 0 ∨ type = 1) :
    counted old type length &&& 0x7FFFFFFF = length ∧
      (counted old type length).msb = (type = 1 : Bool) ∧ Spare (counted_hi old type length) := by
  refine ⟨?_, ?_, ?_⟩
  · apply BitVec.eq_of_getLsbD_eq
    intro i lt
    simp only [counted, counted_hi, merged, BitVec.getLsbD_and, BitVec.getLsbD_or,
      BitVec.getLsbD_shiftLeft, BitVec.getLsbD_setWidth, BitVec.getLsbD_not,
      BitVec.getLsbD_ushiftRight]
    rcases known with rfl | rfl <;> interval_cases i <;> simp [spare.bits, high_bits short]
  · rw [BitVec.msb_eq_getLsbD_last]
    simp only [counted, counted_hi, merged, BitVec.getLsbD_and, BitVec.getLsbD_or,
      BitVec.getLsbD_shiftLeft, BitVec.getLsbD_setWidth, BitVec.getLsbD_not,
      BitVec.getLsbD_ushiftRight]
    rcases known with rfl | rfl <;> simp [high_bits short]
  · apply BitVec.eq_of_getLsbD_eq
    intro i lt
    simp only [counted_hi, merged, BitVec.getLsbD_and, BitVec.getLsbD_or,
      BitVec.getLsbD_shiftLeft, BitVec.getLsbD_setWidth, BitVec.getLsbD_not,
      BitVec.getLsbD_ushiftRight]
    rcases known with rfl | rfl <;> interval_cases i <;> simp [spare.bits, high_bits short]

/-! ### A transfer -/

namespace Engine

variable {e : Engine} {now : Nat} {x : Dma}

theorem poll_idle (idle : e.g_ar_busy = false) (now : Nat) : e.aram_poll now = e := by
  rw [aram_poll, if_neg]
  rintro ⟨busy, -⟩
  rw [idle] at busy
  cases busy

theorem merge_idle (idle : e.g_ar_busy = false) (now : Nat) (r : Reg) (mask bits : Word) :
    e.merge now r mask bits = e.aram_write now r (merged (e.value r) mask bits) := by
  rw [merge, aram_read, poll_idle idle]
  rfl

/-- The registers a transfer is started with. -/
def loaded (e : Engine) (x : Dma) : Engine :=
  { e with
    g_mmaddr := addressed e.g_mmaddr x.mainmem_addr
    g_araddr := addressed e.g_araddr x.aram_addr
    g_cnt_hi := counted_hi e.g_cnt_hi x.type x.length }

theorem start_eq (idle : e.g_ar_busy = false) (now : Nat) (x : Dma) :
    e.start now x = (e.loaded x).dma now (counted e.g_cnt_hi x.type x.length) := by
  simp only [start, ARStartDMA, merge_idle, idle, aram_write, value, loaded, addressed, counted,
    counted_hi]

/-- No bit of the address registers is left from before a transfer but those that
are masked off or that the next one writes. -/
structure Clean (e : Engine) : Prop where
  mmaddr : Aligned e.g_mmaddr
  araddr : Aligned e.g_araddr
  cnt : Spare e.g_cnt_hi

end Engine

/-- A transfer the engine makes whole: of a known direction, its addresses on 32
bytes, inside the two memories. -/
structure Dma.Proper (x : Dma) : Prop where
  type : x.type = 0 ∨ x.type = 1
  mainmem : Aligned x.mainmem_addr
  aram : Aligned x.aram_addr
  in_mem : Engine.mm x.mainmem_addr + x.length.toNat ≤ MEM1_SIZE
  in_aram : Engine.ar x.aram_addr + x.length.toNat ≤ ARAM_SIZE

namespace Engine

variable {e : Engine} {now : Nat} {x : Dma}

/-- The memories after a transfer. -/
def moved (e : Engine) (x : Dma) : (Nat → Byte) × (Nat → Byte) :=
  if x.type = 0 then
    (e.mem, copy e.g_aram e.mem (ar x.aram_addr) (mm x.mainmem_addr) x.length.toNat)
  else (copy e.mem e.g_aram (mm x.mainmem_addr) (ar x.aram_addr) x.length.toNat, e.g_aram)

/-- `ARStartDMA` has the engine copy what its arguments name, and leaves the
registers fit for the next. -/
theorem start_moves (idle : e.g_ar_busy = false) (clean : e.Clean) (now : Nat)
    (proper : x.Proper) :
    ((e.start now x).mem, (e.start now x).g_aram) = e.moved x ∧ (e.start now x).Clean ∧
      (e.start now x).g_ar_busy = true ∧ (e.start now x).g_csr = e.g_csr := by
  have short : x.length.toNat < 2 ^ 26 := by
    have inside := proper.in_aram
    simp only [ARAM_SIZE] at inside
    omega
  obtain ⟨len, to_main, spare⟩ := counted_eq clean.cnt short proper.type
  have at_mm : mm (e.loaded x).g_mmaddr = mm x.mainmem_addr :=
    congrArg BitVec.toNat (and_sub (addressed_eq clean.mmaddr proper.mainmem) (by decide))
  have at_ar : ar (e.loaded x).g_araddr = ar x.aram_addr :=
    congrArg BitVec.toNat (and_sub (addressed_eq clean.araddr proper.aram) (by decide))
  have inside : ¬ (ar (e.loaded x).g_araddr +
        (counted e.g_cnt_hi x.type x.length &&& 0x7FFFFFFF).toNat > ARAM_SIZE ∨
      mm (e.loaded x).g_mmaddr +
        (counted e.g_cnt_hi x.type x.length &&& 0x7FFFFFFF).toNat > MEM1_SIZE) := by
    rw [len, at_mm, at_ar]
    have in_aram := proper.in_aram
    have in_mem := proper.in_mem
    omega
  rw [start_eq idle, dma]
  dsimp only
  rw [if_neg inside, len, to_main, at_mm, at_ar, moved]
  have registers : (e.loaded x).Clean :=
    ⟨addressed_aligned clean.mmaddr proper.mainmem, addressed_aligned clean.araddr proper.aram,
      spare⟩
  rcases proper.type with zero | one
  · rw [if_pos zero, if_neg (by rw [zero]; decide)]
    exact ⟨rfl, ⟨registers.mmaddr, registers.araddr, registers.cnt⟩, rfl, rfl⟩
  · rw [if_pos (by rw [one]; decide), if_neg (by rw [one]; decide)]
    exact ⟨rfl, ⟨registers.mmaddr, registers.araddr, registers.cnt⟩, rfl, rfl⟩

end Engine

end SoaPort.Aram
