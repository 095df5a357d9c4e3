import SoaPort.Lib.Bits

namespace SoaPort.Lib

/-! Words of four bytes in either byte order. -/

inductive WordOrder where
  | big
  | little
deriving DecidableEq

namespace WordOrder

/-- The word of bytes 0 to 3. -/
def word (o : WordOrder) (b : Nat → BitVec 8) : BitVec 32 :=
  match o with
  | big => b 0 ++ b 1 ++ b 2 ++ b 3
  | little => b 3 ++ b 2 ++ b 1 ++ b 0

/-- Byte `k` of a word. -/
def byte (o : WordOrder) (w : BitVec 32) (k : Nat) : BitVec 8 :=
  match o with
  | big => w.extractLsb' (8 * (3 - k)) 8
  | little => w.extractLsb' (8 * k) 8

variable (o : WordOrder) (b c : Nat → BitVec 8)

theorem toNat_append4 (x y z w : BitVec 8) :
    (x ++ y ++ z ++ w : BitVec 32).toNat =
      x.toNat * 2 ^ 24 + y.toNat * 2 ^ 16 + z.toNat * 2 ^ 8 + w.toNat := by
  have whole : (x ++ y ++ z ++ w : BitVec 32).toNat =
      ((x.toNat * 2 ^ 8 + y.toNat) * 2 ^ 8 + z.toNat) * 2 ^ 8 + w.toNat := by
    rw [toNat_append_add, toNat_append_add, toNat_append_add]
  rw [whole]
  omega

theorem byte_word {k : Nat} (low : k < 4) : o.byte (o.word b) k = b k := by
  apply BitVec.eq_of_toNat_eq
  have h0 := (b 0).isLt
  have h1 := (b 1).isLt
  have h2 := (b 2).isLt
  have h3 := (b 3).isLt
  cases o with
  | big =>
      rw [byte, word, BitVec.extractLsb'_toNat, toNat_append4, Nat.shiftRight_eq_div_pow]
      match k with
      | 0 | 1 | 2 | 3 => omega
  | little =>
      rw [byte, word, BitVec.extractLsb'_toNat, toNat_append4, Nat.shiftRight_eq_div_pow]
      match k with
      | 0 | 1 | 2 | 3 => omega

theorem word_congr {b c : Nat → BitVec 8} (same : ∀ k < 4, b k = c k) : o.word b = o.word c := by
  have s0 := same 0 (by decide)
  have s1 := same 1 (by decide)
  have s2 := same 2 (by decide)
  have s3 := same 3 (by decide)
  cases o with
  | big => rw [word, word, s0, s1, s2, s3]
  | little => rw [word, word, s0, s1, s2, s3]

theorem word_inj : o.word b = o.word c ↔ ∀ k < 4, b k = c k := by
  constructor
  · intro same k low
    rw [← byte_word o b low, same, byte_word o c low]
  · exact word_congr o

/-! The test for a zero byte. -/

theorem high_bits (w : BitVec 32) : w &&& 0x80808080#32 = 0#32 ↔
    w.toNat / 2 ^ 7 % 2 = 0 ∧ w.toNat / 2 ^ 15 % 2 = 0 ∧ w.toNat / 2 ^ 23 % 2 = 0 ∧
      w.toNat / 2 ^ 31 % 2 = 0 := by
  have bit (k : Nat) : w.getLsbD k = decide (w.toNat / 2 ^ k % 2 = 1) :=
    Nat.testBit_eq_decide_div_mod_eq
  constructor
  · intro none_
    have clear (k : Nat) (set : (0x80808080#32).getLsbD k = true) : w.toNat / 2 ^ k % 2 = 0 := by
      have here := congrArg (fun x => x.getLsbD k) none_
      simp only [BitVec.getLsbD_and, set, Bool.and_true, BitVec.getLsbD_zero, bit,
        decide_eq_false_iff_not] at here
      omega
    exact ⟨clear 7 (by decide), clear 15 (by decide), clear 23 (by decide), clear 31 (by decide)⟩
  · rintro ⟨h7, h15, h23, h31⟩
    apply BitVec.eq_of_getLsbD_eq
    intro i low
    rw [BitVec.getLsbD_and, BitVec.getLsbD_zero]
    by_cases set : i = 7 ∨ i = 15 ∨ i = 23 ∨ i = 31
    · have clear : w.getLsbD i = false := by
        rw [bit, decide_eq_false_iff_not]
        rcases set with rfl | rfl | rfl | rfl
        all_goals omega
      rw [clear, Bool.false_and]
    · have plain : ∀ k < 32, ¬ (k = 7 ∨ k = 15 ∨ k = 23 ∨ k = 31) →
          (0x80808080#32).getLsbD k = false := by decide
      rw [plain i low set, Bool.and_false]

/-- Four bytes, none of them zero or above 0x80. -/
theorem plain_bytes (x y z w : BitVec 8) :
    ((x ++ y ++ z ++ w : BitVec 32) - 0x01010101#32) &&& 0x80808080#32 = 0#32 ↔
      (0 < x.toNat ∧ x.toNat ≤ 0x80) ∧ (0 < y.toNat ∧ y.toNat ≤ 0x80) ∧
        (0 < z.toNat ∧ z.toNat ≤ 0x80) ∧ (0 < w.toNat ∧ w.toNat ≤ 0x80) := by
  have value : ((x ++ y ++ z ++ w : BitVec 32) - 0x01010101#32).toNat =
      (x.toNat * 2 ^ 24 + y.toNat * 2 ^ 16 + z.toNat * 2 ^ 8 + w.toNat + 0xFEFEFEFF) % 2 ^ 32 := by
    rw [BitVec.toNat_sub, toNat_append4]
    have ones : (0x01010101#32).toNat = 0x01010101 := rfl
    rw [ones]
    congr 1
    omega
  have hx := x.isLt
  have hy := y.isLt
  have hz := z.isLt
  have hw := w.isLt
  rw [high_bits, value]
  omega

/-- The test passes a word of either order exactly when each of its bytes is from 1 to 0x80. -/
theorem test_iff : (o.word b - 0x01010101#32) &&& 0x80808080#32 = 0#32 ↔
    ∀ k < 4, 0 < (b k).toNat ∧ (b k).toNat ≤ 0x80 := by
  have four {P : Nat → Prop} : (∀ k < 4, P k) ↔ P 0 ∧ P 1 ∧ P 2 ∧ P 3 := by
    constructor
    · exact fun all => ⟨all 0 (by decide), all 1 (by decide), all 2 (by decide), all 3 (by decide)⟩
    · rintro ⟨p0, p1, p2, p3⟩ k low
      match k with
      | 0 => exact p0
      | 1 => exact p1
      | 2 => exact p2
      | 3 => exact p3
  rw [four]
  cases o with
  | big => exact plain_bytes ..
  | little =>
      rw [word, plain_bytes]
      constructor
      · rintro ⟨p3, p2, p1, p0⟩
        exact ⟨p0, p1, p2, p3⟩
      · rintro ⟨p0, p1, p2, p3⟩
        exact ⟨p3, p2, p1, p0⟩

/-- Big-endian words compare as their first differing bytes do. -/
theorem big_lt {b c : Nat → BitVec 8} {j : Nat} (low : j < 4) (same : ∀ i < j, b i = c i)
    (differ : b j ≠ c j) : big.word c < big.word b ↔ (c j).toNat < (b j).toNat := by
  have apart : (b j).toNat ≠ (c j).toNat := fun is => differ (BitVec.eq_of_toNat_eq is)
  have b1 := (b 1).isLt
  have b2 := (b 2).isLt
  have b3 := (b 3).isLt
  have c1 := (c 1).isLt
  have c2 := (c 2).isLt
  have c3 := (c 3).isLt
  rw [BitVec.lt_def, word, word, toNat_append4, toNat_append4]
  match j with
  | 0 => omega
  | 1 =>
      rw [same 0 (by decide)]
      omega
  | 2 =>
      rw [same 0 (by decide), same 1 (by decide)]
      omega
  | 3 =>
      rw [same 0 (by decide), same 1 (by decide), same 2 (by decide)]
      omega

/-- The bytes of a little-endian word turned round. -/
theorem turn_round (x y z w : BitVec 8) :
    (x ++ y ++ z ++ w : BitVec 32) >>> 24 ||| ((x ++ y ++ z ++ w : BitVec 32) >>> 8 &&& 0xFF00#32) |||
      ((x ++ y ++ z ++ w : BitVec 32) <<< 8 &&& 0xFF0000#32) ||| (x ++ y ++ z ++ w : BitVec 32) <<< 24 =
    (w ++ z ++ y ++ x : BitVec 32) := by
  apply BitVec.eq_of_getLsbD_eq
  intro i low
  simp only [BitVec.getLsbD_or, BitVec.getLsbD_and, BitVec.getLsbD_ushiftRight,
    BitVec.getLsbD_shiftLeft, BitVec.getLsbD_append]
  interval_cases i
  all_goals simp

end WordOrder

end SoaPort.Lib
