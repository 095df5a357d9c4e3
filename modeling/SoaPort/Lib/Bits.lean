import Mathlib

namespace SoaPort.Lib

/-! Bit vectors as bit sequences and as numbers: field insertion, masks,
concatenated fields, and sums read through their carry. -/

section Sequences

variable {w : Nat}

theorem eq_ofFnBE {x : BitVec w} {f : Fin w → Bool}
    (bits : ∀ i : Fin w, x.getMsbD i = f i) : x = BitVec.ofFnBE f := by
  apply BitVec.eq_of_getMsbD_eq
  intro i hi
  rw [BitVec.getMsbD_ofFnBE, dif_pos hi, ← bits ⟨i, hi⟩]

theorem getLsbD_lowMask (k j : Nat) :
    (BitVec.ofNat w (2 ^ k - 1)).getLsbD j = decide (j < w ∧ j < k) := by
  rw [BitVec.getLsbD_ofNat, Nat.testBit_two_pow_sub_one, Bool.decide_and]

/-- Replacing the `k` bits at `sh` by the low bits of `v`. -/
theorem getLsbD_insertField (x v : BitVec w) (k sh j : Nat) (hj : j < w) :
    ((x &&& ~~~(BitVec.ofNat w (2 ^ k - 1) <<< sh)) |||
      ((v &&& BitVec.ofNat w (2 ^ k - 1)) <<< sh)).getLsbD j =
      if sh ≤ j ∧ j < sh + k then v.getLsbD (j - sh) else x.getLsbD j := by
  simp only [BitVec.getLsbD_or, BitVec.getLsbD_and, BitVec.getLsbD_not,
    BitVec.getLsbD_shiftLeft, getLsbD_lowMask, hj, decide_true, Bool.true_and]
  by_cases low : j < sh
  · have outside : ¬ (sh ≤ j ∧ j < sh + k) := by omega
    simp [low, outside]
  · by_cases high : j < sh + k
    · have inside : sh ≤ j ∧ j < sh + k := ⟨by omega, high⟩
      have bound : j - sh < w ∧ j - sh < k := ⟨by omega, by omega⟩
      simp [low, inside, bound]
    · have outside : ¬ (sh ≤ j ∧ j < sh + k) := by omega
      have bound : ¬ (j - sh < w ∧ j - sh < k) := by omega
      simp [low, outside, bound]

/-- Setting or clearing the one bit at `sh`. -/
theorem getLsbD_setBit (x : BitVec w) (b : Bool) (sh j : Nat) (hj : j < w) :
    (if b then x ||| (1#w <<< sh) else x &&& ~~~(1#w <<< sh)).getLsbD j =
      if j = sh then b else x.getLsbD j := by
  have one : (1#w <<< sh).getLsbD j = decide (j = sh) := by
    rw [BitVec.getLsbD_shiftLeft, BitVec.getLsbD_one, decide_eq_true hj, Bool.true_and]
    by_cases below : j < sh
    · have differ : j ≠ sh := by omega
      simp [below, differ]
    · have zero : (0 < w ∧ j - sh = 0) ↔ j = sh := by omega
      simp only [below, zero, decide_false, Bool.not_false, Bool.true_and, ← Bool.decide_and]
  cases b with
  | false =>
      rw [if_neg Bool.false_ne_true, BitVec.getLsbD_and, BitVec.getLsbD_not, one,
        decide_eq_true hj]
      by_cases same : j = sh <;> simp [same]
  | true =>
      rw [if_pos rfl, BitVec.getLsbD_or, one]
      by_cases same : j = sh <;> simp [same]

theorem getMsbD_of_lt (x : BitVec w) {i : Nat} (hi : i < w) :
    x.getMsbD i = x.getLsbD (w - 1 - i) := by
  rw [BitVec.getMsbD_eq_getLsbD, decide_eq_true hi, Bool.true_and]

/-- Sign extension from the low `k` bits repeats the bit they start with. -/
theorem getMsbD_signExtend_low (x : BitVec w) {k i : Nat} (positive : 0 < k) (le : k ≤ w)
    (hi : i < w) : ((x.setWidth k).signExtend w).getMsbD i = x.getMsbD (max i (w - k)) := by
  rw [getMsbD_of_lt _ hi, getMsbD_of_lt x (by omega), BitVec.getLsbD_signExtend,
    BitVec.msb_eq_getLsbD_last, BitVec.getLsbD_setWidth, BitVec.getLsbD_setWidth,
    decide_eq_true (by omega), Bool.true_and]
  by_cases low : w - 1 - i < k
  · rw [if_pos low, decide_eq_true low, Bool.true_and, Nat.max_eq_left (by omega)]
  · rw [if_neg low, decide_eq_true (by omega), Bool.true_and, Nat.max_eq_right (by omega)]
    congr 1
    omega

theorem rotateLeft_zero (x : BitVec w) : x.rotateLeft 0 = x := by
  apply BitVec.eq_of_getMsbD_eq
  intro i hi
  rw [BitVec.getMsbD_rotateLeft, Nat.zero_add, Nat.mod_eq_of_lt hi, decide_eq_true hi,
    Bool.true_and]

/-- Rotation written as two shifts. -/
theorem rotateLeft_eq_shifts (x : BitVec w) {n : Nat} (hn : n < w) :
    x.rotateLeft n = (x <<< n) ||| (x >>> (w - n)) := by
  rw [BitVec.rotateLeft_def, Nat.mod_eq_of_lt hn]

end Sequences

section Numbers

theorem toNat_append_add {m n : Nat} (x : BitVec m) (y : BitVec n) :
    (x ++ y).toNat = x.toNat * 2 ^ n + y.toNat := by
  rw [BitVec.toNat_append, ← Nat.shiftLeft_add_eq_or_of_lt y.isLt, Nat.shiftLeft_eq]

/-- The `k`-bit field at `sh` of a number. -/
theorem field_eq {x sh mask : Nat} (k : Nat) (ones : mask = 2 ^ k - 1) :
    (x >>> sh) &&& mask = x / 2 ^ sh % 2 ^ k := by
  rw [ones, Nat.and_two_pow_sub_one_eq_mod, Nat.shiftRight_eq_div_pow]

theorem xor_two_pow_of_lt {x k : Nat} (hx : x < 2 ^ k) : x ^^^ 2 ^ k = x + 2 ^ k := by
  have quotient : (x ^^^ 2 ^ k) / 2 ^ k = 1 := by
    rw [Nat.xor_div_two_pow, Nat.div_eq_of_lt hx, Nat.div_self (Nat.two_pow_pos k),
      Nat.zero_xor]
  have remainder : (x ^^^ 2 ^ k) % 2 ^ k = x := by
    rw [Nat.xor_mod_two_pow, Nat.mod_self, Nat.xor_zero, Nat.mod_eq_of_lt hx]
  have whole := Nat.div_add_mod (x ^^^ 2 ^ k) (2 ^ k)
  rw [quotient, remainder, Nat.mul_one] at whole
  omega

theorem xor_two_pow_of_ge {x k : Nat} (hx : 2 ^ k ≤ x) (bound : x < 2 ^ (k + 1)) :
    x ^^^ 2 ^ k = x - 2 ^ k := by
  have small : x - 2 ^ k < 2 ^ k := by
    rw [Nat.pow_succ] at bound
    omega
  have split := xor_two_pow_of_lt small
  rw [Nat.sub_add_cancel hx] at split
  calc
    x ^^^ 2 ^ k = ((x - 2 ^ k) ^^^ 2 ^ k) ^^^ 2 ^ k := by rw [split]
    _ = x - 2 ^ k := by rw [Nat.xor_assoc, Nat.xor_self, Nat.xor_zero]

/-- Flipping the top bit and subtracting it reads a field as signed. -/
theorem xor_sub_sign {k : Nat} (x : BitVec (k + 1)) :
    ((x.toNat ^^^ 2 ^ k : Nat) : Int) - (2 ^ k : Nat) = x.toInt := by
  have bound : x.toNat < 2 ^ (k + 1) := x.isLt
  rw [BitVec.toInt_eq_toNat_cond]
  by_cases small : x.toNat < 2 ^ k
  · rw [xor_two_pow_of_lt small, if_pos (by rw [Nat.pow_succ]; omega)]
    push_cast
    omega
  · rw [xor_two_pow_of_ge (by omega) bound, if_neg (by rw [Nat.pow_succ]; omega),
      Nat.cast_sub (by omega), Nat.pow_succ]
    push_cast
    ring

end Numbers

section Sums

variable {w : Nat}

/-- A sum is the bits of either addend plus the bits of both. -/
theorem or_add_and (x y : BitVec w) : (x ||| y) + (x &&& y) = x + y := by
  have apart : (~~~x &&& y) &&& (x &&& y) = 0#w := by
    apply BitVec.eq_of_getLsbD_eq
    intro i hi
    simp only [BitVec.getLsbD_and, BitVec.getLsbD_not, BitVec.getLsbD_zero]
    cases x.getLsbD i <;> simp
  have disjoint : x &&& (~~~x &&& y) = 0#w := by
    apply BitVec.eq_of_getLsbD_eq
    intro i hi
    simp only [BitVec.getLsbD_and, BitVec.getLsbD_not, BitVec.getLsbD_zero]
    cases x.getLsbD i <;> simp
  have whole : x ||| (~~~x &&& y) = x ||| y := by
    apply BitVec.eq_of_getLsbD_eq
    intro i hi
    simp only [BitVec.getLsbD_or, BitVec.getLsbD_and, BitVec.getLsbD_not]
    cases x.getLsbD i <;> simp [hi]
  have parts : (~~~x &&& y) ||| (x &&& y) = y := by
    apply BitVec.eq_of_getLsbD_eq
    intro i hi
    simp only [BitVec.getLsbD_or, BitVec.getLsbD_and, BitVec.getLsbD_not]
    cases x.getLsbD i <;> simp [hi]
  calc
    (x ||| y) + (x &&& y) = x + (~~~x &&& y) + (x &&& y) := by
      rw [BitVec.add_eq_or_of_and_eq_zero x _ disjoint, whole]
    _ = x + ((~~~x &&& y) + (x &&& y)) := BitVec.add_assoc ..
    _ = x + y := by rw [BitVec.add_eq_or_of_and_eq_zero _ _ apart, parts]

theorem add_twoPow_and {k : Nat} (x y : BitVec w) (kw : k < w) (small : y.toNat < 2 ^ k) :
    (x + BitVec.twoPow w k) &&& y = x &&& y := by
  have low : (x + BitVec.twoPow w k).toNat % 2 ^ k = x.toNat % 2 ^ k := by
    rw [BitVec.toNat_add, BitVec.toNat_twoPow, Nat.mod_eq_of_lt (Nat.pow_lt_pow_right (by decide) kw),
      Nat.mod_mod_of_dvd _ (Nat.pow_dvd_pow 2 (Nat.le_of_lt kw)), Nat.add_mod_right]
  have masked (z : BitVec w) : (z &&& y).toNat = (z.toNat % 2 ^ k) &&& y.toNat := by
    have below : z.toNat &&& y.toNat < 2 ^ k := Nat.lt_of_le_of_lt Nat.and_le_right small
    rw [BitVec.toNat_and, ← Nat.mod_eq_of_lt below, Nat.and_mod_two_pow, Nat.mod_eq_of_lt small]
  apply BitVec.eq_of_toNat_eq
  rw [masked, masked, low]

theorem add_twoPow_or {k : Nat} (x y : BitVec w) (kw : k < w) (small : y.toNat < 2 ^ k) :
    (x + BitVec.twoPow w k) ||| y = (x ||| y) + BitVec.twoPow w k := by
  have shifted := or_add_and (x + BitVec.twoPow w k) y
  have plain := or_add_and x y
  rw [add_twoPow_and x y kw small] at shifted
  apply (BitVec.add_left_inj (x &&& y)).mp
  rw [shifted]
  calc
    x + BitVec.twoPow w k + y = x + y + BitVec.twoPow w k := by ac_rfl
    _ = (x ||| y) + (x &&& y) + BitVec.twoPow w k := by rw [plain]
    _ = _ := by ac_rfl

end Sums

end SoaPort.Lib
