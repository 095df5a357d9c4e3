import SoaPort.Recomp.Arch

namespace SoaPort.Recomp

open SoaPort.Lib

/-! The helpers of `cpu.h` compute the architecture's operations. -/

variable {ρ : Type} (s : CpuState ρ)

section ConditionRegister

theorem cr_set_field_eq {f : Nat} (hf : f < 8) (v : Word) :
    cr_set_field s f v = Arch.setCrField s f fun k => v.getMsbD (28 + k) := by
  rw [cr_set_field, Arch.setCrField]
  congr 1
  apply Arch.eq_ofMsb
  intro i hi
  have insert := getLsbD_insertField s.cr v 4 (28 - 4 * f) (31 - i) (by omega)
  rw [getMsbD_of_lt _ hi, getMsbD_of_lt s.cr hi]
  refine insert.trans ?_
  by_cases inside : i / 4 = f
  · have lane : 28 + i % 4 < 32 := by omega
    rw [if_pos (by omega), if_pos inside, getMsbD_of_lt v lane]
    congr 1
    omega
  · rw [if_neg (by omega), if_neg inside]

theorem and_single_ne_zero (x : Word) {m : Word} (i : Nat) (hi : i < 32)
    (single : m = BitVec.twoPow 32 i) : x &&& m ≠ 0 ↔ x.getLsbD i = true := by
  rw [single, BitVec.and_twoPow]
  by_cases bit : x.getLsbD i = true
  · have nonzero : BitVec.twoPow 32 i ≠ 0 := by
      intro zero
      have lane := congrArg (BitVec.getLsbD · i) zero
      simp [hi] at lane
    rw [if_pos bit]
    exact iff_of_true nonzero bit
  · simp [bit]

theorem so_iff : s.xer &&& XER_SO ≠ 0 ↔ Arch.so s = true := by
  rw [Arch.so, getMsbD_of_lt _ (by decide)]
  exact and_single_ne_zero s.xer 31 (by decide) rfl

/-- The four bits of a comparison result joined with the SO copy. -/
theorem compare_nibble (c : Word) (k : Nat) (hc : c = 8 ∨ c = 4 ∨ c = 2) (hk : k < 4) :
    (c ||| (if s.xer &&& XER_SO ≠ 0 then 1#32 else 0#32)).getMsbD (28 + k) =
      if k = 3 then Arch.so s else decide (c = BitVec.ofNat 32 (2 ^ (3 - k))) := by
  simp only [so_iff]
  cases Arch.so s <;> rcases hc with rfl | rfl | rfl <;> interval_cases k <;> decide

theorem cr_bit_eq {i : Nat} (hi : i < 32) : cr_bit s i = (s.cr.getMsbD i).toNat := by
  rw [getMsbD_of_lt _ hi, BitVec.getLsbD, Nat.toNat_testBit]
  exact Eq.trans (field_eq 1 rfl) (by congr 2)

theorem cr_set_bit_eq {i : Nat} (hi : i < 32) (v : Nat) :
    cr_set_bit s i v =
      { s with cr := Arch.ofMsb fun j => if j = i then v ≠ 0 else s.cr.getMsbD j } := by
  rw [cr_set_bit]
  congr 1
  apply Arch.eq_ofMsb
  intro j hj
  have setBit := getLsbD_setBit s.cr (decide (v ≠ 0)) (31 - i) (31 - j) (by omega)
  rw [getMsbD_of_lt _ hj, getMsbD_of_lt s.cr hj]
  simp only [decide_eq_true_eq] at setBit
  refine setBit.trans ?_
  by_cases same : j = i
  · rw [if_pos same, if_pos (by omega)]
  · rw [if_neg same, if_neg (by omega)]

/-- A three-way comparison of numbers, as the code encodes it. -/
theorem cmp_eq {f : Nat} (hf : f < 8) (a b : Int) :
    cr_set_field s f
        ((if a < b then 8#32 else if a > b then 4#32 else 2#32) |||
          (if s.xer &&& XER_SO ≠ 0 then 1#32 else 0#32)) =
      Arch.compare s f a b := by
  rw [cr_set_field_eq s hf, Arch.compare]
  apply Arch.setCrField_congr
  intro k hk
  have encoded : (if a < b then 8#32 else if a > b then 4#32 else 2#32) = 8#32 ∨
      (if a < b then 8#32 else if a > b then 4#32 else 2#32) = 4#32 ∨
      (if a < b then 8#32 else if a > b then 4#32 else 2#32) = 2#32 := by
    split
    · exact .inl rfl
    · split
      · exact .inr (.inl rfl)
      · exact .inr (.inr rfl)
  rw [compare_nibble s _ k encoded hk]
  rcases lt_trichotomy a b with less | equal | greater
  · have order : ¬ b < a ∧ a ≠ b := ⟨by omega, by omega⟩
    interval_cases k <;> simp [Arch.compareBits, less, order]
  · subst equal
    interval_cases k <;> simp [Arch.compareBits]
  · have order : ¬ a < b ∧ a ≠ b := ⟨by omega, by omega⟩
    interval_cases k <;> simp [Arch.compareBits, greater, order]

theorem cr_cmp_s_eq {f : Nat} (hf : f < 8) (a b : Word) :
    cr_cmp_s s f a b = Arch.compare s f a.toInt b.toInt :=
  cmp_eq s hf a.toInt b.toInt

theorem cr_cmp_u_eq {f : Nat} (hf : f < 8) (a b : Word) :
    cr_cmp_u s f a b = Arch.compare s f a.toNat b.toNat := by
  rw [← cmp_eq s hf, cr_cmp_u]
  simp only [Int.ofNat_lt, gt_iff_lt]

theorem CR0_RC_eq (v : Word) : CR0_RC s v = Arch.record true s v :=
  cr_cmp_s_eq s (by decide) v 0

end ConditionRegister

section Carry

theorem xer_set_ca_eq (c : Word) : xer_set_ca s c = Arch.setCa s (c ≠ 0) := by
  rw [xer_set_ca, Arch.setCa]
  congr 1
  apply Arch.eq_ofMsb
  intro j hj
  have setBit := getLsbD_setBit s.xer (decide (c ≠ 0)) 29 (31 - j) (by omega)
  rw [getMsbD_of_lt _ hj, getMsbD_of_lt s.xer hj]
  simp only [decide_eq_true_eq] at setBit
  refine setBit.trans ?_
  by_cases same : j = 2
  · rw [if_pos same, if_pos (by omega)]
  · rw [if_neg same, if_neg (by omega)]

theorem xer_ca_toNat : (xer_ca s).toNat = (Arch.ca s).toNat := by
  rw [Arch.ca, getMsbD_of_lt _ (by decide), BitVec.getLsbD, Nat.toNat_testBit]
  exact Eq.trans (field_eq 1 rfl) rfl

/-- The 64-bit sum holds the 33-bit one. -/
theorem carry_out_eq {n : Nat} (r : BitVec 64) (value : r.toNat = n) (bound : n < 2 ^ 33) :
    carry_out s r = (BitVec.ofNat 32 n, Arch.setCa s (2 ^ 32 ≤ n)) := by
  have low : r.setWidth 32 = BitVec.ofNat 32 n := by
    apply BitVec.eq_of_toNat_eq
    rw [BitVec.toNat_setWidth, BitVec.toNat_ofNat, value]
  have high : ((r >>> 32).setWidth 32 ≠ (0 : Word)) ↔ 2 ^ 32 ≤ n := by
    rw [ne_eq, ← BitVec.toNat_inj, BitVec.toNat_setWidth, BitVec.toNat_ushiftRight, value,
      Nat.shiftRight_eq_div_pow]
    change ¬ n / 2 ^ 32 % 2 ^ 32 = 0 ↔ 2 ^ 32 ≤ n
    omega
  rw [carry_out, low, xer_set_ca_eq]
  simp only [high]

theorem inv_eq (a : Word) : (~~~a).toNat = Arch.inv a := by
  rw [BitVec.toNat_not, Arch.inv]

/-- The sum and its carry, as `Arch.addCarrying` writes them back. -/
def sumWithCarry (x y c : Nat) : Word × CpuState ρ :=
  (BitVec.ofNat 32 (x + y + c), Arch.setCa s (2 ^ 32 ≤ x + y + c))

theorem inv_lt (a : Word) : Arch.inv a < 2 ^ 32 := by
  rw [Arch.inv]
  omega

theorem carry_in_lt : (Arch.ca s).toNat < 2 := Bool.toNat_lt _

theorem ppc_addc_eq (a b : Word) : ppc_addc s a b = sumWithCarry s a.toNat b.toNat 0 := by
  refine carry_out_eq s _ ?_ (by omega)
  rw [BitVec.toNat_add, BitVec.toNat_setWidth, BitVec.toNat_setWidth]
  omega

theorem ppc_adde_eq (a b : Word) :
    ppc_adde s a b = sumWithCarry s a.toNat b.toNat (Arch.ca s).toNat := by
  have small := carry_in_lt s
  refine carry_out_eq s _ ?_ (by omega)
  rw [BitVec.toNat_add, BitVec.toNat_add, BitVec.toNat_setWidth, BitVec.toNat_setWidth,
    BitVec.toNat_setWidth, xer_ca_toNat]
  omega

theorem ppc_subfc_eq (a b : Word) :
    ppc_subfc s a b = sumWithCarry s (Arch.inv a) b.toNat 1 := by
  have small := inv_lt a
  refine carry_out_eq s _ ?_ (by omega)
  rw [BitVec.toNat_add, BitVec.toNat_add, BitVec.toNat_setWidth, BitVec.toNat_setWidth,
    inv_eq]
  change ((Arch.inv a % 2 ^ 64 + b.toNat % 2 ^ 64) % 2 ^ 64 + 1) % 2 ^ 64 = _
  omega

theorem ppc_subfe_eq (a b : Word) :
    ppc_subfe s a b = sumWithCarry s (Arch.inv a) b.toNat (Arch.ca s).toNat := by
  have small := inv_lt a
  have carry := carry_in_lt s
  refine carry_out_eq s _ ?_ (by omega)
  rw [BitVec.toNat_add, BitVec.toNat_add, BitVec.toNat_setWidth, BitVec.toNat_setWidth,
    BitVec.toNat_setWidth, inv_eq, xer_ca_toNat]
  omega

theorem ppc_addze_eq (a : Word) :
    ppc_addze s a = sumWithCarry s a.toNat 0 (Arch.ca s).toNat := by
  have carry := carry_in_lt s
  refine carry_out_eq s _ ?_ (by omega)
  rw [BitVec.toNat_add, BitVec.toNat_setWidth, BitVec.toNat_setWidth, xer_ca_toNat]
  omega

theorem ppc_subfze_eq (a : Word) :
    ppc_subfze s a = sumWithCarry s (Arch.inv a) 0 (Arch.ca s).toNat := by
  have small := inv_lt a
  have carry := carry_in_lt s
  refine carry_out_eq s _ ?_ (by omega)
  rw [BitVec.toNat_add, BitVec.toNat_setWidth, BitVec.toNat_setWidth, inv_eq, xer_ca_toNat]
  omega

theorem ppc_addme_eq (a : Word) :
    ppc_addme s a = sumWithCarry s a.toNat (2 ^ 32 - 1) (Arch.ca s).toNat := by
  have carry := carry_in_lt s
  refine carry_out_eq s _ ?_ (by omega)
  rw [BitVec.toNat_add, BitVec.toNat_add, BitVec.toNat_setWidth, BitVec.toNat_setWidth,
    xer_ca_toNat]
  change ((a.toNat % 2 ^ 64 + (Arch.ca s).toNat % 2 ^ 64) % 2 ^ 64 + 0xFFFFFFFF) % 2 ^ 64 = _
  omega

theorem ppc_subfme_eq (a : Word) :
    ppc_subfme s a = sumWithCarry s (Arch.inv a) (2 ^ 32 - 1) (Arch.ca s).toNat := by
  have small := inv_lt a
  have carry := carry_in_lt s
  refine carry_out_eq s _ ?_ (by omega)
  rw [BitVec.toNat_add, BitVec.toNat_add, BitVec.toNat_setWidth, BitVec.toNat_setWidth,
    inv_eq, xer_ca_toNat]
  change ((Arch.inv a % 2 ^ 64 + (Arch.ca s).toNat % 2 ^ 64) % 2 ^ 64 + 0xFFFFFFFF) % 2 ^ 64 = _
  omega

end Carry

section Shifts

theorem ppc_slw_eq (v n : Word) :
    ppc_slw v n = BitVec.ofNat 32 (v.toNat * 2 ^ (n.toNat % 64)) := by
  have amount : (n &&& 63#32).toNat = n.toNat % 64 := Nat.and_two_pow_sub_one_eq_mod n.toNat 6
  rw [ppc_slw, amount]
  apply BitVec.eq_of_toNat_eq
  by_cases small : n.toNat % 64 < 32
  · rw [if_pos small, BitVec.toNat_shiftLeft, Nat.shiftLeft_eq, BitVec.toNat_ofNat]
  · obtain ⟨k, shift⟩ := Nat.exists_eq_add_of_le (Nat.le_of_not_lt small)
    rw [if_neg small, BitVec.toNat_ofNat, shift, Nat.pow_add, Nat.mul_left_comm,
      Nat.mul_mod_right]
    rfl

theorem ppc_srw_eq (v n : Word) :
    ppc_srw v n = BitVec.ofNat 32 (v.toNat / 2 ^ (n.toNat % 64)) := by
  have amount : (n &&& 63#32).toNat = n.toNat % 64 := Nat.and_two_pow_sub_one_eq_mod n.toNat 6
  have bound := v.isLt
  rw [ppc_srw, amount]
  apply BitVec.eq_of_toNat_eq
  by_cases small : n.toNat % 64 < 32
  · have quotient : v.toNat / 2 ^ (n.toNat % 64) ≤ v.toNat := Nat.div_le_self _ _
    rw [if_pos small, BitVec.toNat_ushiftRight, Nat.shiftRight_eq_div_pow,
      BitVec.toNat_ofNat, Nat.mod_eq_of_lt (Nat.lt_of_le_of_lt quotient bound)]
  · have large : 2 ^ 32 ≤ 2 ^ (n.toNat % 64) :=
      Nat.pow_le_pow_right (by decide) (Nat.le_of_not_lt small)
    rw [if_neg small, BitVec.toNat_ofNat, Nat.div_eq_of_lt (by omega)]
    rfl

theorem sshiftRight_eq (v : Word) (n : Nat) :
    v.sshiftRight n = BitVec.ofInt 32 (v.toInt / 2 ^ n) := by
  rw [BitVec.sshiftRight, Int.shiftRight_eq_div_pow]
  norm_cast

theorem toInt_emod_two_pow (v : Word) {n : Nat} (hn : n ≤ 32) :
    v.toInt % 2 ^ n = ((v.toNat % 2 ^ n : Nat) : Int) := by
  have modulus : ((2 ^ 32 : Nat) : Int) = 2 ^ n * 2 ^ (32 - n) := by
    rw [← pow_add, Nat.add_sub_cancel' hn]
    rfl
  rw [BitVec.toInt_eq_toNat_cond]
  split
  · norm_cast
  · rw [modulus, Int.sub_mul_emod_self_left]
    norm_cast

/-- The bits a right shift drops are the remainder. -/
theorem lost_bits (v : Word) {n : Nat} (hn : n < 32) :
    (v &&& ((1#32 <<< n) - 1#32)) ≠ 0 ↔ v.toInt % 2 ^ n ≠ 0 := by
  have small : 2 ^ n < 2 ^ 32 := Nat.pow_lt_pow_right (by decide) hn
  have mask : ((1#32 <<< n) - 1#32).toNat = 2 ^ n - 1 := by
    have single : (1#32 <<< n).toNat = 2 ^ n := by
      rw [BitVec.toNat_shiftLeft, Nat.shiftLeft_eq, BitVec.toNat_ofNat]
      omega
    have positive := Nat.two_pow_pos n
    rw [BitVec.toNat_sub, single, BitVec.toNat_ofNat]
    omega
  rw [toInt_emod_two_pow v (Nat.le_of_lt hn), ne_eq, ← BitVec.toNat_inj, BitVec.toNat_and, mask,
    Nat.and_two_pow_sub_one_eq_mod]
  norm_cast

theorem ppc_srawi_eq (v : Word) {n : Nat} (hn : n < 32) :
    ppc_srawi s v n =
      (BitVec.ofInt 32 (v.toInt / 2 ^ n),
        Arch.setCa s (v.toInt < 0 ∧ v.toInt % 2 ^ n ≠ 0)) := by
  have lost : (decide (v.toInt < 0) && decide (n ≠ 0) &&
      decide ((v &&& ((1#32 <<< n) - 1#32)) ≠ 0)) =
        decide (v.toInt < 0 ∧ v.toInt % 2 ^ n ≠ 0) := by
    simp only [lost_bits v hn]
    by_cases zero : n = 0
    · simp [zero]
    · simp [zero]
  rw [ppc_srawi, sshiftRight_eq, lost, xer_set_ca_eq]
  congr 2
  split <;> simp_all

theorem ppc_sraw_eq (v n : Word) :
    ppc_sraw s v n =
      (BitVec.ofInt 32 (v.toInt / 2 ^ (n.toNat % 64)),
        Arch.setCa s (v.toInt < 0 ∧ v.toInt % 2 ^ (n.toNat % 64) ≠ 0)) := by
  have amount : (n &&& 63#32).toNat = n.toNat % 64 := Nat.and_two_pow_sub_one_eq_mod n.toNat 6
  rw [ppc_sraw, amount]
  by_cases small : n.toNat % 64 < 32
  · rw [if_neg (by omega), ppc_srawi_eq s v small]
  · rw [if_pos (by omega), sshiftRight_eq, xer_set_ca_eq]
    -- every bit is shifted out: the quotient is the sign and the remainder is not zero
    have upper : v.toInt < 2 ^ 31 := BitVec.toInt_lt
    have lower : -2 ^ 31 ≤ v.toInt := BitVec.le_toInt v
    have large : (2 : Int) ^ 32 ≤ 2 ^ (n.toNat % 64) :=
      pow_le_pow_right₀ (by decide) (Nat.le_of_not_lt small)
    generalize (2 : Int) ^ (n.toNat % 64) = d at large
    by_cases negative : v.toInt < 0
    · have quotient : v.toInt / d = -1 := by
        rw [Int.ediv_eq_iff_of_pos (by omega)]
        omega
      have sign : v.toInt / 2 ^ 31 = -1 := by omega
      have remainder : v.toInt % d ≠ 0 := by
        have whole := Int.emod_add_mul_ediv v.toInt d
        rw [quotient] at whole
        omega
      rw [quotient, sign]
      simp [negative, remainder]
    · have quotient : v.toInt / d = 0 := Int.ediv_eq_zero_of_lt (by omega) (by omega)
      have sign : v.toInt / 2 ^ 31 = 0 := by omega
      rw [quotient, sign]
      simp [negative]

end Shifts

section Rotates

theorem rotl32_eq (v n : Word) : rotl32 v n = v.rotateLeft (n.toNat % 32) := by
  have amount : (n &&& 31#32).toNat = n.toNat % 32 := Nat.and_two_pow_sub_one_eq_mod n.toNat 5
  rw [rotl32]
  by_cases zero : n &&& 31#32 = 0
  · have none : n.toNat % 32 = 0 := by
      rw [← amount, zero]
      rfl
    rw [if_neg (not_not.mpr zero), none, rotateLeft_zero]
  · have some : n.toNat % 32 ≠ 0 := by
      intro none
      apply zero
      apply BitVec.eq_of_toNat_eq
      rw [amount, none]
      rfl
    have rest : (32#32 - (n &&& 31#32)).toNat = 32 - n.toNat % 32 := by
      rw [BitVec.toNat_sub, amount]
      change (2 ^ 32 - n.toNat % 32 + 32) % 2 ^ 32 = _
      omega
    rw [if_pos zero, amount, rest, rotateLeft_eq_shifts v (Nat.mod_lt _ (by decide))]

end Rotates

section Counting

theorem top_bit_clear (v : Word) : v &&& 0x80000000#32 = 0 ↔ v.getMsbD 0 = false := by
  rw [getMsbD_of_lt _ (by decide), ← Bool.not_eq_true, ← not_iff_not, not_not]
  exact and_single_ne_zero v 31 (by decide) rfl

/-- After `k` shifts the loop counts the zeros from bit `k` on. -/
theorem cntlzw_loop_eq (v : Word) (fuel k : Nat) (inside : k + fuel ≤ 32) :
    cntlzw_loop fuel (v <<< k) (BitVec.ofNat 32 k) =
      BitVec.ofNat 32
        (k + ((List.range' k fuel).takeWhile fun i => !v.getMsbD i).length) := by
  induction fuel generalizing k with
  | zero => rfl
  | succ fuel ih =>
      have top : (v <<< k).getMsbD 0 = v.getMsbD k := by
        rw [BitVec.getMsbD_shiftLeft, Nat.zero_add]
      rw [cntlzw_loop, List.range'_succ, List.takeWhile_cons]
      by_cases set : v.getMsbD k = true
      · have stop : ¬ (v <<< k) &&& 0x80000000#32 = 0 := by
          rw [top_bit_clear, top, set]
          decide
        rw [if_neg stop, if_neg (by simp [set])]
        rfl
      · have clear : (v <<< k) &&& 0x80000000#32 = 0 := by
          rw [top_bit_clear, top]
          simpa using set
        have next : BitVec.ofNat 32 k + 1 = BitVec.ofNat 32 (k + 1) :=
          (BitVec.ofNat_add k 1).symm
        rw [if_pos clear, if_pos (by simpa using set), ← BitVec.shiftLeft_add, next,
          ih (k + 1) (by omega), List.length_cons, Nat.add_assoc, Nat.add_comm 1]

theorem ppc_cntlzw_eq (v : Word) : ppc_cntlzw v = BitVec.ofNat 32 (Arch.leadingZeros v) := by
  have count := cntlzw_loop_eq v 32 0 (by decide)
  rw [BitVec.shiftLeft_zero, Nat.zero_add, ← List.range_eq_range'] at count
  rw [ppc_cntlzw, Arch.leadingZeros]
  by_cases zero : v = 0
  · subst zero
    rw [if_pos rfl]
    decide
  · rw [if_neg zero]
    exact count

theorem int8_eq (v : Word) :
    (v.setWidth 8).signExtend 32 = Arch.ofMsb fun i => v.getMsbD (max i 24) :=
  Arch.eq_ofMsb fun _ hi => getMsbD_signExtend_low v (by decide) (by decide) hi

theorem int16_eq (v : Word) :
    (v.setWidth 16).signExtend 32 = Arch.ofMsb fun i => v.getMsbD (max i 16) :=
  Arch.eq_ofMsb fun _ hi => getMsbD_signExtend_low v (by decide) (by decide) hi

end Counting

section Products

theorem setWidth_ofInt (z : Int) : (BitVec.ofInt 64 z).setWidth 32 = BitVec.ofInt 32 z := by
  apply BitVec.eq_of_toNat_eq
  rw [BitVec.toNat_setWidth, BitVec.toNat_ofInt, BitVec.toNat_ofInt]
  omega

theorem ppc_mulhw_eq (a b : Word) :
    ppc_mulhw a b = BitVec.ofInt 32 (a.toInt * b.toInt / 2 ^ 32) := by
  have upper : a.toInt * b.toInt ≤ 2 ^ 62 := BitVec.toInt_mul_toInt_le
  have lower : -2 ^ 62 ≤ a.toInt * b.toInt := by
    have bound : -(2 ^ (32 * 2 - 2)) ≤ a.toInt * b.toInt := BitVec.le_toInt_mul_toInt
    exact bound
  have product : (a.signExtend 64 * b.signExtend 64).toInt = a.toInt * b.toInt := by
    rw [BitVec.signExtend, BitVec.signExtend, ← BitVec.ofInt_mul,
      BitVec.toInt_ofInt_eq_self (by decide)]
    · omega
    · omega
  rw [ppc_mulhw, BitVec.sshiftRight, setWidth_ofInt, product, Int.shiftRight_eq_div_pow]
  norm_cast

theorem ppc_mulhwu_eq (a b : Word) :
    ppc_mulhwu a b = BitVec.ofNat 32 (a.toNat * b.toNat / 2 ^ 32) := by
  have bound : a.toNat * b.toNat < 2 ^ 64 := by
    have product := Nat.mul_lt_mul'' a.isLt b.isLt
    omega
  have wideA : (a.setWidth 64).toNat = a.toNat := by
    rw [BitVec.toNat_setWidth]
    omega
  have wideB : (b.setWidth 64).toNat = b.toNat := by
    rw [BitVec.toNat_setWidth]
    omega
  apply BitVec.eq_of_toNat_eq
  rw [ppc_mulhwu, BitVec.toNat_setWidth, BitVec.toNat_ushiftRight, BitVec.toNat_mul, wideA,
    wideB, Nat.mod_eq_of_lt bound, Nat.shiftRight_eq_div_pow, BitVec.toNat_ofNat]

end Products

end SoaPort.Recomp
