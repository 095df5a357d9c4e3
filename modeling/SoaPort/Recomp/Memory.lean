import SoaPort.Recomp.Arch

namespace SoaPort.Recomp

open SoaPort.Lib

/-! The swapped host accesses of `cpu.h` are big-endian guest accesses. -/

variable {ρ : Type} (rt : Runtime ρ) (s : CpuState ρ)

theorem is_mmio_eq (ea : Word) : is_mmio ea = Arch.deviceSpace ea := by
  have top : (ea >>> 24).toNat = ea.toNat / 2 ^ 24 := by
    rw [BitVec.toNat_ushiftRight, Nat.shiftRight_eq_div_pow]
  simp only [is_mmio, Arch.deviceSpace, ← BitVec.toNat_inj, top, BitVec.toNat_ofNat,
    Bool.decide_or]

theorem is_gather_pipe_eq (ea : Word) : is_gather_pipe ea = Arch.gatherPipe ea := by
  have rounded : (ea &&& 0xFFFFFF00#32).toNat = ea.toNat / 2 ^ 8 * 2 ^ 8 := by
    have bound := ea.isLt
    have mask : ea >>> 8 <<< 8 = ea &&& 0xFFFFFF00#32 :=
      @BitVec.shiftLeft_ushiftRight 32 ea 8
    rw [← mask, BitVec.toNat_shiftLeft, BitVec.toNat_ushiftRight, Nat.shiftRight_eq_div_pow,
      Nat.shiftLeft_eq]
    omega
  have page : ea.toNat / 2 ^ 8 * 2 ^ 8 = 0xCC008000 ↔ ea.toNat / 2 ^ 8 = 0xCC0080 := by omega
  simp only [is_gather_pipe, Arch.gatherPipe, ← BitVec.toNat_inj, rounded, BitVec.toNat_ofNat]
  exact decide_eq_decide.mpr page

theorem device_of_gatherPipe {ea : Word} (pipe : Arch.gatherPipe ea = true) :
    Arch.deviceSpace ea = true := by
  simp only [Arch.gatherPipe, Arch.deviceSpace, decide_eq_true_eq] at pipe ⊢
  omega

theorem mem_ptr_eq (ea : Word) : mem_ptr ea = Arch.physical ea :=
  Nat.and_two_pow_sub_one_eq_mod ea.toNat 25

section Bytes

variable (mem : Nat → BitVec 8) (p : Nat)

theorem BSWAP16_toNat (x : BitVec 16) :
    (BSWAP16 x).toNat = x.toNat % 2 ^ 8 * 2 ^ 8 + x.toNat / 2 ^ 8 := by
  have bound := x.isLt
  simp only [BSWAP16, toNat_append_add, BitVec.extractLsb'_toNat, Nat.shiftRight_eq_div_pow]
  omega

theorem BSWAP32_toNat (x : BitVec 32) :
    (BSWAP32 x).toNat =
      x.toNat % 2 ^ 8 * 2 ^ 24 + x.toNat / 2 ^ 8 % 2 ^ 8 * 2 ^ 16 +
        x.toNat / 2 ^ 16 % 2 ^ 8 * 2 ^ 8 + x.toNat / 2 ^ 24 := by
  have bound := x.isLt
  simp only [BSWAP32, toNat_append_add, BitVec.extractLsb'_toNat, Nat.shiftRight_eq_div_pow]
  omega

theorem load16_eq : (BSWAP16 (memcpy_r16 mem p)).toNat = Arch.readBE mem p 2 := by
  have low := (mem p).isLt
  have high := (mem (p + 1)).isLt
  rw [BSWAP16_toNat, memcpy_r16, toNat_append_add]
  simp only [Arch.readBE, Nat.add_zero]
  omega

theorem load32_eq : (BSWAP32 (memcpy_r32 mem p)).toNat = Arch.readBE mem p 4 := by
  have b0 := (mem p).isLt
  have b1 := (mem (p + 1)).isLt
  have b2 := (mem (p + 2)).isLt
  have b3 := (mem (p + 3)).isLt
  rw [BSWAP32_toNat, memcpy_r32]
  simp only [toNat_append_add, Arch.readBE, Nat.add_zero]
  generalize (mem p).toNat = n0 at *
  generalize (mem (p + 1)).toNat = n1 at *
  generalize (mem (p + 2)).toNat = n2 at *
  generalize (mem (p + 3)).toNat = n3 at *
  have lane0 : (((n3 * 2 ^ 8 + n2) * 2 ^ 8 + n1) * 2 ^ 8 + n0) % 2 ^ 8 = n0 := by omega
  have lane1 : (((n3 * 2 ^ 8 + n2) * 2 ^ 8 + n1) * 2 ^ 8 + n0) / 2 ^ 8 % 2 ^ 8 = n1 := by omega
  have lane2 : (((n3 * 2 ^ 8 + n2) * 2 ^ 8 + n1) * 2 ^ 8 + n0) / 2 ^ 16 % 2 ^ 8 = n2 := by omega
  have lane3 : (((n3 * 2 ^ 8 + n2) * 2 ^ 8 + n1) * 2 ^ 8 + n0) / 2 ^ 24 = n3 := by omega
  rw [lane0, lane1, lane2, lane3]
  omega

/-- Byte `k` of a swapped word, counted from the least significant. -/
theorem BSWAP16_byte (v : BitVec 16) (k : Nat) (hk : k < 2) :
    (BSWAP16 v).extractLsb' (8 * k) 8 = BitVec.ofNat 8 (v.toNat / 2 ^ (8 - 8 * k)) := by
  rw [← Nat.shiftRight_eq_div_pow]
  change _ = v.extractLsb' (8 - 8 * k) 8
  apply BitVec.eq_of_getLsbD_eq
  intro i hi
  simp only [BSWAP16, BitVec.getLsbD_extractLsb', BitVec.getLsbD_append, hi, decide_true,
    Bool.true_and]
  interval_cases k <;> grind

theorem BSWAP32_byte (v : BitVec 32) (k : Nat) (hk : k < 4) :
    (BSWAP32 v).extractLsb' (8 * k) 8 = BitVec.ofNat 8 (v.toNat / 2 ^ (24 - 8 * k)) := by
  rw [← Nat.shiftRight_eq_div_pow]
  change _ = v.extractLsb' (24 - 8 * k) 8
  apply BitVec.eq_of_getLsbD_eq
  intro i hi
  simp only [BSWAP32, BitVec.getLsbD_extractLsb', BitVec.getLsbD_append, hi, decide_true,
    Bool.true_and]
  interval_cases k <;> grind

theorem store8_eq (v : BitVec 8) :
    Function.update mem p v = Arch.writeBE mem p 1 v.toNat := by
  funext a
  rw [Function.update_apply, Arch.writeBE]
  by_cases here : a = p
  · subst here
    rw [if_pos rfl, if_pos (by omega)]
    simp
  · rw [if_neg here, if_neg (by omega)]

theorem writeBE_at (n v k : Nat) {a : Nat} (hk : k < n) (here : a = p + k) :
    Arch.writeBE mem p n v a = BitVec.ofNat 8 (v / 2 ^ (8 * (n - 1 - k))) := by
  have distance : p + n - 1 - a = n - 1 - k := by omega
  rw [Arch.writeBE, if_pos (by omega), distance, Nat.pow_mul]

theorem writeBE_outside {n a : Nat} (v : Nat) (outside : a < p ∨ p + n ≤ a) :
    Arch.writeBE mem p n v a = mem a := by
  rw [Arch.writeBE, if_neg (by omega)]

/-- Only the low `n` bytes of the value are stored. -/
theorem writeBE_mod (n v : Nat) : Arch.writeBE mem p n (v % 256 ^ n) = Arch.writeBE mem p n v := by
  funext a
  by_cases inside : p ≤ a ∧ a < p + n
  · obtain ⟨k, here⟩ := Nat.exists_eq_add_of_le inside.1
    have hk : k < n := by omega
    have digits : 256 ^ n = 2 ^ (8 * (n - 1 - k)) * 256 ^ (k + 1) := by
      rw [Nat.pow_mul, ← Nat.pow_add]
      congr 1
      omega
    have byte : 2 ^ 8 ∣ 256 ^ (k + 1) := dvd_pow_self 256 (Nat.succ_ne_zero k)
    rw [writeBE_at mem p n _ k hk here, writeBE_at mem p n _ k hk here, digits,
      Nat.mod_mul_right_div_self]
    apply BitVec.eq_of_toNat_eq
    rw [BitVec.toNat_ofNat, BitVec.toNat_ofNat, Nat.mod_mod_of_dvd _ byte]
  · rw [writeBE_outside mem p _ (by omega), writeBE_outside mem p _ (by omega)]

theorem store16_eq (v : BitVec 16) :
    memcpy_w16 mem p (BSWAP16 v) = Arch.writeBE mem p 2 v.toNat := by
  have byte0 := BSWAP16_byte v 0 (by decide)
  have byte1 := BSWAP16_byte v 1 (by decide)
  funext a
  rw [memcpy_w16, Function.update_apply, Function.update_apply, byte0, byte1]
  split
  · next here => exact (writeBE_at mem p 2 v.toNat 1 (by decide) here).symm
  · split
    · next _ here => exact (writeBE_at mem p 2 v.toNat 0 (by decide) here).symm
    · exact (writeBE_outside mem p v.toNat (by omega)).symm

theorem store32_eq (v : BitVec 32) :
    memcpy_w32 mem p (BSWAP32 v) = Arch.writeBE mem p 4 v.toNat := by
  have byte0 := BSWAP32_byte v 0 (by decide)
  have byte1 := BSWAP32_byte v 1 (by decide)
  have byte2 := BSWAP32_byte v 2 (by decide)
  have byte3 := BSWAP32_byte v 3 (by decide)
  funext a
  rw [memcpy_w32, Function.update_apply, Function.update_apply, Function.update_apply,
    Function.update_apply, byte0, byte1, byte2, byte3]
  split
  · next here => exact (writeBE_at mem p 4 v.toNat 3 (by decide) here).symm
  · split
    · next _ here => exact (writeBE_at mem p 4 v.toNat 2 (by decide) here).symm
    · split
      · next _ _ here => exact (writeBE_at mem p 4 v.toNat 1 (by decide) here).symm
      · split
        · next _ _ _ here => exact (writeBE_at mem p 4 v.toNat 0 (by decide) here).symm
        · exact (writeBE_outside mem p v.toNat (by omega)).symm

end Bytes

section Accesses

theorem mem_r8_eq (ea : Word) :
    ((mem_r8 rt s ea).1.toNat, (mem_r8 rt s ea).2) = Arch.readByte rt s ea := by
  rw [mem_r8, Arch.readByte, is_mmio_eq, mem_ptr_eq]
  split
  · rfl
  · simp [Arch.readBE]

theorem mem_r16_eq (ea : Word) :
    ((mem_r16 rt s ea).1.toNat, (mem_r16 rt s ea).2) = Arch.readHalf rt s ea := by
  rw [mem_r16, Arch.readHalf, is_mmio_eq, mem_ptr_eq]
  split
  · rfl
  · rw [load16_eq]

theorem mem_r32_eq (ea : Word) :
    ((mem_r32 rt s ea).1.toNat, (mem_r32 rt s ea).2) = Arch.readWord rt s ea := by
  rw [mem_r32, Arch.readWord, is_mmio_eq, mem_ptr_eq]
  split
  · rfl
  · rw [load32_eq]

theorem mem_w8_eq (ea v : Word) :
    mem_w8 rt s ea (v.setWidth 8) = Arch.writeByte rt s ea v.toNat := by
  have wide : (v.setWidth 8).setWidth 64 = BitVec.ofNat 64 (v.toNat % 2 ^ 8) := by
    apply BitVec.eq_of_toNat_eq
    rw [BitVec.toNat_setWidth, BitVec.toNat_setWidth, BitVec.toNat_ofNat]
  have narrow : v.setWidth 8 = BitVec.ofNat 8 v.toNat := rfl
  have bytes : Arch.writeBE s.mem (Arch.physical ea) 1 (v.toNat % 2 ^ 8) = _ :=
    writeBE_mod s.mem (Arch.physical ea) 1 v.toNat
  rw [mem_w8, Arch.writeByte, is_mmio_eq, is_gather_pipe_eq, mem_ptr_eq, store8_eq, wide]
  by_cases pipe : Arch.gatherPipe ea = true
  · rw [if_pos (device_of_gatherPipe pipe), if_pos pipe, if_pos pipe]
  · rw [if_neg pipe, if_neg pipe, narrow, BitVec.toNat_ofNat, bytes]

theorem mem_w16_eq (ea v : Word) :
    mem_w16 rt s ea (v.setWidth 16) = Arch.writeHalf rt s ea v.toNat := by
  have wide : (v.setWidth 16).setWidth 64 = BitVec.ofNat 64 (v.toNat % 2 ^ 16) := by
    apply BitVec.eq_of_toNat_eq
    rw [BitVec.toNat_setWidth, BitVec.toNat_setWidth, BitVec.toNat_ofNat]
  have narrow : v.setWidth 16 = BitVec.ofNat 16 v.toNat := rfl
  have bytes : Arch.writeBE s.mem (Arch.physical ea) 2 (v.toNat % 2 ^ 16) = _ :=
    writeBE_mod s.mem (Arch.physical ea) 2 v.toNat
  rw [mem_w16, Arch.writeHalf, is_mmio_eq, is_gather_pipe_eq, mem_ptr_eq, store16_eq, wide]
  by_cases pipe : Arch.gatherPipe ea = true
  · rw [if_pos (device_of_gatherPipe pipe), if_pos pipe, if_pos pipe]
  · rw [if_neg pipe, if_neg pipe, narrow, BitVec.toNat_ofNat, bytes]

theorem mem_w32_eq (ea v : Word) : mem_w32 rt s ea v = Arch.writeWord rt s ea v.toNat := by
  have wide : v.setWidth 64 = BitVec.ofNat 64 (v.toNat % 2 ^ 32) := by
    apply BitVec.eq_of_toNat_eq
    rw [Nat.mod_eq_of_lt v.isLt, BitVec.toNat_setWidth, BitVec.toNat_ofNat]
  rw [mem_w32, Arch.writeWord, is_mmio_eq, is_gather_pipe_eq, mem_ptr_eq, store32_eq, wide]
  by_cases pipe : Arch.gatherPipe ea = true
  · rw [if_pos (device_of_gatherPipe pipe), if_pos pipe, if_pos pipe]
  · rw [if_neg pipe, if_neg pipe, BitVec.ofNat_toNat, BitVec.setWidth_eq]

end Accesses

end SoaPort.Recomp
