import Mathlib.Data.Int.ModEq
import Mathlib.Tactic
import SoaPort.Card.Format
import SoaPort.Card.Serial
import SoaPort.Lib.Bits

namespace SoaPort.Card

open SoaPort.Lib

/-! The runtime and the tool agree on the card's header. -/

section Sequence

theorem scramble_step_value (x : Int) :
    (if mask 64 x >>> (63 : Nat) ≠ 0 then mask 64 x - 2 ^ 64 else mask 64 x) =
      (BitVec.ofInt 64 x).toInt := by
  have low : 0 ≤ mask 64 x := Int.emod_nonneg _ (by norm_num)
  have high : mask 64 x < 2 ^ 64 := Int.emod_lt_of_pos _ (by norm_num)
  have top : mask 64 x >>> (63 : Nat) ≠ 0 ↔ 2 ^ 63 ≤ mask 64 x := by
    rw [Int.shiftRight_eq_div_pow]
    push_cast
    omega
  rw [BitVec.toInt_ofInt, Int.bmod_def]
  change _ = if mask 64 x < _ then mask 64 x else mask 64 x - _
  push_cast
  split <;> split <;> omega

/-- The C step, in wrapping 64 bits, is the unbounded one. -/
theorem card_scramble_step_toInt (rand : Int) :
    (card_scramble_step (BitVec.ofInt 64 rand)).toInt = scramble_step rand := by
  have sum : BitVec.ofInt 64 rand * 0x41C64E6D#64 + 12345#64 =
      BitVec.ofInt 64 (rand * 0x41C64E6D + 12345) := by
    rw [BitVec.ofInt_add, BitVec.ofInt_mul]
    rfl
  rw [card_scramble_step, sum, BitVec.toInt_sshiftRight, scramble_step, ← scramble_step_value]

theorem card_scramble_step_eq (rand : Int) :
    card_scramble_step (BitVec.ofInt 64 rand) = BitVec.ofInt 64 (scramble_step rand) := by
  rw [← card_scramble_step_toInt, BitVec.ofInt_toInt]

theorem and_mask (rand : Int) :
    BitVec.ofInt 64 rand &&& 0x7FFF#64 = BitVec.ofInt 64 (mask 15 rand) := by
  have small : mask 15 rand < 2 ^ 15 := Int.emod_lt_of_pos _ (by norm_num)
  have positive : 0 ≤ mask 15 rand := Int.emod_nonneg _ (by norm_num)
  have fold : (rand % 2 ^ 64) % 2 ^ 15 = mask 15 rand :=
    Int.emod_emod_of_dvd _ (by norm_num)
  apply BitVec.eq_of_toNat_eq
  rw [BitVec.toNat_and, BitVec.toNat_ofInt, BitVec.toNat_ofInt]
  change _ &&& (2 ^ 15 - 1) = _
  rw [Nat.and_two_pow_sub_one_eq_mod]
  push_cast
  omega

/-- The low byte of the state, as subtraction in a byte sees it. -/
theorem sub_low_byte (byte : Byte) (rand : Int) :
    byte - (BitVec.ofInt 64 rand).setWidth 8 = BitVec.ofInt 8 (byte.toNat + -1 * rand) := by
  have low : (BitVec.ofInt 64 rand).setWidth 8 = BitVec.ofInt 8 rand := by
    apply BitVec.eq_of_toNat_eq
    rw [BitVec.toNat_setWidth, BitVec.toNat_ofInt, BitVec.toNat_ofInt]
    push_cast
    omega
  rw [low, BitVec.ofInt_add, BitVec.ofInt_natCast, BitVec.ofNat_toNat, BitVec.setWidth_eq,
    neg_one_mul, BitVec.ofInt_neg, BitVec.sub_eq_add_neg]

theorem flash_id_loop_eq (h : Nat → Byte) (left i : Nat) (rand : Int) :
    flash_id_loop h left i (BitVec.ofInt 64 rand) =
      scramble_loop (-1) ((List.range' i left).map h) rand := by
  induction left generalizing i rand with
  | zero => rfl
  | succ left ih =>
      rw [flash_id_loop, List.range'_succ, List.map_cons, scramble_loop]
      rw [card_scramble_step_eq, card_scramble_step_eq, and_mask, ih, sub_low_byte]

theorem scramble_step_mask (rand : Int) : scramble_step (mask 64 rand) = scramble_step rand := by
  have same : mask 64 (mask 64 rand * 0x41C64E6D + 12345) =
      mask 64 (rand * 0x41C64E6D + 12345) := by
    rw [mask, mask, mask]
    exact Int.ModEq.add_right _ ((Int.mod_modEq rand _).mul_right _)
  rw [scramble_step, scramble_step, same]

/-- Only 64 bits of the format time matter. -/
theorem unscramble_mask (serial : List Byte) (format_time : Int) :
    unscramble serial (mask 64 format_time) = unscramble serial format_time := by
  cases serial with
  | nil => rfl
  | cons byte rest => simp only [unscramble, scramble_loop, scramble_step_mask]

theorem unscramble_scramble (flash_id : List Byte) (format_time : Int) :
    unscramble (scramble flash_id format_time) format_time = flash_id := by
  rw [unscramble, scramble]
  induction flash_id generalizing format_time with
  | nil => rfl
  | cons byte rest ih =>
      rw [scramble_loop, scramble_loop]
      simp only [ih]
      congr 1
      apply BitVec.eq_of_toNat_eq
      have bound := byte.isLt
      rw [BitVec.toNat_ofInt, BitVec.toNat_ofInt]
      push_cast
      omega

theorem scramble_length (sign : Int) (bytes : List Byte) (rand : Int) :
    (scramble_loop sign bytes rand).length = bytes.length := by
  induction bytes generalizing rand with
  | nil => rfl
  | cons byte rest ih => exact congrArg (· + 1) (ih _)

end Sequence

/-! The checksum pair. -/

section Checksum

theorem mask_bounds (bits : Nat) (x : Int) : 0 ≤ mask bits x ∧ mask bits x < 2 ^ bits :=
  ⟨Int.emod_nonneg _ (by positivity), Int.emod_lt_of_pos _ (by positivity)⟩

theorem ofInt_mask (x : Int) : BitVec.ofInt 16 (mask 16 x) = BitVec.ofInt 16 x := by
  apply BitVec.eq_of_toNat_eq
  rw [BitVec.toNat_ofInt, BitVec.toNat_ofInt, mask]
  push_cast
  rw [Int.emod_emod]

/-- A Python halfword and its complement, as 16 bits. -/
theorem ofInt_halfword (a b : Byte) :
    BitVec.ofInt 16 ((a.toNat : Int) * 256 + b.toNat) = a ++ b := by
  apply BitVec.eq_of_toNat_eq
  have high := a.isLt
  have low := b.isLt
  rw [BitVec.toNat_ofInt, toNat_append_add]
  push_cast
  omega

theorem ofInt_complement (x : Int) : BitVec.ofInt 16 (-x - 1) = ~~~BitVec.ofInt 16 x := by
  apply BitVec.eq_of_toNat_eq
  rw [BitVec.toNat_not, BitVec.toNat_ofInt, BitVec.toNat_ofInt]
  push_cast
  omega

/-- A 32-bit accumulator and one kept below 2^16, of one sum. -/
structure SameSum (s : BitVec 32) (t : Int) : Prop where
  low : s.setWidth 16 = BitVec.ofInt 16 t
  nonneg : 0 ≤ t
  bound : t < 2 ^ 16

theorem SameSum.add {s : BitVec 32} {t x : Int} (same : SameSum s t) :
    SameSum (s + (BitVec.ofInt 16 x).setWidth 32) (mask 16 (t + x)) where
  low := by
    have width : ((BitVec.ofInt 16 x).setWidth 32).setWidth 16 = BitVec.ofInt 16 x := by
      rw [BitVec.setWidth_setWidth_of_le _ (by norm_num), BitVec.setWidth_eq]
    rw [BitVec.setWidth_add _ _ (by norm_num), width, same.low, ofInt_mask, BitVec.ofInt_add]
  nonneg := (mask_bounds 16 _).1
  bound := (mask_bounds 16 _).2

theorem SameSum.folded {s : BitVec 32} {t : Int} (same : SameSum s t) :
    fold_ffff (s.setWidth 16) = BitVec.ofInt 16 (if t = 0xFFFF then 0 else t) := by
  have full : BitVec.ofInt 16 t = 0xFFFF#16 ↔ t = 0xFFFF := by
    rw [← BitVec.toNat_inj, BitVec.toNat_ofInt]
    change _ = 65535 ↔ _
    have low := same.nonneg
    have high := same.bound
    push_cast
    omega
  rw [fold_ffff, same.low]
  by_cases all : t = 0xFFFF
  · rw [if_pos (full.mpr all), if_pos all]
    rfl
  · rw [if_neg (mt full.mp all), if_neg all]

theorem checksum_bounds (data : List Byte) :
    (0 ≤ (checksum data).1 ∧ (checksum data).1 < 2 ^ 16) ∧
      0 ≤ (checksum data).2 ∧ (checksum data).2 < 2 ^ 16 := by
  have kept : ∀ (l : List Nat) (sums : Int × Int),
      (0 ≤ sums.1 ∧ sums.1 < 2 ^ 16) ∧ 0 ≤ sums.2 ∧ sums.2 < 2 ^ 16 →
      (0 ≤ (l.foldl (checksum_add data) sums).1 ∧
        (l.foldl (checksum_add data) sums).1 < 2 ^ 16) ∧
      0 ≤ (l.foldl (checksum_add data) sums).2 ∧
        (l.foldl (checksum_add data) sums).2 < 2 ^ 16 := by
    intro l
    induction l with
    | nil => exact fun sums bounds => bounds
    | cons k l ih => exact fun sums _ => ih _ ⟨mask_bounds 16 _, mask_bounds 16 _⟩
  have bounds := kept (List.range (data.length / 2)) (0, 0) (by norm_num)
  simp only [checksum]
  constructor <;> split <;> omega

theorem card_checksum_eq (p : Nat → Byte) (data : List Byte) {n : Nat}
    (length : data.length = 2 * n) (bytes : ∀ i < 2 * n, data.getD i 0#8 = p i) :
    card_checksum p (2 * n) =
      (BitVec.ofInt 16 (checksum data).1, BitVec.ofInt 16 (checksum data).2) := by
  have loop : ∀ m ≤ n,
      SameSum ((List.range m).foldl (card_checksum_add p) (0#32, 0#32)).1
          ((List.range m).foldl (checksum_add data) (0, 0)).1 ∧
        SameSum ((List.range m).foldl (card_checksum_add p) (0#32, 0#32)).2
          ((List.range m).foldl (checksum_add data) (0, 0)).2 := by
    intro m
    induction m with
    | zero => exact fun _ => ⟨⟨rfl, by norm_num, by norm_num⟩, ⟨rfl, by norm_num, by norm_num⟩⟩
    | succ m ih =>
        intro inside
        obtain ⟨sum, inv⟩ := ih (by omega)
        have word : halfword p (2 * m) = BitVec.ofInt 16
            (((data.getD (2 * m) 0#8).toNat : Int) * 256 +
              (data.getD (2 * m + 1) 0#8).toNat) := by
          rw [ofInt_halfword, bytes _ (by omega), bytes _ (by omega), halfword]
        rw [List.range_succ, List.foldl_append, List.foldl_append]
        simp only [List.foldl_cons, List.foldl_nil, card_checksum_add, checksum_add]
        rw [word, ← ofInt_complement, ← ofInt_mask (-_ - 1)]
        exact ⟨sum.add, inv.add⟩
  obtain ⟨sum, inv⟩ := loop n (Nat.le_refl n)
  have halves : (2 * n + 1) / 2 = n := by omega
  have count : data.length / 2 = n := by omega
  rw [card_checksum, checksum, halves, count]
  exact Prod.ext sum.folded inv.folded

end Checksum

/-! The header. -/

section Header

/-- The first `n` bytes of an array. -/
def bytes_of (card : Nat → Byte) (n : Nat) : List Byte := (List.range n).map card

variable (card : Nat → Byte)

theorem slice_bytes_of {at_ n m : Nat} (inside : at_ + n ≤ m) :
    slice (bytes_of card m) at_ n = (List.range' at_ n).map card := by
  apply List.ext_getElem?
  intro i
  rw [slice_getElem?, bytes_of, List.getElem?_map, List.getElem?_map]
  split
  · rw [List.getElem?_range (by omega), List.getElem?_range' (by omega), Nat.one_mul]
  · rw [List.getElem?_eq_none (by simp; omega), Option.map_none]

theorem slice_all (m : Nat) : slice (bytes_of card m) 0 m = bytes_of card m := by
  rw [slice_bytes_of card (Nat.le_of_eq (Nat.zero_add m)), bytes_of, List.range_eq_range']

theorem u16_eq {at_ m : Nat} (inside : at_ + 2 ≤ m) :
    BitVec.ofInt 16 (u16 (bytes_of card m) at_) = halfword card at_ ∧
      0 ≤ u16 (bytes_of card m) at_ ∧ u16 (bytes_of card m) at_ < 2 ^ 16 := by
  have value : u16 (bytes_of card m) at_ = (card at_).toNat * 256 + (card (at_ + 1)).toNat := by
    rw [u16, slice_bytes_of card inside, List.range'_succ, List.range'_succ]
    simp [of_be]
  have high := (card at_).isLt
  have low := (card (at_ + 1)).isLt
  rw [value, ofInt_halfword]
  exact ⟨rfl, by omega, by omega⟩

/-- A stored halfword is the computed one, in 16 bits and in unbounded integers. -/
theorem halfword_eq_iff {at_ m : Nat} (inside : at_ + 2 ≤ m) {x : Int} (low : 0 ≤ x)
    (high : x < 2 ^ 16) :
    halfword card at_ = BitVec.ofInt 16 x ↔ u16 (bytes_of card m) at_ = x := by
  obtain ⟨value, nonneg, bound⟩ := u16_eq card inside
  rw [← value, ← BitVec.toNat_inj, BitVec.toNat_ofInt, BitVec.toNat_ofInt]
  push_cast
  omega

theorem format_time_eq :
    BitVec.ofInt 64 (of_be ((List.range' 12 8).map card)) =
      card 12 ++ card 13 ++ card 14 ++ card 15 ++ card 16 ++ card 17 ++ card 18 ++ card 19 := by
  apply BitVec.eq_of_toNat_eq
  rw [BitVec.ofInt_natCast, BitVec.toNat_ofNat]
  simp only [toNat_append_add, List.range'_succ, List.range'_zero, List.map_cons, List.map_nil,
    of_be, List.foldl_cons, List.foldl_nil]
  rw [Nat.mod_eq_of_lt]
  · ring
  · have bounds := fun i => (card i).isLt
    have b0 := bounds 12
    have b1 := bounds 13
    have b2 := bounds 14
    have b3 := bounds 15
    have b4 := bounds 16
    have b5 := bounds 17
    have b6 := bounds 18
    have b7 := bounds 19
    omega

abbrev read_header : Header := parse_header (bytes_of card BLOCK_BYTES)

theorem header_serial : (read_header card).serial = (List.range' 0 12).map card := by
  simp only [read_header, parse_header, slice_all]
  exact slice_bytes_of card (by norm_num [BLOCK_BYTES])

theorem header_format_time :
    (read_header card).format_time = of_be ((List.range' 12 8).map card) := by
  simp only [read_header, parse_header, slice_all]
  rw [slice_bytes_of card (by norm_num [BLOCK_BYTES])]

theorem header_stored : (read_header card).stored =
    (u16 (bytes_of card BLOCK_BYTES) 508, u16 (bytes_of card BLOCK_BYTES) 510) := by
  simp only [read_header, parse_header, slice_all]

theorem header_computed : (read_header card).computed = checksum (bytes_of card 508) := by
  simp only [read_header, parse_header, slice_all]
  rw [ID_CHECK_BYTES, slice_bytes_of card (by norm_num [BLOCK_BYTES]), bytes_of, List.range_eq_range']

theorem card_checksum_header : card_checksum card 508 =
    (BitVec.ofInt 16 (checksum (bytes_of card 508)).1,
      BitVec.ofInt 16 (checksum (bytes_of card 508)).2) := by
  have length : (bytes_of card 508).length = 2 * 254 := by
    rw [bytes_of, List.length_map, List.length_range]
  apply card_checksum_eq card (bytes_of card 508) length
  intro i hi
  rw [List.getD_eq_getElem?_getD, bytes_of, List.getElem?_map, List.getElem?_range hi]
  rfl

theorem checksum_ok_iff : (read_header card).checksum_ok = true ↔
    halfword card 508 = BitVec.ofInt 16 (checksum (bytes_of card 508)).1 ∧
      halfword card 510 = BitVec.ofInt 16 (checksum (bytes_of card 508)).2 := by
  obtain ⟨⟨low1, high1⟩, low2, high2⟩ := checksum_bounds (bytes_of card 508)
  have first : 508 + 2 ≤ BLOCK_BYTES := by norm_num [BLOCK_BYTES]
  have second : 510 + 2 ≤ BLOCK_BYTES := by norm_num [BLOCK_BYTES]
  have sums := halfword_eq_iff card first low1 high1
  have inverses := halfword_eq_iff card second low2 high2
  rw [sums, inverses, Header.checksum_ok, decide_eq_true_iff, header_stored, header_computed]
  exact Prod.ext_iff

theorem header_flash_id : flash_id_loop card 12 0
    (card 12 ++ card 13 ++ card 14 ++ card 15 ++ card 16 ++ card 17 ++ card 18 ++ card 19) =
      unscramble (read_header card).serial (read_header card).format_time := by
  rw [header_serial, header_format_time, ← format_time_eq, flash_id_loop_eq, unscramble]

/-- On any bytes whatever, the runtime and the tool agree on whether the header
validates and on the flash ID it gives. -/
theorem flash_id_agrees : card_flash_id card = (read_header card).flash_id := by
  have valid := checksum_ok_iff card
  rw [card_flash_id, card_checksum_header, Header.flash_id]
  simp only [header_flash_id]
  by_cases sum : halfword card 508 = BitVec.ofInt 16 (checksum (bytes_of card 508)).1
  · by_cases inv : halfword card 510 = BitVec.ofInt 16 (checksum (bytes_of card 508)).2
    · rw [if_neg (not_not.mpr sum), if_neg (not_not.mpr inv), if_pos (valid.mpr ⟨sum, inv⟩)]
    · rw [if_neg (not_not.mpr sum), if_pos inv, if_neg fun both => inv (valid.mp both).2]
  · rw [if_pos sum, if_neg fun both => sum (valid.mp both).1]

end Header

/-! The block the tool writes. -/

section Block

theorem to_bytes_spec {size : Nat} {x : Int} {bytes : List Byte} (fits : to_bytes size x = some bytes) :
    bytes.length = size ∧ (of_be bytes : Int) = x := by
  rw [to_bytes] at fits
  split at fits
  · next range =>
      obtain ⟨low, high⟩ := range
      rw [Option.some.injEq] at fits
      rw [← fits, to_be_length, of_be_to_be (by zify; rw [Int.toNat_of_nonneg low]; exact high)]
      exact ⟨rfl, Int.toNat_of_nonneg low⟩
  · contradiction

theorem to_bytes_fits {size : Nat} {x : Int} (low : 0 ≤ x) (high : x < 256 ^ size) :
    to_bytes size x = some (to_be size x.toNat) :=
  if_pos ⟨low, high⟩

/-- A field written into a block of `n` bytes. -/
structure Wrote (n at_ : Nat) (field before after : List Byte) : Prop where
  length : after.length = n
  inside : slice after at_ field.length = field
  apart : ∀ {a m : Nat}, a + m ≤ at_ ∨ at_ + field.length ≤ a → slice after a m = slice before a m

theorem wrote_splice {n at_ : Nat} {field before : List Byte} (length : before.length = n)
    (room : at_ + field.length ≤ n) : Wrote n at_ field before (splice before at_ field) where
  length := (length_splice (length ▸ room)).trans length
  inside := slice_splice_same (length ▸ room)
  apart := fun away => slice_splice_apart (length ▸ room) away

/-- The fields of an ID block that its reading back depends on. -/
structure Written (flash_id : List Byte) (format_time : Int) (block : List Byte) : Prop where
  length : block.length = BLOCK_BYTES
  flash_id_length : flash_id.length = 12
  serial : slice block 0 12 = scramble flash_id format_time
  format_time : (of_be (slice block 12 8) : Int) = mask 64 format_time
  sum : u16 block 508 = (checksum (slice block 0 ID_CHECK_BYTES)).1
  inverse : u16 block 510 = (checksum (slice block 0 ID_CHECK_BYTES)).2

theorem id_block_written {geom : Geometry} {flash_id block : List Byte}
    {format_time encode sram_bias sram_language vi_select : Int}
    (made : id_block geom flash_id format_time encode sram_bias sram_language vi_select =
      some block) : Written flash_id format_time block := by
  rw [id_block] at made
  split at made
  · contradiction
  next twelve =>
  rw [not_not] at twelve
  simp only [Option.bind_eq_bind, Option.bind_eq_some_iff, Option.pure_def, Option.some.injEq]
    at made
  obtain ⟨time, time_fits, bias, bias_fits, language, language_fits, vi, vi_fits, device,
    device_fits, size, size_fits, code, code_fits, total, total_fits, inverse, inverse_fits,
    whole⟩ := made
  have serial_length : (scramble flash_id format_time).length = 12 := by
    rw [scramble, scramble_length, twelve]
  obtain ⟨time_length, time_value⟩ := to_bytes_spec time_fits
  obtain ⟨bias_length, -⟩ := to_bytes_spec bias_fits
  obtain ⟨language_length, -⟩ := to_bytes_spec language_fits
  obtain ⟨vi_length, -⟩ := to_bytes_spec vi_fits
  obtain ⟨device_length, -⟩ := to_bytes_spec device_fits
  obtain ⟨size_length, -⟩ := to_bytes_spec size_fits
  obtain ⟨code_length, -⟩ := to_bytes_spec code_fits
  obtain ⟨total_length, total_value⟩ := to_bytes_spec total_fits
  obtain ⟨inverse_length, inverse_value⟩ := to_bytes_spec inverse_fits
  have start : (List.replicate BLOCK_BYTES 0xFF#8).length = BLOCK_BYTES := List.length_replicate
  have w0 := @wrote_splice _ 0 (scramble flash_id format_time) _ start
    (by rw [serial_length]; norm_num [BLOCK_BYTES])
  generalize splice (List.replicate BLOCK_BYTES 0xFF#8) 0 (scramble flash_id format_time) = b0 at *
  have w1 := @wrote_splice _ 12 time _ w0.length
    (by rw [time_length]; norm_num [BLOCK_BYTES])
  generalize splice b0 12 time = b1 at *
  have w2 := @wrote_splice _ 20 bias _ w1.length
    (by rw [bias_length]; norm_num [BLOCK_BYTES])
  generalize splice b1 20 bias = b2 at *
  have w3 := @wrote_splice _ 24 language _ w2.length
    (by rw [language_length]; norm_num [BLOCK_BYTES])
  generalize splice b2 24 language = b3 at *
  have w4 := @wrote_splice _ 28 vi _ w3.length
    (by rw [vi_length]; norm_num [BLOCK_BYTES])
  generalize splice b3 28 vi = b4 at *
  have w5 := @wrote_splice _ 32 device _ w4.length
    (by rw [device_length]; norm_num [BLOCK_BYTES])
  generalize splice b4 32 device = b5 at *
  have w6 := @wrote_splice _ 34 size _ w5.length
    (by rw [size_length]; norm_num [BLOCK_BYTES])
  generalize splice b5 34 size = b6 at *
  have w7 := @wrote_splice _ 36 code _ w6.length
    (by rw [code_length]; norm_num [BLOCK_BYTES])
  generalize splice b6 36 code = b7 at *
  have w8 := @wrote_splice _ 508 total _ w7.length
    (by rw [total_length]; norm_num [BLOCK_BYTES])
  generalize splice b7 508 total = b8 at *
  have w9 := @wrote_splice _ 510 inverse _ w8.length
    (by rw [inverse_length]; norm_num [BLOCK_BYTES])
  rw [whole] at w9
  -- nothing after the format time touches the first twenty bytes
  have front : ∀ {a m : Nat}, a + m ≤ 20 → slice block a m = slice b1 a m := by
    intro a m small
    rw [w9.apart (.inl (by omega)), w8.apart (.inl (by omega)), w7.apart (.inl (by omega)),
      w6.apart (.inl (by omega)), w5.apart (.inl (by omega)), w4.apart (.inl (by omega)),
      w3.apart (.inl (by omega)), w2.apart (.inl (by omega))]
  have span : slice block 0 ID_CHECK_BYTES = slice b7 0 ID_CHECK_BYTES := by
    rw [w9.apart (.inl (by norm_num [ID_CHECK_BYTES])),
      w8.apart (.inl (by norm_num [ID_CHECK_BYTES]))]
  have serial := w0.inside
  have seed := w1.inside
  have sum := w8.inside
  have inv := w9.inside
  rw [serial_length] at serial
  rw [time_length] at seed
  rw [total_length] at sum
  rw [inverse_length] at inv
  exact
    { length := w9.length
      flash_id_length := twelve
      serial := by
        rw [front (by norm_num), w1.apart (.inl (by norm_num)), serial]
      format_time := by
        rw [front (by norm_num), seed, time_value]
      sum := by
        rw [span, ← total_value, u16, w9.apart (.inl (by norm_num)), sum]
      inverse := by
        rw [span, ← inverse_value, u16, inv] }

/-- The tool raises only for an ID of another length or a field of more than 16 bits. -/
theorem id_block_made {geom : Geometry} {flash_id : List Byte} {encode : Int}
    (twelve : flash_id.length = 12) (size_low : 0 ≤ geom.size_mbit)
    (size_high : geom.size_mbit < 2 ^ 16) (encode_low : 0 ≤ encode) (encode_high : encode < 2 ^ 16)
    (format_time sram_bias sram_language vi_select : Int) :
    ∃ block, id_block geom flash_id format_time encode sram_bias sram_language vi_select =
      some block := by
  have time := mask_bounds 64 format_time
  have bias := mask_bounds 32 sram_bias
  have language := mask_bounds 32 sram_language
  have vi := mask_bounds 16 vi_select
  have wide : (2 : Int) ^ 16 ≤ 256 ^ 4 := by norm_num
  rw [id_block, if_neg (not_not.mpr twelve), to_bytes_fits time.1 time.2,
    to_bytes_fits bias.1 bias.2, to_bytes_fits language.1 language.2,
    to_bytes_fits vi.1 (lt_of_lt_of_le vi.2 wide), to_bytes_fits (by norm_num) (by norm_num),
    to_bytes_fits size_low size_high, to_bytes_fits encode_low encode_high]
  simp only [Option.bind_eq_bind, Option.bind_some]
  obtain ⟨sum, inverse⟩ := checksum_bounds _
  rw [to_bytes_fits sum.1 sum.2, to_bytes_fits inverse.1 inverse.2]
  exact ⟨_, rfl⟩

theorem Written.flash_id {flash_id block : List Byte} {format_time : Int}
    (written : Written flash_id format_time block) :
    (parse_header block).flash_id = some flash_id := by
  have whole : slice block 0 BLOCK_BYTES = block := by
    rw [slice, List.drop_zero, ← written.length, List.take_length]
  have ok : (parse_header block).checksum_ok = true := by
    rw [Header.checksum_ok, decide_eq_true_iff]
    simp only [parse_header, whole]
    exact Prod.ext written.sum written.inverse
  rw [Header.flash_id, if_pos ok]
  simp only [parse_header, whole]
  rw [written.serial, written.format_time, unscramble_mask, unscramble_scramble]

end Block

/-- The block `id_block` writes gives back its flash ID, to the runtime whatever
else is on the card and to the tool; and on any bytes whatever the two agree. -/
theorem flash_id_round_trip :
    (∀ (geom : Geometry) (flash_id block : List Byte)
        (format_time encode sram_bias sram_language vi_select : Int),
      id_block geom flash_id format_time encode sram_bias sram_language vi_select = some block →
      (∀ card : Nat → Byte, bytes_of card BLOCK_BYTES = block →
        card_flash_id card = some flash_id) ∧
      (parse_header block).flash_id = some flash_id ∧
      unscramble (scramble flash_id format_time) format_time = flash_id) ∧
      ∀ card : Nat → Byte,
        card_flash_id card = (parse_header (bytes_of card BLOCK_BYTES)).flash_id := by
  constructor
  · intro geom flash_id block format_time encode sram_bias sram_language vi_select made
    have written := id_block_written made
    refine ⟨?_, written.flash_id, unscramble_scramble flash_id format_time⟩
    intro card same
    rw [flash_id_agrees, read_header, same, written.flash_id]
  · exact flash_id_agrees

/-- The runtime's own serial number, on the card the tool formats by default. -/
def CARD_FLASH_ID : List Byte :=
  [0x53#8, 0x4F#8, 0x41#8, 0x50#8, 0x4F#8, 0x52#8, 0x54#8, 0#8, 0#8, 0#8, 0#8, 0x01#8]

theorem flash_id_round_trip_default :
    ∃ block, id_block ⟨4, 0x2000⟩ CARD_FLASH_ID (3600 * 40500000) 0 0 0 0 = some block ∧
      card_flash_id (fun i => block.getD i 0xFF#8) = some CARD_FLASH_ID := by
  obtain ⟨block, is_block⟩ := @id_block_made ⟨4, 0x2000⟩ CARD_FLASH_ID 0 rfl (by norm_num)
    (by norm_num) (by norm_num) (by norm_num) (3600 * 40500000) 0 0 0
  refine ⟨block, is_block, (flash_id_round_trip.1 _ _ _ _ _ _ _ _ is_block).1 _ ?_⟩
  rw [bytes_of, ← (id_block_written is_block).length]
  apply List.ext_getElem?
  intro i
  rw [List.getElem?_map]
  rcases Nat.lt_or_ge i block.length with inside | outside
  · rw [List.getElem?_range inside, Option.map_some, List.getD_eq_getElem?_getD,
      List.getElem?_eq_getElem inside, Option.getD_some]
  · rw [List.getElem?_eq_none (by simpa using outside), Option.map_none,
      List.getElem?_eq_none outside]

end SoaPort.Card
