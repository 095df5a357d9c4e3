import SoaPort.Sound.Dspadpcm
import SoaPort.Sound.Voice

namespace SoaPort.Sound

open SoaPort.Lib

/-! The mixer's decoder against the frame decoder, on the same bytes. -/

section Sum

variable (pred_scale n : Nat) (c1 c2 yn1 yn2 : Int)

def adpcm_nibble : Int :=
  if n ≥ 8 then (n : Int) - 16 else n

/-- The prediction and the scaled nibble, before they are rounded. -/
def unrounded : Int :=
  2 ^ (pred_scale &&& 15) * adpcm_nibble n * 2048 + c1 * yn1 + c2 * yn2

/-- The sum stays in 32 bits, before and after the rounding constant. -/
def SumFits : Prop :=
  -2 ^ 31 ≤ unrounded pred_scale n c1 c2 yn1 yn2 ∧
    unrounded pred_scale n c1 c2 yn1 yn2 + 1024 < 2 ^ 31

instance : Decidable (SumFits pred_scale n c1 c2 yn1 yn2) :=
  inferInstanceAs (Decidable (_ ∧ _))

theorem scale_le : (2 : Int) ^ (pred_scale &&& 15) ≤ 2 ^ 15 :=
  pow_le_pow_right₀ (by norm_num) Nat.and_le_right

variable {n}

theorem adpcm_nibble_bounds (nibble : n < 16) :
    -8 ≤ adpcm_nibble n ∧ adpcm_nibble n ≤ 7 := by
  rw [adpcm_nibble]
  split <;> omega

theorem scaled_bounds (nibble : n < 16) :
    -2 ^ 18 ≤ 2 ^ (pred_scale &&& 15) * adpcm_nibble n ∧
      2 ^ (pred_scale &&& 15) * adpcm_nibble n < 2 ^ 18 := by
  obtain ⟨low, high⟩ := adpcm_nibble_bounds nibble
  have positive : (0 : Int) < 2 ^ (pred_scale &&& 15) := by positivity
  have bound := scale_le pred_scale
  constructor <;> nlinarith

variable {c1 c2 yn1 yn2}

/-- A product of two halfwords fits, though two such products may not. -/
theorem product_bounds {a b : Int} (ha : Fits 16 a) (hb : Fits 16 b) :
    -2 ^ 30 + 2 ^ 15 ≤ a * b ∧ a * b ≤ 2 ^ 30 := by
  obtain ⟨a_low, a_high⟩ := ha
  obtain ⟨b_low, b_high⟩ := hb
  norm_num at a_low a_high b_low b_high ⊢
  constructor <;> nlinarith

variable (hc1 : Fits 16 c1) (hc2 : Fits 16 c2) (hy1 : Fits 16 yn1) (hy2 : Fits 16 yn2)

include hc1 hc2 hy1 hy2

/-- Only the last two additions can overflow. -/
theorem adpcm_sum_eq (nibble : n < 16) :
    adpcm_sum pred_scale n c1 c2 yn1 yn2 =
      (int32 (unrounded pred_scale n c1 c2 yn1 yn2) >>= fun sum =>
        int32 (sum + 1024) >>= fun sum => pure (sum >>> (11 : Nat))) := by
  obtain ⟨low, high⟩ := scaled_bounds pred_scale nibble
  obtain ⟨first_low, first_high⟩ := product_bounds hc1 hy1
  obtain ⟨second_low, second_high⟩ := product_bounds hc2 hy2
  have nib : (if n ≥ 8 then (n : Int) - 16 else n) = adpcm_nibble n := rfl
  simp only [adpcm_sum, nib]
  rw [int32_eq (by omega) (by omega), pure_bind, int32_eq (by omega) (by omega), pure_bind,
    int32_eq (by omega) (by omega), pure_bind, int32_eq (by omega) (by omega), pure_bind,
    int32_eq (by omega) (by omega), pure_bind]
  rfl

theorem adpcm_sum_of_fits (nibble : n < 16)
    (fits : SumFits pred_scale n c1 c2 yn1 yn2) :
    adpcm_sum pred_scale n c1 c2 yn1 yn2 =
      pure ((unrounded pred_scale n c1 c2 yn1 yn2 + 1024) >>> (11 : Nat)) := by
  obtain ⟨low, high⟩ := fits
  rw [adpcm_sum_eq pred_scale hc1 hc2 hy1 hy2 nibble, int32_eq low (by omega), pure_bind,
    int32_eq (by omega) high, pure_bind]

theorem adpcm_sum_clean_iff (nibble : n < 16) :
    (adpcm_sum pred_scale n c1 c2 yn1 yn2).overflowed = false ↔
      SumFits pred_scale n c1 c2 yn1 yn2 := by
  constructor
  · intro clean
    rw [adpcm_sum_eq pred_scale hc1 hc2 hy1 hy2 nibble, Ran.bind_clean_iff,
      int32_clean_iff] at clean
    obtain ⟨⟨low, high⟩, rounded⟩ := clean
    rw [int32_eq low high, Ran.val_pure, Ran.bind_clean_iff, int32_clean_iff] at rounded
    exact ⟨low, rounded.1.2⟩
  · intro fits
    rw [adpcm_sum_of_fits pred_scale hc1 hc2 hy1 hy2 nibble fits, Ran.overflowed_pure]

end Sum

theorem clamp16_toInt (x : Int) :
    (clamp16 x).toInt = if x > 32767 then 32767 else if x < -32768 then -32768 else x := by
  rw [clamp16, BitVec.toInt_ofInt]
  split
  · rw [if_neg (by omega), Int.bmod_eq_of_le (by norm_num) (by norm_num)]
  · split
    · rw [Int.bmod_eq_of_le (by norm_num) (by norm_num)]
    · rw [Int.bmod_eq_of_le (by norm_num; omega) (by norm_num; omega)]

theorem decode_sample_eq (coefs : Nat → Int) (first n : Nat) (hist1 hist2 : Int) :
    decode_sample coefs first n hist1 hist2 =
      (clamp16 ((unrounded first n (coefs (2 * ((first >>> 4) &&& 7)))
        (coefs (2 * ((first >>> 4) &&& 7) + 1)) hist1 hist2 + 1024) >>> (11 : Nat))).toInt := by
  rw [clamp16_toInt, decode_sample, unrounded, adpcm_nibble]
  congr 3 <;> ring_nf

/-! A sample's code: its frame's first byte and its nibble. -/

abbrev Code := Nat × Nat

def code_at (byte : Nat → BitVec 8) (k : Nat) : Code :=
  ((byte (8 * (k / 14))).toNat,
    frame_nibble (fun i => byte (8 * (k / 14) + i)) (k % 14))

def Decoding.step (coefs : Nat → Int) (d : Decoding) (c : Code) : Decoding :=
  d.append (decode_sample coefs c.1 c.2 d.hist1 d.hist2)

def Decoding.run (coefs : Nat → Int) (d : Decoding) (codes : List Code) : Decoding :=
  codes.foldl (Decoding.step coefs) d

/-- Along the exact decoding of `codes`, every sum stays in 32 bits. -/
def SumsFit (coefs : Nat → Int) : Decoding → List Code → Prop
  | _, [] => True
  | d, c :: codes =>
      SumFits c.1 c.2 (coefs (2 * ((c.1 >>> 4) &&& 7))) (coefs (2 * ((c.1 >>> 4) &&& 7) + 1))
        d.hist1 d.hist2 ∧ SumsFit coefs (d.step coefs c) codes

instance decidable_sums_fit (coefs : Nat → Int) :
    (d : Decoding) → (codes : List Code) → Decidable (SumsFit coefs d codes)
  | _, [] => inferInstanceAs (Decidable True)
  | d, c :: codes =>
      have := decidable_sums_fit coefs (d.step coefs c) codes
      inferInstanceAs (Decidable (_ ∧ _))

section Frames

variable (coefs : Nat → Int) (want : Nat)

@[simp] theorem length_step (d : Decoding) (c : Code) :
    (d.step coefs c).out.length = d.out.length + 1 := by
  simp [Decoding.step, Decoding.append]

theorem length_run (d : Decoding) (codes : List Code) :
    (d.run coefs codes).out.length = d.out.length + codes.length := by
  induction codes generalizing d with
  | nil => rfl
  | cons c codes ih =>
      change ((d.step coefs c).run coefs codes).out.length = _
      rw [ih, length_step, List.length_cons]
      omega

/-- The codes of one frame from `i` on. -/
def frame_codes (frame : Nat → BitVec 8) (i left : Nat) : List Code :=
  (List.range' i left).map (fun i => ((frame 0).toNat, frame_nibble frame i))

theorem decode_frame_eq (frame : Nat → BitVec 8) (left i : Nat) (d : Decoding)
    (room : d.out.length < want) :
    decode_frame coefs want frame left i d =
      d.run coefs ((frame_codes frame i left).take (want - d.out.length)) := by
  induction left generalizing i d with
  | zero => simp [decode_frame, frame_codes, Decoding.run]
  | succ left ih =>
      let c : Code := ((frame 0).toNat, frame_nibble frame i)
      have codes : frame_codes frame i (left + 1) = c :: frame_codes frame (i + 1) left := by
        simp [frame_codes, List.range'_succ, c]
      have step : decode_frame coefs want frame (left + 1) i d =
          if want ≤ (d.step coefs c).out.length then d.step coefs c
          else decode_frame coefs want frame left (i + 1) (d.step coefs c) := rfl
      obtain ⟨more, count⟩ := Nat.exists_eq_add_of_lt room
      have taken : want - d.out.length = more + 1 := by omega
      rw [step, codes, taken, List.take_succ_cons, length_step]
      change _ = (d.step coefs c).run coefs ((frame_codes frame (i + 1) left).take more)
      split
      · have none_left : more = 0 := by omega
        rw [none_left, List.take_zero]
        rfl
      · have rest : more = want - (d.step coefs c).out.length := by
          rw [length_step]
          omega
        rw [ih (i + 1) (d.step coefs c) (by rw [length_step]; omega), rest]

/-- The codes of every whole frame. -/
def data_codes : List (BitVec 8) → List Code
  | b0 :: b1 :: b2 :: b3 :: b4 :: b5 :: b6 :: b7 :: data =>
      frame_codes [b0, b1, b2, b3, b4, b5, b6, b7].getI 0 14 ++ data_codes data
  | _ => []

theorem decode_frames_eq (data : List (BitVec 8)) (d : Decoding) :
    decode_frames coefs want data d =
      d.run coefs ((data_codes data).take (want - d.out.length)) := by
  induction data, d using decode_frames.induct coefs want with
  | case1 d b0 b1 b2 b3 b4 b5 b6 b7 data room ih =>
      rw [decode_frames, if_pos room, ih, decode_frame_eq coefs want _ _ _ _ room, length_run,
        data_codes, List.take_append, Decoding.run, Decoding.run, Decoding.run,
        List.foldl_append]
      congr 2
      simp
      omega
  | case2 d b0 b1 b2 b3 b4 b5 b6 b7 data full =>
      rw [decode_frames, if_neg full, Nat.sub_eq_zero_of_le (by omega), List.take_zero]
      rfl
  | case3 data d short =>
      rw [decode_frames, data_codes, List.take_nil]
      · rfl
      · exact short
      · exact short

theorem frame_codes_getElem? (frame : Nat → BitVec 8) {k left : Nat} (inside : k < left) :
    (frame_codes frame 0 left)[k]? = some ((frame 0).toNat, frame_nibble frame k) := by
  rw [frame_codes, List.getElem?_map, List.getElem?_range' inside]
  simp

theorem length_frame_codes (frame : Nat → BitVec 8) (i left : Nat) :
    (frame_codes frame i left).length = left := by
  simp [frame_codes]

theorem frame_nibble_congr {frame other : Nat → BitVec 8} {i : Nat}
    (same : frame (1 + i / 2) = other (1 + i / 2)) :
    frame_nibble frame i = frame_nibble other i := by
  simp only [frame_nibble, same]

theorem data_codes_getElem? (data : List (BitVec 8)) {k : Nat}
    (whole : 8 * (k / 14) + 8 ≤ data.length) :
    (data_codes data)[k]? = some (code_at data.getI k) := by
  induction data using data_codes.induct generalizing k with
  | case1 b0 b1 b2 b3 b4 b5 b6 b7 data ih =>
      rw [data_codes]
      by_cases first : k < 14
      · rw [List.getElem?_append_left (by rw [length_frame_codes]; exact first),
          frame_codes_getElem? _ first, code_at, Nat.div_eq_of_lt first, Nat.mod_eq_of_lt first]
        simp only [Nat.mul_zero, Nat.zero_add, Option.some.injEq, Prod.mk.injEq]
        refine ⟨rfl, frame_nibble_congr ?_⟩
        have column : k / 2 < 7 := by omega
        interval_cases k / 2 <;> rfl
      · have later : 8 * ((k - 14) / 14) + 8 ≤ data.length := by
          simp only [List.length_cons] at whole
          omega
        rw [List.getElem?_append_right (by rw [length_frame_codes]; omega), length_frame_codes,
          ih later, code_at, code_at]
        have frame : k / 14 = (k - 14) / 14 + 1 := by omega
        have column : k % 14 = (k - 14) % 14 := by omega
        have byte : ∀ i,
            (b0 :: b1 :: b2 :: b3 :: b4 :: b5 :: b6 :: b7 :: data).getI (8 * (k / 14) + i) =
              data.getI (8 * ((k - 14) / 14) + i) := by
          intro i
          rw [frame, show 8 * ((k - 14) / 14 + 1) + i = 8 * ((k - 14) / 14) + i + 8 by ring]
          rfl
        have head := byte 0
        rw [Nat.add_zero, Nat.add_zero] at head
        simp only [byte, head, column]
  | case2 data short =>
      exfalso
      match data, whole with
      | b0 :: b1 :: b2 :: b3 :: b4 :: b5 :: b6 :: b7 :: data, _ =>
          exact short b0 b1 b2 b3 b4 b5 b6 b7 data rfl

theorem data_codes_take {data : List (BitVec 8)} {n : Nat}
    (whole : 8 * ((n + 13) / 14) ≤ data.length) :
    (data_codes data).take n = (List.range n).map (code_at data.getI) := by
  apply List.ext_getElem?
  intro k
  rw [List.getElem?_take, List.getElem?_map]
  by_cases inside : k < n
  · rw [if_pos inside, data_codes_getElem? data (by omega), List.getElem?_range inside,
      Option.map_some]
  · rw [if_neg inside, List.getElem?_eq_none (by simpa using inside), Option.map_none]

end Frames

/-! The nibble walk. -/

section Walk

variable (base n : Nat)

/-- The nibble address of sample `k` of a run that starts on a frame. -/
def nibble_address (base k : Nat) : Nat :=
  base + 16 * (k / 14) + if k % 14 = 0 then 0 else k % 14 + 2

/-- A voice that has `k` samples behind it and none of them past its end. -/
structure Voice.At (v : Voice) (base k : Nat) : Prop where
  cur : v.cur.toNat = nibble_address base k
  /-- Inside a frame the header has been read. -/
  header : k % 14 ≠ 0 →
    v.pred_scale = (v.aram ((base / 2 + 8 * (k / 14)) &&& ARAM_MASK)).toNat

/-- The bytes a run that starts at nibble `base` reads. -/
def aram_bytes (aram : Nat → BitVec 8) (base : Nat) (i : Nat) : BitVec 8 :=
  aram ((base / 2 + i) &&& ARAM_MASK)

/-- Where the nibble of sample `k` itself is, past a header. -/
def sample_nibble (base k : Nat) : Nat :=
  base + 16 * (k / 14) + 2 + k % 14

theorem nibble_address_succ : nibble_address base (n + 1) = sample_nibble base n + 1 := by
  rw [nibble_address, sample_nibble]
  split <;> omega

variable {base} {v : Voice} {k : Nat} (aligned : base % 16 = 0)

include aligned

theorem nibble_at_eq (aram : Nat → BitVec 8) {nib : BitVec 32}
    (here : nib.toNat = sample_nibble base k) :
    nibble_at (aram_byte aram nib) (nib &&& 1#32 = 1#32) =
      (code_at (aram_bytes aram base) k).2 := by
  have half : nib.toNat / 2 = base / 2 + (8 * (k / 14) + (1 + k % 14 / 2)) := by
    rw [here, sample_nibble]
    omega
  have odd : nib &&& 1#32 = 1#32 ↔ ¬ k % 14 &&& 1 = 0 := by
    rw [← BitVec.toNat_inj, BitVec.toNat_and, here, sample_nibble]
    change _ &&& 1 = 1 ↔ _
    rw [Nat.and_one_is_mod, Nat.and_one_is_mod]
    omega
  simp only [aram_byte, half, code_at, frame_nibble, aram_bytes, nibble_at, odd]
  by_cases even : k % 14 &&& 1 = 0
  · rw [if_pos even, if_neg (by simpa using even)]
  · rw [if_neg even, if_pos (by simpa using even)]

variable (here : v.At base k)

include here

theorem Voice.At.header_iff : v.cur &&& 15#32 = 0#32 ↔ k % 14 = 0 := by
  rw [← BitVec.toNat_inj, BitVec.toNat_and, here.cur, nibble_address]
  change _ &&& (2 ^ 4 - 1) = 0 ↔ _
  rw [Nat.and_two_pow_sub_one_eq_mod]
  split <;> omega

theorem Voice.At.pred_scale_eq :
    (if k % 14 = 0 then (aram_byte v.aram v.cur).toNat else v.pred_scale) =
      (code_at (aram_bytes v.aram base) k).1 := by
  split
  · next first =>
      have half : v.cur.toNat / 2 = base / 2 + 8 * (k / 14) := by
        rw [here.cur, nibble_address, if_pos first]
        omega
      rw [aram_byte, half, code_at, aram_bytes]
  · next later =>
      rw [here.header later, code_at, aram_bytes]

theorem Voice.At.nibble :
    (if k % 14 = 0 then v.cur + 2#32 else v.cur).toNat = sample_nibble base k := by
  have bound := v.cur.isLt
  have cur := here.cur
  rw [nibble_address] at cur
  rw [sample_nibble]
  split at cur
  · next first =>
      rw [if_pos first, BitVec.toNat_add]
      change (_ + 2) % 2 ^ 32 = _
      omega
  · next later =>
      rw [if_neg later]
      omega

variable (inside : nibble_address base k < v.end_.toNat)

include inside

theorem Voice.At.next :
    ((if k % 14 = 0 then v.cur + 2#32 else v.cur) + 1#32).toNat = nibble_address base (k + 1) := by
  have bound := v.end_.isLt
  have cur := here.cur
  rw [nibble_address_succ, BitVec.toNat_add, here.nibble aligned]
  change (_ + 1) % 2 ^ 32 = _
  rw [Nat.mod_eq_of_lt]
  rw [nibble_address] at inside
  rw [sample_nibble]
  split at inside <;> omega

end Walk

/-- What a voice is after one sample of DSP-ADPCM. -/
def Voice.decoded (v : Voice) (c : Code) (val : Int) (cur : BitVec 32) : Voice :=
  { v with pred_scale := c.1, yn2 := v.yn1, yn1 := clamp16 val, cur := cur }

def Voice.code_sum (v : Voice) (c : Code) : Ran Int :=
  adpcm_sum c.1 c.2 (v.coefs (((c.1 >>> 4) &&& 7) * 2)).toInt
    (v.coefs (((c.1 >>> 4) &&& 7) * 2 + 1)).toInt v.yn1.toInt v.yn2.toInt

theorem fetch_sample_at {base k : Nat} {v : Voice} (aligned : base % 16 = 0)
    (here : v.At base k) (inside : nibble_address base k < v.end_.toNat) (format : v.fmt = 0)
    (running : v.stopped = false) :
    ∃ cur : BitVec 32, cur.toNat = nibble_address base (k + 1) ∧
      fetch_sample v = v.code_sum (code_at (aram_bytes v.aram base) k) >>= fun val =>
        pure (clamp16 val, v.decoded (code_at (aram_bytes v.aram base) k) val cur) := by
  refine ⟨_, here.next aligned inside, ?_⟩
  have before : ¬ v.end_ ≤ v.cur := by
    rw [BitVec.le_def, here.cur]
    omega
  rw [fetch_sample, running, if_neg Bool.false_ne_true, if_neg before, fetch_at, format]
  simp only [fetch_adpcm, here.header_iff aligned, decide_eq_true_eq,
    here.pred_scale_eq aligned, nibble_at_eq aligned v.aram (here.nibble aligned)]
  rfl

theorem frame_nibble_lt (frame : Nat → BitVec 8) (i : Nat) : frame_nibble frame i < 16 := by
  have byte := (frame (1 + i / 2)).isLt
  rw [frame_nibble]
  split
  · rw [Nat.shiftRight_eq_div_pow]
    omega
  · exact Nat.lt_succ_of_le Nat.and_le_right

theorem code_at_lt (byte : Nat → BitVec 8) (k : Nat) : (code_at byte k).2 < 16 :=
  frame_nibble_lt (fun i => byte (8 * (k / 14) + i)) (k % 14)

/-- A voice and a decoding with the same predictors and the same history. -/
structure Voice.Agrees (v : Voice) (coefs : Nat → Int) (d : Decoding) : Prop where
  coefs : ∀ i, coefs i = (v.coefs i).toInt
  hist1 : d.hist1 = v.yn1.toInt
  hist2 : d.hist2 = v.yn2.toInt

section Agreement

variable {v : Voice} {coefs : Nat → Int} {d : Decoding} (agrees : v.Agrees coefs d)
  {c : Code} (nibble : c.2 < 16)

def CodeFits (coefs : Nat → Int) (d : Decoding) (c : Code) : Prop :=
  SumFits c.1 c.2 (coefs (2 * ((c.1 >>> 4) &&& 7))) (coefs (2 * ((c.1 >>> 4) &&& 7) + 1))
    d.hist1 d.hist2

include agrees nibble

theorem Voice.Agrees.clean_iff :
    (v.code_sum c).overflowed = false ↔ CodeFits coefs d c := by
  rw [Voice.code_sum, CodeFits, agrees.coefs, agrees.coefs, agrees.hist1, agrees.hist2,
    Nat.mul_comm 2]
  exact adpcm_sum_clean_iff _ (fits_toInt _) (fits_toInt _) (fits_toInt _) (fits_toInt _) nibble

theorem Voice.Agrees.step (fits : CodeFits coefs d c) (cur : BitVec 32) :
    (v.decoded c (v.code_sum c).val cur).Agrees coefs (d.step coefs c) ∧
      (d.step coefs c).out = d.out ++ [(clamp16 (v.code_sum c).val).toInt] := by
  have sample : decode_sample coefs c.1 c.2 d.hist1 d.hist2 =
      (clamp16 (v.code_sum c).val).toInt := by
    rw [CodeFits, agrees.coefs, agrees.coefs, agrees.hist1, agrees.hist2] at fits
    rw [decode_sample_eq, Voice.code_sum, Nat.mul_comm _ 2,
      adpcm_sum_of_fits _ (fits_toInt _) (fits_toInt _) (fits_toInt _) (fits_toInt _) nibble fits,
      agrees.coefs, agrees.coefs, agrees.hist1, agrees.hist2, Ran.val_pure]
  rw [← sample]
  refine ⟨⟨agrees.coefs, sample, agrees.hist1⟩, rfl⟩

end Agreement

theorem Voice.decoded_at (v : Voice) {base k : Nat} (val : Int) {cur : BitVec 32}
    (next : cur.toNat = nibble_address base (k + 1)) :
    (v.decoded (code_at (aram_bytes v.aram base) k) val cur).At base (k + 1) where
  cur := next
  header := by
    intro later
    have frame : (k + 1) / 14 = k / 14 := by omega
    rw [frame]
    rfl

/-- The samples fetched in a row against the exact decoding of their codes, from
any place in the run. -/
theorem fetch_samples_run {base : Nat} (aligned : base % 16 = 0) (coefs : Nat → Int)
    (aram : Nat → BitVec 8) (n : Nat) :
    ∀ (k : Nat) (v : Voice) (d : Decoding), v.At base k → v.aram = aram → v.fmt = 0 →
      v.stopped = false → (∀ j < n, nibble_address base (k + j) < v.end_.toNat) →
      v.Agrees coefs d →
      let codes := (List.range' k n).map (code_at (aram_bytes aram base))
      ((fetch_samples n v).overflowed = false ↔ SumsFit coefs d codes) ∧
        (SumsFit coefs d codes →
          (fetch_samples n v).val.2.Agrees coefs (d.run coefs codes) ∧
            (d.run coefs codes).out =
              d.out ++ (fetch_samples n v).val.1.map BitVec.toInt) := by
  induction n with
  | zero =>
      intro k v d _ _ _ _ _ agrees
      refine ⟨iff_of_true rfl trivial, fun _ => ⟨agrees, ?_⟩⟩
      simp [fetch_samples, Decoding.run]
  | succ n ih =>
      intro k v d here bytes format running inside agrees
      have first : nibble_address base k < v.end_.toNat := inside 0 (Nat.succ_pos n)
      obtain ⟨cur, next, fetched⟩ := fetch_sample_at aligned here first format running
      have nibble : (code_at (aram_bytes v.aram base) k).2 < 16 := code_at_lt _ _
      have moved := v.decoded_at (v.code_sum (code_at (aram_bytes v.aram base) k)).val next
      rw [bytes] at fetched nibble moved
      generalize code : code_at (aram_bytes aram base) k = c at fetched nibble moved
      have later : ∀ j < n, nibble_address base (k + 1 + j) < v.end_.toNat := by
        intro j hj
        rw [Nat.add_right_comm]
        exact inside (j + 1) (by omega)
      have rest := ih (k + 1) _ (d.step coefs c) moved bytes format running later
      have walked : fetch_samples (n + 1) v = v.code_sum c >>= fun val =>
          fetch_samples n (v.decoded c val cur) >>= fun tail =>
            pure (clamp16 val :: tail.1, tail.2) := by
        rw [fetch_samples, fetched, bind_assoc]
        rfl
      rw [List.range'_succ, List.map_cons, code, walked]
      have clean := agrees.clean_iff nibble
      constructor
      · rw [Ran.bind_clean_iff, Ran.bind_clean_iff, clean, SumsFit]
        constructor
        · rintro ⟨fits, tail, -⟩
          exact ⟨fits, (rest (agrees.step nibble fits cur).1).1.mp tail⟩
        · rintro ⟨fits, tail⟩
          exact ⟨fits, (rest (agrees.step nibble fits cur).1).1.mpr tail, rfl⟩
      · rintro ⟨fits, tail⟩
        obtain ⟨stepped, out⟩ := agrees.step nibble fits cur
        obtain ⟨ended, samples⟩ := (rest stepped).2 tail
        refine ⟨ended, ?_⟩
        change ((d.step coefs c).run coefs _).out = _
        rw [samples, out, List.append_assoc]
        rfl

/-- A voice on a frame boundary that reads the bytes of a `.dsp` file's frames. -/
structure Voice.Plays (v : Voice) (data : List (BitVec 8)) (h : DspHeader) (n : Nat) : Prop where
  format : v.fmt = 0
  running : v.stopped = false
  aligned : v.cur.toNat % 16 = 0
  /-- No sample of the run is at or past the end address, so none is a loop's. -/
  inside : ∀ k < n, nibble_address v.cur.toNat k < v.end_.toNat
  bytes : ∀ i < 8 * ((n + 13) / 14),
    data[DspHeader.data_offset + i]? = some (aram_bytes v.aram v.cur.toNat i)
  coefs : ∀ i, h.coefs i = (v.coefs i).toInt
  yn1 : h.yn1 = v.yn1.toInt
  yn2 : h.yn2 = v.yn2.toInt

def DspHeader.start (h : DspHeader) : Decoding :=
  { out := [], hist1 := h.yn1, hist2 := h.yn2 }

section Run

variable {v : Voice} {data : List (BitVec 8)} {h : DspHeader} {n : Nat}

theorem Voice.Plays.codes (plays : v.Plays data h n) :
    (data_codes (data.drop DspHeader.data_offset)).take n =
      (List.range' 0 n).map (code_at (aram_bytes v.aram v.cur.toNat)) := by
  have read : ∀ i < 8 * ((n + 13) / 14),
      (data.drop DspHeader.data_offset)[i]? = some (aram_bytes v.aram v.cur.toNat i) := by
    intro i hi
    rw [List.getElem?_drop]
    exact plays.bytes i hi
  have whole : 8 * ((n + 13) / 14) ≤ (data.drop DspHeader.data_offset).length := by
    by_contra short
    have last := read (data.drop DspHeader.data_offset).length (by omega)
    rw [List.getElem?_eq_none (Nat.le_refl _)] at last
    contradiction
  have byte : ∀ i < 8 * ((n + 13) / 14),
      (data.drop DspHeader.data_offset).getI i = aram_bytes v.aram v.cur.toNat i := by
    intro i hi
    rw [List.getI_eq_getElem?_getD, read i hi, Option.getD_some]
  rw [data_codes_take whole, List.range_eq_range']
  apply List.map_congr_left
  intro k hk
  have inside : k < n := by simpa using hk
  have column : frame_nibble
      (fun i => (data.drop DspHeader.data_offset).getI (8 * (k / 14) + i)) (k % 14) =
      frame_nibble (fun i => aram_bytes v.aram v.cur.toNat (8 * (k / 14) + i)) (k % 14) :=
    frame_nibble_congr (byte _ (by omega))
  rw [code_at, code_at, byte _ (by omega), column]

theorem Voice.at_start (v : Voice) : v.At v.cur.toNat 0 where
  cur := rfl
  header := fun later => absurd rfl later

/-- The samples and the history are the frame decoder's and nothing overflows,
exactly when every exact sum of the decoding stays in 32 bits. -/
theorem fetch_samples_iff {max_samples : Option Nat} (plays : v.Plays data h n)
    (wanted : h.want max_samples = n) :
    ((fetch_samples n v).overflowed = false ∧
        decode data (some h) max_samples = some ((fetch_samples n v).val.1.map BitVec.toInt) ∧
        (fetch_samples n v).val.2.Agrees h.coefs (decode_all data h max_samples)) ↔
      SumsFit h.coefs h.start ((data_codes (data.drop DspHeader.data_offset)).take n) := by
  have agrees : v.Agrees h.coefs h.start := ⟨plays.coefs, plays.yn1, plays.yn2⟩
  have inside : ∀ j < n, nibble_address v.cur.toNat (0 + j) < v.end_.toNat := by
    intro j hj
    rw [Nat.zero_add]
    exact plays.inside j hj
  obtain ⟨clean, same⟩ := fetch_samples_run plays.aligned h.coefs v.aram n 0 v h.start
    v.at_start rfl plays.format plays.running inside agrees
  have decoded : decode_all data h max_samples =
      h.start.run h.coefs ((data_codes (data.drop DspHeader.data_offset)).take n) := by
    rw [decode_all, decode_frames_eq, wanted]
    rfl
  rw [← plays.codes] at clean same
  constructor
  · rintro ⟨quiet, -, -⟩
    exact clean.mp quiet
  · intro fits
    obtain ⟨ended, samples⟩ := same fits
    refine ⟨clean.mpr fits, ?_, decoded ▸ ended⟩
    change some (decode_all data h max_samples).out = _
    rw [decoded, samples]
    rfl

end Run

/-- Two frames in the middle of ARAM, with a loop voice's history. -/
def quiet : Voice :=
  { pb := ⟨fun _ => 0#16⟩, cur := 32#32, end_ := 96#32, loop := 64#32, fmt := 0, looping := true
    yn1 := 300#16, yn2 := 65036#16, pred_scale := 0, coefs := fun i => BitVec.ofNat 16 (512 * i)
    aram := fun i => BitVec.ofNat 8 (37 * i + 19), stopped := false }

def quiet_header : DspHeader :=
  { num_samples := 40, num_nibbles := 48, sample_rate := 32000, loop_flag := 1, fmt := 0
    loop_start := 2, loop_end := 47, coefs := fun i => (BitVec.ofNat 16 (512 * i)).toInt
    pred_scale := 0, yn1 := 300, yn2 := -500 }

def quiet_data : List (BitVec 8) :=
  List.replicate 0x60 0#8 ++ (List.range 16).map (fun i => quiet.aram (16 + i))

theorem fetch_samples_iff_quiet :
    (fetch_samples 20 quiet).overflowed = false ∧
      decode quiet_data (some quiet_header) (some 20) =
        some ((fetch_samples 20 quiet).val.1.map BitVec.toInt) ∧
      (fetch_samples 20 quiet).val.2.Agrees quiet_header.coefs
        (decode_all quiet_data quiet_header (some 20)) := by
  have plays : quiet.Plays quiet_data quiet_header 20 :=
    { format := rfl, running := rfl, aligned := by decide, inside := by decide
      bytes := by decide, coefs := fun _ => rfl, yn1 := by decide, yn2 := by decide }
  exact (fetch_samples_iff plays (by decide)).mpr (by decide)

/-- Both predictors and both coefficients at their negative limit. -/
def loud : Voice :=
  { pb := ⟨fun _ => 0#16⟩, cur := 0#32, end_ := 16#32, loop := 0#32, fmt := 0, looping := false
    yn1 := 0x8000#16, yn2 := 0x8000#16, pred_scale := 0, coefs := fun _ => 0x8000#16
    aram := fun _ => 0#8, stopped := false }

def loud_header : DspHeader :=
  { num_samples := 1, num_nibbles := 3, sample_rate := 32000, loop_flag := 0, fmt := 0
    loop_start := 0, loop_end := 0, coefs := fun _ => -32768, pred_scale := 0
    yn1 := -32768, yn2 := -32768 }

def loud_data : List (BitVec 8) :=
  List.replicate 0x68 0#8

/-- The sum is 2^31: the mixer's sample is full-scale negative where the frame
decoder's is full-scale positive. -/
theorem loud_overflows :
    loud.Plays loud_data loud_header 1 ∧ loud_header.want none = 1 ∧
      (fetch_samples 1 loud).overflowed = true ∧
      (fetch_samples 1 loud).val.1.map BitVec.toInt = [-32768] ∧
      decode loud_data (some loud_header) none = some [32767] := by
  refine ⟨?_, rfl, by decide, by decide +kernel, by decide +kernel⟩
  exact
    { format := rfl, running := rfl, aligned := by decide, inside := by decide
      bytes := by decide, coefs := fun _ => (by decide : (-32768 : Int) = (0x8000#16).toInt)
      yn1 := by decide, yn2 := by decide }

/-! An encoder's coefficients are far below the ones that overflow. -/

/-- Two coefficients of a set are together at most 3/4 of the range. -/
def CoefsSmall (coefs : Nat → Int) : Prop :=
  ∀ i < 8, |coefs (2 * i)| + |coefs (2 * i + 1)| ≤ 3 * 2 ^ 14

theorem code_fits_of_small {coefs : Nat → Int} (small : CoefsSmall coefs) {d : Decoding}
    (hist1 : Fits 16 d.hist1) (hist2 : Fits 16 d.hist2) {c : Code} (nibble : c.2 < 16) :
    CodeFits coefs d c := by
  have index : (c.1 >>> 4) &&& 7 < 8 := Nat.lt_succ_of_le Nat.and_le_right
  have pair := small _ index
  obtain ⟨low, high⟩ := adpcm_nibble_bounds nibble
  have scale := scale_le c.1
  have positive : (0 : Int) < 2 ^ (c.1 &&& 15) := by positivity
  have wide : ∀ {x : Int}, Fits 16 x → |x| ≤ 2 ^ 15 := by
    rintro x ⟨below, above⟩
    norm_num at below above ⊢
    rw [abs_le]
    omega
  have first := mul_le_mul_of_nonneg_left (wide hist1)
    (abs_nonneg (coefs (2 * ((c.1 >>> 4) &&& 7))))
  have second := mul_le_mul_of_nonneg_left (wide hist2)
    (abs_nonneg (coefs (2 * ((c.1 >>> 4) &&& 7) + 1)))
  rw [← abs_mul] at first second
  have below : -2 ^ 18 ≤ 2 ^ (c.1 &&& 15) * adpcm_nibble c.2 := by nlinarith
  have above : 2 ^ (c.1 &&& 15) * adpcm_nibble c.2 ≤ 7 * 2 ^ 15 := by nlinarith
  have first_bounds := abs_le.mp first
  have second_bounds := abs_le.mp second
  constructor <;> rw [unrounded] <;> omega

theorem sums_fit_of_small {coefs : Nat → Int} (small : CoefsSmall coefs) {d : Decoding}
    (hist1 : Fits 16 d.hist1) (hist2 : Fits 16 d.hist2) {codes : List Code}
    (nibbles : ∀ c ∈ codes, c.2 < 16) : SumsFit coefs d codes := by
  induction codes generalizing d with
  | nil => trivial
  | cons c codes ih =>
      rw [List.forall_mem_cons] at nibbles
      refine ⟨code_fits_of_small small hist1 hist2 nibbles.1, ih ?_ hist1 nibbles.2⟩
      change Fits 16 (decode_sample _ _ _ _ _)
      rw [decode_sample_eq]
      exact fits_toInt _

end SoaPort.Sound
