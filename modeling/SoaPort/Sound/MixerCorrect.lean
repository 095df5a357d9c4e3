import SoaPort.Sound.Mixer

namespace SoaPort.Sound

open SoaPort.Lib SoaPort.Recomp

/-! What the mixer's 32-bit arithmetic computes. -/

theorem int32_gives (x : Int) : Ran.Gives (int32 x) x (Fits 32 x) :=
  Ran.gives_arith (by norm_num)

theorem int32_gives_of {x : Int} (low : -2 ^ 31 ≤ x) (high : x < 2 ^ 31) :
    Ran.Gives (int32 x) x True :=
  Ran.gives_arith_of_fits (by norm_num) ⟨low, high⟩

theorem fits16_iff {x : Int} : Fits 16 x ↔ -32768 ≤ x ∧ x < 32768 := Iff.rfl

section Interpolation

/-- A point between `a` and `b`, `frac` 65536ths of the way. -/
def between (a b frac : Int) : Int :=
  a + (b - a) * frac / 2 ^ 16

variable {a b frac : Int}

theorem between_bounds (low : 0 ≤ frac) (high : frac ≤ 2 ^ 16) :
    min a b ≤ between a b frac ∧ between a b frac ≤ max a b := by
  rw [between]
  rcases le_total a b with rising | falling
  · have above : (b - a) * frac ≤ (b - a) * 2 ^ 16 :=
      mul_le_mul_of_nonneg_left high (by omega)
    have below : 0 ≤ (b - a) * frac := mul_nonneg (by omega) low
    omega
  · have below : (b - a) * 2 ^ 16 ≤ (b - a) * frac :=
      mul_le_mul_of_nonpos_left high (by omega)
    have above : (b - a) * frac ≤ 0 := mul_nonpos_of_nonpos_of_nonneg (by omega) low
    omega

variable (ha : Fits 16 a) (hb : Fits 16 b) (low : 0 ≤ frac) (high : frac < 2 ^ 16)

include ha hb low high

theorem between_fits : Fits 16 (between a b frac) := by
  have bounds := between_bounds (a := a) (b := b) low (le_of_lt high)
  rw [fits16_iff] at ha hb ⊢
  omega

theorem part_eq :
    (((b - a) * frac) >>> (16 : Nat)).bmod (2 ^ 32) = (b - a) * frac / 2 ^ 16 := by
  have bounds := between_bounds (a := a) (b := b) low (le_of_lt high)
  rw [between] at bounds
  rw [fits16_iff] at ha hb
  rw [Int.shiftRight_eq_div_pow]
  apply Int.bmod_eq_of_le
  · push_cast
    omega
  · push_cast
    omega

theorem interpolate_pure : (interpolate pure a b frac).val = between a b frac := by
  change a + (((b - a) * frac) >>> (16 : Nat)).bmod (2 ^ 32) = _
  rw [part_eq ha hb low high, between]

theorem interpolate_gives :
    Ran.Gives (interpolate int32 a b frac) (interpolate pure a b frac).val True := by
  have fits := between_fits ha hb low high
  rw [interpolate_pure ha hb low high]
  rw [fits16_iff] at ha hb fits
  apply (int32_gives_of (x := b - a) (by omega) (by omega)).bind_of_true
  change Ran.Gives (int32 (a + (((b - a) * frac) >>> (16 : Nat)).bmod (2 ^ 32))) _ _
  rw [part_eq ha hb low high]
  exact int32_gives_of (x := between a b frac) (by omega) (by omega)

end Interpolation

section Conversion

theorem advance_frac (ratio : Word) (c : Converter) :
    (c.advance ratio).frac.toNat < 2 ^ 16 := by
  have kept : ∀ (n : Nat) (c : Converter), (Nat.iterate Converter.push n c).frac = c.frac := by
    intro n
    induction n with
    | zero => exact fun c => rfl
    | succ n ih => exact fun c => (ih c.push).trans rfl
  rw [Converter.advance, kept, BitVec.toNat_and]
  exact Nat.lt_succ_of_le Nat.and_le_right

/-- The samples either side of each output. -/
def neighbours (ratio : Word) : Nat → Converter → List (Int × Int)
  | 0, _ => []
  | n + 1, c =>
      let c := c.advance ratio
      (c.last.w2.toInt, c.last.w3.toInt) :: neighbours ratio n c

def Between (near : Int × Int) (sample : Int) : Prop :=
  min near.1 near.2 ≤ sample ∧ sample ≤ max near.1 near.2

variable (ratio : Word)

theorem frac_bounds (c : Converter) :
    (0 : Int) ≤ (c.advance ratio).frac.toNat ∧
      ((c.advance ratio).frac.toNat : Int) < 2 ^ 16 := by
  have high := advance_frac ratio c
  omega

theorem convert_gives (n : Nat) (c : Converter) :
    Ran.Gives (convert int32 ratio n c) (convert pure ratio n c).val True := by
  induction n generalizing c with
  | zero => exact Ran.gives_pure _
  | succ n ih =>
      obtain ⟨low, high⟩ := frac_bounds ratio c
      apply (interpolate_gives (fits_toInt _) (fits_toInt _) low high).bind_of_true
      apply (ih (c.advance ratio)).bind_of_true
      exact Ran.gives_pure _

/-- Each output lies between its neighbours. -/
theorem convert_between (n : Nat) (c : Converter) :
    List.Forall₂ Between (neighbours ratio n c) (convert int32 ratio n c).val.1 := by
  rw [(convert_gives ratio n c).val trivial]
  induction n generalizing c with
  | zero => exact List.Forall₂.nil
  | succ n ih =>
      obtain ⟨low, high⟩ := frac_bounds ratio c
      refine List.Forall₂.cons ?_ (ih (c.advance ratio))
      rw [interpolate_pure (fits_toInt _) (fits_toInt _) low high]
      exact between_bounds low (le_of_lt high)

theorem convert_fits (n : Nat) (c : Converter) :
    (convert pure ratio n c).val.1.length = n ∧
      ∀ sample ∈ (convert pure ratio n c).val.1, Fits 16 sample := by
  induction n generalizing c with
  | zero => exact ⟨rfl, fun _ none => absurd none (List.not_mem_nil)⟩
  | succ n ih =>
      obtain ⟨low, high⟩ := frac_bounds ratio c
      obtain ⟨count, small⟩ := ih (c.advance ratio)
      refine ⟨congrArg (· + 1) count, ?_⟩
      intro sample member
      rcases List.mem_cons.mp member with rfl | later
      · rw [interpolate_pure (fits_toInt _) (fits_toInt _) low high]
        exact between_fits (fits_toInt _) (fits_toInt _) low high
      · exact small sample later

end Conversion

section Envelope

variable (dvol : BitVec 16)

theorem envelope_gives (samples : List Int) (small : ∀ sample ∈ samples, Fits 16 sample)
    (vol : BitVec 16) :
    Ran.Gives (envelope int32 dvol samples vol) (envelope pure dvol samples vol).val True := by
  induction samples generalizing vol with
  | nil => exact Ran.gives_pure _
  | cons sample samples ih =>
      rw [List.forall_mem_cons, fits16_iff] at small
      obtain ⟨⟨low, high⟩, rest⟩ := small
      have volume := vol.isLt
      have change_low := dvol.le_toInt
      have change_high := dvol.toInt_lt
      norm_num at change_low change_high
      have product : -2 ^ 31 ≤ sample * vol.toNat ∧ sample * vol.toNat < 2 ^ 31 := by
        constructor <;> nlinarith
      apply (int32_gives_of product.1 product.2).bind_of_true
      apply (int32_gives_of (x := vol.toNat + dvol.toInt) (by omega) (by omega)).bind_of_true
      apply (ih rest _).bind_of_true
      exact Ran.gives_pure _

theorem envelope_length (samples : List Int) (vol : BitVec 16) :
    (envelope pure dvol samples vol).val.1.length = samples.length := by
  induction samples generalizing vol with
  | nil => rfl
  | cons sample samples ih => exact congrArg (· + 1) (ih _)

/-- The volume after `k` samples. -/
def volume_at (vol : BitVec 16) (k : Nat) : BitVec 16 :=
  vol + BitVec.ofNat 16 k * dvol

theorem envelope_pure (samples : List Int) (vol : BitVec 16) (k : Nat) :
    (envelope pure dvol samples vol).val.1[k]? =
      samples[k]?.map (fun sample : Int => sample * (volume_at dvol vol k).toNat / 2 ^ 15) := by
  induction samples generalizing vol k with
  | nil => rfl
  | cons sample samples ih =>
      have next : BitVec.ofInt 16 (vol.toNat + dvol.toInt) = vol + dvol := by
        rw [BitVec.ofInt_add, BitVec.ofInt_toInt, BitVec.ofInt_natCast, BitVec.ofNat_toNat,
          BitVec.setWidth_eq]
      cases k with
      | zero =>
          have same : volume_at dvol vol 0 = vol := by simp [volume_at]
          rw [same]
          exact congrArg some (Int.shiftRight_eq_div_pow _ 15)
      | succ k =>
          have later : volume_at dvol (vol + dvol) k = volume_at dvol vol (k + 1) := by
            rw [volume_at, volume_at, Nat.add_comm k 1, BitVec.ofNat_add, BitVec.add_mul,
              BitVec.one_mul, BitVec.add_assoc]
          rw [List.getElem?_cons_succ, ← later, ← ih (vol + dvol) k, ← next]
          rfl

end Envelope

section Mix

/-- The gain for sample `k`, ramped or not. -/
def gain_at (ramp : Bool) (delta vol : Int) (k : Nat) : Int :=
  if ramp then vol + k * delta else vol

/-- Every product and every sum into the bus stays in 32 bits. -/
def MixFits (ramp : Bool) (delta : Int) (samples : List Int) (i : Nat) (vol : Int)
    (bus : Nat → Int) : Prop :=
  ∀ k sample, samples[k]? = some sample →
    Fits 32 (sample * gain_at ramp delta vol k) ∧
      Fits 32 (bus (i + k) + sample * gain_at ramp delta vol k / 2 ^ 15)

variable {ramp : Bool} {delta vol : Int} {bus : Nat → Int} {i : Nat}

@[simp] theorem gain_at_zero : gain_at ramp delta vol 0 = vol := by
  simp [gain_at]

theorem gain_at_succ (k : Nat) :
    gain_at ramp delta vol (k + 1) = gain_at ramp delta (gain_at ramp delta vol 1) k := by
  cases ramp with
  | false => rfl
  | true =>
      simp only [gain_at, if_true]
      push_cast
      ring

theorem mix_fits_cons (sample : Int) (samples : List Int) (sum : Int) :
    MixFits ramp delta (sample :: samples) i vol bus ↔
      Fits 32 (sample * vol) ∧ Fits 32 (bus i + sample * vol / 2 ^ 15) ∧
        MixFits ramp delta samples (i + 1) (gain_at ramp delta vol 1)
          (Function.update bus i sum) := by
  have elsewhere : ∀ k, Function.update bus i sum (i + 1 + k) = bus (i + (k + 1)) := by
    intro k
    rw [Function.update_of_ne (by omega)]
    congr 1
    omega
  constructor
  · intro fits
    have first := fits 0 sample rfl
    rw [gain_at_zero, Nat.add_zero] at first
    refine ⟨first.1, first.2, ?_⟩
    intro k x found
    rw [elsewhere, ← gain_at_succ]
    exact fits (k + 1) x found
  · rintro ⟨product, sum_fits, rest⟩ k x found
    cases k with
    | zero =>
        rw [List.getElem?_cons_zero, Option.some.injEq] at found
        rw [gain_at_zero, Nat.add_zero, ← found]
        exact ⟨product, sum_fits⟩
    | succ k =>
        have tail := rest k x found
        rw [elsewhere, ← gain_at_succ] at tail
        exact tail

variable (ramp) in
theorem ramp_gives (hdelta : Fits 16 delta) (low : -2 ^ 30 ≤ vol) (high : vol ≤ 2 ^ 30) :
    Ran.Gives (if ramp then int32 (vol + delta) else pure vol) (gain_at ramp delta vol 1)
      True := by
  rw [fits16_iff] at hdelta
  cases ramp with
  | false => exact Ran.gives_pure vol
  | true =>
      have step : gain_at true delta vol 1 = vol + delta := by simp [gain_at]
      rw [step]
      exact int32_gives_of (by omega) (by omega)

variable (ramp) in
theorem gain_at_bounds (hdelta : Fits 16 delta) (n : Nat)
    (low : -2 ^ 30 + 2 ^ 15 * ((n : Int) + 1) ≤ vol)
    (high : vol ≤ 2 ^ 30 - 2 ^ 15 * ((n : Int) + 1)) :
    -2 ^ 30 + 2 ^ 15 * (n : Int) ≤ gain_at ramp delta vol 1 ∧
      gain_at ramp delta vol 1 ≤ 2 ^ 30 - 2 ^ 15 * (n : Int) := by
  rw [fits16_iff] at hdelta
  rw [gain_at]
  split <;> omega

/-- What the loop leaves, in unbounded integers. -/
def mixed (ramp : Bool) (delta : Int) (samples : List Int) (i : Nat) (vol : Int)
    (bus : Nat → Int) : (Nat → Int) × Int :=
  (mix_loop pure ramp delta samples i vol bus).val

theorem mixed_cons (sample : Int) (samples : List Int) :
    mixed ramp delta (sample :: samples) i vol bus =
      mixed ramp delta samples (i + 1) (gain_at ramp delta vol 1)
        (Function.update bus i (bus i + sample * vol / 2 ^ 15)) := by
  have step : (if ramp then (pure (vol + delta) : Ran Int) else pure vol) =
      pure (gain_at ramp delta vol 1) := by
    cases ramp <;> simp [gain_at]
  rw [mixed, mix_loop, pure_bind, pure_bind, step, pure_bind, Int.shiftRight_eq_div_pow]
  rfl

theorem mix_loop_gives (hdelta : Fits 16 delta) (samples : List Int)
    (low : -2 ^ 30 + 2 ^ 15 * (samples.length : Int) ≤ vol)
    (high : vol ≤ 2 ^ 30 - 2 ^ 15 * (samples.length : Int)) :
    Ran.Gives (mix_loop int32 ramp delta samples i vol bus)
      (mixed ramp delta samples i vol bus) (MixFits ramp delta samples i vol bus) := by
  induction samples generalizing i vol bus with
  | nil =>
      refine (Ran.gives_pure _).congr (iff_of_true trivial ?_)
      intro k sample found
      simp at found
  | cons sample samples ih =>
      rw [List.length_cons, Nat.cast_add_one] at low high
      obtain ⟨next_low, next_high⟩ := gain_at_bounds ramp hdelta _ low high
      rw [mixed_cons]
      refine Ran.Gives.congr ?_
        (mix_fits_cons sample samples (bus i + sample * vol / 2 ^ 15)).symm
      refine (int32_gives (sample * vol)).bind fun _ => ?_
      have sum : (sample * vol) >>> (15 : Nat) = sample * vol / 2 ^ 15 := Int.shiftRight_eq_div_pow _ 15
      rw [sum]
      refine (int32_gives (bus i + sample * vol / 2 ^ 15)).bind fun _ => ?_
      exact (ramp_gives ramp hdelta (by omega) (by omega)).bind_of_true (ih next_low next_high)

/-- Exactly `sample * gain` in fixed point is added at each index. -/
theorem mixed_bus (samples : List Int) (j : Nat) :
    (mixed ramp delta samples i vol bus).1 j =
      bus j + (if i ≤ j then
        (samples[j - i]?.map fun sample : Int =>
          sample * gain_at ramp delta vol (j - i) / 2 ^ 15).getD 0 else 0) := by
  induction samples generalizing i vol bus with
  | nil =>
      change bus j = _
      simp
  | cons sample samples ih =>
      rw [mixed_cons, ih]
      rcases Nat.lt_trichotomy i j with after | here | before
      · have index : j - i = j - (i + 1) + 1 := by omega
        rw [if_pos (by omega), if_pos (by omega), Function.update_of_ne (by omega), index,
          List.getElem?_cons_succ, gain_at_succ (j - (i + 1))]
      · subst here
        rw [if_neg (by omega), if_pos (Nat.le_refl i), Function.update_self, Nat.sub_self,
          gain_at_zero]
        simp
      · rw [if_neg (by omega), if_neg (by omega), Function.update_of_ne (by omega)]

end Mix

section Sends

variable (ctrl : BitVec 16) (ms : Nat) (samples : List Int)

/-- The send is off, or everything it mixes stays in 32 bits. -/
def SendFits (st : PB × Buses) (snd : Send) : Prop :=
  has ctrl snd.bit = true →
    MixFits (has ctrl snd.ramp) (st.1.w (PB_MIXER + snd.delta)).toInt samples (ms * MS_SAMPLES)
      (st.1.w (PB_MIXER + snd.gain)).toNat (st.2 snd.bus)

/-- Two sends that share no bus and neither of which ramps a word of the other's. -/
def Apart (a b : Send) : Prop :=
  b.bus ≠ a.bus ∧ b.gain ≠ a.gain ∧ b.delta ≠ a.gain

instance (a b : Send) : Decidable (Apart a b) :=
  inferInstanceAs (Decidable (_ ∧ _))

theorem sends_apart : sends.Pairwise Apart := by decide

theorem mix_add_gives (count : samples.length = MS_SAMPLES) (bus : Nat → Int) (o : Nat)
    (gain : BitVec 16) (ramp : Bool) (delta : BitVec 16) :
    Ran.Gives (mix_add int32 bus o samples gain ramp delta)
      (mix_add pure bus o samples gain ramp delta).val
      (MixFits ramp delta.toInt samples o gain.toNat bus) := by
  have volume := gain.isLt
  have length : (samples.length : Int) = 32 := by exact_mod_cast count
  have loop : Ran.Gives _ _ (MixFits ramp delta.toInt samples o gain.toNat bus) :=
    mix_loop_gives (fits_toInt delta) samples (by omega) (by omega)
  rw [mix_add, mix_add]
  exact Ran.Gives.congr (loop.bind fun _ => Ran.gives_pure _) (iff_of_eq (and_true _))

theorem mix_send_gives (count : samples.length = MS_SAMPLES) (st : PB × Buses) (snd : Send) :
    Ran.Gives (mix_send int32 ctrl ms samples st snd) (mix_send pure ctrl ms samples st snd).val
      (SendFits ctrl ms samples st snd) := by
  cases on : has ctrl snd.bit with
  | false =>
      have idle : ∀ arith, mix_send arith ctrl ms samples st snd = pure st := by
        intro arith
        simp [mix_send, on]
      rw [idle, idle]
      exact (Ran.gives_pure st).congr (by simp [SendFits, on])
  | true =>
      have active : ∀ arith, mix_send arith ctrl ms samples st snd =
          mix_add arith (st.2 snd.bus) (ms * MS_SAMPLES) samples
            (st.1.w (PB_MIXER + snd.gain)) (has ctrl snd.ramp)
            (st.1.w (PB_MIXER + snd.delta)) >>= fun mix =>
              pure (st.1.set (PB_MIXER + snd.gain) mix.2,
                Function.update st.2 snd.bus mix.1) := by
        intro arith
        simp only [mix_send, on, if_true]
      rw [active, active]
      refine Ran.Gives.congr
        ((mix_add_gives samples count _ _ _ _ _).bind fun _ => Ran.gives_pure _) ?_
      simp [SendFits, on]

/-- What one send leaves: its own gain word and its own bus, the rest unchanged. -/
theorem mix_send_frame (st : PB × Buses) (snd : Send) :
    (∀ i, i ≠ PB_MIXER + snd.gain →
        (mix_send pure ctrl ms samples st snd).val.1.w i = st.1.w i) ∧
      ∀ bus, bus ≠ snd.bus → (mix_send pure ctrl ms samples st snd).val.2 bus = st.2 bus := by
  rw [mix_send]
  split
  · exact ⟨fun i other => st.1.set_of_ne _ other,
      fun bus other => Function.update_of_ne other _ _⟩
  · exact ⟨fun _ _ => rfl, fun _ _ => rfl⟩

theorem mix_send_bus (st : PB × Buses) (snd : Send) :
    (mix_send pure ctrl ms samples st snd).val.2 snd.bus =
      if has ctrl snd.bit then
        (mixed (has ctrl snd.ramp) (st.1.w (PB_MIXER + snd.delta)).toInt samples
          (ms * MS_SAMPLES) (st.1.w (PB_MIXER + snd.gain)).toNat (st.2 snd.bus)).1
      else st.2 snd.bus := by
  rw [mix_send]
  split
  · exact Function.update_self _ _ _
  · rfl

theorem send_fits_frame {st : PB × Buses} {snd other : Send} (apart : Apart snd other) :
    SendFits ctrl ms samples (mix_send pure ctrl ms samples st snd).val other ↔
      SendFits ctrl ms samples st other := by
  obtain ⟨bus, gain, delta⟩ := apart
  obtain ⟨words, buses⟩ := mix_send_frame ctrl ms samples st snd
  rw [SendFits, SendFits, words _ (by omega), words _ (by omega), buses _ bus]

/-- The sends of a millisecond, in unbounded integers. -/
def sent (st : PB × Buses) (l : List Send) : PB × Buses :=
  (l.foldlM (mix_send pure ctrl ms samples) st).val

theorem sends_give (count : samples.length = MS_SAMPLES) (l : List Send)
    (apart : l.Pairwise Apart) (st : PB × Buses) :
    Ran.Gives (l.foldlM (mix_send int32 ctrl ms samples) st) (sent ctrl ms samples st l)
      (∀ snd ∈ l, SendFits ctrl ms samples st snd) := by
  induction l generalizing st with
  | nil => exact (Ran.gives_pure st).congr (by simp)
  | cons snd l ih =>
      obtain ⟨first, rest⟩ := List.pairwise_cons.mp apart
      refine Ran.Gives.congr
        ((mix_send_gives ctrl ms samples count st snd).bind fun _ => ih rest _) ?_
      rw [List.forall_mem_cons]
      apply and_congr_right
      intro _
      exact forall₂_congr fun other member => send_fits_frame ctrl ms samples (first other member)

theorem sent_bus (l : List Send) (apart : l.Pairwise Apart) (st : PB × Buses) :
    (∀ bus, (∀ snd ∈ l, bus ≠ snd.bus) → (sent ctrl ms samples st l).2 bus = st.2 bus) ∧
      ∀ snd ∈ l, (sent ctrl ms samples st l).2 snd.bus =
        (mix_send pure ctrl ms samples st snd).val.2 snd.bus := by
  induction l generalizing st with
  | nil => exact ⟨fun _ _ => rfl, fun _ none => absurd none List.not_mem_nil⟩
  | cons first l ih =>
      obtain ⟨before, rest⟩ := List.pairwise_cons.mp apart
      obtain ⟨untouched, own⟩ := ih rest (mix_send pure ctrl ms samples st first).val
      obtain ⟨words, buses⟩ := mix_send_frame ctrl ms samples st first
      constructor
      · intro bus outside
        rw [List.forall_mem_cons] at outside
        exact (untouched bus outside.2).trans (buses bus outside.1)
      · intro snd member
        rcases List.mem_cons.mp member with rfl | later
        · exact untouched snd.bus fun other among => Ne.symm (before other among).1
        · obtain ⟨bus, gain, delta⟩ := before snd later
          refine (own snd later).trans ?_
          rw [mix_send_bus, mix_send_bus, words _ (by omega), words _ (by omega), buses _ bus]

end Sends

/-! A pass is one millisecond of one running voice: the block and the buses as the
pass finds them. -/

structure Pass where
  aram : Nat → BitVec 8
  ms : Nat
  pb : PB
  buses : Buses

namespace Pass

variable (p : Pass)

def converted : List Int :=
  (convert pure (ratio_of p.pb) MS_SAMPLES (load_converter p.pb p.aram)).val.1

/-- The samples that are mixed, in unbounded integers. -/
def enveloped : List Int :=
  (envelope pure (p.pb.w (PB_VOL_ENV + 1)) p.converted (p.pb.w PB_VOL_ENV)).val.1

def ctrl : BitVec 16 :=
  mix_ctrl (p.pb.w PB_MIXER_CTRL)

def gain (snd : Send) (k : Nat) : Int :=
  gain_at (has p.ctrl snd.ramp) (p.pb.w (PB_MIXER + snd.delta)).toInt
    (p.pb.w (PB_MIXER + snd.gain)).toNat k

/-- For each send that is on, every sample times its gain, and every sum into the
bus, stays in 32 bits. -/
def Fits : Prop :=
  ∀ snd ∈ sends, SendFits p.ctrl p.ms p.enveloped (p.pb, p.buses) snd

/-- Each output of the rate converter lies between its neighbours. -/
def Interpolates : Prop :=
  List.Forall₂ Between (neighbours (ratio_of p.pb) MS_SAMPLES (load_converter p.pb p.aram))
    (convert int32 (ratio_of p.pb) MS_SAMPLES (load_converter p.pb p.aram)).val.1

/-- What the program adds to each bus that is on is the sample times the volume
times the gain, each product rounded down to its fixed-point unit. -/
def Adds : Prop :=
  ∀ snd ∈ sends, has p.ctrl snd.bit → ∀ (k : Nat) (sample : Int),
    (convert int32 (ratio_of p.pb) MS_SAMPLES (load_converter p.pb p.aram)).val.1[k]? =
        some sample →
      (voice_ms int32 p.aram p.ms p.pb p.buses).val.2.1 snd.bus (p.ms * MS_SAMPLES + k) =
        p.buses snd.bus (p.ms * MS_SAMPLES + k) +
          sample * (volume_at (p.pb.w (PB_VOL_ENV + 1)) (p.pb.w PB_VOL_ENV) k).toNat / 2 ^ 15 *
            p.gain snd k / 2 ^ 15

theorem length_converted : p.converted.length = MS_SAMPLES :=
  (convert_fits _ _ _).1

theorem length_enveloped : p.enveloped.length = MS_SAMPLES :=
  (envelope_length _ _ _).trans p.length_converted

/-- The block and the buses after the pass's sends. -/
def after_sends : PB × Buses :=
  sent p.ctrl p.ms p.enveloped
    (p.pb.set PB_VOL_ENV
      (envelope pure (p.pb.w (PB_VOL_ENV + 1)) p.converted (p.pb.w PB_VOL_ENV)).val.2, p.buses)
    sends

theorem send_words : ∀ snd ∈ sends, snd.gain < 18 ∧ snd.delta < 18 := by decide

theorem send_fits_iff {snd : Send} (member : snd ∈ sends) (vol : BitVec 16) :
    SendFits p.ctrl p.ms p.enveloped (p.pb.set PB_VOL_ENV vol, p.buses) snd ↔
      SendFits p.ctrl p.ms p.enveloped (p.pb, p.buses) snd := by
  obtain ⟨gain, delta⟩ := send_words snd member
  have words : ∀ i < 18, (p.pb.set PB_VOL_ENV vol).w (PB_MIXER + i) = p.pb.w (PB_MIXER + i) :=
    fun i hi => p.pb.set_of_ne vol (by change 9 + i ≠ 50; omega)
  simp only [SendFits, words _ gain, words _ delta]

/-- The pass, with its pairs taken apart. -/
theorem voice_ms_eq (arith : Int → Ran Int) :
    voice_ms arith p.aram p.ms p.pb p.buses =
      convert arith (ratio_of p.pb) MS_SAMPLES (load_converter p.pb p.aram) >>= fun conv =>
        envelope arith (p.pb.w (PB_VOL_ENV + 1)) conv.1 (p.pb.w PB_VOL_ENV) >>= fun env =>
          sends.foldlM (mix_send arith p.ctrl p.ms env.1) (p.pb.set PB_VOL_ENV env.2, p.buses) >>=
            fun st => pure
              (if conv.2.v.stopped then (store_converter st.1 conv.2).set PB_RUNNING 0#16
                else store_converter st.1 conv.2, st.2, conv.2.v.stopped) := by
  have kept : ∀ vol, (p.pb.set PB_VOL_ENV vol).w PB_MIXER_CTRL = p.pb.w PB_MIXER_CTRL :=
    fun vol => p.pb.set_of_ne vol (by decide)
  simp only [voice_ms, kept]
  rfl

theorem voice_ms_gives :
    Ran.Gives (voice_ms int32 p.aram p.ms p.pb p.buses)
      (voice_ms pure p.aram p.ms p.pb p.buses).val p.Fits := by
  have fold := sends_give p.ctrl p.ms p.enveloped p.length_enveloped sends sends_apart
    (p.pb.set PB_VOL_ENV
      (envelope pure (p.pb.w (PB_VOL_ENV + 1)) p.converted (p.pb.w PB_VOL_ENV)).val.2, p.buses)
  have same : (∀ snd ∈ sends, SendFits p.ctrl p.ms p.enveloped (p.pb.set PB_VOL_ENV
      (envelope pure (p.pb.w (PB_VOL_ENV + 1)) p.converted (p.pb.w PB_VOL_ENV)).val.2,
        p.buses) snd) ↔ p.Fits :=
    forall₂_congr fun _ member => p.send_fits_iff member _
  rw [voice_ms_eq, voice_ms_eq]
  refine (convert_gives _ _ _).bind_of_true ?_
  refine (envelope_gives _ _ (convert_fits _ _ _).2 _).bind_of_true ?_
  refine Ran.Gives.congr ((fold.congr same).bind fun _ => Ran.gives_pure _) ?_
  exact iff_of_eq (and_true _)

theorem interpolates : p.Interpolates :=
  convert_between _ _ _

theorem adds_of_fits (fits : p.Fits) : p.Adds := by
  intro snd member on k sample found
  have converted : p.converted[k]? = some sample := by
    rw [(convert_gives _ _ _).val trivial] at found
    exact found
  have mixed_sample : p.enveloped[k]? = some (sample *
      (volume_at (p.pb.w (PB_VOL_ENV + 1)) (p.pb.w PB_VOL_ENV) k).toNat / 2 ^ 15) := by
    rw [enveloped, envelope_pure, converted, Option.map_some]
  obtain ⟨gain, delta⟩ := send_words snd member
  have words : ∀ (vol : BitVec 16), ∀ i < 18,
      (p.pb.set PB_VOL_ENV vol).w (PB_MIXER + i) = p.pb.w (PB_MIXER + i) :=
    fun vol i hi => p.pb.set_of_ne vol (by change 9 + i ≠ 50; omega)
  rw [p.voice_ms_gives.val fits]
  have buses : (voice_ms pure p.aram p.ms p.pb p.buses).val.2.1 = p.after_sends.2 := by
    rw [voice_ms_eq]
    rfl
  rw [buses, after_sends, (sent_bus p.ctrl p.ms p.enveloped sends sends_apart _).2 snd member,
    mix_send_bus, if_pos on, mixed_bus, if_pos (Nat.le_add_right _ _), Nat.add_sub_cancel_left,
    mixed_sample, words _ _ gain, words _ _ delta]
  rfl

end Pass

/-! The passes of a voice and of a run. -/

section Runs

variable {ρ : Type} (rt : Runtime ρ)

/-- The block and the guest when millisecond `ms` starts. -/
def updated (s : CpuState ρ) (pb : PB) (ms : Nat) : PB × CpuState ρ :=
  if ms ≠ 0 then apply_updates rt s pb ms else (pb, s)

theorem voice_loop_cons (arith : Int → Ran Int) (aram : Nat → BitVec 8) (ms : Nat)
    (rest : List Nat) (s : CpuState ρ) (pb : PB) (buses : Buses) :
    voice_loop arith rt aram (ms :: rest) s pb buses =
      if (updated rt s pb ms).1.w PB_RUNNING = 0#16 then
        pure ((updated rt s pb ms).2, (updated rt s pb ms).1, buses)
      else
        voice_ms arith aram ms (updated rt s pb ms).1 buses >>= fun r =>
          if r.2.2 then pure ((updated rt s pb ms).2, r.1, r.2.1)
          else voice_loop arith rt aram rest (updated rt s pb ms).2 r.1 r.2.1 := rfl

/-- The passes of a voice's loop, run in unbounded integers. -/
def voice_passes (aram : Nat → BitVec 8) :
    List Nat → CpuState ρ → PB → Buses → List Pass
  | [], _, _, _ => []
  | ms :: rest, s, pb, buses =>
      let (pb, s) := updated rt s pb ms
      if pb.w PB_RUNNING = 0#16 then []
      else
        let r := (voice_ms pure aram ms pb buses).val
        ⟨aram, ms, pb, buses⟩ :: if r.2.2 then [] else voice_passes aram rest s r.1 r.2.1

theorem voice_loop_gives (aram : Nat → BitVec 8) (mss : List Nat) (s : CpuState ρ) (pb : PB)
    (buses : Buses) :
    Ran.Gives (voice_loop int32 rt aram mss s pb buses)
      (voice_loop pure rt aram mss s pb buses).val
      (∀ p ∈ voice_passes rt aram mss s pb buses, p.Fits) := by
  induction mss generalizing s pb buses with
  | nil => exact (Ran.gives_pure _).congr (by simp [voice_passes])
  | cons ms rest ih =>
      rw [voice_loop_cons, voice_loop_cons, voice_passes]
      cases started : updated rt s pb ms with
      | mk pb s =>
          simp only []
          by_cases running : pb.w PB_RUNNING = 0#16
          · rw [if_pos running, if_pos running, if_pos running]
            exact (Ran.gives_pure _).congr (by simp)
          · rw [if_neg running, if_neg running, if_neg running]
            have pass := Pass.voice_ms_gives ⟨aram, ms, pb, buses⟩
            cases left : (voice_ms pure aram ms pb buses).val with
            | mk pb' tail =>
                obtain ⟨buses', stopped⟩ := tail
                rw [Ran.val_bind]
                simp only [left] at pass ⊢
                cases stopped with
                | true =>
                    refine Ran.Gives.congr (pass.bind fun _ => Ran.gives_pure _) ?_
                    simp only [if_true, List.forall_mem_singleton, and_true]
                | false =>
                    refine Ran.Gives.congr (pass.bind fun _ => ih _ _ _) ?_
                    simp only [Bool.false_eq_true, if_false, List.forall_mem_cons]

/-- The passes of `process_voice`. -/
def process_passes (addr : Word) (m : Machine ρ) : List Pass :=
  let (pb, s) := pb_read rt m.cpu addr
  let (pb, s) := apply_updates rt s pb 0
  if pb.w PB_RUNNING = 0#16 then []
  else voice_passes rt m.aram [0, 1, 2, 3, 4] s pb m.buses

theorem process_voice_gives (addr : Word) (m : Machine ρ) :
    Ran.Gives (process_voice int32 rt addr m.aram m.cpu m.buses)
      (process_voice pure rt addr m.aram m.cpu m.buses).val
      (∀ p ∈ process_passes rt addr m, p.Fits) := by
  rw [process_voice, process_voice, process_passes]
  cases read : pb_read rt m.cpu addr with
  | mk pb s =>
      simp only []
      cases started : apply_updates rt s pb 0 with
      | mk pb s =>
          simp only []
          by_cases running : pb.w PB_RUNNING = 0#16
          · rw [if_pos running, if_pos running, if_pos running]
            exact (Ran.gives_pure _).congr (by simp)
          · rw [if_neg running, if_neg running, if_neg running]
            refine Ran.Gives.congr
              ((voice_loop_gives rt m.aram _ s pb m.buses).bind fun _ => Ran.gives_pure _) ?_
            exact iff_of_eq (and_true _)

def act_passes (m : Machine ρ) : Act ρ → List Pass
  | .voice addr => process_passes rt addr m
  | .other _ => []

theorem act_gives (m : Machine ρ) (a : Act ρ) :
    Ran.Gives (act int32 rt m a) (act pure rt m a).val (∀ p ∈ act_passes rt m a, p.Fits) := by
  cases a with
  | voice addr =>
      refine Ran.Gives.congr
        ((process_voice_gives rt addr m).bind fun _ => Ran.gives_pure _) ?_
      exact iff_of_eq (and_true _)
  | other after => exact (Ran.gives_pure after).congr (by simp [act_passes])

/-- Every pass of a run, as the run in unbounded integers finds it. -/
def run_passes (m : Machine ρ) : List (Act ρ) → List Pass
  | [] => []
  | a :: acts => act_passes rt m a ++ run_passes (act pure rt m a).val acts

theorem run_gives (m : Machine ρ) (acts : List (Act ρ)) :
    Ran.Gives (run int32 rt m acts) (run pure rt m acts).val
      (∀ p ∈ run_passes rt m acts, p.Fits) := by
  induction acts generalizing m with
  | nil => exact (Ran.gives_pure m).congr (by simp [run_passes])
  | cons a acts ih =>
      refine Ran.Gives.congr ((act_gives rt m a).bind fun _ => ih _) ?_
      rw [run_passes, List.forall_mem_append]

/-- Over any run: no operation overflows, the run is the one in unbounded integers,
the converter stays between neighbouring samples and each bus gets exactly the
fixed-point product, if and only if every product with a gain and every sum into a
bus fits. -/
theorem mixer_run_iff (m : Machine ρ) (acts : List (Act ρ)) :
    ((run int32 rt m acts).overflowed = false ∧
        (run int32 rt m acts).val = (run pure rt m acts).val ∧
        ∀ p ∈ run_passes rt m acts, p.Interpolates ∧ p.Adds) ↔
      ∀ p ∈ run_passes rt m acts, p.Fits := by
  have gives := run_gives rt m acts
  constructor
  · rintro ⟨clean, -, -⟩
    exact gives.clean_iff.mp clean
  · intro fits
    refine ⟨gives.clean_iff.mpr fits, gives.val fits, ?_⟩
    intro p member
    exact ⟨p.interpolates, p.adds_of_fits (fits p member)⟩

end Runs

/-- No device answers and nothing is called. -/
def quiet_runtime : Runtime Unit :=
  { mmio_read8 := fun s _ => (0#8, s), mmio_read16 := fun s _ => (0#16, s)
    mmio_read32 := fun s _ => (0#32, s), mmio_write8 := fun s _ _ => s
    mmio_write16 := fun s _ _ => s, mmio_write32 := fun s _ _ => s
    gx_pipe_write := fun s _ _ => s, guest_timebase_lo := fun s => (0#32, s)
    guest_timebase_hi := fun s => (0#32, s), dec_read := fun s => (0#32, s)
    dec_write := fun s _ => s, guest_syscall := fun s _ => s, guest_trap := fun s _ => s
    guest_unimplemented := fun s _ => s, irq_poll := fun s => s, hook := fun _ s => s
    trace_hit := fun _ s => s, fn := fun _ s => s, dispatch := fun s _ => s }

/-- A silent stretch at full-scale negative, volume and left gain at their largest. -/
def hot_block : PB :=
  ⟨fun i =>
    if i = PB_RUNNING then 1#16
    else if i = PB_MIXER + MX_L ∨ i = PB_VOL_ENV then 0xFFFF#16
    else if i = PB_SRC + 1 then 0x800#16
    else if i = PB_SRC + 5 ∨ i = PB_SRC + 6 then 0x8000#16
    else 0#16⟩

def hot_machine : Machine Unit :=
  { cpu :=
      { gpr := fun _ => 0, fpr := fun _ => (0, 0), cr := 0, xer := 0, lr := 0, ctr := 0
        fpscr := 0, msr := 0, pc := 0, gqr := fun _ => 0, hid2 := 0, wpar := 0
        spr := fun _ => 0, sr := fun _ => 0
        mem := fun a =>
          let word := hot_block.w ((a - 0x1000) / 2)
          if a % 2 = 0 then word.extractLsb' 8 8 else word.setWidth 8
        user := () }
    buses := fun _ _ => 0
    aram := fun _ => 0#8 }

/-- The product wraps: the left bus gets 3 where the exact one gets -131069. -/
theorem hot_overflows :
    (run int32 quiet_runtime hot_machine [.voice 0x1000#32]).overflowed = true ∧
      (run int32 quiet_runtime hot_machine [.voice 0x1000#32]).val.buses (.main, 0) 0 = 3 ∧
      (run pure quiet_runtime hot_machine [.voice 0x1000#32]).val.buses (.main, 0) 0 =
        -131069 := by
  decide

/-- At unity volume or below no gain makes the product overflow. -/
theorem product_fits_of_unity {sample volume gain : Int} (small : Fits 16 sample)
    (volume_low : 0 ≤ volume) (unity : volume ≤ 2 ^ 15) (gain_low : -2 ^ 16 < gain)
    (gain_high : gain < 2 ^ 16) : Fits 32 (sample * volume / 2 ^ 15 * gain) := by
  rw [fits16_iff] at small
  have low : -2 ^ 15 ≤ sample * volume / 2 ^ 15 := by
    apply Int.le_ediv_of_mul_le (by norm_num)
    nlinarith
  have high : sample * volume / 2 ^ 15 ≤ 2 ^ 15 := by
    apply Int.ediv_le_of_le_mul (by norm_num)
    nlinarith
  have size : |sample * volume / 2 ^ 15 * gain| ≤ 2 ^ 15 * (2 ^ 16 - 1) := by
    rw [abs_mul]
    exact mul_le_mul (abs_le.mpr ⟨low, high⟩) (abs_le.mpr ⟨by omega, by omega⟩) (abs_nonneg _)
      (by norm_num)
  obtain ⟨below, above⟩ := abs_le.mp size
  exact ⟨le_trans (by norm_num) below, lt_of_le_of_lt above (by norm_num)⟩

end SoaPort.Sound
