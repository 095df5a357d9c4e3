import SoaPort.Lib.Once
import SoaPort.Mods.Factor

namespace SoaPort.Mods

open Lib Recomp

variable {ρ : Type} (rt : Runtime ρ) {text : Text}

/-! ### A value at its width -/

section Values

variable {p : Patch} {width : Width}

theorem bits_le (width : Width) : 2 ^ (8 * width.bytes) ≤ 2 ^ 32 := by
  cases width <;> decide

theorem mask_low (n : Nat) (width : Width) :
    n &&& (2 ^ (8 * width.bytes) - 1) = n % 2 ^ (8 * width.bytes) :=
  Nat.and_two_pow_sub_one_eq_mod n _

theorem number_inj {v w : Word} (low : v.toNat < 2 ^ (8 * width.bytes))
    (low' : w.toNat < 2 ^ (8 * width.bytes)) (same : width.number v = width.number w) : v = w := by
  apply BitVec.eq_of_toNat_eq
  simp only [Width.number, Nat.mod_eq_of_lt low, Nat.mod_eq_of_lt low'] at same
  cases width <;> simp only [Width.bytes, Width.sign] at same low low' <;> split_ifs at same <;>
    omega

theorem scaled_unsigned (unsigned : p.width.sign = false) (was : Word) :
    ((scaled was p).toNat : Int) = p.factored (p.width.number was) := by
  have top := bits_le p.width
  have some : 0 < 2 ^ (8 * p.width.bytes) := Nat.two_pow_pos _
  have whole : (2 : Int) ^ (8 * p.width.bytes) = (2 ^ (8 * p.width.bytes) : Nat) := by simp
  simp only [scaled, Patch.factored, Width.number, Width.least, Width.greatest, unsigned, mask_low,
    Bool.false_eq_true, if_false, false_and, whole]
  generalize 2 ^ (8 * p.width.bytes) = m at top some
  rw [← Int.natCast_mul, ← Int.ofNat_tdiv, BitVec.toNat_ofNat]
  generalize was.toNat % m * p.value.toNat / p.den = q
  split <;> omega

theorem clamp_eq {lo hi : Int} (order : lo ≤ hi) (q : Int) :
    (if q < lo then lo else if q > hi then hi else q) = max lo (min hi q) := by
  split_ifs <;> omega

theorem scaled_signed (signed : p.width.sign = true) (was : Word) :
    scaled was p = BitVec.ofInt 32 (p.factored (p.width.number was)) &&&
      BitVec.ofNat 32 (2 ^ (8 * p.width.bytes) - 1) := by
  have positive : (0 : Int) < 2 ^ (8 * p.width.bytes - 1) := by positivity
  have lowest : -((2 : Int) ^ (8 * p.width.bytes - 1) - 1) - 1 =
      -2 ^ (8 * p.width.bytes - 1) := by
    omega
  have past (n : Nat) : (n : Int) > 2 ^ (8 * p.width.bytes - 1) - 1 ↔
      (2 : Int) ^ (8 * p.width.bytes - 1) ≤ n := by
    omega
  simp only [scaled, Patch.factored, Width.number, Width.least, Width.greatest, signed, mask_low,
    if_true, true_and, lowest, past]
  rw [clamp_eq (by omega)]

theorem factored_clamped (p : Patch) (n : Int) :
    p.width.least ≤ p.factored n ∧ p.factored n ≤ p.width.greatest := by
  have order : p.width.least ≤ p.width.greatest := by
    cases p.width <;> decide
  simp only [Patch.factored]
  omega

theorem scaled_low (p : Patch) (was : Word) :
    (scaled was p).toNat < 2 ^ (8 * p.width.bytes) := by
  cases sign : p.width.sign with
  | false =>
      have value := scaled_unsigned sign was
      have high := (factored_clamped p (p.width.number was)).2
      simp only [Width.greatest, sign] at high
      rw [← value] at high
      have whole : (2 : Int) ^ (8 * p.width.bytes) = (2 ^ (8 * p.width.bytes) : Nat) := by simp
      simp only [Bool.false_eq_true, if_false, whole] at high
      omega
  | true =>
      have some : 0 < 2 ^ (8 * p.width.bytes) := Nat.two_pow_pos _
      have top := bits_le p.width
      have mask : (BitVec.ofNat 32 (2 ^ (8 * p.width.bytes) - 1)).toNat =
          2 ^ (8 * p.width.bytes) - 1 := by
        rw [BitVec.toNat_ofNat]
        exact Nat.mod_eq_of_lt (by omega)
      rw [scaled_signed sign, BitVec.toNat_and, mask, mask_low]
      exact Nat.mod_lt _ some

theorem masked_toNat (width : Width) (n : Int) :
    ((BitVec.ofInt 32 n &&& BitVec.ofNat 32 (2 ^ (8 * width.bytes) - 1)).toNat : Int) =
      n % 2 ^ (8 * width.bytes) := by
  have some : 0 < 2 ^ (8 * width.bytes) := Nat.two_pow_pos _
  have top := bits_le width
  have divides : (2 : Int) ^ (8 * width.bytes) ∣ 2 ^ 32 :=
    pow_dvd_pow 2 (by cases width <;> decide)
  have mask : (BitVec.ofNat 32 (2 ^ (8 * width.bytes) - 1)).toNat =
      2 ^ (8 * width.bytes) - 1 := by
    rw [BitVec.toNat_ofNat]
    exact Nat.mod_eq_of_lt (by omega)
  have kept : ((BitVec.ofInt 32 n).toNat : Int) = n % 2 ^ 32 := by
    rw [BitVec.toNat_ofInt]
    exact Int.toNat_of_nonneg (Int.emod_nonneg _ (by decide))
  rw [BitVec.toNat_and, mask, mask_low, Int.natCast_emod, kept]
  exact (congrArg _ (by simp)).trans (Int.emod_emod_of_dvd n divides)

/-- A clamped number, masked to a signed width, is read back. -/
theorem number_masked {width : Width} (signed : width.sign = true) {n : Int}
    (low : width.least ≤ n) (high : n ≤ width.greatest) :
    width.number (BitVec.ofInt 32 n &&& BitVec.ofNat 32 (2 ^ (8 * width.bytes) - 1)) = n := by
  have value := masked_toNat width n
  generalize BitVec.ofInt 32 n &&& BitVec.ofNat 32 (2 ^ (8 * width.bytes) - 1) = v at value
  simp only [Width.number, Width.least, Width.greatest, signed, if_true, true_and] at low high ⊢
  cases width <;> simp only [Width.sign, Width.bytes, Bool.false_eq_true] at signed value low high ⊢ <;>
    split_ifs <;> omega

/-- The bits written are the number times the factor. -/
theorem number_scaled (p : Patch) (was : Word) :
    p.width.number (scaled was p) = p.factored (p.width.number was) := by
  obtain ⟨low, high⟩ := factored_clamped p (p.width.number was)
  cases sign : p.width.sign with
  | false =>
      have small := scaled_low p was
      rw [← scaled_unsigned sign was, Width.number, sign, Nat.mod_eq_of_lt small]
      exact if_neg fun both => Bool.false_ne_true both.1
  | true =>
      rw [scaled_signed sign was]
      exact number_masked sign low high

/-- Two values of a width are the same when their numbers are. -/
theorem scaled_eq_iff {v : Word} (small : v.toNat < 2 ^ (8 * p.width.bytes)) (was : Word) :
    v = scaled was p ↔ p.width.number v = p.factored (p.width.number was) := by
  rw [← number_scaled]
  exact ⟨congrArg _, number_inj small (scaled_low p was)⟩

end Values

/-! ### One target's turn -/

section Targets

theorem readBE_writeBE (mem : Nat → BitVec 8) (q n v : Nat) :
    Arch.readBE (Arch.writeBE mem q n v) q n = v % 256 ^ n := by
  have digits (k : Nat) (within : k ≤ n) :
      Arch.readBE (Arch.writeBE mem q n v) q k = v / 256 ^ (n - k) % 256 ^ k := by
    induction k with
    | zero => rw [Arch.readBE, Nat.pow_zero, Nat.mod_one]
    | succ k ih =>
        have next : n - k = n - 1 - k + 1 := by omega
        have after : n - (k + 1) = n - 1 - k := by omega
        rw [Arch.readBE, ih (by omega), writeBE_at mem q n v k (by omega) rfl, BitVec.toNat_ofNat,
          next, after, Nat.pow_mul, Nat.pow_succ 256 k, Nat.mul_comm (256 ^ k) 256, Nat.mod_mul,
          Nat.pow_succ, ← Nat.div_div_eq_div_mul, Nat.add_comm, Nat.mul_comm]
  rw [digits n le_rfl, Nat.sub_self, Nat.pow_zero, Nat.div_one]

variable {width : Width} {ea : Nat}

theorem held_keeps (inside : InRam ea width.bytes) {s s' : CpuState ρ}
    (same : ∀ a, Within ea width.bytes a → s'.mem a = s.mem a) :
    held width ea s' = held width ea s := by
  have low := inside.1
  rw [held, held, readBE_congr fun a above below => same a ⟨by omega, by omega⟩]

theorem held_low (width : Width) (ea : Nat) (s : CpuState ρ) :
    (held width ea s).toNat < 2 ^ (8 * width.bytes) := by
  have bytes (n : Nat) : Arch.readBE s.mem (ea - 0x80000000) n < 2 ^ (8 * n) := by
    induction n with
    | zero => exact Nat.one_pos
    | succ n ih =>
        have byte := (s.mem (ea - 0x80000000 + n)).isLt
        have digit : 2 ^ (8 * (n + 1)) = 2 ^ (8 * n) * 256 := by rw [Nat.mul_add, Nat.pow_add]
        rw [Arch.readBE, digit]
        omega
  rw [held, BitVec.toNat_ofNat]
  exact (Nat.mod_le _ _).trans_lt (bytes _)

theorem held_written (inside : InRam ea width.bytes) {v : Word}
    (small : v.toNat < 2 ^ (8 * width.bytes)) (s : CpuState ρ) :
    held width ea (write_n rt s (BitVec.ofNat 32 ea) width.bytes v) = v := by
  rw [write_n_ram rt inside, held, readBE_writeBE, Nat.mod_eq_of_lt]
  · exact BitVec.ofNat_toNat .. |>.trans (BitVec.setWidth_eq v)
  · rwa [Nat.pow_mul] at small

/-- Bytes of one target among another's. -/
def Meet (ea n ea' n' : Nat) : Prop := ea' < ea + n ∧ ea < ea' + n'

theorem Meet.of_within {n ea' n' a : Nat} (first : Within ea n a) (second : Within ea' n' a) :
    Meet ea n ea' n' := by
  obtain ⟨low, high⟩ := first
  obtain ⟨low', high'⟩ := second
  exact ⟨by omega, by omega⟩

/-- What a slot remembers, and where. -/
def Slot.memo (sl : Slot) : Option ((Word × Word) × Word) :=
  if sl.set then some ((sl.key, sl.addr), sl.wrote) else none

theorem Slot.memo_eq (sl : Slot) (key addr v : Word) :
    sl.memo = some ((key, addr), v) ↔
      sl.set ∧ sl.key = key ∧ sl.addr = addr ∧ sl.wrote = v := by
  rw [Slot.memo]
  split
  case isTrue set => simp [set, and_assoc]
  case isFalse unset => simp [unset]

/-- A target's value and its slot, as what a factor is to be applied to once. -/
def once_of (width : Width) (ea : Nat) (k : Watch) (s : CpuState ρ) (sl : Slot) :
    Once Word (Word × Word) :=
  ⟨held width ea s, k.orig, k.wrote, sl.memo⟩

variable {p : Patch} {key : Word} {base z : Nat} {a : Applying ρ}

/-- One target's step leaves the bytes it does not meet. -/
theorem target_held (inside : InRam ea width.bytes)
    (clear : target_ok text (base + z * p.stride) p.width.bytes = true →
      ¬ Meet ea width.bytes (base + z * p.stride) p.width.bytes) :
    held width ea (apply_target rt text p key base a z).s = held width ea a.s := by
  apply held_keeps inside
  intro b within
  have step := @apply_target_local _ rt text p key base z (a.g_slots, a.written)
  apply step.keeps a.s b
  intro touched
  exact clear touched.1 (.of_within within touched.2)

theorem target_slot {idx : Nat} (other : p.slot + (z - p.z0) ≠ idx) :
    (apply_target rt text p key base a z).g_slots idx = a.g_slots idx := by
  rw [apply_target]
  dsimp only
  split
  · rfl
  · split
    · split
      · rfl
      · exact Function.update_of_ne other.symm ..
    · rfl

/-- The watched target's own step. -/
theorem target_once (mul : p.mul = true) (at_ea : base + z * p.stride = ea)
    (ok : target_ok text ea p.width.bytes = true) (k : Watch) :
    let b := apply_target rt text p key base a z
    let idx := p.slot + (z - p.z0)
    (once_of p.width ea k b.s (b.g_slots idx)).value =
        ((once_of p.width ea k a.s (a.g_slots idx)).apply (scaled · p)
          (key, BitVec.ofNat 32 ea)).value ∧
      (once_of p.width ea k b.s (b.g_slots idx)).memo =
        ((once_of p.width ea k a.s (a.g_slots idx)).apply (scaled · p)
          (key, BitVec.ofNat 32 ea)).memo := by
  have inside := target_ok_ram ok
  subst at_ea
  dsimp only
  rw [target_scaled rt ok mul, Once.apply]
  simp only [once_of, Slot.memo_eq]
  rw [read_n_ram rt inside]
  change (held p.width _ (ite _ _ _ : Applying ρ).s = _) ∧ _
  dsimp only
  have same : BitVec.ofNat 32 (Arch.readBE a.s.mem (base + z * p.stride - 0x80000000)
      p.width.bytes) = held p.width (base + z * p.stride) a.s := rfl
  rw [same]
  split
  case isTrue known => exact ⟨rfl, rfl⟩
  case isFalse other =>
    refine ⟨held_written rt inside (scaled_low p _) _, ?_⟩
    dsimp only
    rw [Function.update_self]
    rfl

/-- What a patch does to a target it is not at: at most its slot is given to
another address. -/
structure Aside (width : Width) (ea : Nat) (s s' : CpuState ρ) (sl sl' : Slot) : Prop where
  held : held width ea s' = held width ea s
  memo : sl'.memo = sl.memo ∨
    ∃ m : (Word × Word) × Word, sl'.memo = some m ∧ m.1.2 ≠ BitVec.ofNat 32 ea

theorem Aside.same {s s' : CpuState ρ} {sl sl' : Slot}
    (held_same : Mods.held width ea s' = Mods.held width ea s) (slot_same : sl' = sl) :
    Aside width ea s s' sl sl' :=
  ⟨held_same, .inl (congrArg _ slot_same)⟩

theorem target_aside (mul : p.mul = true) (inside : InRam ea width.bytes)
    (off : target_ok text (base + z * p.stride) p.width.bytes = true → base + z * p.stride ≠ ea)
    (clear : target_ok text (base + z * p.stride) p.width.bytes = true →
      ¬ Meet ea width.bytes (base + z * p.stride) p.width.bytes) :
    Aside width ea a.s (apply_target rt text p key base a z).s (a.g_slots (p.slot + (z - p.z0)))
      ((apply_target rt text p key base a z).g_slots (p.slot + (z - p.z0))) := by
  refine ⟨target_held rt inside clear, ?_⟩
  cases ok : target_ok text (base + z * p.stride) p.width.bytes with
  | false => exact .inl (by rw [target_passed rt ok])
  | true =>
      have there := target_ok_ram ok
      rw [target_scaled rt ok mul]
      dsimp only
      split
      · exact .inl rfl
      · refine .inr ⟨_, by dsimp only; rw [Function.update_self]; rfl, fun same => off ok ?_⟩
        have low := there.2
        have low' := inside.2
        have number := congrArg BitVec.toNat same
        rw [MEM1_SIZE] at low low'
        rw [BitVec.toNat_ofNat, BitVec.toNat_ofNat, Nat.mod_eq_of_lt (by omega),
          Nat.mod_eq_of_lt (by omega)] at number
        exact number

/-- A run of targets none of which meets the bytes. -/
theorem run_held {run : List Nat} (inside : InRam ea width.bytes)
    (clear : ∀ y ∈ run, target_ok text (base + y * p.stride) p.width.bytes = true →
      ¬ Meet ea width.bytes (base + y * p.stride) p.width.bytes) :
    held width ea (run.foldl (apply_target rt text p key base) a).s = held width ea a.s := by
  induction run generalizing a with
  | nil => rfl
  | cons y run ih =>
      rw [List.foldl_cons, ih fun x later => clear x (List.mem_cons_of_mem _ later)]
      exact target_held rt inside (clear y List.mem_cons_self)

theorem run_slot {run : List Nat} {idx : Nat}
    (others : ∀ y ∈ run, p.slot + (y - p.z0) ≠ idx) :
    (run.foldl (apply_target rt text p key base) a).g_slots idx = a.g_slots idx := by
  induction run generalizing a with
  | nil => rfl
  | cons y run ih =>
      rw [List.foldl_cons, ih fun x later => others x (List.mem_cons_of_mem _ later)]
      exact target_slot rt (others y List.mem_cons_self)

theorem run_split (member : z ∈ p.run) : ∃ earlier later, p.run = earlier ++ z :: later ∧
    ∀ y, y ∈ earlier ∨ y ∈ later → y ∈ p.run ∧ p.slot + (y - p.z0) ≠ p.slot + (z - p.z0) := by
  have nodup : p.run.Nodup := List.nodup_range'
  obtain ⟨earlier, later, split⟩ := List.append_of_mem member
  refine ⟨earlier, later, split, fun y either => ?_⟩
  have y_in : y ∈ p.run := by
    rw [split, List.mem_append, List.mem_cons]
    exact either.imp_right .inr
  have first : p.z0 ≤ y := (List.mem_range'_1.mp y_in).1
  have first' : p.z0 ≤ z := (List.mem_range'_1.mp member).1
  have other : y ≠ z := by
    rw [split, List.nodup_append, List.nodup_cons] at nodup
    rintro rfl
    rcases either with before | after
    · exact nodup.2.2 y before y List.mem_cons_self rfl
    · exact nodup.2.1.1 after
  exact ⟨y_in, by omega⟩

end Targets

/-! ### One patch's turn -/

section Turns

variable {p : Patch} {w : When} {base : Word} {z ea : Nat} {s : CpuState ρ} {g_slots : Nat → Slot}

/-- The patch writes no other target's bytes among these. -/
def Patch.Only (text : Text) (w : When) (p : Patch) (base : Word) (z ea : Nat) : Prop :=
  ∀ y at_, p.WritesAt text w base y at_ → Meet ea p.width.bytes at_ p.width.bytes → y = z ∧ at_ = ea

theorem mul_m6 (mul : p.mul = true) : is_m6 p = true := by
  simp [is_m6, mul]

theorem writes_iff (mul : p.mul = true) :
    p.WritesAt text w base z ea ↔ p.skipped w = false ∧ ¬ p.Passed base w.key ∧ z ∈ p.run ∧
      p.target base z = ea ∧ target_ok text ea p.width.bytes = true := by
  rw [Patch.WritesAt, if_pos (mul_m6 mul)]

/-- Where a patch's steps are counted from. -/
abbrev Patch.counted (p : Patch) (base : Word) : Nat :=
  (if p.ptr then base.toNat else 0) + p.origin

/-- A patch that is passed over, or passes its targets over. -/
theorem patch_idle (sound : p.Sound) (mul : p.mul = true)
    (idle : p.skipped w = true ∨ p.Passed (mem_r32 rt s p.ea).1 w.key) :
    (patch_step rt text w p g_slots s).2 = (g_slots, s) := by
  rw [patch_step_at rt sound, step_at]
  by_cases skipped : p.skipped w = true
  · rw [if_pos skipped]
  · rw [if_neg skipped, if_pos (mul_m6 mul), apply_at, if_pos (idle.resolve_left skipped)]

theorem patch_runs (sound : p.Sound) (mul : p.mul = true) (applies : p.skipped w = false)
    (open_ : ¬ p.Passed (mem_r32 rt s p.ea).1 w.key) :
    let b := p.run.foldl (apply_target rt text p w.key (p.counted (mem_r32 rt s p.ea).1))
      ⟨s, g_slots, 0⟩
    (patch_step rt text w p g_slots s).2 = (b.g_slots, b.s) := by
  rw [patch_step_at rt sound, step_at, applies, if_neg Bool.false_ne_true, if_pos (mul_m6 mul),
    apply_at, if_neg open_]

/-- The patch at the watched target. -/
theorem patch_once (sound : p.Sound) (mul : p.mul = true)
    (writes : p.WritesAt text w (mem_r32 rt s p.ea).1 z ea)
    (only : p.Only text w (mem_r32 rt s p.ea).1 z ea) (k : Watch) :
    let r := patch_step rt text w p g_slots s
    let idx := p.slot + (z - p.z0)
    (once_of p.width ea k r.2.2 (r.2.1 idx)).value =
        ((once_of p.width ea k s (g_slots idx)).apply (scaled · p)
          (w.key, BitVec.ofNat 32 ea)).value ∧
      (once_of p.width ea k r.2.2 (r.2.1 idx)).memo =
        ((once_of p.width ea k s (g_slots idx)).apply (scaled · p)
          (w.key, BitVec.ofNat 32 ea)).memo := by
  obtain ⟨applies, open_, member, at_ea, ok⟩ := (writes_iff mul).mp writes
  obtain ⟨earlier, later, split, others⟩ := run_split member
  have inside := target_ok_ram ok
  have clear (y : Nat) (either : y ∈ earlier ∨ y ∈ later)
      (ok' : target_ok text (p.target (mem_r32 rt s p.ea).1 y) p.width.bytes = true) :
      ¬ Meet ea p.width.bytes (p.target (mem_r32 rt s p.ea).1 y) p.width.bytes := by
    intro meet
    obtain ⟨y_in, other⟩ := others y either
    have same := (only y _ ((writes_iff mul).mpr ⟨applies, open_, y_in, rfl, ok'⟩) meet).1
    exact other (by rw [same])
  dsimp only
  rw [patch_runs rt sound mul applies open_, split, List.foldl_append, List.foldl_cons]
  have held_first := @run_held _ rt text p.width ea p w.key _ ⟨s, g_slots, 0⟩ earlier inside
    fun y before => clear y (.inl before)
  have slot_first := @run_slot _ rt text p w.key (p.counted (mem_r32 rt s p.ea).1) ⟨s, g_slots, 0⟩
    earlier (p.slot + (z - p.z0)) fun y before => (others y (.inl before)).2
  have turn := @target_once _ rt text ea p w.key _ z (earlier.foldl (apply_target rt text p w.key
    (p.counted (mem_r32 rt s p.ea).1)) ⟨s, g_slots, 0⟩) mul at_ea ok k
  dsimp only [once_of] at turn ⊢
  rw [run_held rt inside fun y after => clear y (.inr after),
    run_slot rt fun y after => (others y (.inr after)).2]
  rw [held_first, slot_first] at turn
  exact turn

/-- The patch elsewhere. -/
theorem patch_aside (sound : p.Sound) (mul : p.mul = true) (inside : InRam ea p.width.bytes)
    (member : z ∈ p.run) (writes : ¬ p.WritesAt text w (mem_r32 rt s p.ea).1 z ea)
    (only : p.Only text w (mem_r32 rt s p.ea).1 z ea) :
    let r := patch_step rt text w p g_slots s
    Aside p.width ea s r.2.2 (g_slots (p.slot + (z - p.z0))) (r.2.1 (p.slot + (z - p.z0))) := by
  dsimp only
  by_cases idle : p.skipped w = true ∨ p.Passed (mem_r32 rt s p.ea).1 w.key
  · rw [patch_idle rt sound mul idle]
    exact .same rfl rfl
  · rw [not_or, Bool.not_eq_true] at idle
    obtain ⟨applies, open_⟩ := idle
    obtain ⟨earlier, later, split, others⟩ := run_split member
    have clear (y : Nat) (y_in : y ∈ p.run)
        (ok : target_ok text (p.target (mem_r32 rt s p.ea).1 y) p.width.bytes = true) :
        ¬ Meet ea p.width.bytes (p.target (mem_r32 rt s p.ea).1 y) p.width.bytes := by
      intro meet
      have writes_y := (writes_iff mul).mpr ⟨applies, open_, y_in, rfl, ok⟩
      obtain ⟨rfl, at_ea⟩ := only y _ writes_y meet
      exact writes (at_ea ▸ writes_y)
    have off (ok : target_ok text (p.target (mem_r32 rt s p.ea).1 z) p.width.bytes = true) :
        p.target (mem_r32 rt s p.ea).1 z ≠ ea := by
      intro at_ea
      exact writes ((writes_iff mul).mpr ⟨applies, open_, member, at_ea, at_ea ▸ ok⟩)
    have part (run : List Nat) (among : ∀ y ∈ run, y ∈ earlier ∨ y ∈ later) (a : Applying ρ) :
        let b := run.foldl (apply_target rt text p w.key (p.counted (mem_r32 rt s p.ea).1)) a
        held p.width ea b.s = held p.width ea a.s ∧
          b.g_slots (p.slot + (z - p.z0)) = a.g_slots (p.slot + (z - p.z0)) :=
      ⟨run_held rt inside fun y y_in => clear y (others y (among y y_in)).1,
        run_slot rt fun y y_in => (others y (among y y_in)).2⟩
    rw [patch_runs rt sound mul applies open_, split, List.foldl_append, List.foldl_cons]
    obtain ⟨held_first, slot_first⟩ := part earlier (fun y y_in => .inl y_in) ⟨s, g_slots, 0⟩
    generalize earlier.foldl _ _ = a at held_first slot_first ⊢
    have turn := @target_aside _ rt text p.width ea p w.key (p.counted (mem_r32 rt s p.ea).1) z a
      mul inside off (clear z member)
    rw [slot_first] at turn
    obtain ⟨held_rest, slot_rest⟩ := part later (fun y y_in => .inr y_in)
      (apply_target rt text p w.key (p.counted (mem_r32 rt s p.ea).1) a z)
    constructor
    · exact held_rest.trans (turn.held.trans held_first)
    · dsimp only
      rw [slot_rest]
      exact turn.memo

/-- A patch writes only where it writes a target. -/
theorem turn_keeps {q : Patch} (sound : q.Sound) {b : Nat}
    (off : ∀ y at_, q.WritesAt text w (mem_r32 rt s q.ea).1 y at_ → ¬ Within at_ q.width.bytes b) :
    (patch_step rt text w q g_slots s).2.2.mem b = s.mem b := by
  rw [patch_step_at rt sound]
  change (cell_step_at rt text (mem_r32 rt s q.ea).1 w (q, g_slots) s).2.mem b = _
  cases skipped : q.skipped w with
  | true => rw [cell_skipped rt skipped]
  | false =>
      cases m6 : is_m6 q with
      | true =>
          apply (@cell_m6_local _ rt text (q, g_slots) w skipped m6 _).keeps s b
          rintro ⟨open_, y, member, ok, within⟩
          refine off y _ ⟨skipped, ?_⟩ within
          rw [if_pos m6]
          exact ⟨open_, member, rfl, ok⟩
      | false =>
          rw [@cell_step_word _ rt text (q, g_slots) w skipped m6]
          apply (mem_w32_local rt (sound.word (.inr m6)) q.value).keeps s b
          intro within
          refine off 0 _ ⟨skipped, ?_⟩ ((is_m6_false m6).1 ▸ within)
          rw [if_neg (by rw [m6]; exact Bool.false_ne_true)]
          exact ⟨rfl, rfl⟩

/-- Another patch's turn. -/
theorem turn_other {q : Patch} {width : Width} (sound : q.Sound) (inside : InRam ea width.bytes)
    (off : ∀ y at_, q.WritesAt text w (mem_r32 rt s q.ea).1 y at_ →
      ¬ Meet ea width.bytes at_ q.width.bytes) :
    held width ea (patch_step rt text w q g_slots s).2.2 = held width ea s := by
  apply held_keeps inside
  intro b within
  apply turn_keeps rt sound
  intro y at_ writes there
  exact off y at_ writes (.of_within within there)

theorem turn_slots (q : Patch) {idx : Nat} (outside : idx < q.slot ∨ q.slot + q.slots ≤ idx) :
    (patch_step rt text w q g_slots s).2.1 idx = g_slots idx := by
  have placed : Placed q g_slots (q.core, fun i => g_slots (q.slot + i)) := ⟨rfl, fun _ _ => rfl⟩
  exact (@patch_step_matches _ rt text _ _ _ placed w s).others idx outside

theorem turn_loaded (q : Patch) :
    ({ (patch_step rt text w q g_slots s).1 with fired := false } : Patch) =
      { q with fired := false } := by
  rw [patch_step]
  split
  · rfl
  · split
    · dsimp only
      split
      · rfl
      · rfl
    · rfl

end Turns

/-! ### A frame's patches -/

section Patches

variable {w : When} {ea idx : Nat} {s : CpuState ρ} {g_slots : Nat → Slot} {width : Width}

/-- None of a run of patches writes a byte of the target, or has its slot. -/
structure Away (text : Text) (w : When) (width : Width) (ea idx : Nat) (q : Patch) (base : Word) :
    Prop where
  sound : q.Sound
  slots : idx < q.slot ∨ q.slot + q.slots ≤ idx
  off : ∀ y at_, q.WritesAt text w base y at_ → ¬ Meet ea width.bytes at_ q.width.bytes

theorem patches_away (inside : InRam ea width.bytes) (ps : List Patch)
    (away : ∀ turn ∈ ps.zip (pointer_words rt text w ps g_slots s),
      Away text w width ea idx turn.1 turn.2) :
    let r := patches_step rt text w ps g_slots s
    held width ea r.2.2 = held width ea s ∧ r.2.1 idx = g_slots idx := by
  induction ps generalizing g_slots s with
  | nil => exact ⟨rfl, rfl⟩
  | cons q ps ih =>
      rw [pointer_words, List.zip_cons_cons] at away
      obtain ⟨sound, slots, off⟩ := away (q, (mem_r32 rt s q.ea).1) List.mem_cons_self
      have first := @turn_other _ rt text w ea s g_slots q width sound inside off
      have first_slot := @turn_slots _ rt text w s g_slots q idx slots
      obtain ⟨rest, rest_slot⟩ := ih fun turn later => away turn (List.mem_cons_of_mem _ later)
      rw [patches_step]
      exact ⟨rest.trans first, rest_slot.trans first_slot⟩

/-- Only one patch of a frame matters to a target none of the others writes. -/
theorem patches_at {p : Patch} {base : Word} (inside : InRam ea width.bytes) {ps : List Patch}
    {i : Nat} (found : (ps.zip (pointer_words rt text w ps g_slots s))[i]? = some (p, base))
    (away : ∀ j turn, (ps.zip (pointer_words rt text w ps g_slots s))[j]? = some turn → j ≠ i →
      Away text w width ea idx turn.1 turn.2) :
    ∃ (mine : Nat → Slot) (s₁ : CpuState ρ), (mem_r32 rt s₁ p.ea).1 = base ∧
      held width ea s₁ = held width ea s ∧ mine idx = g_slots idx ∧
      held width ea (patches_step rt text w ps g_slots s).2.2 =
        held width ea (patch_step rt text w p mine s₁).2.2 ∧
      (patches_step rt text w ps g_slots s).2.1 idx = (patch_step rt text w p mine s₁).2.1 idx := by
  induction ps generalizing g_slots s i with
  | nil => cases found
  | cons q ps ih =>
      rw [pointer_words, List.zip_cons_cons] at found away
      rw [patches_step]
      cases i with
      | zero =>
          obtain ⟨rfl, rfl⟩ := Prod.mk.inj (Option.some.inj found)
          have rest := @patches_away _ rt text w ea idx (patch_step rt text w q g_slots s).2.2
            (patch_step rt text w q g_slots s).2.1 width inside ps fun turn member => by
              obtain ⟨j, at_j⟩ := List.mem_iff_getElem?.mp member
              exact away (j + 1) turn at_j (by omega)
          exact ⟨g_slots, s, rfl, rfl, rfl, rest.1, rest.2⟩
      | succ i =>
          obtain ⟨sound, slots, off⟩ := away 0 (q, (mem_r32 rt s q.ea).1) rfl (by omega)
          have first := @turn_other _ rt text w ea s g_slots q width sound inside off
          have first_slot := @turn_slots _ rt text w s g_slots q idx slots
          obtain ⟨mine, s₁, word, same, slot, value, slot'⟩ :=
            ih found fun j turn at_j other => away (j + 1) turn at_j (by omega)
          exact ⟨mine, s₁, word, same.trans first, slot.trans first_slot, value, slot'⟩

theorem pointer_words_length (w : When) (ps : List Patch) (g_slots : Nat → Slot) (s : CpuState ρ) :
    (pointer_words rt text w ps g_slots s).length = ps.length := by
  induction ps generalizing g_slots s with
  | nil => rfl
  | cons q ps ih => rw [pointer_words, List.length_cons, List.length_cons, ih]

/-- A patch as it loaded. -/
def Patch.loaded (p : Patch) : Patch := { p with fired := false }

theorem patches_loaded (w : When) (ps : List Patch) (g_slots : Nat → Slot) (s : CpuState ρ) :
    (patches_step rt text w ps g_slots s).1.map Patch.loaded = ps.map Patch.loaded := by
  induction ps generalizing g_slots s with
  | nil => rfl
  | cons q ps ih =>
      have first : (patch_step rt text w q g_slots s).1.loaded = q.loaded := turn_loaded rt q
      rw [patches_step, List.map_cons, List.map_cons, ih, first]

/-- What loading has made sure of, of all the patches. -/
structure Ready (ps : List Patch) : Prop where
  sound : ∀ q ∈ ps, q.Sound
  ahead : (ps.map Patch.area).Pairwise Ahead

theorem Ready.of_loaded {ps ps' : List Patch} (ready : Ready ps)
    (same : ps'.map Patch.loaded = ps.map Patch.loaded) : Ready ps' := by
  constructor
  · intro q member
    have there : q.loaded ∈ ps.map Patch.loaded := same ▸ List.mem_map_of_mem member
    obtain ⟨q₀, inside, loaded⟩ := List.mem_map.mp there
    have sound := ready.sound q₀ inside
    have sound' : q₀.loaded.Sound := ⟨sound.word, sound.still⟩
    rw [loaded] at sound'
    exact ⟨sound'.word, sound'.still⟩
  · have areas : ps'.map Patch.area = ps.map Patch.area := by
      have mapped := congrArg (List.map Patch.area) same
      rw [List.map_map, List.map_map] at mapped
      exact mapped
    rw [areas]
    exact ready.ahead

/-- A factor's slots are its own. -/
theorem Ready.slots {ps : List Patch} (ready : Ready ps) {i j z : Nat} {p q : Patch}
    (at_i : ps[i]? = some p) (at_j : ps[j]? = some q) (other : j ≠ i) (mul : p.mul = true)
    (member : z ∈ p.run) :
    p.slot + (z - p.z0) < q.slot ∨ q.slot + q.slots ≤ p.slot + (z - p.z0) := by
  have within := run_inside mul z member
  obtain ⟨in_i, rfl⟩ := List.getElem?_eq_some_iff.mp at_i
  obtain ⟨in_j, rfl⟩ := List.getElem?_eq_some_iff.mp at_j
  have pairs := List.pairwise_iff_getElem.mp ready.ahead
  simp only [List.length_map, List.getElem_map] at pairs
  rcases Nat.lt_or_gt_of_ne other with before | after
  · have ahead := pairs j i in_j in_i before
    simp only [Ahead, Patch.area] at ahead
    omega
  · have ahead := pairs i j in_i in_j after
    simp only [Ahead, Patch.area] at ahead
    omega

end Patches

/-! ### The patches as they load -/

section Loading

/-- What holds of the mods loaded so far. -/
structure Loader.Sound (l : Loader) : Prop where
  sound : ∀ q ∈ l.g_patches, q.Sound
  between : Between 0 l.g_slot_n (l.g_patches.map Patch.area)

theorem Loader.Sound.patch {l next : Loader} {t : Line} (sound : l.Sound)
    (parsed : parse_patch text l t = some next) : next.Sound := by
  rw [parse_patch] at parsed
  cases read : parse_line text t with
  | none =>
      rw [read] at parsed
      cases parsed
  | some p =>
      rw [read] at parsed
      dsimp only at parsed
      split at parsed
      case isTrue => cases parsed
      case isFalse =>
        split at parsed
        case isTrue => cases parsed
        case isFalse =>
          obtain rfl := Option.some.inj parsed
          have fresh := (parse_line_fresh read).sound
          constructor
          · intro q member
            rcases List.mem_append.mp member with old | new
            · exact sound.sound q old
            · rw [List.mem_singleton.mp new]
              exact ⟨fresh.word, fresh.still⟩
          · rw [List.map_append, List.map_singleton]
            have one := placed_between p l.g_mods.length l.g_slot_n
            rw [Patch.placed] at one
            exact sound.between.append one (Nat.zero_le _) (Nat.le_add_right _ _)

theorem Loader.Sound.patches {l next : Loader} {lines : List Line} (sound : l.Sound)
    (parsed : parse_patches text l lines = some next) : next.Sound := by
  induction lines generalizing l with
  | nil =>
      obtain rfl := Option.some.inj parsed
      exact sound
  | cons t lines ih =>
      obtain ⟨middle, first, rest⟩ := Option.bind_eq_some_iff.mp parsed
      exact ih (sound.patch first) rest

theorem Loader.Sound.one {l next : Loader} {f : ModFile} (sound : l.Sound)
    (loaded : load_one text l f = some next) : next.Sound := by
  rw [load_one] at loaded
  split at loaded
  case isTrue => cases loaded
  case isFalse =>
    split at loaded
    case isTrue => cases loaded
    case isFalse =>
      cases parsed : parse_patches text l f.lines with
      | none =>
          rw [parsed] at loaded
          cases loaded
      | some found =>
          rw [parsed] at loaded
          dsimp only at loaded
          have next := sound.patches parsed
          split at loaded
          case isTrue => cases loaded
          case isFalse =>
            split at loaded
            case isTrue => cases loaded
            case isFalse =>
              obtain rfl := Option.some.inj loaded
              exact ⟨next.sound, next.between⟩

theorem load_sound (files : List ModFile) : (load text files).Sound := by
  have fold (l : Loader) (sound : l.Sound) :
      (files.foldl (fun l f => (load_one text l f).getD l) l).Sound := by
    induction files generalizing l with
    | nil => exact sound
    | cons f files ih =>
        rw [List.foldl_cons]
        apply ih
        cases loaded : load_one text l f with
        | none => exact sound
        | some next => exact sound.one loaded
  exact fold .init ⟨fun _ none => (nomatch none), fun _ none => (nomatch none), .nil⟩

theorem load_ready (files : List ModFile) : Ready (load text files).g_patches :=
  ⟨(load_sound files).sound, (load_sound files).between.ahead⟩

end Loading

/-! ### A frame, and a run of them -/

section Runs

variable {ps : List Patch} {i z ea : Nat} {p : Patch} {run : Watched ρ}

/-- The watched target of a patch. -/
def Patch.aim (p : Patch) (i z ea : Nat) : Aim := ⟨i, z, ea, p.width⟩

/-- The target as the patches go on running. -/
def Watched.once (p : Patch) (z ea : Nat) (run : Watched ρ) : Once Word (Word × Word) :=
  once_of p.width ea run.k run.s (run.r.g_slots (p.slot + (z - p.z0)))

structure Tracks (ps : List Patch) (p : Patch) (z ea : Nat) (run : Watched ρ) : Prop where
  same : run.r.g_patches.map Patch.loaded = ps.map Patch.loaded
  good : (run.once p z ea).Good (scaled · p) fun t => t.2 = BitVec.ofNat 32 ea

theorem frame_when_state (r : Running) (s : CpuState ρ) : (frame_when rt r s).2 = s := by
  have word (ea : Word) (inside : InRam ea.toNat 4) : (mem_r32 rt s ea).2 = s := by
    rw [mem_r32_ram rt inside]
  have scene := word SCENE_ID ⟨by decide, by decide⟩
  have state := word FIELD_STATE ⟨by decide, by decide⟩
  have number := word MAP_NUMBER ⟨by decide, by decide⟩
  have letter : (mem_r8 rt s MAP_LETTER).2 = s := rfl
  simp only [frame_when, scene, state, number, letter]

theorem turns_eq (r : Running) (s : CpuState ρ) :
    turns rt text r s =
      ((frame_when rt r s).1,
        r.g_patches.zip (pointer_words rt text (frame_when rt r s).1 r.g_patches r.g_slots s)) := by
  have state := frame_when_state rt r s
  rw [turns]
  generalize frame_when rt r s = f at state ⊢
  obtain ⟨w, s₁⟩ := f
  obtain rfl : s₁ = s := state
  rfl

theorem ended_eq {r : Running} (some : r.g_patches ≠ []) (s : CpuState ρ) :
    mod_frame rt text r s =
      let w := (frame_when rt r s).1
      let x := patches_step rt text w r.g_patches r.g_slots s
      (next_running r w x.1 x.2.1, x.2.2) := by
  have state := frame_when_state rt r s
  rw [mod_frame_some rt some]
  generalize frame_when rt r s = f at state ⊢
  obtain ⟨w, s₁⟩ := f
  obtain rfl : s₁ = s := state
  rfl

/-- The patch a run's frame has in the place of one that loaded. -/
theorem loaded_found {ps' : List Patch} (same : ps'.map Patch.loaded = ps.map Patch.loaded)
    (at_i : ps[i]? = some p) : ∃ fired, ps'[i]? = some { p with fired } := by
  have mapped := congrArg (·[i]?) same
  simp only [List.getElem?_map, at_i, Option.map_some] at mapped
  obtain ⟨q, at_q, loaded⟩ := Option.map_eq_some_iff.mp mapped
  refine ⟨q.fired, at_q.trans (congrArg some ?_)⟩
  obtain ⟨a, b, c, d, e, f, g, h, k, l, m, n, o, u, v, x, y⟩ := q
  obtain ⟨a', b', c', d', e', f', g', h', k', l', m', n', o', u', v', x', y'⟩ := p
  simp only [Patch.loaded, Patch.mk.injEq] at loaded ⊢
  obtain ⟨h1, h2, h3, h4, h5, h6, -, h7⟩ := loaded
  exact ⟨h1, h2, h3, h4, h5, h6, trivial, h7⟩

/-- A frame's turn of the watched patch. -/
structure Turn (rt : Runtime ρ) (text : Text) (p : Patch) (z ea : Nat) (r : Running)
    (s : CpuState ρ) (w : When) (base : Word) where
  g_slots : Nat → Slot
  s₁ : CpuState ρ
  word : (mem_r32 rt s₁ p.ea).1 = base
  held : held p.width ea s₁ = held p.width ea s
  slot : g_slots (p.slot + (z - p.z0)) = r.g_slots (p.slot + (z - p.z0))
  ended : Mods.held p.width ea (mod_frame rt text r s).2 =
    Mods.held p.width ea (patch_step rt text w p g_slots s₁).2.2
  slot_ended : (mod_frame rt text r s).1.g_slots (p.slot + (z - p.z0)) =
    (patch_step rt text w p g_slots s₁).2.1 (p.slot + (z - p.z0))

theorem turn_of {r : Running} {s : CpuState ρ} (ready : Ready r.g_patches)
    (at_i : r.g_patches[i]? = some p) (mul : p.mul = true) (member : z ∈ p.run)
    (inside : InRam ea p.width.bytes) (alone : Alone rt text (p.aim i z ea) r s) :
    ∃ base, (turns rt text r s).2[i]? = some (p, base) ∧
      p.Only text (frame_when rt r s).1 base z ea ∧
      Nonempty (Turn rt text p z ea r s (frame_when rt r s).1 base) := by
  have some : r.g_patches ≠ [] := by
    intro none
    rw [none] at at_i
    cases at_i
  have ended := @ended_eq _ rt text r some s
  rw [Alone, turns_eq] at alone
  rw [turns_eq]
  dsimp only at alone ended ⊢
  generalize (frame_when rt r s).1 = w at alone ended ⊢
  obtain ⟨in_i, -⟩ := List.getElem?_eq_some_iff.mp at_i
  have in_words : i < (pointer_words rt text w r.g_patches r.g_slots s).length := by
    rwa [pointer_words_length]
  have found : (r.g_patches.zip (pointer_words rt text w r.g_patches r.g_slots s))[i]? =
      .some (p, (pointer_words rt text w r.g_patches r.g_slots s)[i]) :=
    List.getElem?_zip_eq_some.mpr ⟨at_i, List.getElem?_eq_getElem in_words⟩
  generalize (pointer_words rt text w r.g_patches r.g_slots s)[i] = base at found
  have away (j : Nat) (turn : Patch × Word)
      (at_j : (r.g_patches.zip (pointer_words rt text w r.g_patches r.g_slots s))[j]? = .some turn)
      (other : j ≠ i) :
      Away text w p.width ea (p.slot + (z - p.z0)) turn.1 turn.2 := by
    have there := (List.getElem?_zip_eq_some.mp at_j).1
    refine ⟨ready.sound _ (List.mem_of_getElem? there),
      ready.slots at_i there other mul member, ?_⟩
    intro y at_ writes meet
    exact other (alone j _ _ y at_ at_j writes meet.1 meet.2).1
  obtain ⟨mine, s₁, word, same, slot, value, slot'⟩ := patches_at rt inside found away
  refine ⟨base, found, ?_, ⟨⟨mine, s₁, word, same, slot, ?_, ?_⟩⟩⟩
  · intro y at_ writes meet
    exact (alone i p base y at_ found writes meet.1 meet.2).2
  · rw [ended]
    exact value
  · rw [ended]
    exact slot'

/-- The target as the game leaves it for the frame's patches. -/
def Frame.once (p : Patch) (i z ea : Nat) (fr : Frame ρ) : Once Word (Word × Word) :=
  once_of p.width ea (fr.seen (p.aim i z ea)) (fr.guest fr.s)
    (fr.r.g_slots (p.slot + (z - p.z0)))

/-- A slot's tags at the watched address. -/
def AtAddress (ea : Nat) (t : Word × Word) : Prop := t.2 = BitVec.ofNat 32 ea

variable {fr : Frame ρ}

theorem Tracks.seen (tracks : Tracks ps p z ea fr.toWatched) (fair : fr.Fair (p.aim i z ea)) :
    (fr.once p i z ea).Good (scaled · p) (AtAddress ea) :=
  tracks.good.rewrite fair

/-- What the frame does with the target, the patch at it. -/
structure Applied (rt : Runtime ρ) (text : Text) (p : Patch) (i z ea : Nat) (fr : Frame ρ) : Prop where
  applied : fr.applied rt text (p.aim i z ea) = true
  value : fr.after rt text (p.aim i z ea) = ((fr.once p i z ea).apply (scaled · p)
    ((frame_when rt fr.r (fr.guest fr.s)).1.key, BitVec.ofNat 32 ea)).value
  memo : ((fr.ended rt text).1.g_slots (p.slot + (z - p.z0))).memo =
    ((fr.once p i z ea).apply (scaled · p)
      ((frame_when rt fr.r (fr.guest fr.s)).1.key, BitVec.ofNat 32 ea)).memo

/-- What the frame does with the target, the patch elsewhere. -/
structure Passed (rt : Runtime ρ) (text : Text) (p : Patch) (i z ea : Nat) (fr : Frame ρ) : Prop where
  applied : fr.applied rt text (p.aim i z ea) = false
  aside : Aside p.width ea (fr.guest fr.s) (fr.ended rt text).2
    (fr.r.g_slots (p.slot + (z - p.z0))) ((fr.ended rt text).1.g_slots (p.slot + (z - p.z0)))

theorem Tracks.turn (tracks : Tracks ps p z ea fr.toWatched) (ready : Ready ps)
    (at_i : ps[i]? = some p) (mul : p.mul = true) (member : z ∈ p.run)
    (inside : InRam ea p.width.bytes)
    (alone : Alone rt text (p.aim i z ea) fr.r (fr.guest fr.s)) :
    Applied rt text p i z ea fr ∨ Passed rt text p i z ea fr := by
  obtain ⟨fired, there⟩ := loaded_found tracks.same at_i
  have ready' := ready.of_loaded tracks.same
  obtain ⟨base, found, only, ⟨turn⟩⟩ :=
    @turn_of _ rt text i z ea { p with fired } _ _ ready' there mul member inside alone
  have sound := ready'.sound _ (List.mem_of_getElem? there)
  obtain ⟨mine, s₁, word, same, slot, value, slot'⟩ := turn
  have decided : fr.applied rt text (p.aim i z ea) = true ↔
      Patch.WritesAt text (frame_when rt fr.r (fr.guest fr.s)).1 { p with fired } base z ea := by
    have w_same : (turns rt text fr.r (fr.guest fr.s)).1 =
        (frame_when rt fr.r (fr.guest fr.s)).1 := by rw [turns_eq]
    rw [Frame.applied, applies, ← w_same]
    dsimp only [Patch.aim]
    rw [found, Option.any_some]
    exact decide_eq_true_iff
  subst word
  by_cases writes : Patch.WritesAt text (frame_when rt fr.r (fr.guest fr.s)).1 { p with fired }
      (mem_r32 rt s₁ p.ea).1 z ea
  · obtain ⟨value_once, memo_once⟩ := @patch_once _ rt text { p with fired } _ z ea s₁ mine sound mul
      writes only (fr.seen (p.aim i z ea))
    have before : once_of p.width ea (fr.seen (p.aim i z ea)) s₁ (mine (p.slot + (z - p.z0))) =
        fr.once p i z ea := by
      rw [Frame.once, once_of, once_of, same, slot]
    refine .inl ⟨decided.mpr writes, ?_, ?_⟩
    · rw [← before]
      exact value.trans value_once
    · rw [← before]
      exact (congrArg _ slot').trans memo_once
  · have aside := @patch_aside _ rt text { p with fired } _ z ea s₁ mine sound mul inside member writes
      only
    refine .inr ⟨Bool.eq_false_iff.mpr fun applied => writes (decided.mp applied), ?_, ?_⟩
    · exact value.trans (aside.held.trans same)
    · have memo := aside.memo
      dsimp only at memo slot
      rw [slot] at memo
      exact slot'.symm ▸ memo

theorem scaled_kept {v : Word} (small : v.toNat < 2 ^ (8 * p.width.bytes)) :
    scaled v p = v ↔ p.factored (p.width.number v) = p.width.number v := by
  rw [eq_comm, scaled_eq_iff small]
  exact eq_comm

theorem Applied.once_iff (turn : Applied rt text p i z ea fr) :
    fr.OnceApplied rt text (p.aim i z ea) p ↔
      ((fr.once p i z ea).apply (scaled · p)
        ((frame_when rt fr.r (fr.guest fr.s)).1.key, BitVec.ofNat 32 ea)).value =
          scaled (fr.once p i z ea).orig p := by
  have small : (fr.after rt text (p.aim i z ea)).toNat < 2 ^ (8 * p.width.bytes) := held_low ..
  rw [← turn.value, scaled_eq_iff small]
  exact ⟨fun once => once turn.applied, fun same _ => same⟩

theorem Applied.remembered_iff (turn : Applied rt text p i z ea fr)
    (good : (fr.once p i z ea).Good (scaled · p) (AtAddress ea)) :
    fr.Remembered rt text (p.aim i z ea) p ↔
      Once.Meets (scaled · p) (fr.once p i z ea)
        ((frame_when rt fr.r (fr.guest fr.s)).1.key, BitVec.ofNat 32 ea) := by
  have small : (fr.value (p.aim i z ea)).toNat < 2 ^ (8 * p.width.bytes) := held_low ..
  have memo (spent : fr.k.wrote = some (fr.value (p.aim i z ea))) :
      (let sl := fr.r.g_slots (p.slot + (z - p.z0))
       sl.set ∧ sl.key = (frame_when rt fr.r (fr.guest fr.s)).1.key ∧
        sl.addr = BitVec.ofNat 32 ea) ↔
      (fr.once p i z ea).memo =
        some (((frame_when rt fr.r (fr.guest fr.s)).1.key, BitVec.ofNat 32 ea),
          (fr.once p i z ea).value) := by
    dsimp only [Frame.once, once_of]
    rw [Slot.memo_eq]
    constructor
    · rintro ⟨set, key, addr⟩
      refine ⟨set, key, addr, ?_⟩
      have known := good.memo _ _ ((Slot.memo_eq _ _ _ _).mpr ⟨set, key, addr, rfl⟩) rfl
      exact Option.some.inj (known.symm.trans spent)
    · rintro ⟨set, key, addr, -⟩
      exact ⟨set, key, addr⟩
  have kept : scaled (fr.once p i z ea).value p = (fr.once p i z ea).value ↔
      p.factored (p.width.number (fr.value (p.aim i z ea))) =
        p.width.number (fr.value (p.aim i z ea)) := scaled_kept small
  constructor
  · intro remembered spent
    exact (remembered turn.applied spent).imp (memo spent).mp kept.mpr
  · intro meets _ spent
    exact (meets spent).imp (memo spent).mpr kept.mp

/-- A frame applies the factor once exactly when it remembers it did. -/
theorem Tracks.frame_iff (tracks : Tracks ps p z ea fr.toWatched) (ready : Ready ps)
    (at_i : ps[i]? = some p) (mul : p.mul = true) (member : z ∈ p.run)
    (inside : InRam ea p.width.bytes) (fair : fr.Fair (p.aim i z ea))
    (alone : Alone rt text (p.aim i z ea) fr.r (fr.guest fr.s)) :
    fr.OnceApplied rt text (p.aim i z ea) p ↔ fr.Remembered rt text (p.aim i z ea) p := by
  rcases tracks.turn rt ready at_i mul member inside alone with turn | turn
  · rw [turn.once_iff, turn.remembered_iff rt (tracks.seen fair)]
    exact Once.apply_iff (tracks.seen fair) rfl
  · have idle : ¬ fr.applied rt text (p.aim i z ea) = true := by
      rw [turn.applied]
      exact Bool.false_ne_true
    exact ⟨fun _ applied => absurd applied idle, fun _ applied => absurd applied idle⟩

theorem ended_loaded (r : Running) (s : CpuState ρ) :
    (mod_frame rt text r s).1.g_patches.map Patch.loaded = r.g_patches.map Patch.loaded := by
  by_cases none : r.g_patches = []
  · rw [mod_frame, if_pos none]
  · rw [ended_eq rt none]
    exact patches_loaded rt ..

/-- And goes on from where it can be watched again. -/
theorem Tracks.next (tracks : Tracks ps p z ea fr.toWatched) (ready : Ready ps)
    (at_i : ps[i]? = some p) (mul : p.mul = true) (member : z ∈ p.run)
    (inside : InRam ea p.width.bytes) (fair : fr.Fair (p.aim i z ea))
    (alone : Alone rt text (p.aim i z ea) fr.r (fr.guest fr.s))
    (once : fr.OnceApplied rt text (p.aim i z ea) p) :
    Tracks ps p z ea (fr.next rt text (p.aim i z ea)) := by
  refine ⟨(ended_loaded rt ..).trans tracks.same, ?_⟩
  have good := tracks.seen fair
  rcases tracks.turn rt ready at_i mul member inside alone with turn | turn
  · have applied := good.apply ((turn.once_iff rt).mp once)
    have k : (fr.next rt text (p.aim i z ea)).k =
        { fr.seen (p.aim i z ea) with wrote := some (fr.after rt text (p.aim i z ea)) } := by
      dsimp only [Frame.next]
      rw [Watch.patched, turn.applied]
      rfl
    have same : (fr.next rt text (p.aim i z ea)).once p z ea = (fr.once p i z ea).apply (scaled · p)
        ((frame_when rt fr.r (fr.guest fr.s)).1.key, BitVec.ofNat 32 ea) := by
      have orig : ((fr.once p i z ea).apply (scaled · p)
          ((frame_when rt fr.r (fr.guest fr.s)).1.key, BitVec.ofNat 32 ea)).orig =
          (fr.seen (p.aim i z ea)).orig := Once.apply_orig
      have wrote := good.apply_wrote (t := ((frame_when rt fr.r (fr.guest fr.s)).1.key,
        BitVec.ofNat 32 ea)) rfl
      rw [← turn.value] at wrote
      rw [Watched.once, once_of, k]
      exact Once.ext turn.value orig.symm wrote.symm turn.memo
    rw [same]
    exact applied
  · have k : (fr.next rt text (p.aim i z ea)).k = fr.seen (p.aim i z ea) := by
      dsimp only [Frame.next]
      rw [Watch.patched, turn.applied]
      rfl
    rw [Watched.once, once_of, k]
    dsimp only [Frame.next]
    rw [turn.aside.held]
    rcases turn.aside.memo with same | ⟨m, given, elsewhere⟩
    · rw [same]
      exact good
    · rw [given]
      exact good.aside elsewhere

/-- At every frame. -/
theorem Tracks.along_iff (tracks : Tracks ps p z ea run) (ready : Ready ps)
    (at_i : ps[i]? = some p) (mul : p.mul = true) (member : z ∈ p.run)
    (inside : InRam ea p.width.bytes) (gs : List (CpuState ρ → CpuState ρ))
    (plays : Along rt text (p.aim i z ea) (fun fr => fr.Plays rt text (p.aim i z ea)) run gs) :
    Along rt text (p.aim i z ea) (fun fr => fr.OnceApplied rt text (p.aim i z ea) p) run gs ↔
      Along rt text (p.aim i z ea) (fun fr => fr.Remembered rt text (p.aim i z ea) p) run gs := by
  induction gs generalizing run with
  | nil => exact Iff.rfl
  | cons guest more ih =>
      obtain ⟨⟨fair, alone⟩, later⟩ := plays
      have frame := @Tracks.frame_iff _ rt text ps i z ea p { run with guest } tracks ready at_i mul
        member inside fair alone
      have next := @Tracks.next _ rt text ps i z ea p { run with guest } tracks ready at_i mul member
        inside fair alone
      constructor
      · rintro ⟨once, rest⟩
        exact ⟨frame.mp once, (ih (next once) later).mp rest⟩
      · rintro ⟨remembered, rest⟩
        have once := frame.mpr remembered
        exact ⟨once, (ih (next once) later).mpr rest⟩

/-- An address no patch may write. -/
theorem along_refused (same : run.r.g_patches.map Patch.loaded = ps.map Patch.loaded)
    (at_i : ps[i]? = some p) (mul : p.mul = true) (refused : ¬ target_ok text ea p.width.bytes = true)
    (P : Frame ρ → Prop) (idle : ∀ fr : Frame ρ, fr.applied rt text (p.aim i z ea) = false → P fr)
    (gs : List (CpuState ρ → CpuState ρ)) : Along rt text (p.aim i z ea) P run gs := by
  induction gs generalizing run with
  | nil => trivial
  | cons guest more ih =>
      refine ⟨idle _ ?_, ih ((ended_loaded rt ..).trans same)⟩
      apply Bool.eq_false_iff.mpr
      intro applied
      rw [Frame.applied, applies, turns_eq] at applied
      dsimp only [Patch.aim] at applied
      obtain ⟨fired, there⟩ := loaded_found same at_i
      cases found : (run.r.g_patches.zip (pointer_words rt text
          (frame_when rt run.r (guest run.s)).1 run.r.g_patches run.r.g_slots (guest run.s)))[i]? with
      | none =>
          rw [found] at applied
          cases applied
      | some turn =>
          rw [found, Option.any_some] at applied
          have first := (List.getElem?_zip_eq_some.mp found).1
          have turn_eq := Option.some.inj (first.symm.trans there)
          have writes := of_decide_eq_true applied
          rw [turn_eq] at writes
          have mul' : ({ p with fired } : Patch).mul = true := mul
          exact refused ((writes_iff mul').mp writes).2.2.2.2

end Runs

section Mods

variable {files : List ModFile} {i z : Nat} {p : Patch}

theorem start_tracks (files : List ModFile) (p : Patch) (i z ea : Nat) (s : CpuState ρ) :
    Tracks (load text files).g_patches p z ea (.start text (p.aim i z ea) files s) :=
  ⟨rfl, Once.good_start _⟩

/-- In every run in which the game leaves a factor's target or renews it, and
nothing else writes it: the target holds the factor applied once to the game's
last value after each frame that has the patch there, exactly when each such
frame finds the target renewed, or remembered at this map and address. -/
theorem factor_once_iff (at_i : (load text files).g_patches[i]? = some p) (mul : p.mul = true)
    (member : z ∈ p.run) (ea : Nat) (s : CpuState ρ) (gs : List (CpuState ρ → CpuState ρ))
    (plays : Along rt text (p.aim i z ea) (fun fr => fr.Plays rt text (p.aim i z ea))
      (.start text (p.aim i z ea) files s) gs) :
    Along rt text (p.aim i z ea) (fun fr => fr.OnceApplied rt text (p.aim i z ea) p)
        (.start text (p.aim i z ea) files s) gs ↔
      Along rt text (p.aim i z ea) (fun fr => fr.Remembered rt text (p.aim i z ea) p)
        (.start text (p.aim i z ea) files s) gs := by
  have tracks := @start_tracks _ text files p i z ea s
  by_cases ok : target_ok text ea p.width.bytes = true
  · exact tracks.along_iff rt (load_ready files) at_i mul member (target_ok_ram ok) gs plays
  · have refused := @along_refused _ rt text _ i z ea p _ tracks.same at_i mul ok
    have off {fr : Frame ρ} (idle : fr.applied rt text (p.aim i z ea) = false) :
        ¬ fr.applied rt text (p.aim i z ea) = true := Bool.eq_false_iff.mp idle
    exact iff_of_true (refused _ (fun _ idle applied => absurd applied (off idle)) gs)
      (refused _ (fun _ idle applied => absurd applied (off idle)) gs)

/-- A frame of one direct patch with one target. -/
theorem alone_single {r : Running} {s : CpuState ρ} {q : Patch} (single : r.g_patches = [q])
    (direct : q.ptr = false) (still : q.stride = 0) (run : q.run = [0]) (m6 : is_m6 q = true) :
    Alone rt text ⟨0, 0, q.ea.toNat, q.width⟩ r s := by
  rw [Alone, turns_eq, single]
  intro j turn base y at_ at_j writes _ _
  cases j with
  | succ j => cases at_j
  | zero =>
      obtain ⟨rfl, rfl⟩ := Prod.mk.inj (Option.some.inj at_j)
      obtain ⟨-, writes⟩ := writes
      rw [if_pos m6, run] at writes
      obtain ⟨-, member, place, -⟩ := writes
      obtain rfl := List.mem_singleton.mp member
      refine ⟨rfl, rfl, ?_⟩
      rw [← place, Patch.target, Patch.origin, direct, still]
      simp

/-! A half doubled at one map, and again at the next. -/

/-- A map, the field running on it, and 3 in the half. -/
def first_map (s : CpuState Unit) : CpuState Unit :=
  mem_w32 still (mem_w32 still (mem_w16 still s 0x80001004 3) FIELD_STATE FIELD_RUNNING) MAP_NUMBER 1

/-- Another map; the half is left alone. -/
def second_map (s : CpuState Unit) : CpuState Unit := mem_w32 still s MAP_NUMBER 2

/-- The half's patch, as it loads. -/
def half_patch : Patch where
  ea := 0x80001004
  value := 2
  trigger := .on_map_load
  scene := none
  state := none
  map := none
  fired := false
  width := .u16
  ptr := false
  mul := true
  off := 0
  stride := 0
  z0 := 0
  z1 := 0
  den := 1
  slot := 0
  mod := 0

/-- The start of a run with the half's mod. -/
def half_start : Watched Unit := .start [] (half_patch.aim 0 0 0x80001004) [half_mod] blank

theorem half_loads : (load [] [half_mod]).g_patches = [half_patch] := by decide

theorem half_plays : Along still [] (half_patch.aim 0 0 0x80001004)
    (fun fr => fr.Plays still [] (half_patch.aim 0 0 0x80001004)) half_start
    [first_map, second_map] := by
  have alone {r : Running} (s : CpuState Unit) (fired : Bool)
      (single : r.g_patches = [{ half_patch with fired }]) :
      Alone still [] (half_patch.aim 0 0 0x80001004) r s :=
    alone_single still single rfl rfl rfl rfl
  refine ⟨⟨.inr ?_, alone _ false half_loads⟩, ⟨.inl ?_, alone _ true ?_⟩, trivial⟩
  · exact fun none => nomatch none
  · decide
  · decide

/-- The factor compounds. -/
theorem factor_compounds : ¬ ∀ (files : List ModFile) (i z : Nat) (p : Patch),
    (load [] files).g_patches[i]? = some p → p.mul = true → z ∈ p.run →
      ∀ (ea : Nat) (s : CpuState Unit) (gs : List (CpuState Unit → CpuState Unit)),
        Along still [] (p.aim i z ea) (fun fr => fr.Plays still [] (p.aim i z ea))
          (.start [] (p.aim i z ea) files s) gs →
        Along still [] (p.aim i z ea) (fun fr => fr.OnceApplied still [] (p.aim i z ea) p)
          (.start [] (p.aim i z ea) files s) gs := by
  intro once
  obtain ⟨-, second, -⟩ := once [half_mod] 0 0 half_patch (by rw [half_loads]; rfl) rfl (by decide)
    0x80001004 blank [first_map, second_map] half_plays
  exact absurd (second (by decide)) (by decide +kernel)

/-- The half, at one map and then the next. -/
theorem factor_once_half :
    Along still [] (half_patch.aim 0 0 0x80001004)
        (fun fr => fr.OnceApplied still [] (half_patch.aim 0 0 0x80001004) half_patch) half_start
        [first_map, second_map] ↔
      Along still [] (half_patch.aim 0 0 0x80001004)
        (fun fr => fr.Remembered still [] (half_patch.aim 0 0 0x80001004) half_patch) half_start
        [first_map, second_map] :=
  factor_once_iff still (by rw [half_loads]; rfl) rfl (by decide) 0x80001004 blank _ half_plays

end Mods

end SoaPort.Mods
