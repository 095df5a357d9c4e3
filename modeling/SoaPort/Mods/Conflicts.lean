import SoaPort.Mods.Targets

namespace SoaPort.Mods

open Lib Recomp

/-! Patches of mods that loaded together commute, so the mods' order does not
matter. -/

variable {ρ : Type} (rt : Runtime ρ) {text : Text}

section Same

/-- A run of one value, over the targets that may be written. -/
def write_run (text : Text) (width : Nat) (v : Word) (base stride : Nat) (run : List Nat)
    (s : CpuState ρ) : CpuState ρ :=
  run.foldl (fun s z =>
    if target_ok text (base + z * stride) width then
      write_n rt s (BitVec.ofNat 32 (base + z * stride)) width v
    else s) s

theorem apply_run_value {p : Patch} (value : p.mul = false) (key : Word) (base : Nat)
    (run : List Nat) (a : Applying ρ) :
    run.foldl (apply_target rt text p key base) a =
      ⟨write_run rt text p.width.bytes p.value base p.stride run a.s, a.g_slots,
        a.written + run.countP fun z => target_ok text (base + z * p.stride) p.width.bytes⟩ := by
  induction run generalizing a with
  | nil => rfl
  | cons z run ih =>
      have one : apply_target rt text p key base a z =
          ⟨if target_ok text (base + z * p.stride) p.width.bytes then
              write_n rt a.s (BitVec.ofNat 32 (base + z * p.stride)) p.width.bytes p.value
            else a.s, a.g_slots,
            a.written + if target_ok text (base + z * p.stride) p.width.bytes then 1 else 0⟩ := by
        rw [apply_target]
        dsimp only
        cases ok : target_ok text (base + z * p.stride) p.width.bytes with
        | false => rfl
        | true =>
            rw [read_n_ram rt (target_ok_ram ok), value]
            rfl
      rw [List.foldl_cons, one, ih, List.countP_cons, Nat.add_assoc, Nat.add_comm (List.countP _ _)]
      rfl

/-- A patch that writes a value does one thing, whatever was there. -/
structure Writes (f : CpuState ρ → CpuState ρ) (step : CpuState ρ → Cell × CpuState ρ) : Prop where
  result : ∀ s t, (step s).1 = (step t).1
  state : (∀ s, (step s).2 = s) ∨ ∀ s, (step s).2 = f s

theorem Writes.commute {f : CpuState ρ → CpuState ρ} {g h : CpuState ρ → Cell × CpuState ρ}
    (first : Writes f g) (second : Writes f h) : Commute g h := by
  refine ⟨fun s => ?_, fun s => first.result _ _, fun s => second.result _ _⟩
  rcases first.state with left | left
  · rcases second.state with right | right
    · rw [right, left, left, right]
    · rw [right, left, left, right]
  · rcases second.state with right | right
    · rw [right, left, left, right]
    · rw [right, left, left, right]

/-- What a value's run of targets writes. -/
def value_run (text : Text) (base : Word) (p : Patch) : CpuState ρ → CpuState ρ :=
  write_run rt text p.width.bytes p.value ((if p.ptr then base.toNat else 0) + p.origin) p.stride
    p.run

theorem writes_run {c : Cell} (value : c.1.mul = false) (m6 : is_m6 c.1 = true) (base : Word)
    (w : When) : Writes (value_run rt text base c.1) (cell_step_at rt text base w c) := by
  cases skipped : c.1.skipped w with
  | true =>
      exact ⟨fun s t => by rw [cell_skipped rt skipped, cell_skipped rt skipped],
        .inl fun s => by rw [cell_skipped rt skipped]⟩
  | false =>
      have step := @cell_step_m6 _ rt text _ _ skipped m6 base
      by_cases passed : c.1.Passed base w.key
      · have nothing : ∀ s, apply_at rt text base s c.2 c.1 w.key = ⟨s, c.2, 0⟩ := fun s => by
          rw [apply_at, if_pos passed]
        exact ⟨fun s t => by rw [step, step, nothing, nothing],
          .inl fun s => by rw [step, nothing]⟩
      · have all : ∀ s, apply_at rt text base s c.2 c.1 w.key =
            ⟨value_run rt text base c.1 s, c.2, 0 + c.1.run.countP fun z =>
              target_ok text ((if c.1.ptr then base.toNat else 0) + c.1.origin + z * c.1.stride)
                c.1.width.bytes⟩ := fun s => by
          rw [apply_at, if_neg passed, apply_run_value rt value]
          rfl
        exact ⟨fun s t => by rw [step, step, all, all], .inr fun s => by rw [step, all]⟩

theorem writes_word {c : Cell} (m6 : is_m6 c.1 = false) (base : Word) (w : When) :
    Writes (fun s => mem_w32 rt s c.1.ea c.1.value) (cell_step_at rt text base w c) := by
  cases skipped : c.1.skipped w with
  | true =>
      exact ⟨fun s t => by rw [cell_skipped rt skipped, cell_skipped rt skipped],
        .inl fun s => by rw [cell_skipped rt skipped]⟩
  | false =>
      have step := @cell_step_word _ rt text _ _ skipped m6 base
      exact ⟨fun s t => by rw [step, step], .inr fun s => by rw [step]⟩

theorem is_m6_false {p : Patch} (plain : is_m6 p = false) :
    p.width.bytes = 4 ∧ p.ptr = false ∧ p.mul = false ∧ p.stride = 0 := by
  simp only [is_m6, Bool.or_eq_false_iff, decide_eq_false_iff_not, ne_eq, Classical.not_not] at plain
  exact ⟨plain.1.1.1.1, plain.1.1.2, plain.1.2, plain.2⟩

/-- What `same_write` compares. -/
structure SameWrite (p q : Patch) : Prop where
  value_p : p.mul = false
  value_q : q.mul = false
  bytes : p.width.bytes = q.width.bytes
  value : p.value = q.value
  ptr : p.ptr = q.ptr
  ea : p.ea = q.ea
  off : p.off = q.off
  stride : p.stride = q.stride
  run : p.run = q.run

theorem same_write_of {p q : Patch} (same : same_write p q = true) : SameWrite p q := by
  simp only [same_write, Bool.and_eq_true, decide_eq_true_eq, Bool.not_eq_true'] at same
  obtain ⟨⟨⟨⟨⟨⟨⟨⟨⟨value_p, value_q⟩, bytes⟩, value⟩, ptr⟩, ea⟩, off⟩, stride⟩, z0⟩, z1⟩ := same
  exact ⟨value_p, value_q, bytes, value, ptr, ea, off, stride, by rw [Patch.run, z0, z1, Patch.run]⟩

theorem SameWrite.origin {p q : Patch} (same : SameWrite p q) : p.origin = q.origin := by
  rw [Patch.origin, Patch.origin, same.ptr, same.off, same.ea]

theorem SameWrite.value_run {p q : Patch} (same : SameWrite p q) (base : Word) :
    value_run rt text base p = value_run rt text base q := by
  rw [Mods.value_run, Mods.value_run, same.bytes, same.value, same.ptr, same.origin, same.stride,
    same.run]

/-- A word written as a run of one target, where it may be written. -/
theorem value_run_word {p : Patch} (sound : p.Sound) (bytes : p.width.bytes = 4)
    (direct : p.ptr = false) (still : p.stride = 0) (base : Word) :
    (∀ s, value_run rt text base p s = s) ∨
      ∀ s : CpuState ρ, value_run rt text base p s = mem_w32 rt s p.ea p.value := by
  have target : (if p.ptr then base.toNat else 0) + p.origin + 0 * p.stride = p.ea.toNat := by
    rw [Patch.origin, direct]
    simp
  have address : BitVec.ofNat 32 p.ea.toNat = p.ea := by
    rw [BitVec.ofNat_toNat, BitVec.setWidth_eq]
  cases ok : target_ok text p.ea.toNat 4 with
  | false =>
      refine .inl fun s => ?_
      rw [value_run, write_run, sound.still still, List.foldl_cons, List.foldl_nil, target, bytes, ok]
      rfl
  | true =>
      refine .inr fun s => ?_
      rw [value_run, write_run, sound.still still, List.foldl_cons, List.foldl_nil, target, bytes, ok,
        address]
      rfl

theorem word_commutes {c d : Cell} (sound : d.1.Sound) (same : SameWrite c.1 d.1)
    (plain : is_m6 c.1 = false) (m6 : is_m6 d.1 = true) (base : Word) (w : When) :
    Commute (cell_step_at rt text base w c) (cell_step_at rt text base w d) := by
  obtain ⟨bytes, direct, _, still⟩ := is_m6_false plain
  have first := @writes_word _ rt text _ plain base w
  have second := @writes_run _ rt text _ same.value_q m6 base w
  rw [same.bytes] at bytes
  rw [same.ptr] at direct
  rw [same.stride] at still
  rw [same.ea, same.value] at first
  rcases @value_run_word _ rt text _ sound bytes direct still base with nothing | word
  · refine first.commute ⟨second.result, .inl fun s => ?_⟩
    rcases second.state with left | left
    · exact left s
    · rw [left, nothing]
  · refine first.commute ⟨second.result, ?_⟩
    rcases second.state with left | left
    · exact .inl left
    · exact .inr fun s => by rw [left, word]

/-- The one value over the same targets: either patch may go first. -/
theorem same_write_commutes {c d : Cell} (sound_c : c.1.Sound) (sound_d : d.1.Sound)
    (same : same_write c.1 d.1 = true) (base : Word) (w : When) :
    Commute (cell_step_at rt text base w c) (cell_step_at rt text base w d) := by
  have both := same_write_of same
  have other := same_write_of (same_write_symm c.1 d.1 ▸ same)
  cases m6_c : is_m6 c.1 with
  | true =>
      cases m6_d : is_m6 d.1 with
      | true =>
          have first := @writes_run _ rt text _ both.value_p m6_c base w
          rw [both.value_run] at first
          exact first.commute (writes_run rt both.value_q m6_d base w)
      | false => exact (word_commutes rt sound_c other m6_d m6_c base w).symm
  | false =>
      cases m6_d : is_m6 d.1 with
      | true => exact word_commutes rt sound_d both m6_c m6_d base w
      | false =>
          have first := @writes_word _ rt text _ m6_c base w
          rw [both.ea, both.value] at first
          exact first.commute (writes_word rt m6_d base w)

end Same

section Apart

theorem one_can_meet_of {α : Type} [DecidableEq α] {x y : Option α} {now : α}
    (first : x.any (now ≠ ·) = false) (second : y.any (now ≠ ·) = false) :
    one_can_meet x y = true := by
  cases x with
  | none => cases y <;> rfl
  | some x =>
      cases y with
      | none => rfl
      | some y =>
          simp only [Option.any_some, decide_eq_false_iff_not, ne_eq, Classical.not_not] at first second
          exact decide_eq_true (first.symm.trans second)

/-- Two patches that apply on one frame can. -/
theorem conds_can_meet_of {p q : Patch} {w : When} (first : p.skipped w = false)
    (second : q.skipped w = false) : conds_can_meet p q = true := by
  simp only [Patch.skipped, Bool.or_eq_false_iff] at first second
  have map : ∀ {m : Option (Word × BitVec 8)},
      m.any (fun m => decide (w.number ≠ m.1) || decide (w.letter ≠ m.2)) = false →
        m.any ((w.number, w.letter) ≠ ·) = false := by
    intro m other
    cases m with
    | none => rfl
    | some m =>
        simp only [Option.any_some, Bool.or_eq_false_iff, decide_eq_false_iff_not, ne_eq,
          Classical.not_not] at other ⊢
        exact Prod.ext other.1 other.2
  rw [conds_can_meet, one_can_meet_of first.1.1.2 second.1.1.2,
    one_can_meet_of first.1.2 second.1.2, one_can_meet_of (map first.2) (map second.2)]
  rfl

/-- Patches whose bytes cannot meet touch no byte in common. -/
theorem touches_apart {p q : Patch} (same : SameBase p q) (apart : (bytes_meet p q).isSome = false)
    (base : Word) : ∀ a, p.Touches base a → ¬ q.Touches base a := by
  rintro a ⟨za, in_a, low_a, high_a⟩ ⟨zb, in_b, low_b, high_b⟩
  refine Bool.eq_false_iff.mp apart ((bytes_meet_iff p q).mpr ⟨same, za, in_a, zb, in_b, ?_⟩)
  rw [Patch.target] at low_a high_a low_b high_b
  rw [same.1] at low_a high_a
  exact ⟨by omega, by omega⟩

/-- Patches of mods that loaded together commute. -/
theorem apart_commutes {c d : Cell} (sound_c : c.1.Sound) (sound_d : d.1.Sound)
    (same : SameBase c.1 d.1) (apart : ¬ Meets c.1 d.1) (base : Word) (w : When) :
    Commute (cell_step_at rt text base w c) (cell_step_at rt text base w d) := by
  cases skip_c : c.1.skipped w with
  | true =>
      have idle := fun s => @cell_skipped _ rt text _ _ skip_c base s
      exact ⟨fun s => by rw [idle, idle], fun s => by rw [idle, idle], fun s => by rw [idle]⟩
  | false =>
      cases skip_d : d.1.skipped w with
      | true =>
          have idle := fun s => @cell_skipped _ rt text _ _ skip_d base s
          exact ⟨fun s => by rw [idle, idle], fun s => by rw [idle], fun s => by rw [idle, idle]⟩
      | false =>
          have meet := conds_can_meet_of skip_c skip_d
          cases bytes : (bytes_meet c.1 d.1).isSome with
          | false =>
              exact (cell_step_local rt sound_c base w).commute (cell_step_local rt sound_d base w)
                (touches_apart same bytes base)
          | true =>
              cases write : same_write c.1 d.1 with
              | false => exact absurd ⟨meet, bytes, write⟩ apart
              | true => exact same_write_commutes rt sound_c sound_d write base w

end Apart

end SoaPort.Mods
