import SoaPort.Gxv.LandingCorrect

namespace SoaPort.Gxv

open SoaPort.Lib

variable {c : Config} {ram0 : Nat → UInt8} {timing : Timing} {s s' : Backend}

/-! A store past the end of a slot's `cimg`, after which anything may follow. -/

/-- The slot the copy `C`, the next command, is recorded into. -/
def recorded_into (c : Config) (timing : Timing) (C : Copy) (s : Backend) : Slot :=
  (tick timing (copy_room c C (slot_poll c timing { s with seq_cur := s.mine }))).current

/-- Wherever a copy has an image, the slot it is recorded into serves fewer
than it has room for. -/
def ImagesFit (c : Config) (timing : Timing) (s : Backend) (events : List Event) : Prop :=
  ∀ before D after t C, events = before ++ .copy_texture D :: after →
    run c timing s before = .ok t → D.writes t.mine = some C → D.image.isSome →
    (recorded_into c timing C t).cimg.length < LAND_MAX

/-- What a run may come to. -/
def Follows : Except Stop Backend → Backend → Prop
  | .ok t, s => s = t
  | .error .refused, _ => False
  | .error .stray, _ => True

theorem tile_shape_bounds (texfmt : Nat) :
    4 ≤ (tile_shape texfmt).tw ∧ 4 ≤ (tile_shape texfmt).th ∧ (tile_shape texfmt).bpt ≤ 64 := by
  unfold tile_shape
  split
  · decide
  · split
    · decide
    · split
      · decide
      · decide

theorem tiles_le {n tile : Nat} (size : n ≤ 1024) (wide : 4 ≤ tile) :
    (n + tile - 1) / tile ≤ 256 := by
  apply Nat.le_of_lt_succ
  rw [Nat.div_lt_iff_lt_mul (by omega)]
  omega

theorem extent_le {rows cols row_bytes bpt : Nat} (tall : rows ≤ 256) (wide : cols ≤ 256)
    (stride : row_bytes ≤ 2 ^ 15) (tile : bpt ≤ 64) :
    (if rows ≠ 0 ∧ cols ≠ 0 then (rows - 1) * row_bytes + cols * bpt else 0) ≤ DEST_BYTES := by
  have before : (rows - 1) * row_bytes ≤ 255 * 2 ^ 15 := Nat.mul_le_mul (by omega) stride
  have last : cols * bpt ≤ 256 * 64 := Nat.mul_le_mul wide tile
  rw [DEST_BYTES]
  split <;> omega

/-- No copy is too large for a slot. -/
theorem writes_fits {D : TextureCopy} {n : Nat} {C : Copy} (writes : D.writes n = some C) :
    C.extent ≤ DEST_BYTES ∧ C.ow * C.oh ≤ IMAGE_BYTES / 4 := by
  unfold TextureCopy.writes TextureCopy.copy at writes
  obtain ⟨made, _⟩ := Option.filter_eq_some_iff.mp writes
  obtain ⟨texfmt, _, rfl⟩ := Option.map_eq_some_iff.mp made
  obtain ⟨tw, th, bpt⟩ := tile_shape_bounds texfmt
  have halved : ∀ size : Nat, (if D.cp_v >>> 9 &&& 1 = 1 then ((size &&& 0x3FF) + 1) / 2
      else (size &&& 0x3FF) + 1) ≤ 1024 := by
    intro size
    have bound : size &&& 0x3FF ≤ 0x3FF := Nat.and_le_right
    split <;> omega
  have ow := halved D.cp_wh
  have oh := halved (D.cp_wh >>> 10)
  have strided : (D.cp_stride &&& 0x3FF) * 32 ≤ 0x3FF * 32 :=
    Nat.mul_le_mul_right 32 Nat.and_le_right
  have natural := Nat.mul_le_mul (tiles_le ow tw) bpt
  constructor
  · exact extent_le (tiles_le oh th) (tiles_le ow tw) (Nat.max_le.mpr ⟨by omega, by omega⟩) bpt
  · exact Nat.mul_le_mul ow oh

theorem emit_no_stray {e : Emit} : emit c timing s e ≠ .error .stray := by
  unfold emit emit_record
  split
  · nofun
  · split
    · nofun
    · split
      · nofun
      · nofun

theorem emits_no_stray {emits : List Emit} :
    emits.foldlM (emit c timing) s ≠ .error .stray := by
  induction emits generalizing s with
  | nil => nofun
  | cons e emits ih =>
      rw [List.foldlM_cons]
      cases first : emit c timing s e with
      | error stop =>
          cases stop with
          | refused => nofun
          | stray => exact absurd first emit_no_stray
      | ok t => exact ih

theorem copy_texture_stray {D : TextureCopy} :
    copy_texture c timing D s = .error .stray ↔ ∃ C, D.writes s.seq_cur = some C ∧
      D.image.isSome ∧ LAND_MAX ≤ (tick timing (copy_room c C s)).current.cimg.length := by
  unfold copy_texture
  cases writes : D.writes s.seq_cur with
  | none =>
      constructor
      · nofun
      · rintro ⟨C, made, _⟩
        cases made
  | some C =>
      obtain ⟨extent, image⟩ := writes_fits writes
      dsimp only
      rw [if_neg (by omega)]
      constructor
      · intro stray
        split at stray
        · rename_i full
          exact ⟨C, rfl, full⟩
        · cases stray
      · rintro ⟨_, made, full⟩
        cases made
        rw [if_pos full]

theorem timed_stray {command : Backend → Except Stop Backend} :
    timed c timing s command = .error .stray ↔
      command (slot_poll c timing { s with seq_cur := s.mine }) = .error .stray := by
  unfold timed
  cases command (slot_poll c timing { s with seq_cur := s.mine }) with
  | error stop => exact Iff.rfl
  | ok t => exact ⟨nofun, nofun⟩

theorem timed_copy_stray {command : Backend → Except Stop Backend} :
    timed_copy c timing s command = .error .stray ↔
      command (slot_poll c timing { s with seq_cur := s.mine }) = .error .stray := by
  rw [← timed_stray, timed_copy]
  cases timed c timing s command with
  | error stop => exact Iff.rfl
  | ok t => exact ⟨nofun, nofun⟩

theorem slot_poll_kept (c : Config) (timing : Timing) (s : Backend) :
    Kept s (slot_poll c timing s) := by
  have ticked := tick_kept timing s
  unfold slot_poll
  dsimp only
  split
  · exact ticked
  · exact ticked.trans (slot_finish_done ..).toKept

theorem step_stray {e : Event} :
    step c timing s e = .error .stray ↔ ∃ D C, e = .copy_texture D ∧
      D.writes s.mine = some C ∧ D.image.isSome ∧
      LAND_MAX ≤ (recorded_into c timing C s).cimg.length := by
  cases e with
  | copy_texture D =>
      have number := (slot_poll_kept c timing { s with seq_cur := s.mine }).seq_cur
      apply timed_copy_stray.trans
      rw [copy_texture_stray, number]
      constructor
      · rintro ⟨C, writes, full⟩
        exact ⟨D, C, rfl, writes, full⟩
      · rintro ⟨_, C, same, writes, full⟩
        cases same
        exact ⟨C, writes, full⟩
  | draw emits =>
      constructor
      · intro stray
        rw [step, timed_stray] at stray
        exact absurd stray emits_no_stray
      · nofun
  | clear drawn =>
      constructor
      · intro stray
        rw [step, timed_stray] at stray
        cases stray
      · nofun
  | copy_screen D =>
      constructor
      · intro stray
        rw [step, timed_copy_stray] at stray
        cases stray
      · nofun
  | _ => exact ⟨nofun, nofun⟩

theorem run_cons (e : Event) (events : List Event) :
    run c timing s (e :: events) = (step c timing s e).bind fun t => run c timing t events :=
  List.foldlM_cons ..

/-- A run strays just where some copy's images do not fit. -/
theorem run_stray {events : List Event} :
    run c timing s events = .error .stray ↔ ¬ ImagesFit c timing s events := by
  induction events generalizing s with
  | nil =>
      constructor
      · nofun
      · intro stray
        apply absurd _ stray
        intro before D after t C split
        simp at split
  | cons e events ih =>
      rw [run_cons]
      constructor
      · intro stray fit
        cases first : step c timing s e with
        | error stop =>
            rw [first] at stray
            cases stray
            obtain ⟨D, C, rfl, writes, image, full⟩ := step_stray.mp first
            exact absurd (fit [] D events s C rfl rfl writes image) (by omega)
        | ok t =>
            rw [first] at stray
            apply ih.mp stray
            intro before D after u C split ran
            apply fit (e :: before) D after u C
            · rw [split]
              rfl
            · rw [run_cons, first]
              exact ran
      · intro over_
        simp only [ImagesFit, not_forall, Nat.not_lt] at over_
        obtain ⟨before, D, after, t, C, split, ran, writes, image, full⟩ := over_
        cases before with
        | nil =>
            cases split
            cases ran
            rw [step_stray.mpr ⟨D, C, rfl, writes, image, full⟩]
            rfl
        | cons e' before =>
            cases split
            rw [run_cons] at ran
            cases first : step c timing s e with
            | error stop =>
                rw [first] at ran
                cases ran
            | ok u =>
                rw [first] at ran
                apply ih.mpr
                intro fit
                exact absurd (fit before D after t C rfl ran writes image) (by omega)

theorem succ_ne (byte : UInt8) : byte + 1 ≠ byte := by
  intro same
  have value := congrArg UInt8.toNat same
  rw [UInt8.toNat_add] at value
  have bound := byte.toNat_lt
  have one : UInt8.toNat 1 = 1 := rfl
  omega

/-- Of any state at all, what a run leaves does not hold. -/
theorem not_right (c : Config) (ram0 : Nat → UInt8) (made : List Copy) :
    ∃ s, ¬ Right c ram0 made s := by
  refine ⟨.start c false fun a => run_ops Copy.run made ram0 a + 1, ?_⟩
  intro right
  have same := right.landed fun _ => rfl
  exact succ_ne _ (congrFun same 0)

/-- Whatever a run of the backend may come to does all it should, just where
every copy's image fits the slot it is recorded into. -/
theorem landed_in_order_iff (c : Config) (timing : Timing) (measure : Bool) (ram0 : Nat → UInt8)
    (events : List Event) :
    (∀ s, Follows (run c timing (.start c measure ram0) events) s →
        Right c ram0 (copies 0 events) s) ↔
      ImagesFit c timing (.start c measure ram0) events := by
  constructor
  · intro right
    by_contra over_
    obtain ⟨s, wrong⟩ := not_right c ram0 (copies 0 events)
    apply wrong (right s _)
    rw [run_stray.mpr over_]
    trivial
  · intro fit s follows
    cases ran : run c timing (.start c measure ram0) events with
    | ok t =>
        rw [ran] at follows
        cases follows
        exact run_right ran
    | error stop =>
        cases stop with
        | refused =>
            rw [ran] at follows
            cases follows
        | stray => exact absurd fit (run_stray.mp ran)

/-! Sixty-four copies recorded into the slot a draw has carried an image into. -/

def carried_config : Config where
  two_slots := true
  land_early_off := false
  poll_off := false
  scale := 1
  efbs := 1
  pool_cap := 2 ^ 25

/-- An 8 by 4 copy in I8, each to its own 32 bytes and with its own image. -/
def cell (k : Nat) : Event :=
  .copy_texture
    { cp_v := 2 <<< 3
      cp_wh := 7 ||| 3 <<< 10
      cp_dest := k
      cp_stride := 0
      image := some k
      bits := fun _ => 0 }

def carried_events : List Event :=
  [cell 0, .draw [⟨3, false, [⟨0, 0, some 0, true, 8, 4, [(8, 4)]⟩], 1⟩]] ++
    (List.range 64).map fun k => cell (k + 1)

def strays : Except Stop Backend → Bool
  | .error .stray => true
  | _ => false

theorem strays_iff {r : Except Stop Backend} : strays r = true ↔ r = .error .stray := by
  cases r with
  | error stop =>
      cases stop with
      | refused => exact ⟨nofun, nofun⟩
      | stray => exact ⟨fun _ => rfl, fun _ => rfl⟩
  | ok s => exact ⟨nofun, nofun⟩

/-- With a GPU that finishes nothing until it is waited for. -/
theorem image_past_its_slot :
    ¬ ∀ s, Follows (run carried_config (fun _ _ => 0)
        (.start carried_config false fun _ => 0) carried_events) s →
      Right carried_config (fun _ => 0) (copies 0 carried_events) s := by
  intro right
  obtain ⟨s, wrong⟩ := not_right carried_config (fun _ => 0) (copies 0 carried_events)
  have stray : strays (run carried_config (fun _ _ => 0)
      (.start carried_config false fun _ => 0) carried_events) = true := by
    decide +kernel
  apply wrong (right s _)
  rw [strays_iff.mp stray]
  trivial

end SoaPort.Gxv
