import SoaPort.Mods.Conflicts

namespace SoaPort.Mods

open Lib Recomp

/-! Guest memory is the same whatever order the mods load in. -/

variable {ρ : Type} (rt : Runtime ρ) {text : Text}

/-! A mod's slots are its own. -/

section Slots

/-- A patch, wherever it is. -/
def Patch.core (p : Patch) : Patch := { p with slot := 0, mod := 0 }

/-- The slots of a run of patches, and the cells that hold the same. -/
structure Placed (p : Patch) (g_slots : Nat → Slot) (c : Cell) : Prop where
  core : p.core = c.1
  slots : ∀ i < p.slots, g_slots (p.slot + i) = c.2 i

/-- Two steps that stand alike, one over all slots and one over its own. -/
structure Alike (p : Patch) (before : Nat → Slot) (a b : Applying ρ) : Prop where
  s : a.s = b.s
  written : a.written = b.written
  own : ∀ i < p.slots, a.g_slots (p.slot + i) = b.g_slots i
  others : ∀ j, j < p.slot ∨ p.slot + p.slots ≤ j → a.g_slots j = before j

variable {p : Patch} {key : Word}

theorem scaled_core (was : Word) (p : Patch) : scaled was p.core = scaled was p := rfl

theorem target_passed {base z : Nat} {a : Applying ρ}
    (bad : target_ok text (base + z * p.stride) p.width.bytes = false) :
    apply_target rt text p key base a z = a := by
  rw [apply_target]
  dsimp only
  rw [bad]
  rfl

theorem target_scaled {base z : Nat} {a : Applying ρ}
    (ok : target_ok text (base + z * p.stride) p.width.bytes = true) (mul : p.mul = true) :
    apply_target rt text p key base a z =
      let addr := BitVec.ofNat 32 (base + z * p.stride)
      let (was, s) := read_n rt a.s addr p.width.bytes
      let sl := a.g_slots (p.slot + (z - p.z0))
      if sl.set ∧ sl.key = key ∧ sl.addr = addr ∧ sl.wrote = was then { a with s }
      else
        { s := write_n rt s addr p.width.bytes (scaled was p)
          g_slots := Function.update a.g_slots (p.slot + (z - p.z0)) ⟨true, key, addr, scaled was p⟩
          written := a.written + 1 } := by
  rw [apply_target]
  dsimp only
  rw [ok, Bool.not_true, if_neg Bool.false_ne_true, if_pos mul]

theorem target_value {base z : Nat} {a : Applying ρ}
    (ok : target_ok text (base + z * p.stride) p.width.bytes = true) (value : ¬ p.mul = true) :
    apply_target rt text p key base a z =
      let addr := BitVec.ofNat 32 (base + z * p.stride)
      { s := write_n rt (read_n rt a.s addr p.width.bytes).2 addr p.width.bytes p.value
        g_slots := a.g_slots
        written := a.written + 1 } := by
  rw [apply_target]
  dsimp only
  rw [ok, Bool.not_true, if_neg Bool.false_ne_true, if_neg value]

theorem Alike.target {before : Nat → Slot} {a b : Applying ρ} (alike : Alike p before a b)
    (base : Nat) {z : Nat} (inside : p.mul = true → z - p.z0 < p.slots) :
    Alike p before (apply_target rt text p key base a z)
      (apply_target rt text p.core key base b z) := by
  by_cases ok : target_ok text (base + z * p.stride) p.width.bytes = true
  · have ok_core : target_ok text (base + z * p.core.stride) p.core.width.bytes = true := ok
    by_cases mul : p.mul = true
    · have mul_core : p.core.mul = true := mul
      have mine : a.g_slots (p.slot + (z - p.z0)) = b.g_slots (p.core.slot + (z - p.core.z0)) := by
        rw [alike.own (z - p.z0) (inside mul)]
        exact congrArg b.g_slots (Nat.zero_add _).symm
      rw [target_scaled rt ok mul, target_scaled rt ok_core mul_core, alike.s, ← mine]
      dsimp only [Patch.core]
      split
      · exact ⟨rfl, alike.written, alike.own, alike.others⟩
      · refine ⟨rfl, congrArg (· + 1) alike.written, fun i less => ?_, fun j outside => ?_⟩
        · dsimp only
          rw [Nat.zero_add]
          by_cases here : i = z - p.z0
          · rw [here, Function.update_self, Function.update_self]
            rfl
          · rw [Function.update_of_ne here,
              Function.update_of_ne (fun same => here (Nat.add_left_cancel same))]
            exact alike.own i less
        · have less := inside mul
          dsimp only
          rw [Function.update_of_ne (by omega)]
          exact alike.others j outside
    · have value_core : ¬ p.core.mul = true := mul
      rw [target_value rt ok mul, target_value rt ok_core value_core, alike.s]
      exact ⟨rfl, congrArg (· + 1) alike.written, alike.own, alike.others⟩
  · have bad := Bool.eq_false_iff.mpr ok
    have bad_core : target_ok text (base + z * p.core.stride) p.core.width.bytes = false := bad
    rw [target_passed rt bad, target_passed rt bad_core]
    exact alike

theorem run_inside (mul : p.mul = true) : ∀ z ∈ p.run, z - p.z0 < p.slots := by
  intro z member
  rw [Patch.run, List.mem_range'_1] at member
  rw [Patch.slots, if_pos mul]
  omega

theorem Alike.run {before : Nat → Slot} (base : Nat) {run : List Nat}
    (inside : p.mul = true → ∀ z ∈ run, z - p.z0 < p.slots) {a b : Applying ρ}
    (alike : Alike p before a b) :
    Alike p before (run.foldl (apply_target rt text p key base) a)
      (run.foldl (apply_target rt text p.core key base) b) := by
  induction run generalizing a b with
  | nil => exact alike
  | cons z run ih =>
      rw [List.foldl_cons, List.foldl_cons]
      exact ih (fun mul y member => inside mul y (List.mem_cons_of_mem _ member))
        (alike.target rt base fun mul => inside mul z List.mem_cons_self)

theorem Alike.patch {before mine : Nat → Slot}
    (own : ∀ i < p.slots, before (p.slot + i) = mine i) (s : CpuState ρ) :
    Alike p before (apply_patch rt text s before p key) (apply_patch rt text s mine p.core key) := by
  have start : ∀ s : CpuState ρ, Alike p before ⟨s, before, 0⟩ ⟨s, mine, 0⟩ := fun s =>
    ⟨rfl, rfl, own, fun _ _ => rfl⟩
  rw [apply_patch, apply_patch]
  by_cases ptr : p.ptr = true
  · have ptr_core : p.core.ptr = true := ptr
    rw [if_pos ptr, if_pos ptr_core]
    by_cases world : p.ea = ENCOUNTER_TABLE ∧ key >>> 8 = WORLD_MAP
    · have world_core : p.core.ea = ENCOUNTER_TABLE ∧ key >>> 8 = WORLD_MAP := world
      rw [if_pos world, if_pos world_core]
      exact start s
    · have world_core : ¬ (p.core.ea = ENCOUNTER_TABLE ∧ key >>> 8 = WORLD_MAP) := world
      rw [if_neg world, if_neg world_core]
      change Alike p before (if (mem_r32 rt s p.ea).1 = 0 then _ else _)
        (if (mem_r32 rt s p.ea).1 = 0 then _ else _)
      split
      · exact start _
      · exact (start _).run rt _ run_inside
  · have direct_core : ¬ p.core.ptr = true := ptr
    rw [if_neg ptr, if_neg direct_core]
    exact (start s).run rt _ run_inside

/-- A patch's step and its cell's step. -/
structure Matches (p : Patch) (c : Cell) (before : Nat → Slot)
    (r : Patch × (Nat → Slot) × CpuState ρ) (q : Cell × CpuState ρ) : Prop where
  core : r.1.core = q.1.1
  slot : r.1.slot = p.slot
  slots : r.1.slots = p.slots
  s : r.2.2 = q.2
  own : ∀ i < p.slots, r.2.1 (p.slot + i) = q.1.2 i
  others : ∀ j, j < p.slot ∨ p.slot + p.slots ≤ j → r.2.1 j = before j

theorem patch_step_matches {before : Nat → Slot} {c : Cell} (placed : Placed p before c) (w : When)
    (s : CpuState ρ) :
    Matches p c before (patch_step rt text w p before s) (cell_step rt text w c s) := by
  obtain ⟨q, mine⟩ := c
  obtain ⟨core, own⟩ := placed
  dsimp only at core own
  subst core
  rw [cell_step]
  dsimp only
  rw [patch_step, patch_step]
  by_cases skipped : p.skipped w = true
  · have skipped_core : p.core.skipped w = true := skipped
    rw [if_pos skipped, if_pos skipped_core]
    exact ⟨rfl, rfl, rfl, rfl, own, fun _ _ => rfl⟩
  · have applies_core : ¬ p.core.skipped w = true := skipped
    rw [if_neg skipped, if_neg applies_core]
    by_cases m6 : is_m6 p = true
    · have m6_core : is_m6 p.core = true := m6
      rw [if_pos m6, if_pos m6_core]
      obtain ⟨guest, written, same, others⟩ :=
        @Alike.patch _ rt text _ w.key _ _ own s
      dsimp only
      rw [written]
      by_cases none : (apply_patch rt text s mine p.core w.key).written = 0
      · rw [if_pos none, if_pos none]
        exact ⟨rfl, rfl, rfl, guest, same, others⟩
      · rw [if_neg none, if_neg none]
        exact ⟨rfl, rfl, rfl, guest, same, others⟩
    · have plain_core : ¬ is_m6 p.core = true := m6
      rw [if_neg m6, if_neg plain_core]
      exact ⟨rfl, rfl, rfl, rfl, own, fun _ _ => rfl⟩

end Slots

/-! What a line of a mod's is, read. -/

section Lines

structure Patch.Fresh (p : Patch) : Prop where
  sound : p.Sound
  fired : p.fired = false
  core : p.core = p

theorem and_three {n : Nat} (same : n &&& 3 = 0) : 4 ∣ n := by
  have low : n &&& 3 = n % 4 := Nat.and_two_pow_sub_one_eq_mod n 2
  rw [low] at same
  exact Nat.dvd_of_mod_eq_zero same

theorem in_ram_word {n : Nat} (low : ¬ n < 0x80000000) (high : ¬ n ≥ 0x80000000 + MEM1_SIZE)
    (aligned : n &&& 3 = 0) : InRam n 4 := by
  obtain ⟨k, rfl⟩ := and_three aligned
  rw [MEM1_SIZE] at high
  refine ⟨Nat.not_lt.mp low, ?_⟩
  rw [MEM1_SIZE]
  omega

theorem parse_for_still {t : Line} {z0 z1 : Nat} (run : parse_for t = some (z0, z1))
    (still : t.stride = 0) : z0 = 0 ∧ z1 = 0 := by
  rw [parse_for] at run
  split at run
  · rw [if_neg (fun all => all.2.2.1 still)] at run
    cases run
  · rw [if_pos still] at run
    cases run
    exact ⟨rfl, rfl⟩

theorem parse_line_fresh {t : Line} {p : Patch} (read : parse_line text t = some p) : p.Fresh := by
  rw [parse_line] at read
  split at read
  · cases read
  split at read
  · cases read
  rename_i inside
  split at read
  · cases read
  rename_i pointer
  split at read
  · cases read
  rename_i direct
  split at read
  · cases read
  split at read
  · cases read
  split at read
  · cases read
  rename_i z0 z1 run
  dsimp only at read
  split at read
  · cases read
  split at read
  · cases read
  cases read
  refine ⟨⟨fun word => ?_, fun still => ?_⟩, rfl, rfl⟩
  · have aligned : t.ea.toNat &&& 3 = 0 := by
      by_cases ptr : t.ptr = true
      · have low : t.ea &&& 3 = 0 := Classical.not_not.mp fun other => pointer ⟨ptr, other⟩
        have same := congrArg BitVec.toNat low
        rwa [BitVec.toNat_and] at same
      · rcases word with known | plain
        · exact absurd known ptr
        · have bytes := (is_m6_false plain).1
          dsimp only at bytes
          rw [bytes] at direct
          have straight : (!t.ptr) = true := by rw [Bool.not_eq_true', Bool.eq_false_iff]; exact ptr
          exact Classical.not_not.mp fun other => direct ⟨straight, other⟩
    exact in_ram_word (fun low => inside (.inl low)) (fun high => inside (.inr high)) aligned
  · obtain ⟨rfl, rfl⟩ := parse_for_still run still
    rfl

theorem patches_fresh {lines : List Line} {ps : List Patch}
    (read : patches_of text lines = some ps) : ∀ p ∈ ps, p.Fresh := by
  induction lines generalizing ps with
  | nil =>
      cases read
      exact fun p none => nomatch none
  | cons t lines ih =>
      rw [patches_of, List.mapM_cons] at read
      obtain ⟨p, line, read⟩ := Option.bind_eq_some_iff.mp read
      obtain ⟨qs, rest, read⟩ := Option.bind_eq_some_iff.mp read
      cases read
      intro q member
      rcases List.mem_cons.mp member with rfl | later
      · exact parse_line_fresh line
      · exact ih rest q later

end Lines

end SoaPort.Mods
