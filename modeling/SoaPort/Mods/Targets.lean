import SoaPort.Lib.Commute
import SoaPort.Mods.Loading
import SoaPort.Recomp.Memory

namespace SoaPort.Mods

open Lib Recomp

/-! What a patch reads and writes. -/

variable {ρ : Type} (rt : Runtime ρ) {text : Text}

/-- The guest's memory in its state. -/
def ram : Store (CpuState ρ) Nat (BitVec 8) where
  view s := s.mem
  put s mem := { s with mem }
  view_put _ _ := rfl
  put_view _ := rfl
  put_put _ _ _ := rfl

/-- Where a target is, a pointer's base given. -/
def Patch.target (p : Patch) (base : Word) (z : Nat) : Nat :=
  (if p.ptr then base.toNat else 0) + p.origin + z * p.stride

/-- The `n` bytes at an address of RAM. -/
def Within (ea n a : Nat) : Prop := ea ≤ 0x80000000 + a ∧ 0x80000000 + a < ea + n

/-- The bytes of the memory image a patch's targets are. -/
def Patch.Touches (p : Patch) (base : Word) (a : Nat) : Prop :=
  ∃ z ∈ p.run, Within (p.target base z) p.width.bytes a

section Accesses

def InRam (ea n : Nat) : Prop := 0x80000000 ≤ ea ∧ ea + n ≤ 0x80000000 + MEM1_SIZE

theorem in_ram_mmio {ea n : Nat} (inside : InRam ea n) (some : 0 < n) :
    is_mmio (BitVec.ofNat 32 ea) = false := by
  have low := inside.1
  have high := inside.2
  rw [MEM1_SIZE] at high
  have top : (BitVec.ofNat 32 ea >>> 24).toNat < 0x82 := by
    rw [BitVec.toNat_ushiftRight, BitVec.toNat_ofNat, Nat.shiftRight_eq_div_pow]
    omega
  rw [is_mmio]
  simp only [Bool.or_eq_false_iff, decide_eq_false_iff_not]
  constructor
  · intro same
    rw [same] at top
    exact absurd top (by decide)
  · intro same
    rw [same] at top
    exact absurd top (by decide)

theorem in_ram_ptr {ea n : Nat} (inside : InRam ea n) (some : 0 < n) :
    mem_ptr (BitVec.ofNat 32 ea) = ea - 0x80000000 := by
  have low := inside.1
  have high := inside.2
  rw [MEM1_SIZE] at high
  rw [mem_ptr_eq, Arch.physical, BitVec.toNat_ofNat]
  omega

theorem width_pos (width : Width) : 0 < width.bytes := by
  cases width <;> decide

theorem width_cases (width : Width) : width.bytes = 1 ∨ width.bytes = 2 ∨ width.bytes = 4 := by
  cases width <;> decide

theorem read_n_ram {ea : Nat} {width : Width} (inside : InRam ea width.bytes) (s : CpuState ρ) :
    read_n rt s (BitVec.ofNat 32 ea) width.bytes =
      (BitVec.ofNat 32 (Arch.readBE s.mem (ea - 0x80000000) width.bytes), s) := by
  have mmio := in_ram_mmio inside (width_pos width)
  have ptr := in_ram_ptr inside (width_pos width)
  rcases width_cases width with bytes | bytes | bytes
  · rw [bytes, read_n, mem_r8, mmio, ptr]
    refine Prod.ext (BitVec.eq_of_toNat_eq ?_) rfl
    simp [Arch.readBE]
  · rw [bytes, read_n, mem_r16, mmio, ptr, ← load16_eq]
    refine Prod.ext (BitVec.eq_of_toNat_eq ?_) rfl
    simp
  · rw [bytes, read_n, mem_r32, mmio, ptr, ← load32_eq]
    · refine Prod.ext (BitVec.eq_of_toNat_eq ?_) rfl
      simp
    · decide
    · decide

theorem write_n_ram {ea : Nat} {width : Width} (inside : InRam ea width.bytes) (s : CpuState ρ)
    (v : Word) :
    write_n rt s (BitVec.ofNat 32 ea) width.bytes v =
      { s with mem := Arch.writeBE s.mem (ea - 0x80000000) width.bytes v.toNat } := by
  have mmio := in_ram_mmio inside (width_pos width)
  have ptr := in_ram_ptr inside (width_pos width)
  rw [is_mmio_eq] at mmio
  have pipe : Arch.gatherPipe (BitVec.ofNat 32 ea) = false := by
    cases known : Arch.gatherPipe (BitVec.ofNat 32 ea) with
    | false => rfl
    | true => rw [device_of_gatherPipe known] at mmio; cases mmio
  rw [mem_ptr_eq] at ptr
  rcases width_cases width with bytes | bytes | bytes
  · rw [bytes, write_n, mem_w8_eq, Arch.writeByte, pipe, mmio, ptr]
    rfl
  · rw [bytes, write_n, mem_w16_eq, Arch.writeHalf, pipe, mmio, ptr]
    rfl
  · rw [bytes, write_n, mem_w32_eq, Arch.writeWord, pipe, mmio, ptr]
    · rfl
    · decide
    · decide

theorem readBE_congr {mem mem' : Nat → BitVec 8} {p n : Nat}
    (same : ∀ a, p ≤ a → a < p + n → mem a = mem' a) :
    Arch.readBE mem p n = Arch.readBE mem' p n := by
  induction n with
  | zero => rfl
  | succ n ih =>
      rw [Arch.readBE, Arch.readBE, same (p + n) (by omega) (by omega),
        ih fun a low high => same a low (by omega)]

theorem read_n_local {ea : Nat} {width : Width} (inside : InRam ea width.bytes) :
    Local ram (Within ea width.bytes) fun s : CpuState ρ =>
      read_n rt s (BitVec.ofNat 32 ea) width.bytes := by
  have low := inside.1
  refine .of_read (g := fun mem => BitVec.ofNat 32 (Arch.readBE mem (ea - 0x80000000) width.bytes))
    (read_n_ram rt inside) fun v w same => ?_
  rw [readBE_congr fun a above below => same a ⟨by omega, by omega⟩]

theorem write_n_local {ea : Nat} {width : Width} (inside : InRam ea width.bytes) (v : Word) :
    Local ram (Within ea width.bytes) fun s : CpuState ρ =>
      ((), write_n rt s (BitVec.ofNat 32 ea) width.bytes v) := by
  have low := inside.1
  refine .of_write (r := ()) (h := fun mem => Arch.writeBE mem (ea - 0x80000000) width.bytes v.toNat)
    (fun s => ?_) (fun mem a outside => ?_) fun mem mem' a within => ?_
  · rw [write_n_ram rt inside]
    rfl
  · refine if_neg fun inside => outside ⟨?_, ?_⟩
    · omega
    · omega
  · obtain ⟨above, below⟩ := within
    have here : ea - 0x80000000 ≤ a ∧ a < ea - 0x80000000 + width.bytes := by omega
    rw [Arch.writeBE, Arch.writeBE, if_pos here, if_pos here]

end Accesses

/-! A patch's targets, the slots it has given. -/

section Targets

variable {p : Patch} {key : Word}

/-- A step over targets, as a step of the guest. -/
def as_step (step : Applying ρ → Applying ρ) (r : (Nat → Slot) × Nat) (s : CpuState ρ) :
    ((Nat → Slot) × Nat) × CpuState ρ :=
  (((step ⟨s, r.1, r.2⟩).g_slots, (step ⟨s, r.1, r.2⟩).written), (step ⟨s, r.1, r.2⟩).s)

theorem target_ok_ram {ea n : Nat} (ok : target_ok text ea n = true) : InRam ea n := by
  rw [target_ok, Bool.and_eq_true, Bool.not_eq_true', Bool.or_eq_false_iff,
    Bool.or_eq_false_iff] at ok
  obtain ⟨⟨⟨low, high⟩, _⟩, _⟩ := ok
  exact ⟨Nat.not_lt.mp (of_decide_eq_false low), Nat.not_lt.mp (of_decide_eq_false high)⟩

/-- What is done with what a target held. -/
def write_target (p : Patch) (key : Word) (ea z : Nat) (r : (Nat → Slot) × Nat) (was : Word)
    (s : CpuState ρ) : ((Nat → Slot) × Nat) × CpuState ρ :=
  let addr := BitVec.ofNat 32 ea
  if p.mul then
    let sl := r.1 (p.slot + (z - p.z0))
    if sl.set ∧ sl.key = key ∧ sl.addr = addr ∧ sl.wrote = was then (r, s)
    else
      ((Function.update r.1 (p.slot + (z - p.z0)) ⟨true, key, addr, scaled was p⟩, r.2 + 1),
        write_n rt s addr p.width.bytes (scaled was p))
  else ((r.1, r.2 + 1), write_n rt s addr p.width.bytes p.value)

theorem as_step_target {base z : Nat} (ok : target_ok text (base + z * p.stride) p.width.bytes)
    (r : (Nat → Slot) × Nat) :
    as_step (apply_target rt text p key base · z) r = fun s =>
      let read := read_n rt s (BitVec.ofNat 32 (base + z * p.stride)) p.width.bytes
      write_target rt p key (base + z * p.stride) z r read.1 read.2 := by
  funext s
  rw [as_step, apply_target]
  dsimp only
  rw [ok, Bool.not_true, if_neg Bool.false_ne_true, write_target]
  split
  · dsimp only
    split
    · rfl
    · rfl
  · rfl

theorem write_target_local {ea : Nat} (inside : InRam ea p.width.bytes) (z : Nat)
    (r : (Nat → Slot) × Nat) (was : Word) :
    Local ram (Within ea p.width.bytes) (write_target rt p key ea z r was (ρ := ρ)) := by
  have writes : ∀ (t : (Nat → Slot) × Nat) (v : Word), Local ram (Within ea p.width.bytes)
      fun s : CpuState ρ => (t, write_n rt s (BitVec.ofNat 32 ea) p.width.bytes v) := fun t v =>
    (write_n_local rt inside v).bind (g := fun _ s => (t, s)) fun _ => .of_pure fun _ => rfl
  unfold write_target
  dsimp only
  split
  · split
    · exact .of_pure fun _ => rfl
    · exact writes _ _
  · exact writes _ _

theorem apply_target_local (base z : Nat) (r : (Nat → Slot) × Nat) :
    Local ram
      (fun a => target_ok text (base + z * p.stride) p.width.bytes = true ∧
        Within (base + z * p.stride) p.width.bytes a)
      (as_step (apply_target rt text p key base · z) r) := by
  cases ok : target_ok text (base + z * p.stride) p.width.bytes with
  | false =>
      refine .of_pure (r := r) fun s => ?_
      rw [as_step, apply_target]
      dsimp only
      rw [ok]
      rfl
  | true =>
      have inside := target_ok_ram ok
      rw [as_step_target rt ok]
      exact ((read_n_local rt inside).bind fun was =>
        write_target_local rt inside z r was).widen fun a within => ⟨rfl, within⟩

/-- Every byte a run of targets reads or writes is one of theirs. -/
theorem apply_run_local (base : Nat) (run : List Nat) (r : (Nat → Slot) × Nat) :
    Local ram
      (fun a => ∃ z ∈ run, target_ok text (base + z * p.stride) p.width.bytes = true ∧
        Within (base + z * p.stride) p.width.bytes a)
      (as_step (fun a => run.foldl (apply_target rt text p key base) a) r) := by
  induction run generalizing r with
  | nil => exact .of_pure (r := r) fun _ => rfl
  | cons z run ih =>
      have first := (@apply_target_local _ rt text p key base z r).widen
        (G := fun a => ∃ y ∈ z :: run, target_ok text (base + y * p.stride) p.width.bytes = true ∧
          Within (base + y * p.stride) p.width.bytes a)
        fun a inside => ⟨z, List.mem_cons_self, inside⟩
      refine first.bind (g := fun r s =>
        as_step (fun a => run.foldl (apply_target rt text p key base) a) r s) fun r => ?_
      exact (ih r).widen fun a ⟨y, member, inside⟩ => ⟨y, List.mem_cons_of_mem _ member, inside⟩

end Targets

/-! A whole patch, a pointer's word given. -/

section Patches

/-- What loading a patch has made sure of. -/
structure Patch.Sound (p : Patch) : Prop where
  word : p.ptr = true ∨ is_m6 p = false → InRam p.ea.toNat 4
  still : p.stride = 0 → p.run = [0]

theorem mem_r32_ram {ea : Word} (inside : InRam ea.toNat 4) (s : CpuState ρ) :
    mem_r32 rt s ea = (BitVec.ofNat 32 (Arch.readBE s.mem (ea.toNat - 0x80000000) 4), s) := by
  have read := @read_n_ram _ rt _ .u32 inside s
  rw [BitVec.ofNat_toNat, BitVec.setWidth_eq] at read
  exact read

theorem mem_w32_local {ea : Word} (inside : InRam ea.toNat 4) (v : Word) :
    Local ram (Within ea.toNat 4) fun s : CpuState ρ => ((), mem_w32 rt s ea v) := by
  have write := @write_n_local _ rt _ .u32 inside v
  rw [BitVec.ofNat_toNat, BitVec.setWidth_eq] at write
  exact write

/-- Whether a patch passes its targets over: through a null pointer, or the
world map's encounter table. -/
def Patch.Passed (p : Patch) (base key : Word) : Prop :=
  p.ptr ∧ (p.ea = ENCOUNTER_TABLE ∧ key >>> 8 = WORLD_MAP ∨ base = 0)

instance (p : Patch) (base key : Word) : Decidable (p.Passed base key) :=
  inferInstanceAs (Decidable (_ ∧ _))

/-- The bytes of the memory image a patch that applies writes. -/
def Patch.Hits (text : Text) (p : Patch) (base key : Word) (a : Nat) : Prop :=
  ¬ p.Passed base key ∧
    ∃ z ∈ p.run, target_ok text (p.target base z) p.width.bytes = true ∧
      Within (p.target base z) p.width.bytes a

/-- A patch's targets written, a pointer's word given. -/
def apply_at (text : Text) (base : Word) (s : CpuState ρ) (g_slots : Nat → Slot) (p : Patch)
    (key : Word) : Applying ρ :=
  if p.Passed base key then ⟨s, g_slots, 0⟩
  else
    p.run.foldl (apply_target rt text p key ((if p.ptr then base.toNat else 0) + p.origin))
      ⟨s, g_slots, 0⟩

theorem apply_patch_at {p : Patch} (sound : p.Sound) (s : CpuState ρ) (g_slots : Nat → Slot)
    (key : Word) :
    apply_patch rt text s g_slots p key =
      apply_at rt text (mem_r32 rt s p.ea).1 s g_slots p key := by
  rw [apply_patch, apply_at, Patch.origin]
  by_cases ptr : p.ptr = true
  · have pointer := mem_r32_ram rt (sound.word (.inl ptr)) s
    have guest : (mem_r32 rt s p.ea).2 = s := by rw [pointer]
    rw [if_pos ptr, if_pos ptr, if_pos ptr]
    by_cases world : p.ea = ENCOUNTER_TABLE ∧ key >>> 8 = WORLD_MAP
    · rw [if_pos world, if_pos ⟨ptr, .inl world⟩]
    · rw [if_neg world]
      dsimp only
      rw [guest]
      split
      · rename_i null
        rw [if_pos ⟨ptr, .inr null⟩]
      · rename_i some
        rw [if_neg (fun passed => passed.2.elim world some)]
  · rw [if_neg ptr, if_neg ptr, if_neg ptr, if_neg (fun passed => ptr passed.1), Nat.zero_add]

/-- One patch of a frame, a pointer's word given. -/
def step_at (text : Text) (base : Word) (w : When) (p : Patch) (g_slots : Nat → Slot)
    (s : CpuState ρ) : Patch × (Nat → Slot) × CpuState ρ :=
  if p.skipped w then (p, g_slots, s)
  else if is_m6 p then
    let a := apply_at rt text base s g_slots p w.key
    (if a.written = 0 then p else { p with fired := true }, a.g_slots, a.s)
  else ({ p with fired := true }, g_slots, mem_w32 rt s p.ea p.value)

theorem patch_step_at {p : Patch} (sound : p.Sound) (w : When) (s : CpuState ρ)
    (g_slots : Nat → Slot) :
    patch_step rt text w p g_slots s =
      step_at rt text (mem_r32 rt s p.ea).1 w p g_slots s := by
  rw [patch_step, step_at, apply_patch_at rt sound]

/-- A patch and the slots of its own. -/
abbrev Cell := Patch × (Nat → Slot)

def cell_step (text : Text) (w : When) (c : Cell) (s : CpuState ρ) : Cell × CpuState ρ :=
  let r := patch_step rt text w c.1 c.2 s
  ((r.1, r.2.1), r.2.2)

def cell_step_at (text : Text) (base : Word) (w : When) (c : Cell) (s : CpuState ρ) :
    Cell × CpuState ρ :=
  let r := step_at rt text base w c.1 c.2 s
  ((r.1, r.2.1), r.2.2)

theorem cell_skipped {c : Cell} {w : When} (skipped : c.1.skipped w = true) (base : Word)
    (s : CpuState ρ) : cell_step_at rt text base w c s = (c, s) := by
  rw [cell_step_at, step_at, if_pos skipped]

theorem apply_at_local (base : Word) (p : Patch) (key : Word) (g_slots : Nat → Slot) :
    Local ram (p.Hits text base key) fun s : CpuState ρ =>
      (((apply_at rt text base s g_slots p key).g_slots,
        (apply_at rt text base s g_slots p key).written),
        (apply_at rt text base s g_slots p key).s) := by
  by_cases passed : p.Passed base key
  · refine .of_pure (r := (g_slots, 0)) fun s => ?_
    rw [apply_at, if_pos passed]
  · have run := @apply_run_local _ rt text p key
      ((if p.ptr then base.toNat else 0) + p.origin) p.run (g_slots, 0)
    simp only [apply_at, if_neg passed]
    exact run.widen fun a hit => ⟨passed, hit⟩

theorem Patch.Hits.touches {p : Patch} {base key : Word} {a : Nat} (hit : p.Hits text base key a) :
    p.Touches base a := by
  obtain ⟨_, z, member, _, within⟩ := hit
  exact ⟨z, member, within⟩

/-- A patch's step over its targets. -/
theorem cell_step_m6 {c : Cell} {w : When} (applies : c.1.skipped w = false)
    (m6 : is_m6 c.1 = true) (base : Word) (s : CpuState ρ) :
    cell_step_at rt text base w c s =
      ((if (apply_at rt text base s c.2 c.1 w.key).written = 0 then c.1
          else { c.1 with fired := true },
        (apply_at rt text base s c.2 c.1 w.key).g_slots),
        (apply_at rt text base s c.2 c.1 w.key).s) := by
  rw [cell_step_at, step_at, applies, m6]
  rfl

theorem cell_step_word {c : Cell} {w : When} (applies : c.1.skipped w = false)
    (plain : is_m6 c.1 = false) (base : Word) (s : CpuState ρ) :
    cell_step_at rt text base w c s =
      (({ c.1 with fired := true }, c.2), mem_w32 rt s c.1.ea c.1.value) := by
  rw [cell_step_at, step_at, applies, plain]
  rfl

theorem cell_m6_local {c : Cell} {w : When} (applies : c.1.skipped w = false)
    (m6 : is_m6 c.1 = true) (base : Word) :
    Local ram (c.1.Hits text base w.key) (cell_step_at rt text base w c (ρ := ρ)) := by
  have step : cell_step_at rt text base w c (ρ := ρ) = _ := funext (cell_step_m6 rt applies m6 base)
  rw [step]
  exact (apply_at_local rt base c.1 w.key c.2).bind (g := fun r s =>
    ((if r.2 = 0 then c.1 else { c.1 with fired := true }, r.1), s))
    fun r => .of_pure fun _ => rfl

/-- A patch reads and writes no memory but its targets'. -/
theorem cell_step_local {c : Cell} (sound : c.1.Sound) (base : Word) (w : When) :
    Local ram (c.1.Touches base) (cell_step_at rt text base w c (ρ := ρ)) := by
  cases skipped : c.1.skipped w with
  | true => exact .of_pure fun s => cell_skipped rt skipped base s
  | false =>
      cases m6 : is_m6 c.1 with
      | true => exact (cell_m6_local rt skipped m6 base).widen fun a hit => hit.touches
      | false =>
          have step : cell_step_at rt text base w c (ρ := ρ) = _ :=
            funext (cell_step_word rt skipped m6 base)
          have plain : c.1.width.bytes = 4 ∧ c.1.ptr = false ∧ c.1.stride = 0 := by
            simp only [is_m6, Bool.or_eq_false_iff, decide_eq_false_iff_not, ne_eq,
              Classical.not_not] at m6
            exact ⟨m6.1.1.1.1, m6.1.1.2, m6.2⟩
          have touched : ∀ a, Within c.1.ea.toNat 4 a → c.1.Touches base a := by
            intro a inside
            refine ⟨0, by rw [sound.still plain.2.2]; exact List.mem_singleton_self 0, ?_⟩
            rw [Patch.target, Patch.origin, plain.1, plain.2.1]
            simpa using inside
          rw [step]
          exact ((mem_w32_local rt (sound.word (.inr m6)) c.1.value).widen touched).bind
            (g := fun _ s => (({ c.1 with fired := true }, c.2), s)) fun _ => .of_pure fun _ => rfl

end Patches

end SoaPort.Mods
