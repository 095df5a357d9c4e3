import SoaPort.Card.ExiCorrect
import SoaPort.Lib.Bytes
import SoaPort.Recomp.RecordForms

namespace SoaPort.Card

open SoaPort.Lib SoaPort.Recomp

/-! One flush. -/

/-- The file and the array agree off the dirty interval. -/
def CardState.Agrees (c : CardState) : Prop :=
  ∃ f, c.image = some f ∧ c.Outside fun i => f[i]?

/-- The flush opens a file of the card's own size, and so writes the dirty bytes alone. -/
structure CardState.Opening (o : Opens) (c : CardState) : Prop where
  dirty : c.dirty = true
  closed : c.file = false
  opens : o.r_plus = true
  sized : ∃ f, c.image = some f ∧ f.length = CARD_BYTES

theorem pwrite_getElem? {f : List Byte} {lo hi : Nat} (array : Nat → Byte)
    (room : lo ≤ f.length) (ordered : lo ≤ hi) (i : Nat) :
    (pwrite f lo ((List.range' lo (hi - lo)).map array))[i]? =
      if lo ≤ i ∧ i < hi then some (array i) else f[i]? := by
  have filled : f ++ List.replicate (lo - f.length) 0#8 = f := by
    rw [Nat.sub_eq_zero_of_le room]
    exact List.append_nil f
  have length : ((List.range' lo (hi - lo)).map array).length = hi - lo := by
    rw [List.length_map, List.length_range']
  rw [pwrite, filled, splice_getElem? room, length, Nat.add_sub_cancel' ordered]
  split
  next inside =>
    rw [List.getElem?_map, List.getElem?_range' (by omega)]
    change some (array (lo + 1 * (i - lo))) = some (array i)
    rw [Nat.one_mul, Nat.add_sub_cancel' inside.1]
  · rfl

section Flush

variable {o : Opens} {c : CardState}

/-- The state that writes the interval into an open file. -/
def written (c : CardState) (array : Nat → Byte) : CardState :=
  { c with
    image := some (pwrite (c.image.getD []) c.dirty_lo
      ((List.range' c.dirty_lo (c.dirty_hi - c.dirty_lo)).map array))
    dirty := false }

theorem card_flush_idle (idle : c.dirty = false) : card_flush o c = c := by
  rw [card_flush]
  split
  · rfl
  · rw [if_pos idle]

theorem card_flush_dirty {array : Nat → Byte} (loaded : c.card = some array)
    (dirty : c.dirty = true) :
    card_flush o c =
      match open_file o c with
      | none => { c with dirty := false }
      | some opened => written opened array := by
  rw [card_flush, loaded]
  change (if c.dirty = false then c else _) = _
  rw [if_neg (by simp [dirty])]
  rfl

/-- The bytes of the interval are the array's, the others the file's. -/
theorem written_iff_outside {array : Nat → Byte} (loaded : c.card = some array)
    (reaches : c.dirty_lo ≤ (c.image.getD []).length) (ordered : c.dirty_lo ≤ c.dirty_hi) :
    (written c array).Written ↔
      ∀ i < CARD_BYTES, ¬ (c.dirty_lo ≤ i ∧ i < c.dirty_hi) →
        (c.image.getD [])[i]? = some (array i) := by
  have bytes := pwrite_getElem? array reaches ordered
  have same : (written c array).array = array := by
    rw [CardState.array, written, loaded]
    rfl
  constructor
  · rintro ⟨f, image, equal⟩ i inside apart
    cases image
    have byte := equal i inside
    rwa [bytes, if_neg apart, same] at byte
  · intro others
    refine ⟨_, rfl, ?_⟩
    intro i inside
    rw [bytes, same]
    split
    · rfl
    · exact others i inside ‹_›

/-- A whole rewrite leaves nothing of what the file was. -/
theorem written_whole {array : Nat → Byte} (loaded : c.card = some array)
    (low : c.dirty_lo = 0) (high : c.dirty_hi = CARD_BYTES) : (written c array).Written := by
  apply (written_iff_outside loaded (by omega) (by omega)).mpr
  intro i inside outside
  exact absurd ⟨by omega, by omega⟩ outside

theorem widen_written {array : Nat → Byte} (loaded : c.card = some array)
    (mismatch : (c.image.getD []).length ≠ CARD_BYTES) : (written (widen c) array).Written := by
  rw [widen, if_pos mismatch]
  exact written_whole loaded rfl rfl

variable (sound : c.Sound)

theorem Synced.of_written {c : CardState} (whole : c.Written) : c.Synced where
  sized := by
    obtain ⟨f, image, equal⟩ := whole
    intro _
    rw [image]
    change CARD_BYTES ≤ f.length
    by_contra short
    have last := equal f.length (Nat.lt_of_not_le short)
    rw [List.getElem?_eq_none (le_refl _)] at last
    cases last
  synced := by
    obtain ⟨f, image, equal⟩ := whole
    exact fun _ => ⟨f, image, fun i inside _ => equal i inside⟩

/-- The three ways of having a file. -/
theorem open_file_cases {opened : CardState} (opens : open_file o c = some opened) :
    (c.file = true ∧ opened = c) ∨
      (c.file = false ∧ o.r_plus = true ∧ (∃ f, c.image = some f) ∧
        opened = widen { c with file := true }) ∨
      (c.file = false ∧ opened = widen { c with file := true, image := some [] }) := by
  rw [open_file] at opens
  split at opens
  next file =>
    exact .inl ⟨file, (Option.some.inj opens).symm⟩
  next closed =>
  have closed : c.file = false := Bool.eq_false_iff.mpr closed
  split at opens
  next present =>
    exact .inr (.inl ⟨closed, present.2, Option.isSome_iff_exists.mp present.1,
      (Option.some.inj opens).symm⟩)
  split at opens
  · exact .inr (.inr ⟨closed, (Option.some.inj opens).symm⟩)
  · cases opens

theorem open_file_none (fails : open_file o c = none) : c.file = false := by
  rw [open_file] at fails
  split at fails
  · cases fails
  · exact Bool.eq_false_iff.mpr ‹_›

theorem widen_card : (widen c).card = c.card := by
  rw [widen]
  split <;> rfl

theorem widen_sized (sized : (c.image.getD []).length = CARD_BYTES) : widen c = c := by
  rw [widen, if_neg fun other => other sized]

theorem open_file_card {opened : CardState} (opens : open_file o c = some opened) :
    opened.card = c.card := by
  rcases open_file_cases opens with ⟨-, rfl⟩ | ⟨-, -, -, rfl⟩ | ⟨-, rfl⟩
  · rfl
  · exact widen_card
  · exact widen_card

include sound

/-- A dirty card has an array to write. -/
theorem Sound.array_of_dirty (dirty : c.dirty = true) : ∃ array, c.card = some array :=
  Option.isSome_iff_exists.mp (sound.loaded (.inl dirty))

theorem flush_sound : (card_flush o c).Sound := by
  cases state : c.dirty with
  | false => rwa [card_flush_idle state]
  | true =>
      obtain ⟨array, loaded⟩ := Sound.array_of_dirty sound state
      rw [card_flush_dirty loaded state]
      cases opens : open_file o c with
      | none => exact ⟨fun _ => by rw [loaded]; rfl, nofun⟩
      | some opened =>
          refine ⟨fun _ => ?_, nofun⟩
          change opened.card.isSome
          rw [open_file_card opens, loaded]
          rfl

/-- A flush that has the file writes the array out, if it may rely on the rest of a file
of the card's own size. -/
theorem flush_writes (synced : c.Synced) (relies : c.Opening o → c.Agrees)
    (opened : (card_flush o c).file = true) : (card_flush o c).Written := by
  cases state : c.dirty with
  | false =>
      rw [card_flush_idle state] at opened ⊢
      obtain ⟨f, image, outside⟩ := synced.synced opened
      refine ⟨f, image, fun i inside => outside i inside ?_⟩
      intro waits
      exact absurd (state.symm.trans waits.1) (by decide)
  | true =>
      obtain ⟨array, loaded⟩ := Sound.array_of_dirty sound state
      obtain ⟨ordered, bound⟩ := sound.interval state
      rw [card_flush_dirty loaded state] at opened ⊢
      -- what is known of the file is what a narrow write relies on
      have narrow : ∀ f, c.image = some f → CARD_BYTES ≤ f.length → (c.Outside fun i => f[i]?) →
          ∀ c' : CardState, c'.card = c.card → c'.image = c.image → c'.dirty_lo = c.dirty_lo →
            c'.dirty_hi = c.dirty_hi → (written c' array).Written := by
        intro f image long outside c' card image' low high
        have content : c'.image.getD [] = f := by rw [image', image]; rfl
        apply (written_iff_outside (card.trans loaded) (by rw [content]; omega) (by omega)).mpr
        intro i inside apart
        rw [low, high] at apart
        have byte := outside i inside fun waits => apart waits.2
        rw [CardState.array, loaded] at byte
        rw [content]
        exact byte
      cases opens : open_file o c with
      | none =>
          rw [opens] at opened
          exact absurd ((open_file_none opens).symm.trans opened) (by decide)
      | some file =>
          change (written file array).Written
          rcases open_file_cases opens with ⟨is_open, rfl⟩ | ⟨closed, r_plus, ⟨f, image⟩, rfl⟩ |
            ⟨closed, rfl⟩
          · obtain ⟨f, image, outside⟩ := synced.synced is_open
            have long := synced.sized is_open
            rw [image] at long
            exact narrow f image long outside file rfl rfl rfl rfl
          · cases Decidable.em (f.length = CARD_BYTES) with
            | inl sized =>
                obtain ⟨f', image', outside⟩ := relies ⟨state, closed, r_plus, f, image, sized⟩
                cases image.symm.trans image'
                rw [widen_sized (by rw [image]; exact sized)]
                exact narrow f image (Nat.le_of_eq sized.symm) outside _ rfl rfl rfl rfl
            | inr other =>
                apply @widen_written { c with file := true } _ loaded
                rw [image]
                exact other
          · apply @widen_written { c with file := true, image := some [] } _ loaded
            exact fun empty : 0 = CARD_BYTES => absurd empty (by decide)

/-- What opens a file of the card's own size writes the interval and nothing else. -/
theorem card_flush_opening (opening : c.Opening o) : ∃ array, c.card = some array ∧
    card_flush o c = written { c with file := true } array := by
  obtain ⟨f, image, sized⟩ := opening.sized
  obtain ⟨array, loaded⟩ := Sound.array_of_dirty sound opening.dirty
  have narrow : open_file o c = some { c with file := true } := by
    rw [open_file, if_neg (by simp [opening.closed]), if_pos ⟨by rw [image]; rfl, opening.opens⟩,
      widen_sized (by rw [image]; exact sized)]
  refine ⟨array, loaded, ?_⟩
  rw [card_flush_dirty loaded opening.dirty, narrow]

theorem agrees_of_flush_writes (opening : c.Opening o) (whole : (card_flush o c).Written) :
    c.Agrees := by
  obtain ⟨f, image, sized⟩ := opening.sized
  obtain ⟨ordered, bound⟩ := sound.interval opening.dirty
  obtain ⟨array, loaded, flushed⟩ := card_flush_opening sound opening
  rw [flushed] at whole
  have reaches : c.dirty_lo ≤ (c.image.getD []).length := by
    rw [image]
    change c.dirty_lo ≤ f.length
    omega
  have bytes := (@written_iff_outside { c with file := true } _ loaded reaches ordered).mp whole
  refine ⟨f, image, ?_⟩
  intro i inside resting
  have apart : ¬ (c.dirty_lo ≤ i ∧ i < c.dirty_hi) :=
    fun both => resting ⟨opening.dirty, both⟩
  have byte := bytes i inside apart
  rw [CardState.array, loaded]
  change (c.image.getD [])[i]? = some (array i) at byte
  rwa [image] at byte

end Flush

/-! Runs. -/

section Runs

variable {ρ : Type} {rt : Runtime ρ}

/-- The event takes the chip select away after a program or an erase. -/
def Flushes (m : Machine ρ) : Event ρ → Prop
  | .write ea size v _ => Deselects ea size v m.exi ∧ writes m.exi.card.cmd = true
  | .guest _ => False

/-- The card's file, where the event flushes, is opened there at the card's own size. -/
def OpensSized (m : Machine ρ) : Event ρ → Prop
  | .write _ _ _ host => m.exi.card.Opening host.opens
  | .guest _ => False

theorem run_snoc (m : Machine ρ) (before : List (Event ρ)) (ev : Event ρ) :
    run rt m (before ++ [ev]) = step rt (run rt m before) ev := by
  rw [run, List.foldl_append]
  rfl

variable (rt) in
/-- The card after a flush, less its interrupt. -/
theorem step_flushes {m : Machine ρ} {ea : Word} {size : Nat} {v : BitVec 64} {host : Host}
    (flushes : Flushes m (.write ea size v host)) :
    Same (card_flush host.opens m.exi.card) (step rt m (.write ea size v host)).exi.card := by
  have card : (step rt m (.write ea size v host)).exi.card =
      (card_deselected host.opens m.exi.card).2 := exi_write_deselects _ flushes.1
  rw [card, card_deselected, if_pos flushes.2]
  dsimp only
  split <;> exact ⟨rfl, rfl, rfl, rfl, rfl, rfl⟩

variable (rt) in
/-- Any other event does to the card only what a stable property does not see. -/
theorem step_keeps {P : CardState → Prop} (stable : Stable P) {m : Machine ρ} {ev : Event ρ}
    (quiet : ¬ Flushes m ev) (holds : P m.exi.card) : P (step rt m ev).exi.card := by
  cases ev with
  | guest cpu => exact holds
  | write ea size v host =>
      change P (exi_write rt host ea size v m.cpu m.exi).2.2.card
      cases Classical.em (Deselects ea size v m.exi) with
      | inr stays => exact exi_write_keeps stable _ stays holds
      | inl deselects =>
          rw [exi_write_deselects _ deselects, card_deselected,
            if_neg fun writing => quiet ⟨deselects, writing⟩]
          exact holds

theorem Same.written {c c' : CardState} (same : Same c c') : c'.Written ↔ c.Written := by
  simp only [CardState.Written, same.image, same.array]

/-- What the file has to do with the array, in a run that may rely on the file it opens. -/
structure CardState.Kept (c : CardState) : Prop where
  sound : c.Sound
  synced : c.Synced

theorem step_sound {m : Machine ρ} (ev : Event ρ) (sound : m.exi.card.Sound) :
    (step rt m ev).exi.card.Sound := by
  cases Classical.em (Flushes m ev) with
  | inl flushes =>
      cases ev with
      | guest cpu => exact sound
      | write ea size v host => exact (step_flushes rt flushes).sound (flush_sound sound)
  | inr quiet =>
      have start : m.exi.card.Over m.exi.card.file m.exi.card.image False fun _ => none :=
        ⟨sound, rfl, rfl, nofun⟩
      exact (step_keeps rt (over_stable nofun) quiet start).sound

/-- Between flushes an open file keeps up with the array. -/
theorem step_synced {m : Machine ρ} {ev : Event ρ} (quiet : ¬ Flushes m ev)
    (kept : m.exi.card.Kept) : (step rt m ev).exi.card.Synced := by
  cases file : m.exi.card.file with
  | false =>
      have start : m.exi.card.Over false m.exi.card.image False fun _ => none :=
        ⟨kept.sound, file, rfl, nofun⟩
      have after := (step_keeps rt (over_stable nofun) quiet start).file
      constructor <;> exact fun opened => absurd (after.symm.trans opened) (by decide)
  | true =>
      obtain ⟨f, image, outside⟩ := kept.synced.synced file
      have long := kept.synced.sized file
      have start : m.exi.card.Over true (some f) True fun i => f[i]? :=
        ⟨kept.sound, file, image, fun _ _ => outside⟩
      have after := step_keeps rt (over_stable fun _ => .inl rfl) quiet start
      rw [image] at long
      refine ⟨fun _ => ?_, fun opened => ⟨f, after.image, ?_⟩⟩
      · rw [after.image]
        exact long
      · exact after.outside trivial (after.sound.loaded (.inr opened))

theorem step_writes {m : Machine ρ} {ev : Event ρ} (flushes : Flushes m ev)
    (kept : m.exi.card.Kept) (relies : OpensSized m ev → m.exi.card.Agrees)
    (opened : (step rt m ev).exi.card.file = true) : (step rt m ev).exi.card.Written := by
  cases ev with
  | guest cpu => exact absurd flushes nofun
  | write ea size v host =>
      have same := step_flushes rt flushes
      rw [same.file] at opened
      exact same.written.mpr (flush_writes kept.sound kept.synced relies opened)

theorem step_agrees {m : Machine ρ} {ev : Event ρ} (sound : m.exi.card.Sound)
    (flushes : Flushes m ev) (opening : OpensSized m ev)
    (writes : (step rt m ev).exi.card.file = true → (step rt m ev).exi.card.Written) :
    m.exi.card.Agrees := by
  cases ev with
  | guest cpu => exact absurd flushes nofun
  | write ea size v host =>
      have same := step_flushes rt flushes
      rw [same.written, same.file] at writes
      obtain ⟨array, -, flushed⟩ := card_flush_opening sound opening
      exact agrees_of_flush_writes sound opening (writes (by rw [flushed]; rfl))

theorem step_kept {m : Machine ρ} {ev : Event ρ} (kept : m.exi.card.Kept)
    (relies : Flushes m ev → OpensSized m ev → m.exi.card.Agrees) :
    (step rt m ev).exi.card.Kept := by
  refine ⟨step_sound ev kept.sound, ?_⟩
  cases Classical.em (Flushes m ev) with
  | inr quiet => exact step_synced quiet kept
  | inl flushes =>
      cases file : (step rt m ev).exi.card.file with
      | true => exact Synced.of_written (step_writes flushes kept (relies flushes) file)
      | false => constructor <;> exact fun opened => absurd (file.symm.trans opened) (by decide)

theorem power_on_kept (image : Option (List Byte)) : (power_on image).card.Kept where
  sound := ⟨nofun, nofun⟩
  synced := ⟨nofun, nofun⟩

theorem run_sound {m : Machine ρ} (sound : m.exi.card.Sound) (events : List (Event ρ)) :
    (run rt m events).exi.card.Sound := by
  induction events generalizing m with
  | nil => exact sound
  | cons ev rest ih => exact ih (step_sound ev sound)

theorem run_kept {m : Machine ρ} (kept : m.exi.card.Kept) {events : List (Event ρ)}
    (relies : ∀ before ev, before ++ [ev] <+: events → Flushes (run rt m before) ev →
      OpensSized (run rt m before) ev → (run rt m before).exi.card.Agrees) :
    (run rt m events).exi.card.Kept := by
  induction events using List.reverseRecOn with
  | nil => exact kept
  | append_singleton before ev ih =>
      rw [run_snoc]
      apply step_kept
      · exact ih fun _ _ part => relies _ _ (part.trans (List.prefix_append before [ev]))
      · exact relies before ev (List.prefix_refl _)

/-- Every flush that has the file writes the array out exactly when a flush that opens a
file of the card's own size finds it equal to the array off the dirty interval. -/
theorem written_iff (rt : Runtime ρ) (cpu : CpuState ρ) (image : Option (List Byte))
    (events : List (Event ρ)) :
    (∀ before ev, before ++ [ev] <+: events →
      Flushes (run rt ⟨cpu, power_on image⟩ before) ev →
      (run rt ⟨cpu, power_on image⟩ (before ++ [ev])).exi.card.file = true →
      (run rt ⟨cpu, power_on image⟩ (before ++ [ev])).exi.card.Written) ↔
    (∀ before ev, before ++ [ev] <+: events →
      Flushes (run rt ⟨cpu, power_on image⟩ before) ev →
      OpensSized (run rt ⟨cpu, power_on image⟩ before) ev →
      (run rt ⟨cpu, power_on image⟩ before).exi.card.Agrees) := by
  constructor
  · intro writes before ev part flushes opening
    specialize writes before ev part flushes
    rw [run_snoc] at writes
    exact step_agrees (run_sound (power_on_kept image).sound before) flushes opening writes
  · intro relies before ev part flushes
    rw [run_snoc]
    apply step_writes flushes
    · apply run_kept (power_on_kept image)
      intro first mark within
      exact relies first mark ((within.trans (List.prefix_append before [ev])).trans part)
    · exact relies before ev part flushes

/-- A zero programmed at `a`: the command and an address in two immediate transfers. -/
def program_zero (a : BitVec 64) : List (Event Unit) :=
  let register off v := Event.write (EXI_BASE + off) 4 v ⟨⟨false, false⟩, 0#32⟩
  [register 0 0x80, register 0x10 0xF2000000, register 0x0C 0x35,
    register 0x10 (a <<< 24), register 0x0C 0x15]

/-- The chip select taken away, under the opens `o`. -/
def take_away (o : Opens) : Event Unit := .write EXI_BASE 4 0 ⟨o, 0#32⟩

def blank_file : List Byte := List.replicate CARD_BYTES 0xFF#8

/-- A program whose flush opens nothing, and another. -/
def two_programs : List (Event Unit) :=
  program_zero 0 ++ take_away ⟨false, false⟩ :: program_zero 1

def programmed : Machine Unit := run idle ⟨ones, power_on (some blank_file)⟩ two_programs

/-- The byte the first program cleared stays set in the file. -/
theorem failed_open_loses :
    ¬ ∀ before ev, before ++ [ev] <+: two_programs ++ [take_away ⟨true, true⟩] →
      Flushes (run idle ⟨ones, power_on (some blank_file)⟩ before) ev →
      (run idle ⟨ones, power_on (some blank_file)⟩ (before ++ [ev])).exi.card.file = true →
      (run idle ⟨ones, power_on (some blank_file)⟩ (before ++ [ev])).exi.card.Written := by
  intro writes
  have named : run idle ⟨ones, power_on (some blank_file)⟩ two_programs = programmed := rfl
  have whole := writes two_programs (take_away ⟨true, true⟩) (List.prefix_refl _)
  rw [run_snoc, named] at whole
  have selected : (programmed.exi.ch 0).selected = some 0 := by decide
  have dirty : programmed.exi.card.dirty = true := by decide
  have low : programmed.exi.card.dirty_lo = 1 := by decide
  have cleared : programmed.exi.card.array 0 = 0#8 := by decide
  have image : programmed.exi.card.image = some blank_file := rfl
  have flushes : Flushes programmed (take_away ⟨true, true⟩) :=
    ⟨⟨rfl, rfl, selected, by decide⟩, by decide⟩
  have opening : programmed.exi.card.Opening ⟨true, true⟩ :=
    ⟨dirty, by decide, rfl, blank_file, image, List.length_replicate⟩
  have sound : programmed.exi.card.Sound := run_sound (power_on_kept _).sound two_programs
  obtain ⟨f, held, outside⟩ := step_agrees sound flushes opening (whole flushes)
  have stale : f[0]? = some 0#8 := by
    rw [← cleared]
    apply outside 0 (by decide)
    intro waits
    have := waits.2.1
    omega
  cases held.symm.trans image
  rw [blank_file, List.getElem?_replicate, if_pos (by decide)] at stale
  exact absurd stale (by decide)

/-! Before the first failed open the array is the file's, off the dirty interval. -/

theorem padded_of_sized {f : List Byte} (sized : f.length = CARD_BYTES) {i : Nat}
    (inside : i < CARD_BYTES) : padded (some f) i = f[i]? := by
  have whole : f.take CARD_BYTES = f := List.take_of_length_le (Nat.le_of_eq sized)
  change some ((f.take CARD_BYTES).getD i 0xFF#8) = f[i]?
  rw [whole, List.getD_eq_getElem?_getD, List.getElem?_eq_getElem (by omega)]
  rfl

/-- Either the file is open, or every byte that is not waiting is as it was loaded. -/
def Untouched (image : Option (List Byte)) (c : CardState) : Prop :=
  c.file = true ∨ c.Over false image True (padded image)

theorem step_untouched {image : Option (List Byte)} {m : Machine ρ} {ev : Event ρ}
    (sound : m.exi.card.Sound) (before : Untouched image m.exi.card)
    (opens : Flushes m ev → m.exi.card.dirty = true → (step rt m ev).exi.card.file = true) :
    Untouched image (step rt m ev).exi.card := by
  cases Classical.em (Flushes m ev) with
  | inr quiet =>
      rcases before with opened | closed
      · have start : m.exi.card.Over true m.exi.card.image False fun _ => none :=
          ⟨sound, opened, rfl, nofun⟩
        exact .inl (step_keeps rt (over_stable nofun) quiet start).file
      · exact .inr (step_keeps rt (over_stable fun _ => .inr rfl) quiet closed)
  | inl flushes =>
      cases ev with
      | guest cpu => exact before
      | write ea size v host =>
          cases state : m.exi.card.dirty with
          | true => exact .inl (opens flushes state)
          | false =>
              have same := step_flushes rt flushes
              rw [card_flush_idle state] at same
              rcases before with opened | closed
              · exact .inl (same.file.trans opened)
              · exact .inr (closed.same same)

/-- A run none of whose flushes failed to open the file relies on nothing. -/
theorem agrees_of_opens (rt : Runtime ρ) (cpu : CpuState ρ) (image : Option (List Byte))
    {events : List (Event ρ)}
    (opens : ∀ before ev, before ++ [ev] <+: events →
      Flushes (run rt ⟨cpu, power_on image⟩ before) ev →
      (run rt ⟨cpu, power_on image⟩ before).exi.card.dirty = true →
      (run rt ⟨cpu, power_on image⟩ (before ++ [ev])).exi.card.file = true)
    {o : Opens} (opening : (run rt ⟨cpu, power_on image⟩ events).exi.card.Opening o) :
    (run rt ⟨cpu, power_on image⟩ events).exi.card.Agrees := by
  have untouched : Untouched image (run rt ⟨cpu, power_on image⟩ events).exi.card := by
    clear opening
    induction events using List.reverseRecOn with
    | nil =>
        refine .inr ⟨(power_on_kept image).sound, rfl, rfl, ?_⟩
        exact fun _ (loaded : false = true) => absurd loaded (by decide)
    | append_singleton before ev ih =>
        have earlier := ih fun _ _ part =>
          opens _ _ (part.trans (List.prefix_append before [ev]))
        have last := opens before ev (List.prefix_refl _)
        rw [run_snoc] at last ⊢
        exact step_untouched (run_sound (power_on_kept image).sound before) earlier last
  have sound : (run rt ⟨cpu, power_on image⟩ events).exi.card.Sound :=
    run_sound (power_on_kept image).sound events
  rcases untouched with opened | closed
  · exact absurd (opening.closed.symm.trans opened) (by decide)
  · obtain ⟨f, held, sized⟩ := opening.sized
    have loaded := sound.loaded (.inl opening.dirty)
    refine ⟨f, held, ?_⟩
    intro i inside resting
    have byte := closed.outside trivial loaded i inside resting
    have same : image = some f := closed.image.symm.trans held
    have start : padded image i = f[i]? := by
      rw [same]
      exact padded_of_sized sized inside
    exact start.symm.trans byte

end Runs

end SoaPort.Card
