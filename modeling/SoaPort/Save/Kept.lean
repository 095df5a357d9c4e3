import SoaPort.Save.SavextCorrect

namespace SoaPort.Save

open Lib

/-! Runs of loads, saves and New Games: the chunks of the loaded save, and
which of them the next saves hold. -/

/-- One snapshot and its image: the loaded mods' answers, this port's own
chunks, and what the block's gap and the file's tail hold before. -/
structure Snapshot where
  saves : List SaveMod
  opened : Option (List Byte)
  claims : Option (List Byte)
  g_id : List Byte
  gap : List Byte
  tail : List Byte
  id16 : g_id.length = 16
  sized : ∀ c ∈ port opened claims, c.data.length < 2 ^ 32

inductive Event where
  | load (saves : List SaveMod) (gap tail : List Byte)
  | save (s : Snapshot)
  | new_game

/-- The kept chunks, and the chunks of the save loaded last. -/
structure Extension where
  kept : List Byte
  old : List Chunk

namespace Extension

def boot : Extension := ⟨[], []⟩

def step (x : Extension) : Event → Extension
  | .load saves gap tail =>
      let got := savext_load_pre gap tail
      ⟨savext_load saves got, held got⟩
  | .save _ => x
  | .new_game => ⟨[], []⟩

def run (x : Extension) (events : List Event) : Extension := events.foldl step x

end Extension

/-- The mods with an `on_save` are the ones of these ids. -/
def Event.loads (mods : List (List Byte)) : Event → Prop
  | .load saves _ _ => saves.map SaveMod.id = mods
  | .save s => s.saves.map SaveMod.id = mods
  | .new_game => True

namespace Snapshot

variable (s : Snapshot) (kept : List Byte) (old : List Chunk)

/-- The gap and the tail the save leaves. -/
def areas : List Byte × List Byte :=
  let snapshot := savext_snapshot s.saves kept s.opened s.claims s.g_id s.gap
  (snapshot.1, savext_image snapshot.2 s.g_id s.tail)

/-- The chunks the save holds, as a load finds them. -/
def written : List Chunk := held (savext_load_pre (s.areas kept).1 (s.areas kept).2)

/-- The chunks gathered before a mod is asked. -/
def ahead (asked : List SaveMod) : List Chunk :=
  port s.opened s.claims ++ given asked (held kept) s.opened s.claims

/-- The chunks gathered before a kept one is carried. -/
def ahead_of_kept (passed : List Chunk) : List Chunk :=
  s.ahead kept s.saves ++ hold (KEPT_MAX - (encode (s.ahead kept s.saves)).length)
    (passed.filter fun c => !soa.isPrefixOf c.id && !saves_for_itself s.saves c.id)

/-- The buffer and an area of the container have room for a chunk after others. -/
def has_room (before : List Chunk) (c : Chunk) : Prop :=
  s.gap.any (· ≠ 0) = false ∧ (encode before).length + (chunk_put c).length ≤ KEPT_MAX ∧
    ((fill (GAP_LEN - GAP_HEAD) before).2 = [] ∧
        (encode before).length + (chunk_put c).length ≤ GAP_LEN - GAP_HEAD ∨
      (encode (in_tail before)).length + (chunk_put c).length ≤ TAIL_LEN - TAIL_HEAD)

/-- The mod's answer does not fit what it was offered. -/
def misfit (before : List Chunk) (m : SaveMod) : Prop :=
  let got := (m.result (encode before).length).1
  got ≠ -1 ∧ (got < 0 ∨ got > m.room (encode before).length)

/-- A chunk of the loaded save is written again when no loaded mod saves for
itself under its id, and when that mod's answer does not fit. -/
structure Carries : Prop where
  absent : ∀ pre c post, old = pre ++ c :: post → ¬ soa <+: c.id →
    saves_for_itself s.saves c.id = false → s.has_room (s.ahead_of_kept kept pre) c →
    c ∈ s.written kept
  unfit : ∀ pre m post, s.saves = pre ++ m :: post → misfit (s.ahead kept pre) m →
    ∀ c ∈ old, ¬ soa <+: c.id → c.id = m.id → s.has_room (s.ahead kept pre) c →
    c ∈ s.written kept

/-- No mod with a chunk in the loaded save answers with one that does not fit,
and none gives a chunk under an id longer than the container's. -/
structure Sound : Prop where
  fits : ∀ pre m post, s.saves = pre ++ m :: post → misfit (s.ahead kept pre) m →
    ∀ c ∈ old, c.id ≠ m.id
  short : ∀ c ∈ given s.saves (held kept) s.opened s.claims, c.id.length ≤ ID_MAX

end Snapshot

/-- What the run asks of an event: of a load, that no chunk it finds has an id
that begins with a NUL. -/
def Event.Sound (x : Extension) : Event → Prop
  | .load _ gap tail => ∀ c ∈ held (savext_load_pre gap tail), c.id ≠ []
  | .save s => s.Sound x.kept x.old
  | .new_game => True

/-! What is kept, at each point of a run. -/

/-- The kept chunks are the loaded save's, less this port's and those of mods
that save for themselves. -/
structure Extension.Keeps (mods : List (List Byte)) (x : Extension) : Prop where
  kept : held x.kept = x.old.filter fun c => !soa.isPrefixOf c.id && !mods.contains c.id
  writable : ∀ c ∈ x.old, c.Writable

section Kept

variable {mods : List (List Byte)} {x : Extension}

theorem saves_for_itself_eq {saves : List SaveMod} (same : saves.map SaveMod.id = mods)
    (id : List Byte) : saves_for_itself saves id = mods.contains id := by
  rw [← same, saves_for_itself, List.contains_eq_any_beq, List.any_map]
  apply List.any_congr rfl
  intro m
  simp [eq_comm, beq_eq_decide]

theorem held_savext_load (saves : List SaveMod) (got : List Byte) :
    held (savext_load saves got) =
      (held got).filter fun c => !soa.isPrefixOf c.id && !saves_for_itself saves c.id := by
  rw [held, savext_load, chunks_flatMap, held, List.filter_map]
  · rfl
  · intro f member
    exact chunks_stand (List.mem_filter.mp member).1

theorem held_writable {p : List Byte} (named : ∀ c ∈ held p, c.id ≠ []) :
    ∀ c ∈ held p, c.Writable := by
  intro c member
  obtain ⟨found, inside, rfl⟩ := List.mem_map.mp member
  exact stands_writable (chunks_stand inside) (named _ member)

theorem keeps_boot : Extension.boot.Keeps mods where
  kept := rfl
  writable := by simp [Extension.boot]

theorem Extension.Keeps.step (keeps : x.Keeps mods) {event : Event} (same : event.loads mods)
    (sound : event.Sound x) : (x.step event).Keeps mods := by
  cases event with
  | load saves gap tail =>
      refine ⟨?_, held_writable sound⟩
      change held (savext_load saves _) = _
      rw [held_savext_load]
      simp only [saves_for_itself_eq same]
      rfl
  | save s => exact keeps
  | new_game => exact ⟨rfl, by simp [Extension.step]⟩

theorem Extension.Keeps.run {x : Extension} (keeps : x.Keeps mods) (events : List Event)
    (same : ∀ event ∈ events, event.loads mods)
    (sound : ∀ before event after, events = before ++ event :: after →
      event.Sound (x.run before)) : (x.run events).Keeps mods := by
  induction events generalizing x with
  | nil => exact keeps
  | cons event events ih =>
      have here := sound [] event events rfl
      refine ih (keeps.step (same event (by simp)) here) (fun e member => same e (by simp [member])) ?_
      intro before next after split
      exact sound (event :: before) next after (by rw [split]; rfl)

end Kept

/-! A snapshot's chunks, in the order they go into the container. -/

section Areas

variable {before after : List Chunk} {c : Chunk}

/-- A chunk with room in an area is in one. -/
theorem mem_areas (room : (fill (GAP_LEN - GAP_HEAD) before).2 = [] ∧
        (encode before).length + (chunk_put c).length ≤ GAP_LEN - GAP_HEAD ∨
      (encode (in_tail before)).length + (chunk_put c).length ≤ TAIL_LEN - TAIL_HEAD) :
    c ∈ in_gap (before ++ c :: after) ++ in_tail (before ++ c :: after) := by
  have into_tail : ∀ xs ys : List Chunk,
      (encode (hold (TAIL_LEN - TAIL_HEAD) xs)).length + (chunk_put c).length ≤
        TAIL_LEN - TAIL_HEAD → c ∈ hold (TAIL_LEN - TAIL_HEAD) (xs ++ c :: ys) := by
    intro xs ys fits
    rw [hold_append, hold, if_pos (by omega)]
    simp
  rw [in_gap, in_tail, List.mem_append]
  rcases eq_or_ne (fill (GAP_LEN - GAP_HEAD) before).2 [] with still | closed
  · rw [fill_open still, fill]
    split
    · exact .inl (by simp)
    · rename_i tight
      refine .inr (into_tail [] after ?_)
      rcases room with ⟨_, gap⟩ | tail
      · omega
      · rwa [in_tail, still] at tail
  · rw [fill_closed closed]
    rcases room with ⟨still, _⟩ | tail
    · exact absurd still closed
    · exact .inr (into_tail _ after tail)

end Areas

/-! One snapshot after a load. -/

section Snapshot

variable {mods : List (List Byte)} {s : Snapshot} {kept : List Byte} {old : List Chunk}

theorem answer_sized {kept : List Chunk} (sized : ∀ c ∈ kept, c.data.length < 2 ^ 32)
    {used : Nat} {m : SaveMod} {c : Chunk} (answered : answer kept used m = some c) : c.data.length < 2 ^ 32 := by
  unfold answer at answered
  dsimp only at answered
  split at answered
  · cases answered
  · split at answered
    · have found := (Option.filter_eq_some_iff.mp answered).1
      exact sized c (List.mem_of_find?_eq_some found)
    · rename_i fits
      cases answered
      have room : m.room used ≤ KEPT_MAX := (Nat.sub_le _ _).trans (Nat.sub_le _ _)
      unfold KEPT_MAX GAP_LEN TAIL_LEN at room
      rw [List.length_map, List.length_range]
      omega

theorem own_sized {kept : List Chunk} (sized : ∀ c ∈ kept, c.data.length < 2 ^ 32) (used : Nat)
    (saves : List SaveMod) : ∀ c ∈ own kept used saves, c.data.length < 2 ^ 32 := by
  induction saves generalizing used with
  | nil => simp [own]
  | cons m saves ih =>
      intro c member
      rcases List.mem_append.mp member with here | later
      · exact answer_sized sized (Option.mem_toList.mp here)
      · exact ih _ c later

theorem port_writable {opened claims : Option (List Byte)}
    (sized : ∀ c ∈ port opened claims, c.data.length < 2 ^ 32) :
    ∀ c ∈ port opened claims, c.Writable := by
  intro c member
  rcases port_id member with named | named <;>
    exact ⟨by rw [named]; decide, by rw [named]; decide, by rw [named]; decide, sized c member⟩

/-- Everything gathered can be read back. -/
theorem gathered_writable (good : ∀ id ∈ mods, good_id id = true)
    (same : s.saves.map SaveMod.id = mods) (fine : ∀ c ∈ held kept, c.Writable)
    (short : ∀ c ∈ given s.saves (held kept) s.opened s.claims, c.id.length ≤ ID_MAX) :
    ∀ c ∈ gathered s.saves (held kept) s.opened s.claims, c.Writable := by
  intro c member
  rw [gathered, List.mem_append, List.mem_append] at member
  rcases member with (ours | asked) | carried
  · exact port_writable s.sized c ours
  · obtain ⟨m, loaded, named⟩ := own_id asked
    have allowed := good m.id (same ▸ List.mem_map_of_mem loaded)
    rw [named] at allowed
    exact ⟨good_id_named allowed, short c asked, good_id_string allowed,
      own_sized (fun d held => (fine d held).sized) _ _ c asked⟩
  · exact fine c (List.mem_filter.mp ((hold_sublist _ _).subset carried)).1

/-- What the save holds is what went into the two areas. -/
theorem written_eq (clear : s.gap.any (· ≠ 0) = false)
    (fine : ∀ c ∈ gathered s.saves (held kept) s.opened s.claims, c.Writable) :
    s.written kept = in_gap (gathered s.saves (held kept) s.opened s.claims) ++
      in_tail (gathered s.saves (held kept) s.opened s.claims) := by
  have found := load_written clear (gather_eq s.saves kept s.opened s.claims) fine s.id16 s.tail
  rw [Snapshot.written, Snapshot.areas]
  dsimp only at found ⊢
  rw [found, held_encode]
  intro c member
  apply fine
  rw [← fill_append (GAP_LEN - GAP_HEAD) (gathered _ _ _ _), List.mem_append]
  rcases List.mem_append.mp member with gap | tail
  · exact .inl gap
  · exact .inr ((hold_sublist _ _).subset tail)

/-- A sound snapshot writes the loaded save's chunks again. -/
theorem Extension.Keeps.carries {x : Extension} (keeps : x.Keeps mods)
    (good : ∀ id ∈ mods, good_id id = true) (same : s.saves.map SaveMod.id = mods)
    (sound : s.Sound x.kept x.old) : s.Carries x.kept x.old := by
  have filtered : held x.kept =
      x.old.filter fun c => !soa.isPrefixOf c.id && !saves_for_itself s.saves c.id := by
    rw [keeps.kept]
    simp only [saves_for_itself_eq same]
  have still : ∀ c ∈ held x.kept, c.Writable := by
    intro c member
    rw [keeps.kept] at member
    exact keeps.writable c (List.mem_filter.mp member).1
  have fine := gathered_writable good same still sound.short
  constructor
  · intro pre c post split not_soa other room
    obtain ⟨clear, buffer, area⟩ := room
    rw [written_eq clear fine]
    have wanted_c : (!soa.isPrefixOf c.id && !saves_for_itself s.saves c.id) = true := by
      rw [other, Bool.and_eq_true_iff, Bool.not_eq_true', Bool.eq_false_iff, ne_eq,
        List.isPrefixOf_iff_prefix]
      exact ⟨not_soa, rfl⟩
    -- the kept chunks are all carried, in their order
    have all_carried : carried s.saves (held x.kept) = held x.kept := by
      rw [carried, List.filter_eq_self]
      intro d member
      rw [filtered] at member
      exact (Bool.and_eq_true_iff.mp (List.mem_filter.mp member).2).2
    rw [split, List.filter_append, List.filter_cons, wanted_c, if_pos rfl] at filtered
    obtain ⟨after, places⟩ : ∃ after, gathered s.saves (held x.kept) s.opened s.claims =
        s.ahead_of_kept x.kept pre ++ c :: after := by
      have front : gathered s.saves (held x.kept) s.opened s.claims =
          s.ahead x.kept s.saves ++ hold (KEPT_MAX - (encode (s.ahead x.kept s.saves)).length)
            (carried s.saves (held x.kept)) := rfl
      rw [Snapshot.ahead_of_kept, encode_append, List.length_append] at buffer
      rw [front, all_carried.trans filtered, hold_append, hold, if_pos (by omega)]
      exact ⟨_, (List.append_assoc _ _ _).symm⟩
    rw [places]
    exact mem_areas area
  · intro pre m post split unfit c member _ named
    exact absurd named (sound.fits pre m post split unfit c member)

end Snapshot

/-- A save made by one mod, loaded again, and saved again. -/
def saving (m : SaveMod) : Snapshot where
  saves := [m]
  opened := none
  claims := none
  g_id := List.replicate 16 5
  gap := clear_gap
  tail := []
  id16 := rfl
  sized := by simp [port]

def ab : List Byte := [0x61, 0x62]

def first_load (m : SaveMod) : Event :=
  .load [m] ((saving (giving ab)).areas []).1 ((saving (giving ab)).areas []).2

def saved_again (m : SaveMod) : List Event := [first_load m, .save (saving m)]

theorem saving_written : (saving (giving ab)).written [] = [⟨ab, [1, 2]⟩] := by
  have gathers : gathered (saving (giving ab)).saves (held []) (saving (giving ab)).opened
      (saving (giving ab)).claims = [⟨ab, [1, 2]⟩] := by decide
  have fine : (⟨ab, [1, 2]⟩ : Chunk).Writable := ⟨by decide, by decide, by decide, by decide⟩
  rw [written_eq (s := saving (giving ab)) clear_gap_clear, gathers]
  · decide
  · rw [gathers]
    simpa using fine

theorem run_load (saves : List SaveMod) (gap tail : List Byte) :
    Extension.boot.run [.load saves gap tail] =
      ⟨savext_load saves (savext_load_pre gap tail), held (savext_load_pre gap tail)⟩ := rfl

theorem first_load_old (m : SaveMod) :
    (Extension.boot.run [first_load m]).old = [⟨ab, [1, 2]⟩] := by
  rw [first_load, run_load, ← saving_written, Snapshot.written]

/-- A mod that saves for itself has no chunk kept. -/
theorem first_load_kept {m : SaveMod} (named : m.id = ab) :
    held (Extension.boot.run [first_load m]).kept = [] := by
  have written := saving_written
  rw [Snapshot.written] at written
  rw [first_load, run_load]
  dsimp only
  rw [held_savext_load, written]
  simp [saves_for_itself, named]

/-- A mod whose answer is an error. -/
def refusing (id : List Byte) : SaveMod := ⟨id, fun _ => (-2, fun _ => 0)⟩

theorem giving_sound : ∀ before event after,
    saved_again (giving ab) = before ++ event :: after →
      event.Sound (Extension.boot.run before) := by
  intro before event after split
  have old := first_load_old (giving ab)
  have none_kept := first_load_kept (m := giving ab) rfl
  rcases before with _ | ⟨first, _ | ⟨second, before⟩⟩
  · cases split
    have written := saving_written
    rw [Snapshot.written] at written
    rw [first_load, Event.Sound, written]
    simp [ab]
  · cases split
    refine ⟨?_, ?_⟩
    · intro pre m post places unfit
      rcases pre with _ | ⟨n, pre⟩
      · cases places
        exact absurd unfit.2 (by decide)
      · cases pre <;> cases places
    · rw [none_kept]
      decide
  · have length := congrArg List.length split
    simp [saved_again] at length

end SoaPort.Save
