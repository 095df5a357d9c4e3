import SoaPort.Gxr.TexIndex
import Mathlib.Data.Fintype.Card

namespace SoaPort.Gxr

open SoaPort.Lib

/-! The index as a table of slots. -/

theorem tex_home_lt (e : TexEntry) : tex_home e < TEX_INDEX :=
  Nat.lt_of_le_of_lt Nat.and_le_right (by decide)

theorem same_key_eq {a b : TexEntry} : same_key a b = true ↔ a = b := by
  cases a
  cases b
  simp [same_key, and_assoc]

/-- Where an entry's key is first looked for. -/
def entry_home (g_cache : Fin TEX_CACHE → TexEntry) (n : Fin TEX_CACHE) : Nat :=
  tex_home (g_cache n)

theorem entry_home_lt (g_cache : Fin TEX_CACHE → TexEntry) (n : Fin TEX_CACHE) :
    entry_home g_cache n < TEX_INDEX :=
  tex_home_lt _

theorem tex_find_seek (g : TexCache) (key : TexEntry) :
    tex_find g key =
      seek TEX_INDEX g.g_index (fun n => same_key (g.g_cache n) key) (tex_home key) :=
  rfl

theorem tex_index_add_put_in (g : TexCache) (n : Fin TEX_CACHE) :
    tex_index_add g n = (put_in (entry_home g.g_cache) TEX_INDEX g.g_index n).map fun index =>
      { g with g_index := index } := by
  rw [put_in, Option.map_map]
  rfl

/-- The source's test is that the home lies past the gap and no later than the key does. -/
theorem stays_iff {i j home : Nat} (i_lt : i < TEX_INDEX) (j_lt : j < TEX_INDEX)
    (home_lt : home < TEX_INDEX) :
    stays i j home = true ↔
      0 < ahead TEX_INDEX i home ∧ ahead TEX_INDEX i home ≤ ahead TEX_INDEX i j := by
  unfold stays ahead
  by_cases up : i ≤ j
  · rw [if_pos up, if_pos up, Bool.and_eq_true, decide_eq_true_eq, decide_eq_true_eq]
    split <;> omega
  · rw [if_neg up, if_neg up, Bool.or_eq_true, decide_eq_true_eq, decide_eq_true_eq]
    split <;> omega

theorem close_gap_close {g_cache : Fin TEX_CACHE → TexEntry} {steps i j : Nat}
    {g_index : Nat → Option (Fin TEX_CACHE)} (i_lt : i < TEX_INDEX) :
    close_gap g_cache steps g_index i j =
      close (entry_home g_cache) TEX_INDEX steps g_index i j := by
  induction steps generalizing g_index i j with
  | zero => rfl
  | succ steps ih =>
      rw [close_gap, close]
      have next_lt : (j + 1) % TEX_INDEX < TEX_INDEX := Nat.mod_lt _ (by decide)
      generalize (j + 1) % TEX_INDEX = next at *
      cases g_index next with
      | none => rfl
      | some n =>
          dsimp only
          rw [ih i_lt, ih next_lt]
          exact if_congr (stays_iff i_lt next_lt (tex_home_lt _)) rfl rfl

theorem tex_index_remove_take_out (g : TexCache) (n : Fin TEX_CACHE) :
    tex_index_remove g n =
      (take_out (entry_home g.g_cache) TEX_INDEX g.g_index n).map fun index =>
        { g with g_index := index } := by
  rw [take_out, tex_index_remove]
  change (probe _ _ _ (entry_home g.g_cache n)).bind _ = _
  cases found : probe (fun i => g.g_index i = some n) TEX_INDEX TEX_INDEX
      (entry_home g.g_cache n) with
  | none => rfl
  | some i =>
      rw [Option.bind_some, Option.bind_some,
        close_gap_close (probe_lt (by decide) (entry_home_lt _ _) found)]

/-! What the calls so far have left in the index. -/

/-- The entries in the index, each with the key it was added with. -/
abbrev Live : Type := Fin TEX_CACHE → Option TexEntry

def Live.after (live : Live) : IndexCall → Live
  | .add n key => Function.update live n (some key)
  | .remove n => Function.update live n none

/-- Adds a key no live entry has, under an entry that is not live; removes a live entry. -/
def Live.Allows (live : Live) : IndexCall → Prop
  | .add n key => live n = none ∧ ∀ m, live m ≠ some key
  | .remove n => live n ≠ none

def live_after : List IndexCall → Live → Live
  | [], live => live
  | call :: rest, live => live_after rest (live.after call)

def Allowed : List IndexCall → Live → Prop
  | [], _ => True
  | call :: rest, live => live.Allows call ∧ Allowed rest (live.after call)

def Live.entries (live : Live) : Finset (Fin TEX_CACHE) :=
  Finset.univ.filter fun n => live n ≠ none

theorem Live.mem_entries {live : Live} {n : Fin TEX_CACHE} :
    n ∈ live.entries ↔ live n ≠ none := by
  simp [Live.entries]

theorem Live.entries_add (live : Live) (n : Fin TEX_CACHE) (key : TexEntry) :
    Live.entries (live.after (.add n key)) = insert n live.entries := by
  ext m
  rw [Finset.mem_insert, Live.mem_entries, Live.mem_entries, Live.after, Function.update_apply]
  split <;> simp_all

theorem Live.entries_remove (live : Live) (n : Fin TEX_CACHE) :
    Live.entries (live.after (.remove n)) = live.entries.erase n := by
  ext m
  rw [Finset.mem_erase, Live.mem_entries, Live.mem_entries, Live.after, Function.update_apply]
  split <;> simp_all

/-- Twice as many places as there can be entries. -/
theorem Live.room (live : Live) : live.entries.card < TEX_INDEX := by
  have most := Finset.card_le_univ live.entries
  rw [Fintype.card_fin] at most
  exact Nat.lt_of_le_of_lt most (by decide)

/-- The index holds the live entries where their keys are found. -/
structure Indexed (g : TexCache) (live : Live) : Prop where
  keyed : ∀ n key, live n = some key → g.g_cache n = key
  distinct : ∀ n m key, live n = some key → live m = some key → n = m
  filed : Filed (entry_home g.g_cache) TEX_INDEX g.g_index live.entries

theorem indexed_start : Indexed tex_start fun _ => none where
  keyed n key is := by cases is
  distinct n m key is := by cases is
  filed := {
    content n := by simp [Live.mem_entries, tex_start]
    once n p _ q _ at_p := by cases at_p
    reached p _ n at_p := by cases at_p }

/-! A call keeps the index right. -/

theorem Indexed.add {g : TexCache} {live : Live} (indexed : Indexed g live) {n : Fin TEX_CACHE}
    {key : TexEntry} (allowed : live.Allows (.add n key)) :
    ∃ g', index_call g (.add n key) = some g' ∧ Indexed g' (live.after (.add n key)) := by
  obtain ⟨fresh, new⟩ := allowed
  have given : ∀ m ∈ live.entries,
      entry_home (Function.update g.g_cache n key) m = entry_home g.g_cache m := by
    intro m mem
    rw [entry_home, Function.update_of_ne]
    · rfl
    · rintro rfl
      exact Live.mem_entries.mp mem fresh
  have absent : n ∉ live.entries := fun mem => Live.mem_entries.mp mem fresh
  obtain ⟨index, put, filed⟩ :=
    (indexed.filed.congr given).put_in (entry_home_lt _) live.room absent
  refine ⟨⟨Function.update g.g_cache n key, index⟩, ?_, ?_⟩
  · rw [index_call, tex_index_add_put_in, put, Option.map_some]
  · constructor
    case filed =>
      rw [Live.entries_add]
      exact filed
    case keyed =>
      intro m key' is
      rw [Live.after, Function.update_apply] at is
      change Function.update g.g_cache n key m = key'
      rw [Function.update_apply]
      split at is
      next same =>
        rw [if_pos same]
        exact Option.some.inj is
      next other =>
        rw [if_neg other]
        exact indexed.keyed m key' is
    case distinct =>
      intro m m' key' is is'
      rw [Live.after, Function.update_apply] at is is'
      split at is
      next same =>
        cases is
        split at is'
        next same' => rw [same, same']
        next => exact absurd is' (new m')
      next =>
        split at is'
        next =>
          cases is'
          exact absurd is (new m)
        next => exact indexed.distinct m m' key' is is'

theorem Indexed.remove {g : TexCache} {live : Live} (indexed : Indexed g live)
    {n : Fin TEX_CACHE} (allowed : live.Allows (.remove n)) :
    ∃ g', index_call g (.remove n) = some g' ∧ Indexed g' (live.after (.remove n)) := by
  obtain ⟨index, taken, filed⟩ :=
    indexed.filed.take_out (entry_home_lt _) live.room (Live.mem_entries.mpr allowed)
  have kept : ∀ m key, live.after (.remove n) m = some key → live m = some key := by
    intro m key is
    rw [Live.after, Function.update_apply] at is
    split at is
    · cases is
    · exact is
  refine ⟨{ g with g_index := index }, ?_, ?_⟩
  · rw [index_call, tex_index_remove_take_out, taken, Option.map_some]
  · constructor
    case keyed => exact fun m key is => indexed.keyed m key (kept m key is)
    case distinct =>
      exact fun m m' key is is' => indexed.distinct m m' key (kept m key is) (kept m' key is')
    case filed =>
      rw [Live.entries_remove]
      exact filed

theorem Indexed.call {g : TexCache} {live : Live} (indexed : Indexed g live) {call : IndexCall}
    (allowed : live.Allows call) :
    ∃ g', index_call g call = some g' ∧ Indexed g' (live.after call) := by
  cases call with
  | add n key => exact indexed.add allowed
  | remove n => exact indexed.remove allowed

theorem Indexed.calls {g : TexCache} {live : Live} (indexed : Indexed g live)
    {calls : List IndexCall} (allowed : Allowed calls live) :
    ∃ g', index_calls calls g = some g' ∧ Indexed g' (live_after calls live) := by
  induction calls generalizing g live with
  | nil => exact ⟨g, rfl, indexed⟩
  | cons call rest ih =>
      obtain ⟨now, later⟩ := allowed
      obtain ⟨g₁, called, indexed₁⟩ := indexed.call now
      obtain ⟨g₂, ran, indexed₂⟩ := ih indexed₁ later
      refine ⟨g₂, ?_, indexed₂⟩
      rw [index_calls, called, Option.bind_some, ran]

/-! What a search of it finds. -/

theorem Indexed.find_live {g : TexCache} {live : Live} (indexed : Indexed g live)
    {n : Fin TEX_CACHE} {key : TexEntry} (is : live n = some key) :
    tex_find g key = some (some n) := by
  have keyed := indexed.keyed n key is
  have mem : n ∈ live.entries := by
    rw [Live.mem_entries, is]
    exact Option.some_ne_none key
  have only : ∀ m ∈ live.entries, same_key (g.g_cache m) key = true → m = n := by
    intro m live_m same
    obtain ⟨key', is'⟩ := Option.ne_none_iff_exists'.mp (Live.mem_entries.mp live_m)
    have keyed' := indexed.keyed m key' is'
    rw [same_key_eq, keyed'] at same
    rw [same] at is'
    exact indexed.distinct m n key is' is
  have found := indexed.filed.seek_live (entry_home_lt _) mem (same_key_eq.mpr keyed) only
  rw [entry_home, keyed] at found
  rw [tex_find_seek, found]

theorem Indexed.find_other {g : TexCache} {live : Live} (indexed : Indexed g live)
    {key : TexEntry} (none_ : ∀ n, live n ≠ some key) : tex_find g key = some none := by
  rw [tex_find_seek]
  apply indexed.filed.seek_none live.room (tex_home_lt key)
  intro n mem
  obtain ⟨key', is⟩ := Option.ne_none_iff_exists'.mp (Live.mem_entries.mp mem)
  apply Bool.eq_false_iff.mpr
  intro same
  rw [same_key_eq, indexed.keyed n key' is] at same
  rw [same] at is
  exact none_ n is

/-- After any calls a search ends on the live entry with the key, and on NULL where no live
entry has it; and every live entry is reached from its home over places that are not empty. -/
theorem tex_index_right (calls : List IndexCall) (allowed : Allowed calls fun _ => none) :
    ∃ g, index_calls calls tex_start = some g ∧
      (∀ key, ∃ found, tex_find g key = some found ∧
        ∀ n, found = some n ↔ live_after calls (fun _ => none) n = some key) ∧
      ∀ n key, live_after calls (fun _ => none) n = some key →
        ∃ steps < TEX_INDEX, g.g_index ((tex_home key + steps) % TEX_INDEX) = some n ∧
          ∀ m < steps, g.g_index ((tex_home key + m) % TEX_INDEX) ≠ none := by
  obtain ⟨g, ran, indexed⟩ := indexed_start.calls allowed
  refine ⟨g, ran, ?_, ?_⟩
  · intro key
    by_cases some_ : ∃ n, live_after calls (fun _ => none) n = some key
    · obtain ⟨n, is⟩ := some_
      refine ⟨some n, indexed.find_live is, fun m => ?_⟩
      constructor
      · intro same
        rw [← Option.some.inj same]
        exact is
      · intro is'
        rw [indexed.distinct n m key is is']
    · refine ⟨none, indexed.find_other fun n is => some_ ⟨n, is⟩, fun n => ?_⟩
      constructor
      · intro same
        cases same
      · intro is
        exact absurd ⟨n, is⟩ some_
  · intro n key is
    have mem : n ∈ Live.entries (live_after calls fun _ => none) := by
      rw [Live.mem_entries, is]
      exact Option.some_ne_none key
    have reach := indexed.filed.reach (entry_home_lt _) mem
    rw [entry_home, indexed.keyed n key is] at reach
    exact reach

/-- A key of a 64 by 64 texture at an address. -/
def square (addr : BitVec 32) : TexEntry := ⟨addr, 6, 64, 64, 0, 0⟩

/-- Three keys whose home is the last place, and the first of them taken out: the other two
move back round the end of the table. -/
def round_the_end : List IndexCall :=
  [.add 0 (square 0x1004A0), .add 1 (square 0x1157C0), .add 2 (square 0x12AAE0), .remove 0]

theorem live_round_the_end (n : Fin TEX_CACHE) :
    live_after round_the_end (fun _ => none) n =
      if n = 0 then none
      else if n = 2 then some (square 0x12AAE0)
      else if n = 1 then some (square 0x1157C0)
      else none := by
  simp only [round_the_end, live_after, Live.after, Function.update_apply]
  split
  · rfl
  · rfl

theorem allowed_round_the_end : Allowed round_the_end fun _ => none := by
  refine ⟨⟨rfl, ?_⟩, ⟨rfl, ?_⟩, ⟨rfl, ?_⟩, ?_, trivial⟩
  · exact fun m is => Option.some_ne_none _ is.symm
  · intro m
    simp only [Live.after, Function.update_apply]
    split <;> decide
  · intro m
    simp only [Live.after, Function.update_apply]
    split
    · decide
    · split <;> decide
  · exact Option.some_ne_none (square 0x1004A0)

theorem found_round_the_end :
    ∃ g, index_calls round_the_end tex_start = some g ∧
      tex_find g (square 0x12AAE0) = some (some 2) ∧
      tex_find g (square 0x1004A0) = some none := by
  obtain ⟨g, ran, finds, -⟩ := tex_index_right round_the_end allowed_round_the_end
  obtain ⟨last, found_last, is_last⟩ := finds (square 0x12AAE0)
  obtain ⟨first, found_first, is_first⟩ := finds (square 0x1004A0)
  refine ⟨g, ran, ?_, ?_⟩
  · have two := (is_last 2).mpr (by rw [live_round_the_end]; rfl)
    rw [found_last, two]
  · rw [found_first]
    cases first with
    | none => rfl
    | some n =>
        have none_ := (is_first n).mp rfl
        rw [live_round_the_end] at none_
        split at none_
        · cases none_
        · split at none_
          · exact absurd none_ (by decide)
          · split at none_
            · exact absurd none_ (by decide)
            · cases none_

end SoaPort.Gxr
