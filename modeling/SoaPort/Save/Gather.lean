import Mathlib.Data.List.Nodup
import SoaPort.Save.Pack

namespace SoaPort.Save

open Lib

/-! The chunks a snapshot writes, as a list. -/

def islower (b : Byte) : Bool := 0x61 ≤ b.toNat ∧ b.toNat ≤ 0x7A

def isdigit (b : Byte) : Bool := 0x30 ≤ b.toNat ∧ b.toNat ≤ 0x39

/-- A manifest 2 id: lowercase letters, digits, '.', '_' and '-', a letter or
digit first, under 64 characters. -/
def good_id : List Byte → Bool
  | [] => false
  | b :: rest =>
      (b :: rest).length < 64 ∧ (islower b || isdigit b) ∧
        (b :: rest).all fun b => islower b || isdigit b || b = 0x2E || b = 0x5F || b = 0x2D

/-- This port's own chunks. -/
def port (opened claims : Option (List Byte)) : List Chunk :=
  (opened.map (Chunk.mk SAVENOW_ID)).toList ++ (claims.map (Chunk.mk CLAIMS_ID)).toList

/-- The room a mod is offered, `used` bytes of the buffer taken. -/
def SaveMod.room (m : SaveMod) (used : Nat) : Nat := KEPT_MAX - used - (1 + m.id.length + 4)

/-- What a mod returns and leaves in the buffer at its turn; -2 if there is no
room to offer. -/
def SaveMod.result (m : SaveMod) (used : Nat) : Int × (Nat → Byte) :=
  if KEPT_MAX - used > 1 + m.id.length + 4 then m.on_save (m.room used) else (-2, fun _ => 0)

/-- The chunk written for a mod: what it gives, or its old one when that does
not fit, or none. -/
def answer (kept : List Chunk) (used : Nat) (m : SaveMod) : Option Chunk :=
  let (got, buf) := m.result used
  if got = -1 then none
  else if got < 0 ∨ got > m.room used then
    (kept.find? fun c => c.id = m.id).filter fun c =>
      used + (1 + m.id.length + 4) + c.data.length ≤ KEPT_MAX
  else some ⟨m.id, (List.range got.toNat).map buf⟩

/-- The mods' chunks, `used` bytes of the buffer taken before the first. -/
def own (kept : List Chunk) : Nat → List SaveMod → List Chunk
  | _, [] => []
  | used, m :: saves =>
      let given := (answer kept used m).toList
      given ++ own kept (used + (encode given).length) saves

/-- The kept chunks no loaded mod replaces. -/
def carried (saves : List SaveMod) (kept : List Chunk) : List Chunk :=
  kept.filter fun c => !saves_for_itself saves c.id

/-- The mods' chunks in a snapshot. -/
def given (saves : List SaveMod) (kept : List Chunk) (opened claims : Option (List Byte)) :
    List Chunk :=
  own kept (encode (port opened claims)).length saves

/-- Every chunk a snapshot has to write. -/
def wanted (saves : List SaveMod) (kept : List Chunk) (opened claims : Option (List Byte)) :
    List Chunk :=
  port opened claims ++ given saves kept opened claims ++ carried saves kept

/-- The chunks a snapshot gathers: the kept ones the buffer has no room for
are left out. -/
def gathered (saves : List SaveMod) (kept : List Chunk) (opened claims : Option (List Byte)) :
    List Chunk :=
  let front := port opened claims ++ given saves kept opened claims
  front ++ hold (KEPT_MAX - (encode front).length) (carried saves kept)

/-- The chunks the bytes hold. -/
def held (p : List Byte) : List Chunk := (chunks p).map (·.2)

section Ids

variable {id : List Byte}

theorem good_id_named (good : good_id id = true) : id ≠ [] := by
  rintro rfl
  cases good

theorem good_id_string (good : good_id id = true) : ∀ b ∈ id, b ≠ 0 := by
  cases id with
  | nil => cases good
  | cons first rest =>
      simp only [good_id, decide_eq_true_eq] at good
      intro b member
      have allowed := List.all_eq_true.mp good.2.2 b member
      rintro rfl
      revert allowed
      decide

end Ids

section Gather

variable {saves : List SaveMod} {opened claims : Option (List Byte)}

theorem encode_toList (c : Option Chunk) : encode c.toList = c.elim [] chunk_put := by
  cases c with
  | none => rfl
  | some c => exact List.append_nil _

theorem port_encode : (opened.elim [] fun sn => chunk_put ⟨SAVENOW_ID, sn⟩) ++
    (claims.elim [] fun text => chunk_put ⟨CLAIMS_ID, text⟩) = encode (port opened claims) := by
  rw [port, encode_append, encode_toList, encode_toList]
  cases opened <;> cases claims <;> rfl

theorem held_encode {cs : List Chunk} (fine : ∀ c ∈ cs, c.Writable) : held (encode cs) = cs := by
  rw [held, chunks_encode fine, List.map_map]
  exact List.map_id _

theorem kept_chunk_eq (kept id : List Byte) :
    kept_chunk kept id = (held kept).find? fun c => c.id = id := by
  rw [kept_chunk, held, List.find?_map]
  rfl

/-- Asking a mod adds its answer. -/
theorem ask_eq (kept all : List Byte) (m : SaveMod) :
    ask kept all m = all ++ encode (answer (held kept) all.length m).toList := by
  have asked : ask kept all m =
      if (m.result all.length).1 = -1 then all
      else if (m.result all.length).1 < 0 ∨ (m.result all.length).1 > m.room all.length then
        (kept_chunk kept m.id).elim all fun c =>
          if all.length + (1 + m.id.length + 4) + c.data.length ≤ KEPT_MAX then
            all ++ chunk_put ⟨m.id, c.data⟩
          else all
      else all ++ chunk_put ⟨m.id, (List.range (m.result all.length).1.toNat).map
        (m.result all.length).2⟩ := by
    rw [ask]
    cases kept_chunk kept m.id <;> rfl
  rw [asked, kept_chunk_eq, encode_toList, answer]
  rcases m.result all.length with ⟨got, buf⟩
  dsimp only
  split
  · exact (List.append_nil all).symm
  · split
    · cases old : (held kept).find? fun c => c.id = m.id with
      | none => exact (List.append_nil all).symm
      | some c =>
          have named : c.id = m.id := by simpa using List.find?_some old
          rw [Option.filter_some, ← named, Option.elim_some]
          split
          · rename_i fits
            rw [if_pos (by simpa using fits)]
            rfl
          · rename_i tight
            rw [if_neg (by simpa using tight)]
            exact (List.append_nil all).symm
    · rfl

theorem asks_eq (kept : List Byte) (saves : List SaveMod) (all : List Byte) :
    saves.foldl (ask kept) all = all ++ encode (own (held kept) all.length saves) := by
  induction saves generalizing all with
  | nil => exact (List.append_nil all).symm
  | cons m saves ih =>
      rw [List.foldl_cons, ask_eq, ih, own, encode_append, List.append_assoc,
        List.length_append]

/-- Carrying the kept chunks over, while there is room. -/
theorem keeps_eq (found : List (List Byte × Chunk)) (all : List Byte) :
    found.foldl (keep saves) all =
      all ++ encode (hold (KEPT_MAX - all.length) (carried saves (found.map (·.2)))) := by
  induction found generalizing all with
  | nil => exact (List.append_nil all).symm
  | cons f found ih =>
      obtain ⟨raw, c⟩ := f
      rw [List.foldl_cons, List.map_cons]
      cases mine : saves_for_itself saves c.id with
      | true =>
          have skipped : carried saves (c :: found.map (·.2)) = carried saves (found.map (·.2)) := by
            rw [carried, List.filter_cons, mine]
            rfl
          rw [skipped, keep, mine]
          exact ih all
      | false =>
          have kept_on : carried saves (c :: found.map (·.2)) =
              c :: carried saves (found.map (·.2)) := by
            rw [carried, List.filter_cons, mine]
            rfl
          have size := chunk_put_length c
          rw [kept_on, hold, keep, mine]
          dsimp only
          split
          · rename_i fits
            have room : KEPT_MAX - (all ++ chunk_put c).length =
                KEPT_MAX - all.length - (chunk_put c).length := by
              rw [List.length_append]
              omega
            rw [if_pos (by have := fits.2; omega), ih, room, encode_cons, List.append_assoc]
          · rename_i tight
            rw [if_neg (fun fits => tight ⟨rfl, by omega⟩), ih]

theorem gather_eq (saves : List SaveMod) (kept : List Byte) (opened claims : Option (List Byte)) :
    gather saves kept opened claims = encode (gathered saves (held kept) opened claims) := by
  rw [gather, port_encode, asks_eq, ← given, keeps_eq, ← encode_append, ← encode_append]
  rfl

/-- With room for them all, the chunks wanted are gathered. -/
theorem gathered_wanted {kept : List Chunk}
    (room : (encode (wanted saves kept opened claims)).length ≤ KEPT_MAX) :
    gathered saves kept opened claims = wanted saves kept opened claims := by
  rw [wanted, encode_append, List.length_append] at room
  rw [gathered, wanted, hold_all (by omega)]

end Gather

/-! Whose the chunks are. -/

section Own

variable {saves : List SaveMod} {kept : List Chunk} {used : Nat} {c d : Chunk}

theorem answer_id {m : SaveMod} (answered : answer kept used m = some c) : c.id = m.id := by
  unfold answer at answered
  dsimp only at answered
  split at answered
  · cases answered
  · split at answered
    · have found := (Option.filter_eq_some_iff.mp answered).1
      simpa using List.find?_some found
    · cases answered
      rfl

theorem own_ids (kept : List Chunk) (used : Nat) (saves : List SaveMod) :
    ((own kept used saves).map Chunk.id).Sublist (saves.map SaveMod.id) := by
  induction saves generalizing used with
  | nil => exact .slnil
  | cons m saves ih =>
      rw [own]
      cases answered : answer kept used m with
      | none => exact .cons _ (ih _)
      | some c =>
          rw [List.map_cons, Option.toList_some, List.cons_append, List.nil_append, List.map_cons,
            answer_id answered]
          exact .cons_cons _ (ih _)

theorem own_id (member : c ∈ own kept used saves) : ∃ m ∈ saves, m.id = c.id :=
  List.mem_map.mp ((own_ids kept used saves).subset (List.mem_map_of_mem member))

theorem own_unique (distinct : (saves.map SaveMod.id).Nodup) (first : c ∈ own kept used saves)
    (second : d ∈ own kept used saves) (same : c.id = d.id) : c = d :=
  List.inj_on_of_nodup_map (distinct.sublist (own_ids kept used saves)) first second same

theorem carried_other (member : c ∈ carried saves kept) {m : SaveMod} (loaded : m ∈ saves) :
    c.id ≠ m.id := by
  intro same
  have other := (List.mem_filter.mp member).2
  rw [saves_for_itself, Bool.not_eq_true', List.any_eq_false] at other
  exact other m loaded (by simpa using same.symm)

theorem port_id {opened claims : Option (List Byte)} (member : c ∈ port opened claims) :
    c.id = SAVENOW_ID ∨ c.id = CLAIMS_ID := by
  rw [port, List.mem_append, Option.mem_toList, Option.mem_toList] at member
  rcases member with saved | claimed
  · obtain ⟨_, _, rfl⟩ := Option.map_eq_some_iff.mp saved
    exact .inl rfl
  · obtain ⟨_, _, rfl⟩ := Option.map_eq_some_iff.mp claimed
    exact .inr rfl

end Own

end SoaPort.Save
