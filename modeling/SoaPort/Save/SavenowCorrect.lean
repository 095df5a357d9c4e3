import Mathlib
import SoaPort.Save.Kept
import SoaPort.Save.Savenow

namespace SoaPort.Save

open Lib

/-! Which saves carry this port's chunk, over every run, and what their loads do. -/

/-- What a load finds of this port's in a save. -/
def Saved.chunk (sv : Saved) : Option (List Byte) :=
  load_call (savext_load_pre sv.gap sv.tail) SAVENOW_ID

def Saved.carries (sv : Saved) : Prop := sv.chunk.isSome

def Saved.fallback (sv : Saved) : BitVec 32 := get32 ((sv.chunk.getD []).drop 8)

/-- The block holds the chunk's fallback still, or the chunk has none. -/
def Saved.still (sv : Saved) : Prop :=
  sv.carries ∧ (sv.fallback = 0 ∨ sv.block.map = sv.fallback)

namespace Happening

/-- A save carries the chunk as the port opened its menu. A load of one whose fallback is still
there puts back the map it was made on, and sys15 to 0; any other leaves both. -/
def Right (no_restore : Bool) (w : World) : Happening → Prop
  | .save a b => ∀ opener, w.menu = some opener →
      ((made_save w opener a b).2.carries ↔ opener = .port)
  | .load i _ => w.menu = none → ∀ sv, w.files[i]? = some sv →
      ((after_load no_restore w sv).2 = (sv.made, 0) ↔ sv.still) ∧
        (¬ sv.still → (after_load no_restore w sv).2 = (sv.block, 20000))
  | _ => True

/-- A menu of the port's is left when a save was made in it, one save is made in it and finds a
clear gap, and the game alone saves again nothing that has no fallback. -/
def Meets (no_restore : Bool) (w : World) : Happening → Prop
  | .leave => w.menu = some .port → w.port.g_opened = false
  | .save a _ =>
      (w.menu = some .port → w.port.g_opened = true ∧ a.gap.any (· ≠ 0) = false) ∧
        (w.menu = some .save_point → a.gap.any (· ≠ 0) = true →
          load_call (savext_load_pre a.gap a.tail) SAVENOW_ID = none)
  | .load i _ => w.menu = none → ∀ sv, w.files[i]? = some sv → sv.still →
      no_restore = false ∧
        (sv.fallback = 0 → sv.block = sv.made) ∧ (sv.fallback ≠ 0 → sv.made.number < 2 ^ 24)
  | _ => True

end Happening

/-! What a snapshot writes, whatever the mods' ids. -/

section Cut

/-- A chunk that a walk can take. -/
def Chunk.readable (c : Chunk) : Bool := c.id ≠ [] ∧ c.id.length ≤ ID_MAX

/-- A walk stops at any other. -/
theorem chunk_at_stuck {c : Chunk} (short : c.id.length < 256) (unread : c.readable = false)
    (q : List Byte) : chunk_at (chunk_put c ++ q) = none := by
  have count : (BitVec.ofNat 8 c.id.length).toNat = c.id.length := by
    rw [BitVec.toNat_ofNat]
    omega
  have outside : c.id.length = 0 ∨ c.id.length > ID_MAX := by
    rw [Chunk.readable, decide_eq_false_iff_not] at unread
    rcases Nat.eq_zero_or_pos c.id.length with empty | positive
    · exact .inl empty
    · exact .inr (Nat.lt_of_not_le fun small => unread ⟨List.length_pos_iff.mp positive, small⟩)
  rw [chunk_put, List.cons_append, chunk_at]
  dsimp only
  rw [count, if_pos]
  rcases outside with empty | long
  · exact .inl empty
  · exact .inr (.inl long)

/-- Chunks written are those a walk takes and what stops it. -/
theorem encode_cut {cs : List Chunk} (short : ∀ c ∈ cs, c.id.length < 256) :
    ∃ junk, chunk_at junk = none ∧
      encode cs = encode (cs.takeWhile Chunk.readable) ++ junk := by
  induction cs with
  | nil => exact ⟨[], rfl, rfl⟩
  | cons c cs ih =>
      obtain ⟨junk, stuck, split⟩ := ih fun d member => short d (List.mem_cons_of_mem _ member)
      rw [List.takeWhile_cons]
      cases read : c.readable with
      | true =>
          refine ⟨junk, stuck, ?_⟩
          rw [if_pos rfl, encode_cons, encode_cons, split, List.append_assoc]
      | false => exact ⟨_, chunk_at_stuck (short c (by simp)) read _, encode_cons c cs⟩

theorem good_id_short {id : List Byte} (good : good_id id = true) : id.length < 64 := by
  cases id with
  | nil => cases good
  | cons first rest => exact (of_decide_eq_true good).1

/-- Any chunk gathered is the port's, a mod's own or a kept one, and is written whole. -/
theorem gathered_plain {saves : List SaveMod} {kept : List Byte}
    {opened claims : Option (List Byte)}
    (good : ∀ m ∈ saves, good_id m.id = true)
    (sized : ∀ c ∈ port opened claims, c.data.length < 2 ^ 32) :
    ∀ c ∈ gathered saves (held kept) opened claims,
      c.id.length < 256 ∧ (c.readable = true → c.Writable) := by
  have plain : ∀ d ∈ held kept, d.id.length ≤ ID_MAX ∧ (∀ b ∈ d.id, b ≠ 0) ∧
      d.data.length < 2 ^ 32 := by
    intro d member
    obtain ⟨found, inside, rfl⟩ := List.mem_map.mp member
    exact stands_parts (chunks_stand inside)
  intro c member
  rw [gathered, List.mem_append, List.mem_append] at member
  rcases member with (ours | asked) | carried
  · have fine := port_writable sized c ours
    exact ⟨Nat.lt_of_le_of_lt fine.short (by decide), fun _ => fine⟩
  · obtain ⟨m, loaded, named⟩ := own_id asked
    have allowed := good m loaded
    rw [named] at allowed
    refine ⟨(good_id_short allowed).trans (by decide), fun read => ?_⟩
    rw [Chunk.readable, decide_eq_true_eq] at read
    exact ⟨read.1, read.2, good_id_string allowed,
      own_sized (fun d inside => (plain d inside).2.2) _ _ c asked⟩
  · obtain ⟨small, string, fits⟩ :=
      plain c (List.mem_filter.mp ((hold_sublist _ _).subset carried)).1
    refine ⟨Nat.lt_of_le_of_lt small (by decide), fun read => ?_⟩
    rw [Chunk.readable, decide_eq_true_eq] at read
    exact ⟨read.1, small, string, fits⟩

end Cut

/-! What a load finds of the port's own. -/

section Own

variable {saves : List SaveMod} {kept : List Byte} {opened claims : Option (List Byte)}
  {c : Chunk}

theorem mem_areas_of {cs : List Chunk} (member : c ∈ in_gap cs ++ in_tail cs) : c ∈ cs := by
  rw [← fill_append (GAP_LEN - GAP_HEAD) cs, List.mem_append]
  rcases List.mem_append.mp member with gap | tail
  · exact .inl gap
  · exact .inr ((hold_sublist _ _).subset tail)

theorem soa_savenow : soa <+: SAVENOW_ID := List.prefix_append _ _

/-- The port's chunk is the only one of its id. -/
theorem gathered_savenow (foreign : ∀ m ∈ saves, ¬ soa <+: m.id)
    (old : ∀ c ∈ held kept, ¬ soa <+: c.id)
    (member : c ∈ gathered saves (held kept) opened claims) (named : c.id = SAVENOW_ID) :
    opened = some c.data := by
  rw [gathered, List.mem_append, List.mem_append] at member
  rcases member with (ours | asked) | carried
  · rw [port, List.mem_append, Option.mem_toList, Option.mem_toList] at ours
    rcases ours with saved | claimed
    · obtain ⟨sn, given, rfl⟩ := Option.map_eq_some_iff.mp saved
      exact given
    · obtain ⟨text, _, rfl⟩ := Option.map_eq_some_iff.mp claimed
      exact absurd named (show CLAIMS_ID ≠ SAVENOW_ID by decide)
  · obtain ⟨m, loaded, same⟩ := own_id asked
    refine absurd ?_ (foreign m loaded)
    rw [same, named]
    exact soa_savenow
  · refine absurd ?_ (old c (List.mem_filter.mp ((hold_sublist _ _).subset carried)).1)
    rw [named]
    exact soa_savenow

/-- A load of a snapshot written into a clear gap finds the port's chunk as it was put. -/
theorem load_call_written {g_id gap : List Byte} (clear : gap.any (· ≠ 0) = false)
    (good : ∀ m ∈ saves, good_id m.id = true ∧ ¬ soa <+: m.id)
    (old : ∀ c ∈ held kept, ¬ soa <+: c.id)
    (sized : ∀ c ∈ port opened claims, c.data.length < 2 ^ 32)
    (small : ∀ sn, opened = some sn → sn.length ≤ 100)
    (id16 : g_id.length = 16) (tail : List Byte) :
    let snapshot := savext_snapshot saves kept opened claims g_id gap
    load_call (savext_load_pre snapshot.1 (savext_image snapshot.2 g_id tail)) SAVENOW_ID =
      opened := by
  have plain := @gathered_plain _ kept _ _ (fun m loaded => (good m loaded).1) sized
  obtain ⟨junk, stuck, split⟩ := encode_cut fun c member => (plain c member).1
  generalize front_eq : (gathered saves (held kept) opened claims).takeWhile Chunk.readable =
    front at split
  have inside : ∀ c ∈ front, c ∈ gathered saves (held kept) opened claims := by
    intro c member
    rw [← front_eq] at member
    exact (List.takeWhile_sublist _).subset member
  have fine : ∀ c ∈ front, c.Writable := by
    intro c member
    refine (plain c (inside c member)).2 ?_
    rw [← front_eq] at member
    exact List.mem_takeWhile_imp member
  have found := load_written_cut clear ((gather_eq saves kept opened claims).trans split) fine
    stuck id16 tail
  dsimp only at found ⊢
  rw [found, load_call_encode fun c member => fine c (mem_areas_of member)]
  have only : ∀ c ∈ in_gap front ++ in_tail front, c.id = SAVENOW_ID → opened = some c.data :=
    fun c member => gathered_savenow (fun m loaded => (good m loaded).2) old
      (inside c (mem_areas_of member))
  cases opened with
  | none =>
      rw [List.find?_eq_none.mpr, Option.map_none]
      intro c member named
      have given := only c (List.mem_reverse.mp member) (of_decide_eq_true named)
      cases given
  | some sn =>
      have first : (⟨SAVENOW_ID, sn⟩ : Chunk) ∈ in_gap front ++ in_tail front := by
        have fits : (chunk_put ⟨SAVENOW_ID, sn⟩).length ≤ GAP_LEN - GAP_HEAD := by
          have short := small sn rfl
          have bound : 100 + 16 ≤ GAP_LEN - GAP_HEAD := by decide
          rw [chunk_put_length]
          change 11 + sn.length + 5 ≤ _
          omega
        have head : ∃ rest, front = ⟨SAVENOW_ID, sn⟩ :: rest := by
          rw [← front_eq]
          exact ⟨_, List.takeWhile_cons_of_pos rfl⟩
        obtain ⟨rest, rfl⟩ := head
        rw [in_gap, fill, if_pos fits]
        exact List.mem_append_left _ List.mem_cons_self
      cases search : (in_gap front ++ in_tail front).reverse.find? fun c => c.id = SAVENOW_ID with
      | none =>
          have missing := List.find?_eq_none.mp search _ (List.mem_reverse.mpr first)
          exact absurd (decide_eq_true rfl) missing
      | some c =>
          have named : c.id = SAVENOW_ID := by simpa using List.find?_some search
          have member := List.mem_reverse.mp (List.mem_of_find?_eq_some search)
          exact (only c member named).symm

end Own

/-! Bytes of the chunk. -/

section Words

variable {map fallback : BitVec 32} {b : Block}

theorem get32_be (word : BitVec 32) (rest : List Byte) :
    get32 (to_be 4 word.toNat ++ rest) = word := by
  rw [get32, List.take_left' (to_be_length 4 _), of_be_to_be word.isLt, BitVec.ofNat_toNat,
    BitVec.setWidth_eq]

theorem chunk_length : (SaveNow.chunk ⟨map, fallback⟩).length = CHUNK_LEN := by
  simp [SaveNow.chunk, SN1, to_be_length, CHUNK_LEN]

theorem chunk_magic : (SaveNow.chunk ⟨map, fallback⟩).take 4 = SN1 := by
  rw [SaveNow.chunk, List.append_assoc]
  exact List.take_left' rfl

theorem chunk_map : get32 ((SaveNow.chunk ⟨map, fallback⟩).drop 4) = map := by
  rw [SaveNow.chunk, List.append_assoc]
  exact (congrArg get32 (@List.drop_left' _ SN1 _ 4 rfl)).trans (get32_be map _)

theorem chunk_fallback : get32 ((SaveNow.chunk ⟨map, fallback⟩).drop 8) = fallback := by
  have front : (SN1 ++ to_be 4 map.toNat).length = 8 := by
    rw [List.length_append, to_be_length]
    rfl
  have whole := get32_be fallback []
  rw [List.append_nil] at whole
  rw [SaveNow.chunk, List.drop_left' front]
  exact whole

/-- A map word of 24 bits is put back as it was. -/
theorem put_map (small : b.number < 2 ^ 24) : Block.put b.map = b := by
  obtain ⟨number, letter⟩ := b
  have number_back : (number <<< 8 ||| letter.setWidth 32) >>> 8 = number := by
    apply BitVec.eq_of_getElem_eq
    intro i inside
    have high : 24 ≤ i → number[i] = false := by
      intro above
      have bound : number.toNat < 2 ^ 24 := small
      rw [← BitVec.getLsbD_eq_getElem, BitVec.getLsbD]
      exact Nat.testBit_lt_two_pow (bound.trans_le (Nat.pow_le_pow_right (by decide) above))
    by_cases above : 24 ≤ i
    · rw [high above]
      simp
      omega
    · have within : 8 + i < 32 := by omega
      simp [within]
  have letter_back : (number <<< 8 ||| letter.setWidth 32).setWidth 8 = letter := by
    apply BitVec.eq_of_getElem_eq
    intro i inside
    simp
  rw [Block.put, Block.map, current_map, number_back, letter_back]

end Words

/-! The flag, the kept chunks and the saves, at each point of a run. -/

/-- A save carries the chunk of where it was made, as the port opened its menu. -/
structure Saved.Honest (sv : Saved) : Prop where
  port : sv.opener = .port → ∃ fallback, sv.chunk = some (SaveNow.chunk ⟨sv.made.map, fallback⟩)
  save_point : sv.opener = .save_point → sv.chunk = none

structure World.Honest (w : World) : Prop where
  opened : w.port.g_opened = true → w.menu = some .port
  kept : ∀ c ∈ held w.kept, ¬ soa <+: c.id
  files : ∀ sv ∈ w.files, sv.Honest

section Ask

/-- The flag is set with a request only, and no request is taken back. -/
structure Asks (s t : Port × Bool) : Prop where
  flag : t.1.g_opened = true → s.1.g_opened = true ∨ (s.2 = false ∧ t.2 = true)
  request : s.2 = true → t.2 = true

theorem Asks.refl {p q : Port} (same : q.g_opened = p.g_opened) (request : Bool) :
    Asks (p, request) (q, request) where
  flag opened := .inl (same.symm.trans opened)
  request := id

theorem Asks.trans {s t u : Port × Bool} (first : Asks s t) (second : Asks t u) : Asks s u where
  flag opened := by
    rcases second.flag opened with before | ⟨closed, asked⟩
    · rcases first.flag before with before | ⟨closed, asked⟩
      · exact .inl before
      · exact .inr ⟨closed, second.request asked⟩
    · refine .inr ⟨?_, asked⟩
      cases start : s.2 with
      | false => rfl
      | true => rw [first.request start] at closed; cases closed
  request asked := second.request (first.request asked)

variable (p : Port) (g : Field) (request : Bool)

theorem ask_menu_asks : Asks (p, request) (ask_menu p g request) := by
  unfold ask_menu
  cases why : not_quiet g request with
  | some reason => exact Asks.refl rfl request
  | none =>
      refine ⟨fun _ => .inr ⟨?_, rfl⟩, fun _ => rfl⟩
      cases request with
      | false => rfl
      | true =>
          unfold not_quiet at why
          split_ifs at why

theorem ask_lines_asks (lines : Nat) : Asks (p, request) (ask_lines g lines (p, request)) := by
  induction lines generalizing p request with
  | zero => exact Asks.refl rfl request
  | succ lines ih => exact (ask_menu_asks p g request).trans (ih _ _)

theorem safe_point_asks (f : Nat) (replay : Option Nat) :
    Asks (p, request) (savenow_safe_point p g request f replay) := by
  unfold savenow_safe_point
  extract_lets map p' q
  have same : p'.g_opened = p.g_opened := by
    unfold p'
    split <;> rfl
  cases replay with
  | some lines => exact (Asks.refl (by exact same) request).trans (ask_lines_asks _ g request lines)
  | none =>
      have still : q.g_opened = p.g_opened := by
        rw [← same]
        unfold q
        split <;> rfl
      dsimp only
      split
      · exact (Asks.refl (by exact still) request).trans (ask_menu_asks _ g request)
      · exact Asks.refl still request

end Ask

/-! One event. -/

section Step

variable {no_restore : Bool} {w : World}

theorem snapshot_closed {p : Port} (closed : p.g_opened = false) (b : Block) (cap : Nat) :
    savenow_snapshot p b cap = (p, b, none) := by
  rw [savenow_snapshot, closed]
  rfl

/-- A save this port opened takes the flag. -/
theorem snapshot_opened {p : Port} (opened : p.g_opened = true) (b : Block) :
    (savenow_snapshot p b 16).1.g_opened = false ∧
      ∃ fallback, (savenow_snapshot p b 16).2.2 = some (SaveNow.chunk ⟨b.map, fallback⟩) := by
  have taken : ¬ ((!p.g_opened || decide (16 < CHUNK_LEN)) = true) := by
    rw [opened]
    decide
  rw [savenow_snapshot, if_neg taken]
  exact ⟨rfl, _, rfl⟩

/-- The flag is only ever taken by a snapshot. -/
theorem snapshot_flag (p : Port) (b : Block) (opened : (savenow_snapshot p b 16).1.g_opened = true) :
    p.g_opened = true := by
  cases before : p.g_opened with
  | true => rfl
  | false =>
      rw [snapshot_closed before, before] at opened
      cases opened

theorem made_clear (old : ∀ c ∈ held w.kept, ¬ soa <+: c.id) (opener : Opener) (a : Asked)
    (b : Block) (clear : a.gap.any (· ≠ 0) = false) :
    (made_save w opener a b).2.chunk = (savenow_snapshot w.port b 16).2.2 := by
  rw [Saved.chunk, made_save, clear, if_neg Bool.false_ne_true]
  have small : ∀ sn, (savenow_snapshot w.port b 16).2.2 = some sn → sn.length = CHUNK_LEN := by
    intro sn made
    cases before : w.port.g_opened with
    | false =>
        rw [snapshot_closed before] at made
        cases made
    | true =>
        obtain ⟨fallback, given⟩ := (snapshot_opened before b).2
        rw [given] at made
        cases made
        exact chunk_length
  refine load_call_written clear a.ids old ?_ ?_ a.id16 a.tail
  · intro c member
    rw [port, List.mem_append, Option.mem_toList, Option.mem_toList] at member
    rcases member with saved | claimed
    · obtain ⟨sn, given, rfl⟩ := Option.map_eq_some_iff.mp saved
      change sn.length < _
      rw [small sn given]
      decide
    · obtain ⟨text, given, rfl⟩ := Option.map_eq_some_iff.mp claimed
      exact a.claimed text given
  · intro sn given
    rw [small sn given]
    decide

/-- A snapshot that finds a byte of the game's writes nothing. -/
theorem made_dirty (opener : Opener) (a : Asked) (b : Block) (dirty : a.gap.any (· ≠ 0) = true) :
    (made_save w opener a b).2.chunk = load_call (savext_load_pre a.gap a.tail) SAVENOW_ID := by
  have unwritten : ∀ opened,
      savext_snapshot a.saves w.kept opened a.claims a.g_id a.gap = (a.gap, none) := by
    intro opened
    rw [savext_snapshot, if_pos dirty]
    exact ite_self _
  rw [Saved.chunk, made_save]
  dsimp only
  rw [unwritten]
  rfl

theorem made_flag (opener : Opener) (a : Asked) (b : Block)
    (opened : (made_save w opener a b).1.g_opened = true) : w.port.g_opened = true := by
  rw [made_save] at opened
  dsimp only at opened
  split at opened
  · exact opened
  · exact snapshot_flag _ _ opened

/-- A save that meets the condition carries the chunk as the port opened its menu. -/
theorem made_honest (honest : w.Honest) {opener : Opener} (menu : w.menu = some opener)
    {a : Asked} {b : Block} (meets : Happening.Meets no_restore w (.save a b)) :
    (made_save w opener a b).2.Honest := by
  constructor
  · intro port_opened
    change opener = .port at port_opened
    subst port_opened
    obtain ⟨opened, clear⟩ := meets.1 menu
    rw [made_clear honest.kept .port a b clear]
    exact (snapshot_opened opened b).2
  · intro point
    change opener = .save_point at point
    subst point
    cases dirty : a.gap.any (· ≠ 0) with
    | true => exact (made_dirty _ a b dirty).trans (meets.2 menu dirty)
    | false =>
        rw [made_clear honest.kept .save_point a b dirty]
        cases opened : w.port.g_opened with
        | false => rw [snapshot_closed opened]
        | true =>
            have other := honest.opened opened
            rw [menu] at other
            cases other

theorem load_none {sv : Saved} (none_ : sv.chunk = none) :
    (after_load no_restore w sv).2 = (sv.block, 20000) := by
  change load_call _ _ = none at none_
  rw [after_load, none_]
  rfl

theorem load_chunk {sv : Saved} {map fallback : BitVec 32}
    (given : sv.chunk = some (SaveNow.chunk ⟨map, fallback⟩)) :
    (after_load no_restore w sv).2 =
      if no_restore then (sv.block, 20000)
      else if fallback ≠ 0 ∧ sv.block.map = fallback then (Block.put map, 0)
      else if fallback ≠ 0 then (sv.block, 20000)
      else (sv.block, 0) := by
  have whole : ¬ ((SaveNow.chunk ⟨map, fallback⟩).length < CHUNK_LEN ∨
      (SaveNow.chunk ⟨map, fallback⟩).take 4 ≠ SN1) := by
    rw [chunk_length, chunk_magic]
    simp
  change load_call _ _ = _ at given
  rw [after_load]
  dsimp only
  rw [given, savenow_load_pre]
  dsimp only
  rw [if_neg whole, chunk_map, chunk_fallback]
  cases no_restore with
  | true => rfl
  | false =>
      rw [if_neg Bool.false_ne_true, if_neg Bool.false_ne_true]
      split
      · rfl
      · split <;> rfl

/-- A load that meets the condition puts back what the save was made on, or leaves it all. -/
theorem load_right {sv : Saved} (honest : sv.Honest)
    (meets : sv.still → no_restore = false ∧
      (sv.fallback = 0 → sv.block = sv.made) ∧ (sv.fallback ≠ 0 → sv.made.number < 2 ^ 24)) :
    ((after_load no_restore w sv).2 = (sv.made, 0) ↔ sv.still) ∧
      (¬ sv.still → (after_load no_restore w sv).2 = (sv.block, 20000)) := by
  have restored : sv.still → (after_load no_restore w sv).2 = (sv.made, 0) := by
    intro still
    obtain ⟨rfl, same, small⟩ := meets still
    cases opener : sv.opener with
    | save_point =>
        have carried := still.1
        rw [Saved.carries, honest.save_point opener] at carried
        cases carried
    | port =>
        obtain ⟨fallback, given⟩ := honest.port opener
        have fallback_eq : sv.fallback = fallback := by
          rw [Saved.fallback, given]
          exact chunk_fallback
        rw [load_chunk given, if_neg Bool.false_ne_true]
        rw [fallback_eq] at same small
        rcases eq_or_ne fallback 0 with none_ | some_
        · rw [if_neg fun both => both.1 none_, if_neg fun some_ => some_ none_, same none_]
        · rcases still.2 with none_ | there
          · exact absurd (fallback_eq.symm.trans none_) some_
          · rw [if_pos ⟨some_, there.trans fallback_eq⟩, put_map (small some_)]
  have left : ¬ sv.still → (after_load no_restore w sv).2 = (sv.block, 20000) := by
    intro gone
    cases opener : sv.opener with
    | save_point => exact load_none (honest.save_point opener)
    | port =>
        obtain ⟨fallback, given⟩ := honest.port opener
        have fallback_eq : sv.fallback = fallback := by
          rw [Saved.fallback, given]
          exact chunk_fallback
        have carried : sv.carries := by
          rw [Saved.carries, given]
          rfl
        have other : ¬ (fallback = 0 ∨ sv.block.map = fallback) := by
          rw [← fallback_eq]
          exact fun there => gone ⟨carried, there⟩
        rw [not_or] at other
        rw [load_chunk given]
        split
        · rfl
        · rw [if_neg fun both => other.2 both.2, if_pos other.1]
  refine ⟨⟨fun back => ?_, restored⟩, left⟩
  by_contra gone
  rw [left gone] at back
  have sys15 := congrArg Prod.snd back
  exact absurd sys15 (show (20000 : BitVec 32) ≠ 0 by decide)

theorem load_flag (sv : Saved) :
    (after_load no_restore w sv).1.g_opened = w.port.g_opened := by
  have pre : ∀ p b chunk, (savenow_load_pre no_restore p b chunk).1.g_opened = p.g_opened := by
    intro p b chunk
    unfold savenow_load_pre
    cases chunk with
    | none => rfl
    | some chunk =>
        dsimp only
        split_ifs <;> rfl
  have post : ∀ p sys15, (savenow_load_post no_restore p sys15).1.g_opened = p.g_opened := by
    intro p sys15
    unfold savenow_load_post
    split <;> rfl
  exact (post _ _).trans (pre _ _ _)

theorem nothing_held : ∀ c ∈ held [], ¬ soa <+: c.id := by
  have none_ : held [] = [] := held_encode fun _ inside => absurd inside List.not_mem_nil
  rw [none_]
  intro c member
  cases member

/-- Every event that meets the condition leaves the flag with the port's menu. -/
theorem step_honest (honest : w.Honest) {h : Happening} (meets : h.Meets no_restore w) :
    (w.step no_restore h).Honest := by
  obtain ⟨opened, kept, files⟩ := honest
  cases h with
  | request replaying =>
      refine ⟨fun set => opened ?_, kept, files⟩
      change (savenow_request w.port replaying).g_opened = true at set
      unfold savenow_request at set
      split at set <;> exact set
  | safe_point g f replay =>
      refine ⟨fun set => ?_, kept, files⟩
      have asks := safe_point_asks w.port g w.menu.isSome f replay
      rcases asks.flag set with before | ⟨closed, asked⟩
      · have menu := opened before
        change (if _ then _ else w.menu) = _
        rw [menu, if_neg]
        rintro ⟨none_, _⟩
        cases none_
      · have menu : w.menu = none := by simpa using closed
        exact if_pos ⟨menu, asked⟩
  | save_point =>
      rw [World.step]
      split
      · rename_i none_
        refine ⟨fun set => ?_, kept, files⟩
        have menu := opened set
        rw [none_] at menu
        cases menu
      · exact ⟨opened, kept, files⟩
  | leave =>
      refine ⟨fun set => ?_, kept, files⟩
      have closed := meets (opened set)
      rw [show w.port.g_opened = true from set] at closed
      cases closed
  | save a b =>
      rw [World.step]
      cases menu : w.menu with
      | none => exact ⟨opened, kept, files⟩
      | some opener =>
          refine ⟨fun set => ?_, kept, ?_⟩
          · exact menu.symm.trans (opened (made_flag opener a b set))
          · intro sv member
            rcases List.mem_append.mp member with old | new
            · exact files sv old
            · rw [List.mem_singleton.mp new]
              exact made_honest ⟨opened, kept, files⟩ menu meets
  | resave i b =>
      refine ⟨opened, kept, fun sv member => ?_⟩
      obtain ⟨j, found⟩ := List.mem_iff_getElem?.mp member
      change (w.files.modify i _)[j]? = some sv at found
      rw [List.getElem?_modify] at found
      obtain ⟨was, old, rfl⟩ := Option.map_eq_some_iff.mp found
      have before := files was (List.mem_of_getElem? old)
      split
      · exact ⟨before.port, before.save_point⟩
      · exact before
  | foreign b =>
      refine ⟨opened, kept, fun sv member => ?_⟩
      rcases List.mem_append.mp member with old | new
      · exact files sv old
      · rw [List.mem_singleton.mp new]
        refine ⟨fun other => ?_, fun _ => ?_⟩
        · cases other
        · have clear : clear_gap.any (· ≠ 0) = false := clear_gap_clear
          change load_call (savext_load_pre clear_gap _) _ = none
          rw [savext_load_pre, if_neg (clear_unsigned clear)]
          rfl
  | load i saves =>
      rw [World.step]
      split
      · rename_i sv menu found
        refine ⟨fun set => ?_, ?_, files⟩
        · have flag : (after_load no_restore w sv).1.g_opened = true := set
          rw [load_flag] at flag
          exact opened flag
        · intro c member
          rw [held_savext_load] at member
          have allowed := (List.mem_filter.mp member).2
          rw [Bool.and_eq_true, Bool.not_eq_true', Bool.eq_false_iff, ne_eq,
            List.isPrefixOf_iff_prefix] at allowed
          exact allowed.1
      · exact ⟨opened, kept, files⟩
  | new_game =>
      rw [World.step]
      split
      · exact ⟨opened, nothing_held, files⟩
      · exact ⟨opened, kept, files⟩
  | restart at_frame =>
      refine ⟨fun set => ?_, nothing_held, files⟩
      cases set

theorem step_right (honest : w.Honest) {h : Happening} (meets : h.Meets no_restore w) :
    h.Right no_restore w := by
  cases h with
  | save a b =>
      intro opener menu
      have made := made_honest honest menu meets
      rw [Saved.carries]
      cases opener with
      | port =>
          obtain ⟨fallback, given⟩ := made.port rfl
          rw [given]
          exact ⟨fun _ => rfl, fun _ => rfl⟩
      | save_point =>
          rw [made.save_point rfl]
          constructor <;> intro other <;> cases other
  | load i saves =>
      intro menu sv found
      exact load_right (honest.files sv (List.mem_of_getElem? found)) (meets menu sv found)
  | _ => trivial

/-- The invariant holds after every run whose events meet the condition. -/
theorem run_honest (honest : w.Honest) {hs : List Happening}
    (meets : ∀ before h after, hs = before ++ h :: after →
      h.Meets no_restore (w.run no_restore before)) : (w.run no_restore hs).Honest := by
  induction hs generalizing w with
  | nil => exact honest
  | cons h hs ih =>
      refine ih (step_honest honest (meets [] h hs rfl)) fun before next after split => ?_
      exact meets (h :: before) next after (by rw [split]; rfl)

end Step

theorem start_honest (at_frame : Option Nat) : (world_start at_frame).Honest where
  opened set := by cases set
  kept := nothing_held
  files sv member := by cases member

/-- A field that is quiet, on a116c. -/
def quiet_field : Field := ⟨SCENE_FIELD, FIELD_RUNNING, 116, 0x63, false, 0⟩

def a116c : Block := ⟨116, 0x63⟩

def no_mods : Asked where
  saves := []
  claims := none
  g_id := List.replicate 16 0
  gap := clear_gap
  tail := List.replicate TAIL_LEN 0
  id16 := rfl
  claimed := by simp
  ids := by simp

def menu_asked : List Happening := [.request false, .safe_point quiet_field 0 none]

theorem menu_asked_meets : ∀ before h after,
    menu_asked ++ [.save no_mods a116c] = before ++ h :: after →
      h.Meets false ((world_start none).run false before) := by
  intro before h after split
  rcases before with _ | ⟨_, _ | ⟨_, _ | ⟨_, before⟩⟩⟩
  · cases split
    trivial
  · cases split
    trivial
  · cases split
    refine ⟨fun _ => ⟨by decide, clear_gap_clear⟩, fun other => ?_⟩
    have opened : ((world_start none).run false menu_asked).menu = some .port := by decide
    rw [menu_asked] at opened
    rw [opened] at other
    cases other
  · have length := congrArg List.length split
    simp [menu_asked] at length

end SoaPort.Save
