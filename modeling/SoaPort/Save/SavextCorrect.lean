import SoaPort.Save.Written

namespace SoaPort.Save

open Lib

/-! A snapshot and its image, loaded again and read by `tools/savext.py`. -/

/-- The gap of a block that holds no byte of the game's. -/
def clear_gap : List Byte := List.replicate GAP_LEN 0

/-- The gap and the tail after the snapshot and the image. -/
def saved (saves : List SaveMod) (kept : List Chunk) (opened claims : Option (List Byte))
    (g_id tail : List Byte) : List Byte × List Byte :=
  let snapshot := savext_snapshot saves (encode kept) opened claims g_id clear_gap
  (snapshot.1, savext_image snapshot.2 g_id tail)

theorem clear_gap_clear : clear_gap.any (· ≠ 0) = false :=
  List.any_eq_false.mpr fun b member => by simp [List.eq_of_mem_replicate member]

def loaded (saves : List SaveMod) (kept : List Chunk) (opened claims : Option (List Byte))
    (g_id tail : List Byte) : List Byte :=
  let areas := saved saves kept opened claims g_id tail
  savext_load_pre areas.1 areas.2

/-- Mods the loader accepts, and chunks the gap and the tail have room for. -/
structure Savable (saves : List SaveMod) (kept : List Chunk) (opened claims : Option (List Byte)) :
    Prop where
  good : ∀ m ∈ saves, good_id m.id = true ∧ ¬ soa <+: m.id
  distinct : (saves.map SaveMod.id).Nodup
  writable : ∀ c ∈ kept, c.Writable
  foreign : ∀ c ∈ kept, ¬ soa <+: c.id
  room : (encode (fill (GAP_LEN - GAP_HEAD) (wanted saves kept opened claims)).2).length ≤
    TAIL_LEN - TAIL_HEAD

/-- Every chunk comes back once: each mod's to the mod, the kept ones kept, and
all of them to the tool. -/
structure RoundTrip (saves : List SaveMod) (kept : List Chunk) (opened claims : Option (List Byte))
    (g_id tail : List Byte) : Prop where
  whole : (chunks (loaded saves kept opened claims g_id tail)).map (·.2) =
    wanted saves kept opened claims
  handed : ∀ c ∈ given saves kept opened claims,
    load_call (loaded saves kept opened claims g_id tail) c.id = some c.data
  nothing : ∀ m ∈ saves, (∀ c ∈ given saves kept opened claims, c.id ≠ m.id) →
    load_call (loaded saves kept opened claims g_id tail) m.id = none
  kept_on : savext_load saves (loaded saves kept opened claims g_id tail) =
    encode (carried saves kept)
  parsed : ∃ found,
    parse (saved saves kept opened claims g_id tail).1
      (saved saves kept opened claims g_id tail).2 = .ok found ∧
    found.chunks = (wanted saves kept opened claims).map (fun c => (decode_ascii c.id, c.data)) ∧
    found.problems = []

section Correct

variable {saves : List SaveMod} {kept : List Chunk} {opened claims : Option (List Byte)}

namespace Savable

variable (savable : Savable saves kept opened claims)

include savable

theorem size : (encode (wanted saves kept opened claims)).length ≤
    (GAP_LEN - GAP_HEAD) + (TAIL_LEN - TAIL_HEAD) := by
  have gap := fill_length (GAP_LEN - GAP_HEAD) (wanted saves kept opened claims)
  have tail := savable.room
  rw [← fill_append (GAP_LEN - GAP_HEAD) (wanted saves kept opened claims), encode_append,
    List.length_append]
  exact Nat.add_le_add gap tail

theorem areas : in_gap (wanted saves kept opened claims) ++
    in_tail (wanted saves kept opened claims) = wanted saves kept opened claims := by
  rw [in_gap, in_tail, hold_all savable.room, fill_append]

theorem wanted_writable (short : ∀ c ∈ given saves kept opened claims, c.id.length ≤ ID_MAX) :
    ∀ c ∈ wanted saves kept opened claims, c.Writable := by
  intro c member
  have sized : c.data.length < 2 ^ 32 :=
    Nat.lt_of_le_of_lt ((data_le member).trans savable.size) (by decide)
  rw [wanted, List.mem_append, List.mem_append] at member
  rcases member with (ours | mods) | old
  · rcases port_id ours with named | named <;>
      exact ⟨by rw [named]; decide, by rw [named]; decide, by rw [named]; decide, sized⟩
  · obtain ⟨m, loaded, same⟩ := own_id mods
    have good := (savable.good m loaded).1
    rw [same] at good
    exact ⟨good_id_named good, short c mods, good_id_string good, sized⟩
  · exact savable.writable c (List.mem_filter.mp old).1

theorem gather_wanted : gather saves (encode kept) opened claims =
    encode (wanted saves kept opened claims) := by
  rw [gather_eq, held_encode savable.writable,
    gathered_wanted (savable.size.trans (by decide))]

end Savable

/-- The tool reads back the chunks of an area. -/
theorem _chunks_encode {cs : List Chunk} (fine : ∀ c ∈ cs, c.Writable) :
    _chunks cs.length (encode cs) = .ok (cs.map fun c => (decode_ascii c.id, c.data)) := by
  induction cs with
  | nil => rfl
  | cons c cs ih =>
      obtain ⟨named, short, string, sized⟩ := fine c (by simp)
      have count : (BitVec.ofNat 8 c.id.length).toNat = c.id.length := by
        unfold ID_MAX at short
        rw [BitVec.toNat_ofNat]
        omega
      have positive := List.length_pos_iff.mpr named
      have split : c.id ++ to_be 4 c.data.length ++ c.data ++ encode cs =
          c.id ++ (to_be 4 c.data.length ++ (c.data ++ encode cs)) := by
        simp only [List.append_assoc]
      generalize bytes : c.id ++ to_be 4 c.data.length ++ c.data ++ encode cs = rest
      have length : rest.length = c.id.length + 4 + c.data.length + (encode cs).length := by
        rw [← bytes]
        simp only [List.length_append, to_be_length]
      have id : rest.take c.id.length = c.id := by rw [← bytes, split, List.take_left]
      have size : of_be (field rest c.id.length 4) = c.data.length := by
        rw [field_eq _ (bytes.symm.trans split) rfl (to_be_length 4 _), of_be_to_be (by omega)]
      have data : field rest (c.id.length + 4) c.data.length = c.data :=
        field_eq (encode cs) (by rw [← bytes, List.append_assoc])
          (by rw [List.length_append, to_be_length]) rfl
      have after : rest.drop (c.id.length + 4 + c.data.length) = encode cs := by
        rw [← bytes]
        exact List.drop_left' (by simp only [List.length_append, to_be_length])
      rw [encode_cons, chunk_put, List.cons_append, bytes, List.length_cons, _chunks]
      dsimp only
      rw [count, if_neg (by omega), size, if_neg (by omega), data, id, after,
        ih fun d member => fine d (by simp [member])]
      rfl

/-- The areas a snapshot and its image hold, as the tool reads them. -/
theorem parse_areas {cs ds : List Chunk} {g_id : List Byte} (id16 : g_id.length = 16)
    (rest rest' : List Byte) {tail : List Byte}
    (gap_small : (encode cs).length ≤ GAP_LEN - GAP_HEAD)
    (tail_small : (encode ds).length ≤ TAIL_LEN - TAIL_HEAD) (fine : ∀ c ∈ cs ++ ds, c.Writable) :
    let packed : Packed := ⟨encode cs, cs.length, encode ds, ds.length⟩
    (packed.tail_chunks ≠ 0 → tail = (tail_parts packed g_id rest').flatten) →
    ∃ found, parse (gap_parts packed g_id rest).flatten tail = .ok found ∧
      found.chunks = (cs ++ ds).map (fun c => (decode_ascii c.id, c.data)) ∧
      found.problems = [] := by
  intro packed held
  obtain ⟨magic, version, gaps, tails, id, crc, size, body⟩ := gap_fields packed rest id16
  have length : of_be (to_be 4 packed.gap.length) = packed.gap.length := by
    refine of_be_to_be (Nat.lt_of_le_of_lt gap_small ?_)
    decide
  have in_gap : of_be (to_be 2 packed.gap_chunks) = cs.length := by
    refine of_be_to_be (Nat.lt_of_le_of_lt ((count_le cs).trans gap_small) ?_)
    decide
  have in_tail : of_be (to_be 2 packed.tail_chunks) = ds.length := by
    refine of_be_to_be (Nat.lt_of_le_of_lt ((count_le ds).trans tail_small) ?_)
    decide
  have front : _chunks cs.length packed.gap = _ :=
    _chunks_encode fun c member => fine c (List.mem_append_left _ member)
  have back : _chunks ds.length packed.tail = _ :=
    _chunks_encode fun c member => fine c (List.mem_append_right _ member)
  have version_ok : ¬ (of_be (to_be 2 VERSION) ≠ VERSION ∨
      packed.gap.length > GAP_LEN - GAP_HEAD) := by
    rw [not_or]
    exact ⟨fun wrong => wrong rfl, Nat.not_lt.mpr gap_small⟩
  rw [parse, magic, if_neg (fun wrong => wrong rfl)]
  dsimp only
  rw [size, length, version, if_neg version_ok, body, crc, crc_field, if_neg (fun wrong => wrong rfl),
    gaps, tails, in_gap, in_tail, front]
  change ∃ found, (if ds.length = 0 then _ else _) = _ ∧ _
  split
  · rename_i no_tail
    refine ⟨_, rfl, ?_, rfl⟩
    rw [List.length_eq_zero_iff.mp no_tail, List.append_nil]
  · rename_i some_tail
    obtain ⟨magic', id', crc', size', body'⟩ := tail_fields packed rest' id16
    have length' : of_be (to_be 4 packed.tail.length) = packed.tail.length := by
      refine of_be_to_be (Nat.lt_of_le_of_lt tail_small ?_)
      decide
    have tail_ok : ¬ (SOAT ≠ SOAT ∨ g_id ≠ g_id ∨ packed.tail.length > TAIL_LEN - TAIL_HEAD) := by
      rw [not_or, not_or]
      exact ⟨fun wrong => wrong rfl, fun wrong => wrong rfl, Nat.not_lt.mpr tail_small⟩
    rw [held some_tail, size', length', magic', id', id, if_neg tail_ok, crc', crc_field, body',
      if_neg (fun wrong => wrong rfl), back]
    refine ⟨_, rfl, ?_, rfl⟩
    exact List.map_append.symm

/-! The load of what was saved. -/

namespace Savable

variable (savable : Savable saves kept opened claims)
  (short : ∀ c ∈ given saves kept opened claims, c.id.length ≤ ID_MAX)

include savable short

/-- The container a load finds is the snapshot's chunks. -/
theorem loaded_eq {g_id : List Byte} (id16 : g_id.length = 16) (tail : List Byte) :
    loaded saves kept opened claims g_id tail = encode (wanted saves kept opened claims) := by
  have found := load_written clear_gap_clear savable.gather_wanted (savable.wanted_writable short)
    id16 tail
  rw [savable.areas] at found
  exact found

/-- The tool reads the same container. -/
theorem parse_eq {g_id : List Byte} (id16 : g_id.length = 16) (tail : List Byte) : ∃ found,
    parse (saved saves kept opened claims g_id tail).1
      (saved saves kept opened claims g_id tail).2 = .ok found ∧
    found.chunks = (wanted saves kept opened claims).map (fun c => (decode_ascii c.id, c.data)) ∧
    found.problems = [] := by
  rcases eq_or_ne (encode (wanted saves kept opened claims)) [] with empty | some_chunk
  · rw [saved, snapshot_unwritten g_id clear_gap_clear (savable.gather_wanted.trans empty),
      encode_nil empty]
    have none_yet : parse clear_gap (savext_image none g_id tail) =
        .ok ⟨false, [], [], 0, 0, []⟩ := by
      rw [parse]
      exact if_pos (clear_unsigned clear_gap_clear)
    exact ⟨_, none_yet, rfl, rfl⟩
  · have fine := savable.wanted_writable short
    have packed : pack (encode (wanted saves kept opened claims) ++ []) = _ :=
      pack_encode fine rfl
    rw [List.append_nil] at packed
    rw [saved, snapshot_written g_id clear_gap_clear savable.gather_wanted some_chunk, packed]
    rw [← savable.areas] at fine
    have found := parse_areas id16
      (clear_gap.drop (GAP_HEAD + (encode (in_gap (wanted saves kept opened claims))).length)) _
      (gap_small _) (tail_small _) fine (image_written g_id tail)
    rwa [savable.areas] at found

end Savable

/-! Each mod's chunk handed back, and the others kept. -/

theorem chunk_id_le {c : Chunk} {g_id tail : List Byte}
    (whole : (chunks (loaded saves kept opened claims g_id tail)).map (·.2) =
      wanted saves kept opened claims)
    (member : c ∈ wanted saves kept opened claims) : c.id.length ≤ ID_MAX := by
  rw [← whole] at member
  obtain ⟨found, inside, rfl⟩ := List.mem_map.mp member
  exact chunks_id inside

/-- A round trip leaves no room for a longer id than the format's. -/
theorem RoundTrip.short {g_id tail : List Byte}
    (back : RoundTrip saves kept opened claims g_id tail) :
    ∀ c ∈ given saves kept opened claims, c.id.length ≤ ID_MAX := fun _ member =>
  chunk_id_le back.whole (List.mem_append_left _ (List.mem_append_right _ member))

theorem find?_reverse_eq {cs : List Chunk} {c : Chunk} (member : c ∈ cs)
    (only : ∀ d ∈ cs, d.id = c.id → d = c) : (cs.reverse.find? fun d => d.id = c.id) = some c := by
  cases found : cs.reverse.find? fun d => d.id = c.id with
  | none => simpa using List.find?_eq_none.mp found c (List.mem_reverse.mpr member)
  | some d =>
      have inside := List.mem_reverse.mp (List.mem_of_find?_eq_some found)
      rw [only d inside (by simpa using List.find?_some found)]

namespace Savable

variable (savable : Savable saves kept opened claims)

include savable

theorem port_other {c : Chunk} (ours : c ∈ port opened claims) {m : SaveMod} (loaded : m ∈ saves) :
    c.id ≠ m.id := by
  intro same
  apply (savable.good m loaded).2
  rw [← same]
  rcases port_id ours with named | named <;> rw [named] <;> exact List.prefix_append _ _

/-- The chunks a loaded mod's id names are the ones given for it. -/
theorem named_given {c : Chunk} {m : SaveMod} (loaded : m ∈ saves)
    (member : c ∈ wanted saves kept opened claims) (named : c.id = m.id) :
    c ∈ given saves kept opened claims := by
  rw [wanted, List.mem_append, List.mem_append] at member
  rcases member with (ours | mods) | old
  · exact absurd named (savable.port_other ours loaded)
  · exact mods
  · exact absurd named (carried_other old loaded)

variable (fine : ∀ c ∈ wanted saves kept opened claims, c.Writable)

include fine

theorem handed_eq {c : Chunk} (mods : c ∈ given saves kept opened claims) :
    load_call (encode (wanted saves kept opened claims)) c.id = some c.data := by
  obtain ⟨m, loaded, named⟩ := own_id mods
  have only : ∀ d ∈ wanted saves kept opened claims, d.id = c.id → d = c := by
    intro d member same
    exact own_unique savable.distinct (savable.named_given loaded member (same.trans named.symm))
      mods same
  rw [load_call_encode fine, find?_reverse_eq _ only]
  · rfl
  · exact List.mem_append_left _ (List.mem_append_right _ mods)

theorem nothing_eq {m : SaveMod} (loaded : m ∈ saves)
    (none_given : ∀ c ∈ given saves kept opened claims, c.id ≠ m.id) :
    load_call (encode (wanted saves kept opened claims)) m.id = none := by
  rw [load_call_encode fine, Option.map_eq_none_iff, List.find?_eq_none]
  intro c member named
  have same : c.id = m.id := by simpa using named
  exact none_given c (savable.named_given loaded (List.mem_reverse.mp member) same) same

theorem kept_on_eq : savext_load saves (encode (wanted saves kept opened claims)) =
    encode (carried saves kept) := by
  have soa_own : (port opened claims).filter
      (fun c => !soa.isPrefixOf c.id && !saves_for_itself saves c.id) = [] := by
    rw [List.filter_eq_nil_iff]
    intro c ours
    rcases port_id ours with named | named <;> rw [named] <;> simp [SAVENOW_ID, CLAIMS_ID]
  have replaced : (given saves kept opened claims).filter
      (fun c => !soa.isPrefixOf c.id && !saves_for_itself saves c.id) = [] := by
    rw [List.filter_eq_nil_iff]
    intro c mods
    obtain ⟨m, loaded, named⟩ := own_id mods
    have mine : saves_for_itself saves c.id = true :=
      List.any_eq_true.mpr ⟨m, loaded, by simpa using named⟩
    simp [mine]
  have foreign : (carried saves kept).filter
      (fun c => !soa.isPrefixOf c.id && !saves_for_itself saves c.id) = carried saves kept := by
    rw [List.filter_eq_self]
    intro c old
    obtain ⟨inside, other⟩ := List.mem_filter.mp old
    have not_soa : soa.isPrefixOf c.id = false := by
      rw [Bool.eq_false_iff, ne_eq, List.isPrefixOf_iff_prefix]
      exact savable.foreign c inside
    rw [not_soa, other]
    rfl
  rw [savext_load_encode fine, wanted, List.filter_append, List.filter_append, soa_own, replaced,
    foreign]
  rfl

end Savable

end Correct

/-- A mod that gives the bytes 1 and 2, and one whose id is as long as an id
may be in a manifest but longer than in a chunk. -/
def giving (id : List Byte) : SaveMod := ⟨id, fun _ => (2, fun k => BitVec.ofNat 8 (k + 1))⟩

def kept_old : Chunk := ⟨[0x6F, 0x6C, 0x64], [7, 8, 9]⟩

theorem giving_savable : Savable [giving [0x61, 0x62]] [kept_old] none none where
  good := by decide
  distinct := by decide
  writable := by
    intro c member
    rw [List.mem_singleton.mp member]
    exact ⟨by decide, by decide, by decide, by decide⟩
  foreign := by decide
  room := by decide

theorem long_id_savable : Savable [giving (List.replicate 32 0x61)] [kept_old] none none where
  good := by decide
  distinct := by decide
  writable := giving_savable.writable
  foreign := by decide
  room := by decide

end SoaPort.Save
