import SoaPort.Save.Gather

namespace SoaPort.Save

open Lib

/-! What a snapshot and its image write, and what a load finds there. -/

section Written

variable {saves : List SaveMod} {kept gap : List Byte} {opened claims : Option (List Byte)}
  {cs : List Chunk}

theorem data_le {cs : List Chunk} {c : Chunk} (member : c ∈ cs) :
    c.data.length ≤ (encode cs).length := by
  induction cs with
  | nil => cases member
  | cons d cs ih =>
      rw [encode_cons, List.length_append, chunk_put_length]
      rcases List.mem_cons.mp member with rfl | later
      · omega
      · exact (ih later).trans (Nat.le_add_left _ _)

theorem gap_small (cs : List Chunk) : (encode (in_gap cs)).length ≤ GAP_LEN - GAP_HEAD :=
  fill_length _ cs

theorem tail_small (cs : List Chunk) : (encode (in_tail cs)).length ≤ TAIL_LEN - TAIL_HEAD :=
  hold_length _ _

/-- Nothing is gathered when there is nothing to write. -/
theorem gather_nothing
    (nothing : saves = [] ∧ kept = [] ∧ claims = none ∧ opened = none) :
    gather saves kept opened claims = [] := by
  obtain ⟨rfl, empty, rfl, rfl⟩ := nothing
  rw [empty]
  rfl

theorem encode_nil {cs : List Chunk} (empty : encode cs = []) : cs = [] := by
  cases cs with
  | nil => rfl
  | cons c cs => cases empty

theorem clear_unsigned (clear : gap.any (· ≠ 0) = false) : field gap 0 4 ≠ SOAX := by
  intro signed
  have member : (0x53 : Byte) ∈ field gap 0 4 := by
    rw [signed]
    decide
  have inside := List.mem_of_mem_drop (List.mem_of_mem_take member)
  exact absurd (List.any_eq_false.mp clear _ inside) (by decide)

/-- A snapshot that writes has both areas made up of the packed chunks. -/
theorem snapshot_written {all : List Byte} (g_id : List Byte) (clear : gap.any (· ≠ 0) = false)
    (gathered : gather saves kept opened claims = all) (some_chunk : all ≠ []) :
    savext_snapshot saves kept opened claims g_id gap =
      ((gap_parts (pack all) g_id (gap.drop (GAP_HEAD + (pack all).gap.length))).flatten,
        some (pack all)) := by
  have anything : ¬ (saves = [] ∧ kept = [] ∧ claims = none ∧ opened = none) :=
    fun nothing => some_chunk (gathered.symm.trans (gather_nothing nothing))
  rw [savext_snapshot, if_neg anything, clear, if_neg Bool.false_ne_true, gathered]
  dsimp only
  rw [if_neg some_chunk]
  simp only [gap_parts, List.flatten_cons, List.flatten_nil, List.append_nil, List.append_assoc]

theorem snapshot_unwritten (g_id : List Byte) (clear : gap.any (· ≠ 0) = false)
    (gathered : gather saves kept opened claims = []) :
    savext_snapshot saves kept opened claims g_id gap = (gap, none) := by
  rw [savext_snapshot, clear, if_neg Bool.false_ne_true, gathered]
  exact ite_self _

/-- The image writes the tail when chunks wait for it. -/
theorem image_written {packed : Packed} (g_id tail : List Byte)
    (waiting : packed.tail_chunks ≠ 0) :
    savext_image (some packed) g_id tail =
      (tail_parts packed g_id (tail.drop (TAIL_HEAD + packed.tail.length))).flatten := by
  rw [savext_image, if_pos (Nat.pos_of_ne_zero waiting)]
  simp only [tail_parts, List.flatten_cons, List.flatten_nil, List.append_nil, List.append_assoc]

/-- A load finds the chunks that went into the gap, then those in the tail; a chunk too long to
read back, and what follows it, went into neither. -/
theorem load_written_cut {junk : List Byte} (clear : gap.any (· ≠ 0) = false)
    (gathered : gather saves kept opened claims = encode cs ++ junk)
    (fine : ∀ c ∈ cs, c.Writable) (stuck : chunk_at junk = none)
    {g_id : List Byte} (id16 : g_id.length = 16) (tail : List Byte) :
    let snapshot := savext_snapshot saves kept opened claims g_id gap
    savext_load_pre snapshot.1 (savext_image snapshot.2 g_id tail) =
      encode (in_gap cs ++ in_tail cs) := by
  rcases eq_or_ne (encode cs ++ junk) [] with empty | some_chunk
  · have none_ := encode_nil (List.append_eq_nil_iff.mp empty).1
    rw [snapshot_unwritten g_id clear (gathered.trans empty), none_]
    exact if_neg (clear_unsigned clear)
  · have count : (in_tail cs).length < 65536 := by
      refine Nat.lt_of_le_of_lt ((count_le _).trans (tail_small cs)) ?_
      decide
    rw [snapshot_written g_id clear gathered some_chunk, pack_encode fine stuck]
    dsimp only
    rw [load_pre_areas id16 _ _ (gap_small _) (tail_small _) count ?_ (image_written g_id tail)]
    · exact (encode_append _ _).symm
    · intro none_left
      rw [List.length_eq_zero_iff.mp none_left]
      rfl

theorem load_written (clear : gap.any (· ≠ 0) = false)
    (gathered : gather saves kept opened claims = encode cs) (fine : ∀ c ∈ cs, c.Writable)
    {g_id : List Byte} (id16 : g_id.length = 16) (tail : List Byte) :
    let snapshot := savext_snapshot saves kept opened claims g_id gap
    savext_load_pre snapshot.1 (savext_image snapshot.2 g_id tail) =
      encode (in_gap cs ++ in_tail cs) :=
  load_written_cut clear (gathered.trans (List.append_nil _).symm) fine rfl id16 tail

theorem load_call_encode {cs : List Chunk} (fine : ∀ c ∈ cs, c.Writable) (id : List Byte) :
    load_call (encode cs) id = (cs.reverse.find? fun c => c.id = id).map (·.data) := by
  rw [load_call, chunks_encode fine, ← List.map_reverse, List.find?_map, Option.map_map]
  rfl

theorem savext_load_encode {cs : List Chunk} (fine : ∀ c ∈ cs, c.Writable) :
    savext_load saves (encode cs) =
      encode (cs.filter fun c => !soa.isPrefixOf c.id && !saves_for_itself saves c.id) := by
  rw [savext_load, chunks_encode fine, List.filter_map, List.flatMap_map]
  rfl

end Written

end SoaPort.Save
