import SoaPort.Save.Chunks

namespace SoaPort.Save

open Lib

/-! Packing chunks into the gap and the tail, and reading the two areas back. -/

/-- The chunks that go into an area of `room` bytes one after another, up to
the first that does not fit. -/
def fill : Nat → List Chunk → List Chunk × List Chunk
  | _, [] => ([], [])
  | room, c :: cs =>
      if (chunk_put c).length ≤ room then
        (c :: (fill (room - (chunk_put c).length) cs).1, (fill (room - (chunk_put c).length) cs).2)
      else ([], c :: cs)

/-- The chunks that fit an area of `room` bytes in turn, those that do not
left out. -/
def hold : Nat → List Chunk → List Chunk
  | _, [] => []
  | room, c :: cs =>
      if (chunk_put c).length ≤ room then c :: hold (room - (chunk_put c).length) cs
      else hold room cs

/-- The chunks in the gap, and those in the tail. -/
def in_gap (cs : List Chunk) : List Chunk := (fill (GAP_LEN - GAP_HEAD) cs).1

def in_tail (cs : List Chunk) : List Chunk :=
  hold (TAIL_LEN - TAIL_HEAD) (fill (GAP_LEN - GAP_HEAD) cs).2

section Lists

variable {room : Nat} {cs : List Chunk}

theorem encode_cons (c : Chunk) (cs : List Chunk) : encode (c :: cs) = chunk_put c ++ encode cs :=
  List.flatMap_cons

theorem encode_append (cs ds : List Chunk) : encode (cs ++ ds) = encode cs ++ encode ds :=
  List.flatMap_append

theorem fill_append (room : Nat) (cs : List Chunk) : (fill room cs).1 ++ (fill room cs).2 = cs := by
  induction cs generalizing room with
  | nil => rfl
  | cons c cs ih =>
      rw [fill]
      split
      · rw [List.cons_append, ih]
      · rfl

theorem fill_length (room : Nat) (cs : List Chunk) : (encode (fill room cs).1).length ≤ room := by
  induction cs generalizing room with
  | nil => exact Nat.zero_le _
  | cons c cs ih =>
      rw [fill]
      split
      · have := ih (room - (chunk_put c).length)
        rw [encode_cons, List.length_append]
        omega
      · exact Nat.zero_le _

theorem hold_length (room : Nat) (cs : List Chunk) : (encode (hold room cs)).length ≤ room := by
  induction cs generalizing room with
  | nil => exact Nat.zero_le _
  | cons c cs ih =>
      rw [hold]
      split
      · have := ih (room - (chunk_put c).length)
        rw [encode_cons, List.length_append]
        omega
      · exact ih room

theorem hold_sublist (room : Nat) (cs : List Chunk) : (hold room cs).Sublist cs := by
  induction cs generalizing room with
  | nil => exact .slnil
  | cons c cs ih =>
      rw [hold]
      split
      · exact .cons_cons c (ih _)
      · exact .cons c (ih room)

theorem hold_all (roomy : (encode cs).length ≤ room) : hold room cs = cs := by
  induction cs generalizing room with
  | nil => rfl
  | cons c cs ih =>
      rw [encode_cons, List.length_append] at roomy
      rw [hold, if_pos (by omega), ih (by omega)]

theorem hold_append (room : Nat) (xs ys : List Chunk) :
    hold room (xs ++ ys) = hold room xs ++ hold (room - (encode (hold room xs)).length) ys := by
  induction xs generalizing room with
  | nil => rfl
  | cons c xs ih =>
      rw [List.cons_append, hold, hold]
      split
      · rw [ih, encode_cons, List.length_append, List.cons_append, Nat.sub_sub]
      · exact ih room

/-- Once a chunk does not fit, none after it goes in. -/
theorem fill_closed {xs : List Chunk} (closed : (fill room xs).2 ≠ []) (ys : List Chunk) :
    fill room (xs ++ ys) = ((fill room xs).1, (fill room xs).2 ++ ys) := by
  induction xs generalizing room with
  | nil => exact absurd rfl closed
  | cons c xs ih =>
      rw [List.cons_append, fill]
      rw [fill] at closed ⊢
      split
      · rename_i fits
        rw [if_pos fits] at closed
        rw [ih closed]
      · rfl

theorem fill_open {xs : List Chunk} (still : (fill room xs).2 = []) (ys : List Chunk) :
    fill room (xs ++ ys) = (xs ++ (fill (room - (encode xs).length) ys).1,
      (fill (room - (encode xs).length) ys).2) := by
  induction xs generalizing room with
  | nil => rfl
  | cons c xs ih =>
      rw [List.cons_append, fill]
      rw [fill] at still
      split
      · rename_i fits
        rw [if_pos fits] at still
        rw [ih still, encode_cons, List.length_append, Nat.sub_sub]
        rfl
      · rename_i tight
        rw [if_neg tight] at still
        cases still

theorem count_le (cs : List Chunk) : cs.length ≤ (encode cs).length := by
  induction cs with
  | nil => exact Nat.zero_le _
  | cons c cs ih =>
      rw [encode_cons, List.length_append, List.length_cons, chunk_put_length]
      omega

end Lists

section Packing

variable {cs : List Chunk}

def into_gap (gap : List Byte × Nat) (raw : List Byte) (_ : Chunk) : Option (List Byte × Nat) :=
  if GAP_HEAD + gap.1.length + raw.length ≤ GAP_LEN then some (gap.1 ++ raw, gap.2 + 1) else none

def into_tail (tail : List Byte × Nat) (raw : List Byte) (_ : Chunk) : Option (List Byte × Nat) :=
  some (if TAIL_HEAD + tail.1.length + raw.length > TAIL_LEN then tail
    else (tail.1 ++ raw, tail.2 + 1))

theorem gap_step_eq : gap_step = chunk_step into_gap := by
  funext gap p
  unfold gap_step chunk_step
  cases chunk_at p with
  | none => rfl
  | some found =>
      dsimp only [into_gap]
      split <;> rfl

theorem tail_step_eq : tail_step = chunk_step into_tail := by
  funext tail p
  unfold tail_step chunk_step
  cases chunk_at p <;> rfl

variable {junk : List Byte}

/-- What no chunk stands at the front of stays behind the chunks. -/
theorem drain_gap (fine : ∀ c ∈ cs, c.Writable) (stuck : chunk_at junk = none)
    (gap : List Byte × Nat) (open' : GAP_HEAD + gap.1.length ≤ GAP_LEN) :
    drain gap_step gap (encode cs ++ junk) =
      ((gap.1 ++ encode (fill (GAP_LEN - GAP_HEAD - gap.1.length) cs).1,
        gap.2 + (fill (GAP_LEN - GAP_HEAD - gap.1.length) cs).1.length),
        encode (fill (GAP_LEN - GAP_HEAD - gap.1.length) cs).2 ++ junk) := by
  induction cs generalizing gap with
  | nil =>
      rw [fill, encode, List.flatMap_nil, List.append_nil]
      refine drain_none ?_
      rw [gap_step, List.nil_append, stuck]
  | cons c cs ih =>
      have fine_c := fine c (by simp)
      rw [encode_cons, fill, gap_step_eq, List.append_assoc]
      split
      · rename_i fits
        have taken : into_gap gap (chunk_put c) c = some (gap.1 ++ chunk_put c, gap.2 + 1) :=
          if_pos (by omega)
        have room : GAP_LEN - GAP_HEAD - (gap.1 ++ chunk_put c).length =
            GAP_LEN - GAP_HEAD - gap.1.length - (chunk_put c).length := by
          rw [List.length_append]
          omega
        rw [drain_chunk fine_c taken, ← gap_step_eq,
          ih (fun d member => fine d (by simp [member])) _
            (by rw [List.length_append]; omega)]
        dsimp only
        rw [room, encode_cons, List.append_assoc, List.length_cons]
        congr 2
        omega
      · rename_i tight
        rw [drain_refused fine_c (if_neg (by omega))]
        change _ = ((gap.1 ++ [], gap.2), chunk_put c ++ encode cs ++ junk)
        rw [List.append_nil, List.append_assoc]

theorem drain_tail (fine : ∀ c ∈ cs, c.Writable) (stuck : chunk_at junk = none)
    (tail : List Byte × Nat) (open' : TAIL_HEAD + tail.1.length ≤ TAIL_LEN) :
    (drain tail_step tail (encode cs ++ junk)).1 =
      (tail.1 ++ encode (hold (TAIL_LEN - TAIL_HEAD - tail.1.length) cs),
        tail.2 + (hold (TAIL_LEN - TAIL_HEAD - tail.1.length) cs).length) := by
  induction cs generalizing tail with
  | nil =>
      rw [hold, encode, List.flatMap_nil, List.append_nil]
      refine congrArg Prod.fst (drain_none ?_)
      rw [tail_step, List.nil_append, stuck]
      rfl
  | cons c cs ih =>
      have fine_c := fine c (by simp)
      have later : ∀ d ∈ cs, d.Writable := fun d member => fine d (by simp [member])
      rw [encode_cons, hold, tail_step_eq, List.append_assoc]
      split
      · rename_i fits
        have taken : into_tail tail (chunk_put c) c = some (tail.1 ++ chunk_put c, tail.2 + 1) :=
          congrArg some (if_neg (by omega))
        have room : TAIL_LEN - TAIL_HEAD - (tail.1 ++ chunk_put c).length =
            TAIL_LEN - TAIL_HEAD - tail.1.length - (chunk_put c).length := by
          rw [List.length_append]
          omega
        rw [drain_chunk fine_c taken, ← tail_step_eq,
          ih later _ (by rw [List.length_append]; omega)]
        dsimp only
        rw [room, encode_cons, List.append_assoc, List.length_cons]
        congr 1
        omega
      · rename_i tight
        have passed : into_tail tail (chunk_put c) c = some tail :=
          congrArg some (if_pos (by omega))
        rw [drain_chunk fine_c passed, ← tail_step_eq, ih later tail open']

/-- What the snapshot's two loops leave. -/
theorem pack_encode (fine : ∀ c ∈ cs, c.Writable) (stuck : chunk_at junk = none) :
    pack (encode cs ++ junk) =
      { gap := encode (in_gap cs), gap_chunks := (in_gap cs).length
        tail := encode (in_tail cs), tail_chunks := (in_tail cs).length } := by
  have rest : ∀ c ∈ (fill (GAP_LEN - GAP_HEAD) cs).2, c.Writable := fun c member =>
    fine c (fill_append (GAP_LEN - GAP_HEAD) cs ▸ List.mem_append_right _ member)
  have gap := drain_gap fine stuck ([], 0) (by decide)
  have tail := drain_tail rest stuck ([], 0) (by decide)
  simp only [List.length_nil, Nat.sub_zero, List.nil_append, Nat.zero_add] at gap tail
  rw [pack, gap]
  dsimp only
  rw [tail]
  rfl

end Packing

/-! The two areas, written and read. -/

section Areas

/-- The gap's fields, and the tail's. -/
def gap_parts (packed : Packed) (g_id rest : List Byte) : List (List Byte) :=
  [SOAX, to_be 2 VERSION, to_be 2 packed.gap_chunks, to_be 2 packed.tail_chunks, to_be 2 0, g_id,
    to_be 4 (crc32 packed.gap).toNat, to_be 4 packed.gap.length, packed.gap, rest]

def tail_parts (packed : Packed) (g_id rest : List Byte) : List (List Byte) :=
  [SOAT, to_be 2 VERSION, to_be 2 packed.tail_chunks, g_id, to_be 4 (crc32 packed.tail).toNat,
    to_be 4 packed.tail.length, packed.tail, rest]

theorem field_flatten (pre : List (List Byte)) {b : List Byte} {post : List (List Byte)}
    {off n : Nat} (start : pre.flatten.length = off) (size : b.length = n) :
    field (pre ++ b :: post).flatten off n = b := by
  rw [field, List.flatten_append, List.drop_left' start, List.flatten_cons, List.take_left' size]

variable {packed : Packed} {g_id rest : List Byte} (id16 : g_id.length = 16)

include id16

variable (packed rest) in
theorem gap_fields :
    let gap := (gap_parts packed g_id rest).flatten
    field gap 0 4 = SOAX ∧ field gap 4 2 = to_be 2 VERSION ∧
      field gap 6 2 = to_be 2 packed.gap_chunks ∧ field gap 8 2 = to_be 2 packed.tail_chunks ∧
      field gap 12 16 = g_id ∧ field gap 28 4 = to_be 4 (crc32 packed.gap).toNat ∧
      field gap 32 4 = to_be 4 packed.gap.length ∧
      field gap GAP_HEAD packed.gap.length = packed.gap := by
  have two := to_be_length 2
  have four := to_be_length 4
  refine ⟨?_, ?_, ?_, ?_, ?_, ?_, ?_, ?_⟩
  · exact field_flatten [] rfl rfl
  · exact field_flatten [SOAX] rfl rfl
  · exact field_flatten [SOAX, to_be 2 VERSION] rfl (two _)
  · exact field_flatten [SOAX, to_be 2 VERSION, to_be 2 packed.gap_chunks]
      (by simp [SOAX]) (two _)
  · exact field_flatten [SOAX, to_be 2 VERSION, to_be 2 packed.gap_chunks,
      to_be 2 packed.tail_chunks, to_be 2 0] (by simp [SOAX]) id16
  · exact field_flatten [SOAX, to_be 2 VERSION, to_be 2 packed.gap_chunks,
      to_be 2 packed.tail_chunks, to_be 2 0, g_id] (by simp [SOAX, id16]) (four _)
  · exact field_flatten [SOAX, to_be 2 VERSION, to_be 2 packed.gap_chunks,
      to_be 2 packed.tail_chunks, to_be 2 0, g_id, to_be 4 (crc32 packed.gap).toNat]
      (by simp [SOAX, id16]) (four _)
  · exact field_flatten [SOAX, to_be 2 VERSION, to_be 2 packed.gap_chunks,
      to_be 2 packed.tail_chunks, to_be 2 0, g_id, to_be 4 (crc32 packed.gap).toNat,
      to_be 4 packed.gap.length] (by simp [SOAX, id16, GAP_HEAD]) rfl

variable (packed rest) in
theorem tail_fields :
    let tail := (tail_parts packed g_id rest).flatten
    field tail 0 4 = SOAT ∧ field tail 8 16 = g_id ∧
      field tail 24 4 = to_be 4 (crc32 packed.tail).toNat ∧
      field tail 28 4 = to_be 4 packed.tail.length ∧
      field tail TAIL_HEAD packed.tail.length = packed.tail := by
  have four := to_be_length 4
  refine ⟨?_, ?_, ?_, ?_, ?_⟩
  · exact field_flatten [] rfl rfl
  · exact field_flatten [SOAT, to_be 2 VERSION, to_be 2 packed.tail_chunks]
      (by simp [SOAT]) id16
  · exact field_flatten [SOAT, to_be 2 VERSION, to_be 2 packed.tail_chunks, g_id]
      (by simp [SOAT, id16]) (four _)
  · exact field_flatten [SOAT, to_be 2 VERSION, to_be 2 packed.tail_chunks, g_id,
      to_be 4 (crc32 packed.tail).toNat] (by simp [SOAT, id16]) (four _)
  · exact field_flatten [SOAT, to_be 2 VERSION, to_be 2 packed.tail_chunks, g_id,
      to_be 4 (crc32 packed.tail).toNat, to_be 4 packed.tail.length]
      (by simp [SOAT, id16, TAIL_HEAD]) rfl

omit id16 in
theorem crc_field (p : List Byte) : of_be (to_be 4 (crc32 p).toNat) = (crc32 p).toNat :=
  of_be_to_be (crc32 p).isLt

/-- The areas a snapshot and its image hold give back what was packed. -/
theorem load_pre_areas (rest' tail : List Byte) (gap_small : packed.gap.length ≤ GAP_LEN - GAP_HEAD)
    (tail_small : packed.tail.length ≤ TAIL_LEN - TAIL_HEAD)
    (count : packed.tail_chunks < 65536) (empty : packed.tail_chunks = 0 → packed.tail = [])
    (held : packed.tail_chunks ≠ 0 → tail = (tail_parts packed g_id rest').flatten) :
    savext_load_pre (gap_parts packed g_id rest).flatten tail = packed.gap ++ packed.tail := by
  obtain ⟨magic, version, _, tails, id, crc, size, body⟩ := gap_fields packed rest id16
  have length : of_be (to_be 4 packed.gap.length) = packed.gap.length :=
    of_be_to_be (by unfold GAP_LEN at gap_small; omega)
  have chunks : of_be (to_be 2 packed.tail_chunks) = packed.tail_chunks := of_be_to_be count
  rw [savext_load_pre, magic, if_pos rfl]
  dsimp only
  rw [size, length, version, body, crc, crc_field, tails, chunks, id,
    if_neg (by simp only [not_or, not_not]; exact ⟨rfl, by omega, trivial⟩)]
  split
  · rename_i some_tail
    obtain ⟨magic', id', crc', size', body'⟩ := tail_fields packed rest' id16
    have length' : of_be (to_be 4 packed.tail.length) = packed.tail.length :=
      of_be_to_be (by unfold TAIL_LEN at tail_small; omega)
    rw [held some_tail, size', length', magic', id', crc', crc_field, body',
      if_neg (by simp only [not_or, not_not]; exact ⟨trivial, trivial, by omega, trivial⟩)]
  · rename_i no_tail
    rw [empty (not_not.mp no_tail), List.append_nil]

end Areas

end SoaPort.Save
