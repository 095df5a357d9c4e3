import Mathlib.Data.List.TakeWhile
import SoaPort.Save.Container

namespace SoaPort.Save

open Lib

/-! Chunks written one after another and walked again. -/

/-- A chunk that can be written and read back: its id a C string of 1 to 31
bytes. -/
structure Chunk.Writable (c : Chunk) : Prop where
  named : c.id ≠ []
  short : c.id.length ≤ ID_MAX
  string : ∀ b ∈ c.id, b ≠ 0
  sized : c.data.length < 2 ^ 32

/-- What the chunks take, one after another. -/
def encode (cs : List Chunk) : List Byte := cs.flatMap chunk_put

section Walk

variable {p q next : List Byte} {c : Chunk}

theorem field_eq {a b : List Byte} (rest : List Byte) {off n : Nat} (split : p = a ++ (b ++ rest))
    (start : a.length = off) (size : b.length = n) : field p off n = b := by
  rw [field, split, List.drop_left' start, List.take_left' size]

theorem upto_append (item next : List Byte) : upto (item ++ next) next = item := by
  rw [upto, List.length_append, Nat.add_sub_cancel, List.take_left]

theorem cstr_eq {id : List Byte} (string : ∀ b ∈ id, b ≠ 0) : cstr id = id :=
  List.takeWhile_eq_self_iff.mpr fun b member => by simpa using string b member

theorem chunk_put_length (c : Chunk) : (chunk_put c).length = c.id.length + c.data.length + 5 := by
  simp only [chunk_put, List.length_cons, List.length_append, to_be_length]
  omega

/-- A chunk is a prefix of what it is found in. -/
theorem chunk_at_some (found : chunk_at p = some (c, next)) :
    ∃ item, item ≠ [] ∧ p = item ++ next ∧ ∀ ys, chunk_at (item ++ ys) = some (c, ys) := by
  cases p with
  | nil => cases found
  | cons b rest =>
      rw [chunk_at] at found
      dsimp only at found
      split at found
      · cases found
      · rename_i head
        split at found
        · cases found
        · rename_i body
          cases found
          generalize size : of_be ((rest.drop b.toNat).take 4) = n at body
          have whole : b.toNat + 4 + n ≤ rest.length := by omega
          refine ⟨b :: rest.take (b.toNat + 4 + n), by simp, ?_, fun ys => ?_⟩
          · rw [List.cons_append, List.take_append_drop]
          · have length : (rest.take (b.toNat + 4 + n) ++ ys).length =
                b.toNat + 4 + n + ys.length := by
              rw [List.length_append, List.length_take, Nat.min_eq_left whole]
            have sized : ((rest.take (b.toNat + 4 + n) ++ ys).drop b.toNat).take 4 =
                (rest.drop b.toNat).take 4 := take_drop_prefixed whole ys (by omega)
            have data : ((rest.take (b.toNat + 4 + n) ++ ys).drop (b.toNat + 4)).take n =
                (rest.drop (b.toNat + 4)).take n := take_drop_prefixed whole ys (by omega)
            have first : (rest.take (b.toNat + 4 + n) ++ ys).take b.toNat = rest.take b.toNat :=
              take_drop_prefixed whole ys (i := 0) (by omega)
            rw [List.cons_append, chunk_at]
            dsimp only
            rw [sized, size, data, first, length, if_neg (by omega), if_neg (by omega),
              List.drop_left' (by rw [List.length_take]; omega)]

/-- What a chunk's bytes say. -/
theorem chunk_at_put (fine : c.Writable) (q : List Byte) :
    chunk_at (chunk_put c ++ q) = some (c, q) := by
  obtain ⟨named, short, string, sized⟩ := fine
  have count : (BitVec.ofNat 8 c.id.length).toNat = c.id.length := by
    unfold ID_MAX at short
    rw [BitVec.toNat_ofNat]
    omega
  have positive := List.length_pos_iff.mpr named
  have split : c.id ++ to_be 4 c.data.length ++ c.data ++ q =
      c.id ++ (to_be 4 c.data.length ++ (c.data ++ q)) := by
    simp only [List.append_assoc]
  have size : of_be (((c.id ++ (to_be 4 c.data.length ++ (c.data ++ q))).drop c.id.length).take 4) =
      c.data.length := by
    rw [List.drop_left, List.take_left' (to_be_length 4 _), of_be_to_be (by omega)]
  have data : ((c.id ++ (to_be 4 c.data.length ++ (c.data ++ q))).drop (c.id.length + 4)) =
      c.data ++ q := by
    rw [← List.append_assoc]
    exact List.drop_left' (by rw [List.length_append, to_be_length])
  have length : (c.id ++ (to_be 4 c.data.length ++ (c.data ++ q))).length =
      c.id.length + 4 + (c.data.length + q.length) := by
    simp only [List.length_append, to_be_length]
    omega
  rw [chunk_put, List.cons_append, split, chunk_at]
  dsimp only
  rw [count, size, length, if_neg (by omega), if_neg (by omega), data, List.take_left,
    List.take_left, cstr_eq string, ← List.drop_drop, data, List.drop_left]

end Walk

/-! The loops over chunks, as one loop with what it does to each. -/

section Loops

variable {σ : Type}

/-- Take a chunk off the front, if there is one and it is wanted. -/
def chunk_step (act : σ → List Byte → Chunk → Option σ) (s : σ) (p : List Byte) :
    Option (σ × List Byte) :=
  match chunk_at p with
  | none => none
  | some (c, next) => (act s (upto p next) c).map fun s' => (s', next)

theorem chunk_step_framed (act : σ → List Byte → Chunk → Option σ) :
    Framed id (chunk_step act) where
  cut := by
    intro s s' p rest taken
    unfold chunk_step at taken
    split at taken
    · cases taken
    · rename_i c next found
      obtain ⟨t, acted, made⟩ := Option.map_eq_some_iff.mp taken
      cases made
      obtain ⟨item, nonempty, rfl, again⟩ := chunk_at_some found
      refine ⟨item, nonempty, rfl, fun u ys same => ⟨s', ?_, rfl⟩⟩
      change u = s at same
      rw [upto_append] at acted
      rw [chunk_step, again ys]
      dsimp only
      rw [upto_append, same, acted]
      rfl

variable {act : σ → List Byte → Chunk → Option σ} {s s' : σ} {c : Chunk} {q : List Byte}

theorem drain_chunk (fine : c.Writable) (acted : act s (chunk_put c) c = some s') :
    drain (chunk_step act) s (chunk_put c ++ q) = drain (chunk_step act) s' q := by
  refine (chunk_step_framed act).drain_some ?_
  rw [chunk_step, chunk_at_put fine]
  dsimp only
  rw [upto_append, acted]
  rfl

theorem drain_refused (fine : c.Writable) (acted : act s (chunk_put c) c = none) :
    drain (chunk_step act) s (chunk_put c ++ q) = (s, chunk_put c ++ q) := by
  refine drain_none ?_
  rw [chunk_step, chunk_at_put fine]
  dsimp only
  rw [upto_append, acted]
  rfl

def note (found : List (List Byte × Chunk)) (raw : List Byte) (c : Chunk) :
    Option (List (List Byte × Chunk)) :=
  some (found ++ [(raw, c)])

theorem walk_eq : (fun (found : List (List Byte × Chunk)) p =>
    (chunk_at p).map fun (c, next) => (found ++ [(upto p next, c)], next)) =
      chunk_step note := by
  funext found p
  unfold chunk_step
  cases chunk_at p <;> rfl

/-- Chunks written are the chunks read. -/
theorem chunks_encode {cs : List Chunk} (fine : ∀ c ∈ cs, c.Writable) :
    chunks (encode cs) = cs.map fun c => (chunk_put c, c) := by
  have walked : ∀ acc, drain (chunk_step note) acc
      (encode cs) = (acc ++ cs.map fun c => (chunk_put c, c), []) := by
    induction cs with
    | nil =>
        intro acc
        rw [List.map_nil, List.append_nil]
        exact drain_none rfl
    | cons c cs ih =>
        intro acc
        rw [encode, List.flatMap_cons, drain_chunk (fine c (by simp)) rfl]
        refine (ih (fun d member => fine d (by simp [member])) _).trans ?_
        rw [List.map_cons, List.append_assoc]
        rfl
  rw [chunks, walk_eq, walked]
  rfl

theorem chunk_at_id (found : chunk_at q = some (c, p)) : c.id.length ≤ ID_MAX := by
  cases q with
  | nil => cases found
  | cons b rest =>
      rw [chunk_at] at found
      dsimp only at found
      split at found
      · cases found
      · rename_i head
        split at found
        · cases found
        · cases found
          have prefixed :=
            List.IsPrefix.length_le ( List.takeWhile_prefix (p := (· ≠ 0)) (l := rest.take b.toNat))
          rw [List.length_take] at prefixed
          change (cstr (rest.take b.toNat)).length ≤ ID_MAX
          unfold cstr
          omega

/-! Chunks copied as they stand. -/

/-- The bytes are the chunk's, whatever follows them. -/
def stands (found : List Byte × Chunk) : Prop :=
  ∀ ys, chunk_at (found.1 ++ ys) = some (found.2, ys)

theorem chunks_stand {p : List Byte} {found : List Byte × Chunk} (member : found ∈ chunks p) :
    stands found := by
  have kept : ∀ (acc : List (List Byte × Chunk)) (p : List Byte), (∀ f ∈ acc, stands f) →
      ∀ f ∈ (drain (chunk_step note) acc p).1, stands f := by
    intro acc p
    induction acc, p using (chunk_step_framed note).drain_induction with
    | stuck acc p halted =>
        rw [drain_none halted]
        exact id
    | taken acc p acc' rest taken ih =>
        intro standing
        rw [(chunk_step_framed note).drain_some taken]
        apply ih
        unfold chunk_step at taken
        split at taken
        · cases taken
        · rename_i c next found
          cases taken
          intro f inside
          rcases List.mem_append.mp inside with old | new
          · exact standing f old
          · obtain ⟨item, _, rfl, again⟩ := chunk_at_some found
            rw [List.mem_singleton.mp new, upto_append]
            exact again
  rw [chunks, walk_eq] at member
  exact kept [] p (by simp) found member

/-- No chunk read has a longer id than the format's. -/
theorem chunks_id {p : List Byte} {found : List Byte × Chunk} (member : found ∈ chunks p) :
    found.2.id.length ≤ ID_MAX :=
  chunk_at_id (chunks_stand member [])

/-- Chunks copied one after another are the chunks read. -/
theorem chunks_flatMap {found : List (List Byte × Chunk)} (standing : ∀ f ∈ found, stands f) :
    chunks (found.flatMap (·.1)) = found := by
  have walked : ∀ acc, drain (chunk_step note) acc (found.flatMap (·.1)) = (acc ++ found, []) := by
    induction found with
    | nil =>
        intro acc
        rw [List.append_nil]
        exact drain_none rfl
    | cons f found ih =>
        intro acc
        have here := standing f (by simp) (found.flatMap (·.1))
        have taken : chunk_step note acc (f.1 ++ found.flatMap (·.1)) =
            some (acc ++ [f], found.flatMap (·.1)) := by
          rw [chunk_step, here]
          dsimp only
          rw [upto_append]
          rfl
        rw [List.flatMap_cons, (chunk_step_framed note).drain_some taken,
          ih (fun g member => standing g (by simp [member])), List.append_assoc]
        rfl
  rw [chunks, walk_eq, walked]
  rfl

/-- A chunk read has a C string for its id, and its data a size of 32 bits. -/
theorem stands_parts {found : List Byte × Chunk} (standing : stands found) :
    found.2.id.length ≤ ID_MAX ∧ (∀ b ∈ found.2.id, b ≠ 0) ∧ found.2.data.length < 2 ^ 32 := by
  have read := standing []
  rcases found with ⟨raw, c⟩
  change chunk_at (raw ++ []) = some (c, []) at read
  cases raw with
  | nil => cases read
  | cons b rest =>
      rw [List.append_nil, chunk_at] at read
      dsimp only at read
      split at read
      · cases read
      · rename_i head
        split at read
        · cases read
        · have made := (Prod.mk.inj (Option.some.inj read)).1
          subst made
          have prefixed :=
            List.IsPrefix.length_le ( List.takeWhile_prefix (p := (· ≠ 0)) (l := rest.take b.toNat))
          have four : ((rest.drop b.toNat).take 4).length ≤ 4 := List.length_take_le _ _
          have bound := of_be_lt ((rest.drop b.toNat).take 4)
          have scale := Nat.pow_le_pow_right (n := 256) (by decide) four
          refine ⟨?_, fun b member => ?_, ?_⟩
          · rw [List.length_take] at prefixed
            change (cstr (rest.take b.toNat)).length ≤ ID_MAX
            unfold cstr
            omega
          · simpa using List.mem_takeWhile_imp member
          · change (List.take _ _).length < _
            rw [List.length_take]
            omega

/-- A chunk read can be written again, unless its id is empty. -/
theorem stands_writable {found : List Byte × Chunk} (standing : stands found)
    (named : found.2.id ≠ []) : found.2.Writable := by
  obtain ⟨short, string, sized⟩ := stands_parts standing
  exact ⟨named, short, string, sized⟩

end Loops

end SoaPort.Save
