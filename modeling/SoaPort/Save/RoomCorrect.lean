import Mathlib.Algebra.Order.BigOperators.Group.List
import SoaPort.Save.Room

namespace SoaPort.Save

open Lib

/-! ### Counting in 32 bits -/

section Words

theorem u32_small {n : Nat} (small : n < 2 ^ 32) : u32 n = n := Nat.mod_eq_of_lt small

theorem sub32_le {a b : Nat} (order : b ≤ a) (small : a < 2 ^ 32) : sub32 a b = a - b := by
  rw [sub32, u32_small (by omega : b < 2 ^ 32), u32]
  omega

theorem KEPT_MAX_eq : KEPT_MAX = 9748 := rfl

end Words

/-! ### The claims' lines -/

section Claims

/-- What the first lines of the lock take. -/
def lines_length (claims : List Claim) : Nat := (claims.map fun c => (claim_line c).length).sum

theorem lines_length_cons (c : Claim) (claims : List Claim) :
    lines_length (c :: claims) = (claim_line c).length + lines_length claims := by
  rw [lines_length, List.map_cons, List.sum_cons]
  rfl

variable {cap : Nat} {text : List Byte} {claims : List Claim}

theorem claims_text_fits (small : cap < 2 ^ 32) (fits : text.length < cap) :
    (mod_claims_text cap text claims).length < cap := by
  induction claims generalizing text with
  | nil => exact fits
  | cons c claims ih =>
      rw [mod_claims_text]
      split
      case isTrue => exact fits
      case isFalse room =>
        rw [sub32_le fits.le small] at room
        apply ih
        rw [List.length_append]
        omega

/-- The text is as long as the lines that stay within the room. -/
theorem claims_text_long (small : cap < 2 ^ 32) (fits : text.length < cap) (n : Nat) :
    n < (mod_claims_text cap text claims).length ↔
      ∃ k, n < text.length + lines_length (claims.take k) ∧
        text.length + lines_length (claims.take k) < cap := by
  induction claims generalizing text with
  | nil =>
      rw [mod_claims_text]
      constructor
      · intro long
        exact ⟨0, long, fits⟩
      · rintro ⟨k, long, -⟩
        rwa [List.take_nil] at long
  | cons c claims ih =>
      rw [mod_claims_text]
      split
      case isTrue full =>
        rw [sub32_le fits.le small] at full
        constructor
        · intro long
          exact ⟨0, long, fits⟩
        · rintro ⟨k, long, within⟩
          cases k with
          | zero => exact long
          | succ k =>
              rw [List.take_succ_cons, lines_length_cons] at within
              omega
      case isFalse room =>
        rw [sub32_le fits.le small] at room
        rw [ih (by rw [List.length_append]; omega), List.length_append]
        constructor
        · rintro ⟨k, long, within⟩
          refine ⟨k + 1, ?_⟩
          rw [List.take_succ_cons, lines_length_cons, ← Nat.add_assoc]
          exact ⟨long, within⟩
        · rintro ⟨k, long, within⟩
          cases k with
          | zero =>
              refine ⟨0, ?_, ?_⟩
              · exact long.trans_le (by simp [lines_length])
              · simpa [lines_length] using (by omega : text.length + (claim_line c).length < cap)
          | succ k =>
              rw [List.take_succ_cons, lines_length_cons, ← Nat.add_assoc] at long within
              exact ⟨k, long, within⟩

end Claims

/-! ### What a chunk takes -/

section Chunks

variable {p next : List Byte} {c : Chunk}

theorem chunk_at_length (found : chunk_at p = some (c, next)) :
    c.data.length + next.length ≤ p.length := by
  cases p with
  | nil => cases found
  | cons b rest =>
      rw [chunk_at] at found
      dsimp only at found
      split at found
      · cases found
      · split at found
        · cases found
        · cases found
          rw [List.length_take, List.length_drop, List.length_drop, List.length_cons]
          omega

/-- The bytes of the chunks found, together. -/
def raw_length (found : List (List Byte × Chunk)) : Nat := (found.map fun f => f.1.length).sum

theorem raw_length_append (found more : List (List Byte × Chunk)) :
    raw_length (found ++ more) = raw_length found + raw_length more := by
  rw [raw_length, List.map_append, List.sum_append]
  rfl

theorem chunks_length (p : List Byte) : raw_length (chunks p) ≤ p.length := by
  have walked : ∀ (acc : List (List Byte × Chunk)) (p : List Byte),
      raw_length (drain (chunk_step note) acc p).1 ≤ raw_length acc + p.length := by
    intro acc p
    induction acc, p using (chunk_step_framed note).drain_induction with
    | stuck acc p halted =>
        rw [drain_none halted]
        exact Nat.le_add_right _ _
    | taken acc p acc' rest taken ih =>
        rw [(chunk_step_framed note).drain_some taken]
        rw [chunk_step] at taken
        split at taken
        · cases taken
        · rename_i c next found
          cases taken
          obtain ⟨item, -, rfl, -⟩ := chunk_at_some found
          have one : raw_length [(item, c)] = item.length := List.sum_singleton
          rw [upto_append] at ih ⊢
          rw [raw_length_append, one] at ih
          rw [List.length_append]
          omega
  rw [chunks, walk_eq]
  simpa [raw_length] using walked [] p

theorem raw_length_mem {found : List (List Byte × Chunk)} {f : List Byte × Chunk}
    (member : f ∈ found) : f.1.length ≤ raw_length found :=
  List.single_le_sum (fun _ _ => Nat.zero_le _) _ (List.mem_map_of_mem member)

theorem chunk_data_length {f : List Byte × Chunk} (member : f ∈ chunks p) :
    f.2.data.length ≤ p.length := by
  have read := chunks_stand member []
  have data := chunk_at_length read
  have raw := (raw_length_mem member).trans (chunks_length p)
  rw [List.append_nil] at data
  omega

end Chunks

/-! ### The chunks packed -/

section Pack

/-- Every count and copy so far is inside. -/
structure Packing.Fits (s : Packing) : Prop where
  used : s.used = s.all.length
  room : s.used ≤ KEPT_MAX
  inside : ∀ a ∈ s.log, a.Inside

variable {s : Packing} {c : Chunk} {kept : KeptChunks}

theorem Packing.Fits.see (fits : s.Fits) {a : Access} (inside : a.Inside) : (s.see a).Fits where
  used := fits.used
  room := fits.room
  inside b member := by
    rcases List.mem_append.mp member with old | new
    · exact fits.inside b old
    · rw [List.mem_singleton.mp new]
      exact inside

theorem Packing.Fits.put (fits : s.Fits) (roomy : s.used + (chunk_put c).length ≤ KEPT_MAX) :
    (s.put c).Fits := by
  have small : s.used + (chunk_put c).length < 2 ^ 32 := roomy.trans_lt (by decide)
  constructor
  · rw [Packing.put]
    dsimp only
    rw [u32_small small, List.length_append, fits.used]
  · rw [Packing.put]
    dsimp only
    rwa [u32_small small]
  · intro a member
    rcases List.mem_append.mp member with old | new
    · exact fits.inside a old
    · rw [List.mem_singleton.mp new]
      exact roomy

theorem start_fits : Packing.start.Fits :=
  ⟨rfl, Nat.zero_le _, fun _ none => (nomatch none)⟩

theorem kept_chunk_length {id : List Byte} (found : kept_chunk kept.bytes id = some c) :
    c.data.length ≤ KEPT_MAX := by
  obtain ⟨f, first, rfl⟩ := Option.map_eq_some_iff.mp found
  exact (chunk_data_length (List.mem_of_find?_eq_some first)).trans kept.fits

/-- A mod's old chunk carried over. -/
theorem Packing.Fits.old (fits : s.Fits) (m : Saver) :
    (match kept_chunk kept.bytes m.id with
      | some c =>
          if u32 (s.used + (1 + m.id.length + 4) + c.data.length) ≤ KEPT_MAX then
            s.put ⟨m.id, c.data⟩
          else s
      | none => s).Fits := by
  have short := m.short
  have limit := fits.room
  have top : KEPT_MAX < 2 ^ 30 := by decide
  cases found : kept_chunk kept.bytes m.id with
  | none => exact fits
  | some c =>
      have size := kept_chunk_length found
      dsimp only
      rw [u32_small (by omega)]
      split
      case isTrue roomy =>
        apply fits.put
        rw [chunk_put_length]
        dsimp only
        omega
      case isFalse => exact fits

/-- A mod's turn. -/
theorem Packing.Fits.ask (fits : s.Fits) (m : Saver) : (s.ask kept m).Fits := by
  have short := m.short
  have limit := fits.room
  have top : KEPT_MAX < 2 ^ 30 := by decide
  have head : u32 (1 + m.id.length + 4) = 1 + m.id.length + 4 := u32_small (by omega)
  have room : sub32 KEPT_MAX s.used = KEPT_MAX - s.used := sub32_le limit (by omega)
  have seen : (s.see (.room s.used)).Fits := fits.see limit
  rw [Packing.ask]
  dsimp only
  rw [head, room]
  split
  case isTrue roomy =>
    have offered : ((s.see (.room s.used)).see
        (.offer (KEPT_MAX - s.used - (1 + m.id.length + 4)))).Fits :=
      seen.see (Nat.sub_le_of_le_add (by omega) : _ ≤ KEPT_MAX)
    dsimp only
    split
    case isTrue => exact offered
    case isFalse =>
      split
      case isTrue => exact offered.old m
      case isFalse small =>
        rw [not_or, sub32_le roomy.le (by omega)] at small
        apply offered.put
        rw [chunk_put_length, List.length_map, List.length_range]
        change s.used + _ ≤ _
        dsimp only
        omega
  case isFalse =>
    dsimp only
    rw [if_neg (by decide), if_pos (.inl (by decide))]
    exact seen.old m

/-- A kept chunk's turn. -/
theorem Packing.Fits.keep (fits : s.Fits) (saves : List SaveMod) (found : List Byte × Chunk) :
    (s.keep saves found).Fits := by
  have limit := fits.room
  have top : KEPT_MAX < 2 ^ 30 := by decide
  rw [Packing.keep, u32_small (by omega)]
  split
  case isTrue roomy =>
    apply fits.put
    rw [chunk_put_length]
    have within := roomy.2
    omega
  case isFalse => exact fits

theorem Packing.Fits.asks (fits : s.Fits) (saves : List Saver) :
    (saves.foldl (.ask kept) s).Fits := by
  induction saves generalizing s with
  | nil => exact fits
  | cons m saves ih => exact ih (fits.ask m)

theorem Packing.Fits.keeps (fits : s.Fits) (saves : List SaveMod)
    (found : List (List Byte × Chunk)) : (found.foldl (.keep saves) s).Fits := by
  induction found generalizing s with
  | nil => exact fits
  | cons f found ih => exact ih (fits.keep saves f)

/-! This port's own chunks: save-now's 28 bytes first, the claims' text bounded
as if it were. -/

variable {opened : Option SaveNow} {claims : List Claim}

theorem savenow_length (sn : SaveNow) : (chunk_put ⟨SAVENOW_ID, sn.chunk⟩).length = 28 := by
  rw [chunk_put_length, SaveNow.chunk, List.length_append, List.length_append, to_be_length,
    to_be_length]
  rfl

/-- The lock's text. -/
def claims_text (claims : List Claim) : List Byte :=
  mod_claims_text (KEPT_MAX - (1 + CLAIMS_ID.length + 4)) [] claims

theorem claims_text_room (claims : List Claim) : (claims_text claims).length + 15 < KEPT_MAX := by
  have within := @claims_text_fits (KEPT_MAX - (1 + CLAIMS_ID.length + 4)) [] claims (by decide)
    (by decide)
  have cap : KEPT_MAX - (1 + CLAIMS_ID.length + 4) + 15 = KEPT_MAX := by decide
  rw [claims_text]
  omega

theorem claims_length (claims : List Claim) :
    (chunk_put ⟨CLAIMS_ID, claims_text claims⟩).length = (claims_text claims).length + 15 := by
  have id : CLAIMS_ID.length = 10 := rfl
  rw [chunk_put_length]
  dsimp only
  omega

/-- A save-now chunk and the claims' after it, past the buffer's end. -/
def Crowded (opened : Option SaveNow) (claims : List Claim) : Prop :=
  opened.isSome ∧ ∃ k, KEPT_MAX - 43 < lines_length (claims.take k) ∧
    lines_length (claims.take k) < KEPT_MAX - 15

theorem crowded_iff : Crowded opened claims ↔
    opened.isSome ∧ claims ≠ [] ∧ KEPT_MAX < 28 + ((claims_text claims).length + 15) := by
  have long := @claims_text_long (KEPT_MAX - (1 + CLAIMS_ID.length + 4)) [] claims (by decide)
    (by decide) (KEPT_MAX - 43)
  have cap : KEPT_MAX - (1 + CLAIMS_ID.length + 4) = KEPT_MAX - 15 := rfl
  have some : 43 ≤ KEPT_MAX := by decide
  simp only [List.length_nil, Nat.zero_add] at long
  rw [Crowded, ← cap, ← long, ← claims_text]
  constructor
  · rintro ⟨now, more⟩
    refine ⟨now, ?_, by omega⟩
    rintro rfl
    exact absurd more (by decide)
  · rintro ⟨now, -, more⟩
    exact ⟨now, by omega⟩

theorem port_fits (roomy : ¬ Crowded opened claims) :
    (Packing.start.port opened claims).Fits := by
  rw [crowded_iff] at roomy
  have text := claims_text_room claims
  have length := claims_length claims
  rw [Packing.port]
  cases opened with
  | none =>
      dsimp only [Option.elim]
      split
      · exact start_fits
      · apply start_fits.put
        change 0 + _ ≤ _
        rw [← claims_text, length]
        omega
  | some sn =>
      have now := savenow_length sn
      have first : (Packing.start.put ⟨SAVENOW_ID, sn.chunk⟩).Fits := by
        apply start_fits.put
        rw [now]
        decide
      have used : (Packing.start.put ⟨SAVENOW_ID, sn.chunk⟩).used = 28 := by
        change u32 (0 + _) = 28
        rw [now]
        rfl
      dsimp only [Option.elim]
      split
      · exact first
      case isFalse claimed =>
        apply first.put
        rw [used, ← claims_text, length]
        by_contra full
        exact roomy ⟨rfl, claimed, by omega⟩

theorem gather_fits (roomy : ¬ Crowded opened claims) (saves : List Saver) :
    (Packing.gather saves kept opened claims).Fits :=
  ((port_fits roomy).asks saves).keeps _ _

/-! What is in the log stays there. -/

variable {a : Access}

theorem Packing.old_log (kept : KeptChunks) (m : Saver) (head : Nat) (member : a ∈ s.log) :
    a ∈ (match kept_chunk kept.bytes m.id with
      | some c => if u32 (s.used + head + c.data.length) ≤ KEPT_MAX then s.put ⟨m.id, c.data⟩ else s
      | none => s).log := by
  split
  · split
    · exact List.mem_append_left _ member
    · exact member
  · exact member

theorem Packing.ask_log (m : Saver) (member : a ∈ s.log) : a ∈ (s.ask kept m).log := by
  have seen : a ∈ (s.see (.room s.used)).log := List.mem_append_left _ member
  rw [Packing.ask]
  dsimp only
  split
  · dsimp only
    split
    · exact List.mem_append_left _ seen
    · split
      · exact Packing.old_log (s := (s.see _).see _) kept m _ (List.mem_append_left _ seen)
      · exact List.mem_append_left _ (List.mem_append_left _ seen)
  · dsimp only
    rw [if_neg (by decide), if_pos (.inl (by decide))]
    exact Packing.old_log (s := s.see _) kept m _ seen

theorem Packing.keep_log (saves : List SaveMod) (found : List Byte × Chunk) (member : a ∈ s.log) :
    a ∈ (s.keep saves found).log := by
  rw [Packing.keep]
  split
  · exact List.mem_append_left _ member
  · exact member

theorem gather_log (saves : List Saver) (member : a ∈ (Packing.start.port opened claims).log) :
    a ∈ (Packing.gather saves kept opened claims).log := by
  have asks (s : Packing) (member : a ∈ s.log) : a ∈ (saves.foldl (.ask kept) s).log := by
    induction saves generalizing s with
    | nil => exact member
    | cons m saves ih => exact ih _ (Packing.ask_log m member)
  have keeps (found : List (List Byte × Chunk)) (s : Packing) (member : a ∈ s.log) :
      a ∈ (found.foldl (.keep (saves.map (·.toSaveMod))) s).log := by
    induction found generalizing s with
    | nil => exact member
    | cons f found ih => exact ih _ (Packing.keep_log _ f member)
  exact keeps _ _ (asks _ member)

/-- The claims' chunk of a crowded snapshot ends past the buffer. -/
theorem crowded_log (crowded : Crowded opened claims) :
    ∃ a ∈ (Packing.start.port opened claims).log, ¬ a.Inside := by
  obtain ⟨now, claimed, past⟩ := crowded_iff.mp crowded
  obtain ⟨sn, rfl⟩ := Option.isSome_iff_exists.mp now
  have used : (Packing.start.put ⟨SAVENOW_ID, sn.chunk⟩).used = 28 := by
    change u32 (0 + _) = 28
    rw [savenow_length]
    rfl
  refine ⟨.pack 28 (chunk_put ⟨CLAIMS_ID, claims_text claims⟩).length, ?_, ?_⟩
  · rw [Packing.port]
    dsimp only [Option.elim]
    rw [if_neg claimed, ← used]
    exact List.mem_append_right _ List.mem_cons_self
  · rw [claims_length]
    exact Nat.not_le.mpr past

end Pack

/-! ### The bytes packed, with room for them -/

section Bytes

variable {s : Packing} {kept : KeptChunks}

/-- A mod's answer is an `int32_t`. -/
def Answers (m : Saver) : Prop := ∀ n, -2 ^ 31 ≤ (m.on_save n).1 ∧ (m.on_save n).1 < 2 ^ 31

theorem answer_toInt {v : Int} (low : -2 ^ 31 ≤ v) (high : v < 2 ^ 31) :
    (BitVec.ofInt 32 v).toInt = v := by
  rw [BitVec.toInt_ofInt]
  exact Int.bmod_eq_of_le (by omega) (by omega)

theorem answer_none {v : Int} (low : -2 ^ 31 ≤ v) (high : v < 2 ^ 31) :
    BitVec.ofInt 32 v = -1 ↔ v = -1 := by
  rw [← BitVec.toInt_inj, answer_toInt low high]
  rfl

theorem answer_toNat {v : Int} (low : 0 ≤ v) (high : v < 2 ^ 31) :
    (BitVec.ofInt 32 v).toNat = v.toNat := by
  rw [BitVec.toNat_ofInt]
  congr 1
  exact Int.emod_eq_of_lt low (by omega)

/-- Counted in 32 bits or not, a mod's chunk is the same while there is room. -/
theorem Packing.Fits.ask_all (fits : s.Fits) {m : Saver} (answers : Answers m) :
    (s.ask kept m).all = Save.ask kept.bytes s.all m.toSaveMod := by
  have short := m.short
  have limit := fits.room
  have top : KEPT_MAX < 2 ^ 30 := by decide
  have head : u32 (1 + m.id.length + 4) = 1 + m.id.length + 4 := u32_small (by omega)
  have room : sub32 KEPT_MAX s.used = KEPT_MAX - s.used := sub32_le limit (by omega)
  have old (log : List Access) :
      (match kept_chunk kept.bytes m.id with
        | some c =>
            if u32 (s.used + (1 + m.id.length + 4) + c.data.length) ≤ KEPT_MAX then
              Packing.put { s with log } ⟨m.id, c.data⟩
            else { s with log }
        | none => { s with log }).all =
      match kept_chunk kept.bytes m.id with
        | some c =>
            if s.all.length + (1 + m.id.length + 4) + c.data.length ≤ KEPT_MAX then
              s.all ++ chunk_put ⟨m.id, c.data⟩
            else s.all
        | none => s.all := by
    cases found : kept_chunk kept.bytes m.id with
    | none => rfl
    | some c =>
        have size := kept_chunk_length found
        dsimp only
        rw [u32_small (by omega), fits.used]
        split <;> rfl
  rw [Packing.ask, Save.ask]
  dsimp only
  rw [head, room, ← fits.used]
  rw [← fits.used] at old
  by_cases roomy : KEPT_MAX - s.used > 1 + m.id.length + 4
  · rw [if_pos roomy, if_pos roomy]
    obtain ⟨low, high⟩ := answers (KEPT_MAX - s.used - (1 + m.id.length + 4))
    generalize m.on_save (KEPT_MAX - s.used - (1 + m.id.length + 4)) = r at low high
    obtain ⟨v, buf⟩ := r
    dsimp only at low high ⊢
    rw [sub32_le roomy.le (by omega)]
    by_cases none : v = -1
    · rw [if_pos ((answer_none low high).mpr none), if_pos none]
      rfl
    · rw [if_neg (fun same => none ((answer_none low high).mp same)), if_neg none,
        answer_toInt low high]
      by_cases negative : v < 0
      · rw [if_pos (.inl negative), if_pos (.inl negative)]
        exact old _
      · have value := answer_toNat (by omega : 0 ≤ v) high
        by_cases big : v > (KEPT_MAX - s.used - (1 + m.id.length + 4) : Nat)
        · rw [if_pos (.inr (by omega)), if_pos (.inr big)]
          exact old _
        · rw [if_neg (by omega), if_neg (by omega), value]
          rfl
  · rw [if_neg roomy, if_neg roomy]
    dsimp only
    rw [if_neg (by decide), if_pos (.inl (by decide)), if_neg (by decide), if_pos (.inl (by decide))]
    exact old _

theorem Packing.Fits.keep_all (fits : s.Fits) (saves : List SaveMod)
    (found : List Byte × Chunk) : (s.keep saves found).all = Save.keep saves s.all found := by
  have limit := fits.room
  have top : KEPT_MAX < 2 ^ 30 := by decide
  rw [Packing.keep, Save.keep, u32_small (by omega), fits.used]
  split <;> rfl

/-- The bytes a snapshot that is not crowded packs. -/
theorem gather_all {opened : Option SaveNow} {claims : List Claim} (roomy : ¬ Crowded opened claims)
    {saves : List Saver} (answers : ∀ m ∈ saves, Answers m) :
    (Packing.gather saves kept opened claims).all =
      Save.gather (saves.map (·.toSaveMod)) kept.bytes (opened.map SaveNow.chunk)
        (if claims = [] then none else some (claims_text claims)) := by
  have port : (Packing.start.port opened claims).all =
      ((opened.map SaveNow.chunk).elim [] fun sn => chunk_put ⟨SAVENOW_ID, sn⟩) ++
        (if claims = [] then none else some (claims_text claims)).elim [] fun text =>
          chunk_put ⟨CLAIMS_ID, text⟩ := by
    rw [Packing.port, claims_text]
    cases opened with
    | none => by_cases none : claims = [] <;> simp [none, Packing.start, Packing.put]
    | some sn => by_cases none : claims = [] <;> simp [none, Packing.start, Packing.put]
  have asks (s : Packing) (fits : s.Fits) : (saves.foldl (.ask kept) s).all =
      (saves.map (·.toSaveMod)).foldl (Save.ask kept.bytes) s.all := by
    induction saves generalizing s with
    | nil => rfl
    | cons m saves ih =>
        have first := @Packing.Fits.ask_all s kept fits m (answers m List.mem_cons_self)
        rw [List.foldl_cons, List.map_cons, List.foldl_cons, ← first]
        exact ih (fun n later => answers n (List.mem_cons_of_mem _ later)) _ (fits.ask m)
  have keeps (found : List (List Byte × Chunk)) (s : Packing) (fits : s.Fits) :
      (found.foldl (.keep (saves.map (·.toSaveMod))) s).all =
        found.foldl (Save.keep (saves.map (·.toSaveMod))) s.all := by
    induction found generalizing s with
    | nil => rfl
    | cons f found ih =>
        rw [List.foldl_cons, List.foldl_cons, ← fits.keep_all]
        exact ih _ (fits.keep _ f)
  have start := port_fits roomy
  rw [Packing.gather, keeps _ _ (start.asks saves), asks _ start, port]
  rfl

end Bytes

/-! ### The copies into the gap and the tail -/

section Copying

def Copies.into_gap (s : Copies) (raw : List Byte) (_ : Chunk) : Option Copies :=
  if u32 (GAP_HEAD + s.len + u32 raw.length) ≤ GAP_LEN then
    some ⟨u32 (s.len + u32 raw.length), s.log ++ [.gap (GAP_HEAD + s.len) raw.length]⟩
  else none

def Copies.into_tail (s : Copies) (raw : List Byte) (_ : Chunk) : Option Copies :=
  some (if u32 (TAIL_HEAD + s.len + u32 raw.length) > TAIL_LEN then s
    else ⟨u32 (s.len + u32 raw.length), s.log ++ [.tail (TAIL_HEAD + s.len) raw.length]⟩)

theorem Copies.gap_step_eq : Copies.gap_step = chunk_step Copies.into_gap := by
  funext s p
  unfold Copies.gap_step chunk_step
  cases chunk_at p with
  | none => rfl
  | some found =>
      dsimp only [Copies.into_gap]
      split <;> rfl

theorem Copies.tail_step_eq : Copies.tail_step = chunk_step Copies.into_tail := by
  funext s p
  unfold Copies.tail_step chunk_step
  cases chunk_at p <;> rfl

/-- A walk over packed chunks keeps what each copy keeps. -/
theorem walk_keeps {σ : Type} {act : σ → List Byte → Chunk → Option σ} {P : σ → Prop}
    (step : ∀ s raw c s', P s → raw.length ≤ KEPT_MAX → act s raw c = some s' → P s') (s : σ)
    (p : List Byte) (start : P s) (short : p.length ≤ KEPT_MAX) :
    P (drain (chunk_step act) s p).1 ∧ (drain (chunk_step act) s p).2.length ≤ KEPT_MAX := by
  induction s, p using (chunk_step_framed act).drain_induction with
  | stuck s p halted =>
      rw [drain_none halted]
      exact ⟨start, short⟩
  | taken s p s' rest taken ih =>
      have shorter := (chunk_step_framed act).shorter taken
      rw [(chunk_step_framed act).drain_some taken]
      apply ih
      · rw [chunk_step] at taken
        split at taken
        · cases taken
        · obtain ⟨t, acted, made⟩ := Option.map_eq_some_iff.mp taken
          cases made
          exact step s _ _ _ start ((List.length_take_le _ _).trans (by omega)) acted
      · omega

/-- What an area's copies keep. -/
structure Copies.Within (limit : Nat) (s : Copies) : Prop where
  len : s.len ≤ limit
  inside : ∀ a ∈ s.log, a.Inside

theorem Copies.Within.add {limit : Nat} {s : Copies} (within : s.Within limit) {n : Nat} {a : Access}
    (len : n ≤ limit) (inside : a.Inside) : (⟨n, s.log ++ [a]⟩ : Copies).Within limit where
  len := len
  inside b member := by
    rcases List.mem_append.mp member with old | new
    · exact within.inside b old
    · rw [List.mem_singleton.mp new]
      exact inside

theorem into_gap_within (s : Copies) (raw : List Byte) (c : Chunk) (s' : Copies)
    (within : s.Within GAP_LEN) (short : raw.length ≤ KEPT_MAX)
    (acted : s.into_gap raw c = some s') : s'.Within GAP_LEN := by
  have limit := within.len
  have sizes : GAP_HEAD + GAP_LEN + KEPT_MAX < 2 ^ 32 := by decide
  rw [Copies.into_gap, u32_small (by omega : raw.length < 2 ^ 32), u32_small (by omega),
    u32_small (by omega)] at acted
  split at acted
  case isTrue roomy =>
    cases acted
    exact within.add (by omega) roomy
  case isFalse => cases acted

theorem into_tail_within (s : Copies) (raw : List Byte) (c : Chunk) (s' : Copies)
    (within : s.Within TAIL_LEN) (short : raw.length ≤ KEPT_MAX)
    (acted : s.into_tail raw c = some s') : s'.Within TAIL_LEN := by
  have limit := within.len
  have sizes : TAIL_HEAD + TAIL_LEN + KEPT_MAX < 2 ^ 32 := by decide
  rw [Copies.into_tail, u32_small (by omega : raw.length < 2 ^ 32), u32_small (by omega),
    u32_small (by omega)] at acted
  cases acted
  split
  case isTrue => exact within
  case isFalse roomy => exact within.add (by omega) (Nat.not_lt.mp roomy)

theorem copies_inside {all : List Byte} (short : all.length ≤ KEPT_MAX) :
    ∀ a ∈ copies all, a.Inside := by
  have none (limit : Nat) : (⟨0, []⟩ : Copies).Within limit :=
    ⟨Nat.zero_le _, fun _ none => (nomatch none)⟩
  obtain ⟨gap, rest⟩ := walk_keeps into_gap_within ⟨0, []⟩ all (none _) short
  rw [copies, Copies.gap_step_eq, Copies.tail_step_eq]
  intro a member
  rcases List.mem_append.mp member with first | later
  · exact gap.inside a first
  · exact (walk_keeps into_tail_within ⟨0, []⟩ _ (none _) rest).1.inside a later

end Copying

/-! ### The load's buffers -/

section Load

variable {gap tail : List Byte} {saves : List SaveMod}

theorem load_pre_inside (gap tail : List Byte) : ∀ a ∈ load_pre_accesses gap tail, a.Inside := by
  have sizes : GAP_LEN - GAP_HEAD + (TAIL_LEN - TAIL_HEAD) ≤ KEPT_MAX := by decide
  intro a member
  rw [load_pre_accesses] at member
  dsimp only at member
  split at member
  · split at member
    · cases member
    · rename_i fine
      rw [not_or, not_or] at fine
      rcases List.mem_cons.mp member with rfl | later
      · change 0 + _ ≤ _
        omega
      · split at later
        · split at later
          · cases later
          · rename_i whole
            rw [not_or, not_or, not_or] at whole
            obtain rfl := List.mem_singleton.mp later
            change _ + _ ≤ _
            omega
        · cases later
  · cases member

theorem field_length_le (p : List Byte) (off n : Nat) : (field p off n).length ≤ n :=
  List.length_take_le ..

theorem load_pre_length (gap tail : List Byte) : (savext_load_pre gap tail).length ≤ KEPT_MAX := by
  have sizes : GAP_LEN - GAP_HEAD + (TAIL_LEN - TAIL_HEAD) ≤ KEPT_MAX := by decide
  have first := field_length_le gap GAP_HEAD (of_be (field gap 32 4))
  have second := field_length_le tail TAIL_HEAD (of_be (field tail 28 4))
  rw [savext_load_pre]
  dsimp only
  split
  · split
    · exact Nat.zero_le _
    · rename_i fine
      rw [not_or, not_or] at fine
      split
      · split
        · omega
        · rename_i whole
          rw [not_or, not_or, not_or] at whole
          rw [List.length_append]
          omega
      · omega
  · exact Nat.zero_le _

theorem load_steps_inside (found : List (List Byte × Chunk)) (s : Copies)
    (fits : s.len + raw_length found ≤ KEPT_MAX) (inside : ∀ a ∈ s.log, a.Inside) :
    ∀ a ∈ (found.foldl (Copies.load_step saves) s).log, a.Inside := by
  induction found generalizing s with
  | nil => exact inside
  | cons f found ih =>
      have split : raw_length (f :: found) = f.1.length + raw_length found := List.sum_cons
      have top : KEPT_MAX < 2 ^ 32 := by decide
      rw [split] at fits
      have small : u32 (s.len + u32 f.1.length) = s.len + f.1.length := by
        rw [u32_small (by omega : f.1.length < 2 ^ 32), u32_small (by omega)]
      rw [List.foldl_cons]
      apply ih
      · simp only [Copies.load_step]
        split_ifs
        · omega
        · omega
        · omega
        · dsimp only
          omega
      · simp only [Copies.load_step]
        split_ifs
        · exact inside
        · exact inside
        · exact inside
        · intro a member
          rcases List.mem_append.mp member with old | new
          · exact inside a old
          · rw [List.mem_singleton.mp new]
            change s.len + f.1.length ≤ KEPT_MAX
            omega

theorem load_inside (saves : List SaveMod) (gap tail : List Byte) :
    ∀ a ∈ load_accesses saves gap tail, a.Inside := by
  intro a member
  rcases List.mem_append.mp member with before | after
  · exact load_pre_inside gap tail a before
  · apply load_steps_inside _ _ _ (fun _ none => absurd none List.not_mem_nil) a after
    rw [Nat.zero_add]
    exact (chunks_length _).trans (load_pre_length gap tail)

/-- A load's kept chunks, in their buffer. -/
def loaded_chunks (saves : List SaveMod) (gap tail : List Byte) : KeptChunks where
  bytes := savext_load saves (savext_load_pre gap tail)
  fits := by
    have flat (found : List (List Byte × Chunk)) :
        (found.flatMap (·.1)).length = raw_length found := by
      rw [List.length_flatMap]
      rfl
    rw [savext_load, flat]
    refine le_trans ?_ ((chunks_length _).trans (load_pre_length gap tail))
    exact List.Sublist.sum_le_sum (List.filter_sublist.map _) (fun _ _ => Nat.zero_le _)

end Load

/-- The snapshot and the load stay inside their buffers exactly when no
save-now chunk meets a text of claims that takes the room it was given whole. -/
theorem savext_inside_iff (saves : List Saver) (kept : KeptChunks) (opened : Option SaveNow)
    (claims : List Claim) (gap : List Byte) (loaders : List SaveMod) (gap' tail' : List Byte) :
    ((∀ a ∈ snapshot_accesses saves kept opened claims gap, a.Inside) ∧
      ∀ a ∈ load_accesses loaders gap' tail', a.Inside) ↔
    gap.any (· ≠ 0) ∨ ¬ Crowded opened claims := by
  rw [and_iff_left (load_inside loaders gap' tail'), snapshot_accesses]
  split
  case isTrue idle =>
    refine iff_of_true (fun _ none => (nomatch none)) (.inr ?_)
    rintro ⟨now, -⟩
    rw [Option.isNone_iff_eq_none.mp idle.2.2.2] at now
    exact Bool.false_ne_true now
  case isFalse =>
    split
    case isTrue dirty => exact iff_of_true (fun _ none => (nomatch none)) (.inl dirty)
    case isFalse clean =>
      rw [or_iff_right clean]
      constructor
      · intro inside crowded
        obtain ⟨a, member, outside⟩ := crowded_log crowded
        exact outside (inside a (List.mem_append_left _ (gather_log saves member)))
      · intro roomy a member
        have fits := @gather_fits kept opened claims roomy saves
        rcases List.mem_append.mp member with packed | copied
        · exact fits.inside a packed
        · split at copied
          · cases copied
          · exact copies_inside (fits.used ▸ fits.room) a copied

/-! A lock of 108 claims, each line 90 bytes, and a save this port opened. -/

/-- A mod's id of 31 bytes and a name of 46. -/
def long_claim (i : Nat) : Claim where
  mod := List.replicate 31 0x6D
  name := List.replicate 43 0x6E ++ [BitVec.ofNat 8 (0x30 + i / 100), BitVec.ofNat 8 (0x30 + i / 10 % 10),
    BitVec.ofNat 8 (0x30 + i % 10)]
  number := BitVec.ofNat 32 (24576 + i)

def long_claims : List Claim := (List.range 108).map long_claim

theorem long_crowded : Crowded (some ⟨0x7461, 0⟩) long_claims := by
  refine ⟨rfl, 108, ?_⟩
  decide +kernel

theorem savenow_overflows : ¬ ∀ (saves : List Saver) (kept : KeptChunks) (opened : Option SaveNow)
    (claims : List Claim) (gap : List Byte), claims.length ≤ 512 →
      ∀ a ∈ snapshot_accesses saves kept opened claims gap, a.Inside := by
  intro inside
  obtain ⟨a, member, outside⟩ := crowded_log long_crowded
  have all := inside [] ⟨[], Nat.zero_le _⟩ (some ⟨0x7461, 0⟩) long_claims
    (List.replicate GAP_LEN 0) (by decide) a
  have some : long_claims ≠ [] := by decide
  have clean : ¬ (List.replicate GAP_LEN (0 : Byte)).any (· ≠ 0) = true := by
    rw [List.any_replicate]
    decide
  rw [snapshot_accesses, if_neg (fun idle => some idle.2.2.1), if_neg clean] at all
  exact outside (all (List.mem_append_left _ (gather_log [] member)))

end SoaPort.Save
