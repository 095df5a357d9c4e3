import SoaPort.Disc.StoreCorrect

namespace SoaPort.Disc

open SoaPort.Lib

section Served

variable {d : OpenDisc}

/-- A byte the drive may give at an offset: the stored one, of a block that matches its
SHA-1, a mod's, or zero where there is neither. -/
def OpenDisc.May (d : OpenDisc) (p : Nat) (b : Byte) : Prop :=
  (p < d.store.covered ∧ d.Matches (p / STORE_BLOCK) ∧ b = d.byte p) ∨
    (∃ v ∈ d.extents, v.byte p = some b) ∨
    (d.store.covered ≤ p ∧ (∀ v ∈ d.extents, v.byte p = none) ∧ b = 0#8)

/-- Past the overlay's base, an image byte no mod's file is over is zero, in a block that
matches, if there are mods' files at all. -/
def OpenDisc.Clear (d : OpenDisc) (p : Nat) : Prop :=
  d.extents ≠ [] → DISC_OVERLAY_BASE ≤ p → p < d.store.covered →
    (∀ v ∈ d.extents, v.byte p = none) → d.byte p = 0#8 ∧ d.Matches (p / STORE_BLOCK)

/-- Every byte of a buffer served is one the drive may give. -/
def Right (d : OpenDisc) (r : Request) (dst : List Byte) : Prop :=
  dst.length = r.length.toNat ∧
    ∀ i < r.length.toNat, ∃ b, dst[i]? = some b ∧ d.May (r.offset.toNat + i) b

theorem overlay_below {p : Nat} (low : p < DISC_OVERLAY_BASE) :
    ∀ v ∈ d.extents, v.byte p = none := by
  intro v _
  have base := v.past_image
  exact VExtent.byte_eq_none.mpr (.inl (by omega))

theorem may_iff_clear {p : Nat}
    (checked : d.extents = [] ∨ p < DISC_OVERLAY_BASE → p < d.store.covered →
      d.Matches (p / STORE_BLOCK)) :
    d.May p (d.served_at p) ↔ d.Clear p := by
  rw [OpenDisc.served_at]
  split
  next virtual =>
    obtain ⟨some_, past⟩ := virtual
    cases Classical.em (∃ v ∈ d.extents, v.byte p ≠ none) with
    | inl held =>
        have may : d.May p (overlay_at d.extents p) := .inr (.inl (overlay_at_some held))
        refine iff_of_true may ?_
        intro _ _ _ outside
        obtain ⟨v, member, byte⟩ := held
        exact absurd (outside v member) byte
    | inr free =>
        have outside : ∀ v ∈ d.extents, v.byte p = none := by
          intro v member
          by_contra byte
          exact free ⟨v, member, byte⟩
        rw [overlay_at_none outside]
        constructor
        · intro may _ _ inside _
          rcases may with ⟨-, same, zero⟩ | ⟨v, member, byte⟩ | ⟨over_, -⟩
          · exact ⟨zero.symm, same⟩
          · cases (outside v member).symm.trans byte
          · omega
        · intro clear
          cases Nat.lt_or_ge p d.store.covered with
          | inl inside =>
              obtain ⟨zero, same⟩ := clear some_ past inside outside
              exact .inl ⟨inside, same, zero.symm⟩
          | inr over_ => exact .inr (.inr ⟨over_, outside, rfl⟩)
  next real =>
    have plain : d.extents = [] ∨ p < DISC_OVERLAY_BASE := by
      cases Classical.em (d.extents = []) with
      | inl none_ => exact .inl none_
      | inr some_ => exact .inr (Nat.lt_of_not_le fun past => real ⟨some_, past⟩)
    have outside : ∀ v ∈ d.extents, v.byte p = none := by
      rcases plain with none_ | low
      · simp [none_]
      · exact overlay_below low
    refine iff_of_true ?_ fun some_ past _ _ => absurd ⟨some_, past⟩ real
    rw [OpenDisc.image_at]
    split
    next inside => exact .inl ⟨inside, checked plain inside, rfl⟩
    next over_ => exact .inr (.inr ⟨Nat.le_of_not_lt over_, outside, rfl⟩)

/-- What a read that is served gives, and what has been checked for it. -/
structure Serves (d : OpenDisc) (r : Request) (dst : List Byte) : Prop where
  bytes : dst = (List.range' r.offset.toNat r.length.toNat).map d.served_at
  checked : ∀ p, r.offset.toNat ≤ p → p < r.offset.toNat + r.length.toNat →
    d.extents = [] ∨ p < DISC_OVERLAY_BASE → p < d.store.covered → d.Matches (p / STORE_BLOCK)

theorem right_iff_clear {r : Request} {dst : List Byte} (serves : Serves d r dst) :
    Right d r dst ↔ ∀ i < r.length.toNat, d.Clear (r.offset.toNat + i) := by
  have length : dst.length = r.length.toNat := by
    rw [serves.bytes, List.length_map, List.length_range']
  have byte : ∀ i < r.length.toNat, dst[i]? = some (d.served_at (r.offset.toNat + i)) := by
    intro i low
    rw [serves.bytes, map_range'_getElem?, if_pos low]
  have place : ∀ i < r.length.toNat,
      d.May (r.offset.toNat + i) (d.served_at (r.offset.toNat + i)) ↔
        d.Clear (r.offset.toNat + i) :=
    fun i low => may_iff_clear (serves.checked _ (by omega) (by omega))
  constructor
  · rintro ⟨-, right⟩ i low
    obtain ⟨b, at_, may⟩ := right i low
    cases (byte i low).symm.trans at_
    exact (place i low).mp may
  · intro clear
    exact ⟨length, fun i low => ⟨_, byte i low, (place i low).mpr (clear i low)⟩⟩

/-- A read of the mods' files is not checked. -/
theorem disc_serve_virtual {r : Request} {c : Checks}
    (virt : r.offset.toNat ≥ DISC_OVERLAY_BASE ∧ d.extents ≠ []) :
    disc_serve d true r c = (disc_peek d r, c) := by
  have skipped : (if true = true ∧ ¬ (r.offset.toNat ≥ DISC_OVERLAY_BASE ∧ d.extents ≠ [])
      then verify_blocks d r c else (none, c)) = (none, c) :=
    if_neg fun both => both.2 virt
  rw [disc_serve]
  dsimp only
  rw [skipped]

theorem disc_serve_serves (r : Request) {c : Checks} (sound : c.Sound d) :
    (disc_serve d true r c).2.hashed.Nodup ∧
      (∀ stop, (disc_serve d true r c).1 = .error stop → stop.Just d) ∧
      ∀ dst, (disc_serve d true r c).1 = .ok dst →
        (disc_serve d true r c).2.Sound d ∧ Serves d r dst := by
  have short := r.length.isLt
  have bound := covered_lt d
  cases Classical.em (r.offset.toNat ≥ DISC_OVERLAY_BASE ∧ d.extents ≠ []) with
  | inl virt =>
      rw [disc_serve_virtual virt, disc_peek_eq]
      refine ⟨sound.once, nofun, ?_⟩
      rintro dst ⟨⟩
      refine ⟨sound, rfl, ?_⟩
      intro p low _ plain
      rcases plain with none_ | below
      · exact absurd none_ virt.2
      · omega
  | inr real =>
      have verified : (if true = true ∧ ¬ (r.offset.toNat ≥ DISC_OVERLAY_BASE ∧ d.extents ≠ [])
          then verify_blocks d r c else (none, c)) = verify_blocks d r c :=
        if_pos ⟨rfl, real⟩
      rw [disc_serve]
      dsimp only
      rw [verified]
      obtain ⟨once, just, after⟩ := verify_blocks_verified r sound
      cases stopped : (verify_blocks d r c).1 with
      | some stop =>
          refine ⟨once, ?_, nofun⟩
          rintro _ ⟨⟩
          exact just stop stopped
      | none =>
          obtain ⟨sound, matches_⟩ := after stopped
          dsimp only
          rw [disc_peek_eq]
          refine ⟨sound.once, nofun, ?_⟩
          rintro dst ⟨⟩
          refine ⟨sound, rfl, ?_⟩
          intro p low high _ inside
          refine matches_ p low ?_ inside
          rw [Request.past, Nat.mod_eq_of_lt (by omega)]
          exact high

theorem serve_all_serves (requests : List Request) {c : Checks} (sound : c.Sound d) :
    (serve_all d true requests c).checks.hashed.Nodup ∧
      (∀ stop, (serve_all d true requests c).stop = some stop → stop.Just d) ∧
      ∀ s ∈ (serve_all d true requests c).served, Serves d s.1 s.2 := by
  induction requests generalizing c with
  | nil => exact ⟨sound.once, nofun, nofun⟩
  | cons r rest ih =>
      obtain ⟨once, just, after⟩ := disc_serve_serves r sound
      rw [serve_all]
      cases result : disc_serve d true r c with
      | mk outcome checks =>
          rw [result] at once just after
          cases outcome with
          | error stop =>
              refine ⟨once, ?_, nofun⟩
              rintro _ ⟨⟩
              exact just stop rfl
          | ok dst =>
              obtain ⟨sound, serves⟩ := after dst rfl
              obtain ⟨once, just, served⟩ := ih sound
              refine ⟨once, just, ?_⟩
              exact List.forall_mem_cons.mpr ⟨serves, served⟩

/-- An image that ends by the overlay's base hides nothing. -/
theorem clear_of_covered (ends : d.store.covered ≤ DISC_OVERLAY_BASE) (p : Nat) : d.Clear p := by
  intro _ past inside _
  omega

end Served

/-! A store whose image goes two bytes past the overlay's base. -/

/-- The header's fields, four bytes each at an offset. -/
def long_fields : List (Nat × Nat) :=
  [(0x00, 0x44414F53), (0x04, 0x31435349), (0x08, 1), (0x0C, STORE_HEADER),
    (0x10, STORE_EXTENT), (0x14, 1), (0x18, STORE_HEADER), (0x20, 449740),
    (0x28, DISC_OVERLAY_BASE + 2), (0x30, DISC_OVERLAY_BASE + 2),
    (0x38, DISC_OVERLAY_BASE + 2), (0xE0, STORE_BLOCK), (0xE4, 22279), (0xE8, 4160)]

def long_front : List Byte :=
  (List.range STORE_SHA1_AT).map fun i =>
    match long_fields.find? fun f => f.1 ≤ i ∧ i < f.1 + 4 with
    | some (at_, v) => BitVec.ofNat 8 (v >>> (8 * (i - at_)))
    | none => 0#8

def long_tables : List Byte := List.replicate 445644 0#8

def long_digest : List Byte := sha1 (long_front ++ long_tables)

def long_payload : List Byte := List.replicate (DISC_OVERLAY_BASE + 2) 1#8

theorem long_front_length : long_front.length = STORE_SHA1_AT := by
  rw [long_front, List.length_map, List.length_range]

theorem long_digest_length : long_digest.length = STORE_DIGEST := sha1_length _

def long_bytes : List Byte := long_front ++ (long_digest ++ (long_tables ++ long_payload))

theorem long_bytes_length : long_bytes.length = 449740 + (DISC_OVERLAY_BASE + 2) := by
  rw [long_bytes, List.length_append, List.length_append, List.length_append,
    long_front_length, long_digest_length, long_tables, long_payload, List.length_replicate,
    List.length_replicate]
  rfl

def long_file : HostFile where
  bytes := long_bytes
  reachable := by
    rw [long_bytes_length]
    decide

theorem long_say : say_store long_file.bytes = none := by decide +kernel

theorem open_said_none {f : HostFile} {said : Option Refusal} (is : say_store f.bytes = said)
    (accepted : said = none) : open_said f said is = open_tables f (is.trans accepted) := by
  subst accepted
  rfl

/-- What a file comes to whose header is accepted and whose tables match. -/
theorem open_store_ok {f : HostFile} (long : STORE_HEADER ≤ f.bytes.length)
    (accepted : say_store f.bytes = none)
    (whole : le64 f.bytes 0x20 + le64 f.bytes 0x28 ≤ f.bytes.length)
    (digest : sha1 (f.bytes.take STORE_SHA1_AT ++ store_tables f.bytes) =
      slice f.bytes STORE_SHA1_AT STORE_DIGEST) :
    ∃ s, open_store f = .ok s ∧ s.file = f ∧ s.payload = le64 f.bytes 0x20 ∧
      s.covered = le64 f.bytes 0x38 := by
  rw [open_store, if_neg (Nat.not_lt_of_le long), open_said_none rfl accepted, open_tables,
    dif_neg (by omega), if_neg fun other => other digest]
  exact ⟨_, rfl, rfl, rfl, rfl⟩

theorem long_opens : ∃ s, open_store long_file = .ok s ∧ s.file = long_file ∧
    s.payload = 449740 ∧ s.covered = DISC_OVERLAY_BASE + 2 := by
  have fields : le64 long_file.bytes 0x20 = 449740 ∧
      le64 long_file.bytes 0x28 = DISC_OVERLAY_BASE + 2 ∧
      le64 long_file.bytes 0x38 = DISC_OVERLAY_BASE + 2 ∧ le32 long_file.bytes 0x14 = 1 ∧
      le32 long_file.bytes 0xE4 = 22279 := by
    decide +kernel
  obtain ⟨payload, size, covered, count, blocks⟩ := fields
  have length : long_file.bytes.length = 449740 + (DISC_OVERLAY_BASE + 2) := long_bytes_length
  have front : long_file.bytes.take STORE_SHA1_AT = long_front :=
    List.take_left' long_front_length
  have stored : slice long_file.bytes STORE_SHA1_AT STORE_DIGEST = long_digest := by
    change ((long_front ++ _).drop _).take _ = _
    rw [List.drop_left' long_front_length]
    exact List.take_left' long_digest_length
  have tables : store_tables long_file.bytes = long_tables := by
    rw [store_tables, count, blocks]
    have head : (long_front ++ long_digest).length = STORE_HEADER := by
      rw [List.length_append, long_front_length, long_digest_length]
      rfl
    change ((long_front ++ (long_digest ++ (long_tables ++ long_payload))).drop _).take _ = _
    rw [← List.append_assoc, List.drop_left' head]
    exact List.take_left' List.length_replicate
  obtain ⟨s, opened, file, at_, ends⟩ := open_store_ok (by rw [length]; decide) long_say
    (by rw [length, payload, size]) (by rw [front, stored, tables]; rfl)
  exact ⟨s, opened, file, at_.trans payload, ends.trans covered⟩

/-- A mod's file of one byte, the first past the image. -/
def one_byte : VExtent where
  off := DISC_OVERLAY_BASE
  data := [0x55#8]
  past_image := le_refl _
  ends := by decide

/-- The two bytes at the overlay's base. -/
def read_two : Request := { offset := 0x57060000, length := 2, memory := true }

end SoaPort.Disc
