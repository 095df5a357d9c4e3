import SoaPort.Disc.Store
import Mathlib.Data.List.Nodup

namespace SoaPort.Disc

open SoaPort.Lib

/-! What the image holds. -/

section Image

variable (d : OpenDisc)

/-- The image's byte at an offset, as every read of it gives it. -/
def OpenDisc.byte (i : Nat) : Byte :=
  let stored := d.store.file.bytes.getD (d.store.payload + i) 0#8
  if d.flip = some i then stored ^^^ 1#8 else stored

/-- The bytes a block hashes. -/
def OpenDisc.block (k : Nat) : List Byte :=
  (List.range' (k * STORE_BLOCK) (min (d.store.covered - k * STORE_BLOCK) STORE_BLOCK)).map d.byte

/-- The block's SHA-1 is the one in the store's table. -/
def OpenDisc.Matches (k : Nat) : Prop :=
  sha1 (d.block k) = slice d.store.blocks (k * STORE_DIGEST) STORE_DIGEST

instance (k : Nat) : Decidable (d.Matches k) := inferInstanceAs (Decidable (_ = _))

theorem map_range'_getElem? {β : Type} (g : Nat → β) (a n i : Nat) :
    ((List.range' a n).map g)[i]? = if i < n then some (g (a + i)) else none := by
  rw [List.getElem?_map]
  split
  next low =>
    rw [List.getElem?_range' low, Nat.one_mul]
    rfl
  next high =>
    rw [List.getElem?_eq_none (by rw [List.length_range']; omega)]
    rfl

/-- A list is read off a function when each of its places is. -/
theorem eq_map_range' {β : Type} {l : List β} {g : Nat → β} {a n : Nat}
    (length : l.length = n) (at_ : ∀ i < n, l[i]? = some (g (a + i))) :
    l = (List.range' a n).map g := by
  apply List.ext_getElem?
  intro i
  rw [map_range'_getElem?]
  split
  next low => exact at_ i low
  next high => exact List.getElem?_eq_none (by omega)

theorem getElem?_stored {p : List Byte} {i : Nat} (inside : i < p.length) :
    p[i]? = some (p.getD i 0#8) := by
  rw [List.getD_eq_getElem?_getD, List.getElem?_eq_getElem inside]
  rfl

theorem read_at_eq {off n : Nat} (inside : off + n ≤ d.store.covered) :
    read_at d off n = some ((List.range' off n).map d.byte) := by
  have within := d.store.within
  have raw : raw_read d.store.file.bytes (d.store.payload + off) n =
      some (slice d.store.file.bytes (d.store.payload + off) n) :=
    if_pos (by omega)
  have length : (slice d.store.file.bytes (d.store.payload + off) n).length = n := by
    simp only [slice, List.length_take, List.length_drop]
    omega
  have stored : ∀ i < n, (slice d.store.file.bytes (d.store.payload + off) n)[i]? =
      some (d.store.file.bytes.getD (d.store.payload + (off + i)) 0#8) := by
    intro i low
    rw [slice_getElem?, if_pos low, Nat.add_assoc, getElem?_stored (by omega)]
  have plain : ∀ i < n, d.flip ≠ some (off + i) →
      (slice d.store.file.bytes (d.store.payload + off) n)[i]? = some (d.byte (off + i)) := by
    intro i low other
    rw [stored i low, OpenDisc.byte, if_neg other]
  rw [read_at, raw]
  cases flip : d.flip with
  | none =>
      change some (slice _ _ _) = _
      rw [eq_map_range' length fun i low => plain i low (by simp [flip])]
  | some j =>
      change (if off ≤ j ∧ j - off < n then _ else _) = _
      split
      next here =>
        congr 1
        apply eq_map_range' (by rw [List.length_modify, length])
        intro i low
        rw [List.getElem?_modify]
        cases Decidable.em (j - off = i) with
        | inl same =>
            have at_flip : d.flip = some (off + i) := by
              rw [flip]
              congr 1
              omega
            rw [stored i low, OpenDisc.byte, if_pos at_flip]
            change some (if j - off = i then _ else _) = _
            rw [if_pos same]
        | inr other =>
            have elsewhere : d.flip ≠ some (off + i) := by
              rw [flip]
              intro same
              cases same
              omega
            rw [plain i low elsewhere]
            change some (if j - off = i then _ else _) = _
            rw [if_neg other]
      next away =>
        rw [eq_map_range' length]
        intro i low
        apply plain i low
        rw [flip]
        intro same
        cases same
        omega

theorem read_or_stop_eq {off n : Nat} (inside : off + n ≤ d.store.covered) :
    read_or_stop d off n = .ok ((List.range' off n).map d.byte) := by
  rw [read_or_stop, read_at_eq d inside]

theorem block_ok_eq {k : Nat} (inside : k * STORE_BLOCK < d.store.covered) :
    block_ok d k = .ok (decide (d.Matches k)) := by
  have size : (if d.store.covered - k * STORE_BLOCK < STORE_BLOCK then
      d.store.covered - k * STORE_BLOCK else STORE_BLOCK) =
        min (d.store.covered - k * STORE_BLOCK) STORE_BLOCK := by
    split <;> omega
  rw [block_ok, size, read_or_stop_eq d (by omega)]
  rfl

end Image

/-! The bits of the blocks hashed. -/

theorem twoPow_ne_zero {i : Nat} (low : i < 8) : BitVec.twoPow 8 i ≠ 0#8 := by
  intro zero
  have bit := congrArg (fun b => b.getLsbD i) zero
  simp [low] at bit

theorem bit_ne_zero (b : Byte) {i : Nat} (low : i < 8) :
    (b &&& (1#8 <<< i) ≠ 0#8) ↔ b.getLsbD i = true := by
  rw [← BitVec.twoPow_eq, BitVec.and_twoPow]
  cases b.getLsbD i with
  | false => simp
  | true => simpa using twoPow_ne_zero low

theorem seen_bit_eq (seen : List Byte) (k : Nat) :
    seen_bit seen k = (seen.getD (k / 8) 0#8).getLsbD (k % 8) := by
  have bit := bit_ne_zero (seen.getD (k / 8) 0#8) (Nat.mod_lt k (by decide : 0 < 8))
  rw [seen_bit]
  exact Bool.eq_iff_iff.mpr (decide_eq_true_iff.trans bit)

/-- Setting one block's bit sets that one alone. -/
theorem seen_bit_set {seen : List Byte} {k : Nat} (room : k / 8 < seen.length) (j : Nat) :
    seen_bit (set_seen seen k) j = (decide (j = k) || seen_bit seen j) := by
  rw [seen_bit_eq, seen_bit_eq, set_seen]
  cases Decidable.em (j / 8 = k / 8) with
  | inr apart =>
      have other : j ≠ k := fun same => apart (by rw [same])
      rw [List.getD_eq_getElem?_getD, List.getElem?_set_ne (Ne.symm apart),
        ← List.getD_eq_getElem?_getD]
      simp [other]
  | inl same =>
      have bit : (BitVec.twoPow 8 (k % 8)).getLsbD (j % 8) = decide (j = k) := by
        rw [BitVec.getLsbD_twoPow]
        apply Bool.eq_iff_iff.mpr
        simp only [Bool.and_eq_true, decide_eq_true_iff]
        omega
      rw [same, List.getD_eq_getElem?_getD, List.getElem?_set_self room, Option.getD_some,
        BitVec.getLsbD_or, ← BitVec.twoPow_eq, bit, Bool.or_comm]

/-! The checks before a read. -/

section Verify

variable {d : OpenDisc}

/-- The bits are the blocks hashed, each of them once and right. -/
structure Checks.Sound (d : OpenDisc) (c : Checks) : Prop where
  bits : c.seen.length = d.store.block_n / 8 + 1
  right : ∀ k < d.store.block_n, seen_bit c.seen k = true → d.Matches k
  seen : ∀ k ∈ c.hashed, seen_bit c.seen k = true
  once : c.hashed.Nodup

/-- A stop that names a block names one that differs. -/
def Stop.Just (d : OpenDisc) : Stop → Prop
  | .damaged k => ¬ d.Matches k
  | _ => True

/-- What verifying the blocks `ks` comes to. -/
structure Verified (d : OpenDisc) (ks : List Nat) (result : Option Stop × Checks) : Prop where
  once : result.2.hashed.Nodup
  just : ∀ stop, result.1 = some stop → stop.Just d
  sound : result.1 = none → result.2.Sound d ∧ ∀ k ∈ ks, d.Matches k

theorem fresh_sound : (fresh_checks d).Sound d where
  bits := List.length_replicate
  right := by
    intro k _ seen
    have clear : (List.replicate (d.store.block_n / 8 + 1) 0#8).getD (k / 8) 0#8 = 0#8 := by
      rw [List.getD_eq_getElem?_getD, List.getElem?_replicate]
      split <;> rfl
    rw [fresh_checks, seen_bit_eq, clear] at seen
    simp at seen
  seen := nofun
  once := List.nodup_nil

theorem Checks.Sound.mark {c : Checks} (sound : c.Sound d) {k : Nat}
    (low : k < d.store.block_n) (fresh : seen_bit c.seen k = false) (same : d.Matches k) :
    Checks.Sound d { c with seen := set_seen c.seen k, hashed := k :: c.hashed } := by
  have room : k / 8 < c.seen.length := by
    rw [sound.bits]
    omega
  refine ⟨?_, ?_, ?_, ?_⟩
  · rw [set_seen, List.length_set, sound.bits]
  · intro j within bit
    rw [seen_bit_set room, Bool.or_eq_true, decide_eq_true_iff] at bit
    rcases bit with rfl | earlier
    · exact same
    · exact sound.right j within earlier
  · intro j member
    rw [seen_bit_set room, Bool.or_eq_true, decide_eq_true_iff]
    rcases List.mem_cons.mp member with rfl | earlier
    · exact .inl rfl
    · exact .inr (sound.seen j earlier)
  · refine List.nodup_cons.mpr ⟨fun member => ?_, sound.once⟩
    exact absurd (fresh.symm.trans (sound.seen k member)) (by decide)

/-- Each block is found seen, hashed and right, or the end. -/
theorem verify_loop_verified {ks : List Nat} (low : ∀ k ∈ ks, k < d.store.block_n)
    {c : Checks} (sound : c.Sound d) : Verified d ks (verify_loop d ks c) := by
  induction ks generalizing c with
  | nil => exact ⟨sound.once, nofun, fun _ => ⟨sound, nofun⟩⟩
  | cons k ks ih =>
      have first := low k List.mem_cons_self
      have rest : ∀ k ∈ ks, k < d.store.block_n :=
        fun k member => low k (List.mem_cons_of_mem _ member)
      have inside : k * STORE_BLOCK < d.store.covered := by
        have count := d.store.block_n_eq
        simp only [STORE_BLOCK] at count ⊢
        omega
      rw [verify_loop]
      cases seen : seen_bit c.seen k with
      | true =>
          rw [if_pos rfl]
          obtain ⟨once, just, after⟩ := ih rest sound
          refine ⟨once, just, fun goes => ⟨(after goes).1, ?_⟩⟩
          exact List.forall_mem_cons.mpr ⟨sound.right k first seen, (after goes).2⟩
      | false =>
          rw [if_neg (by decide), block_ok_eq d inside]
          cases Decidable.em (d.Matches k) with
          | inl same =>
              rw [decide_eq_true same]
              obtain ⟨once, just, after⟩ := ih rest (sound.mark first seen same)
              refine ⟨once, just, fun goes => ⟨(after goes).1, ?_⟩⟩
              exact List.forall_mem_cons.mpr ⟨same, (after goes).2⟩
          | inr differs =>
              rw [decide_eq_false differs]
              refine ⟨?_, ?_, nofun⟩
              · refine List.nodup_cons.mpr ⟨fun member => ?_, sound.once⟩
                exact absurd (seen.symm.trans (sound.seen k member)) (by decide)
              · rintro stop ⟨⟩
                exact differs

/-- Every block a read touches has been found right when the read goes on. -/
theorem verify_blocks_verified (r : Request) {c : Checks} (sound : c.Sound d) :
    (verify_blocks d r c).2.hashed.Nodup ∧
      (∀ stop, (verify_blocks d r c).1 = some stop → stop.Just d) ∧
      ((verify_blocks d r c).1 = none → (verify_blocks d r c).2.Sound d ∧
        ∀ p, r.offset.toNat ≤ p → p < r.past → p < d.store.covered →
          d.Matches (p / STORE_BLOCK)) := by
  have same : Checks.Sound d { c with buf := true } :=
    ⟨sound.bits, sound.right, sound.seen, sound.once⟩
  have end_ : (if r.past < d.store.covered then r.past else d.store.covered) =
      min r.past d.store.covered := by
    split <;> omega
  rw [verify_blocks, end_]
  dsimp only
  split
  next empty =>
    refine ⟨sound.once, nofun, fun _ => ⟨sound, ?_⟩⟩
    intro p low past inside
    omega
  next some_ =>
  split
  · refine ⟨sound.once, ?_, nofun⟩
    rintro stop ⟨⟩
    trivial
  · have low : ∀ k ∈ List.range' (r.offset.toNat / STORE_BLOCK)
        ((min r.past d.store.covered + STORE_BLOCK - 1) / STORE_BLOCK -
          r.offset.toNat / STORE_BLOCK), k < d.store.block_n := by
      intro k member
      have count := d.store.block_n_eq
      obtain ⟨-, high⟩ := List.mem_range'_1.mp member
      simp only [STORE_BLOCK] at count high ⊢
      omega
    obtain ⟨once, just, after⟩ := verify_loop_verified low same
    refine ⟨once, just, fun goes => ⟨(after goes).1, ?_⟩⟩
    intro p start past inside
    apply (after goes).2
    apply List.mem_range'_1.mpr
    simp only [STORE_BLOCK]
    omega

end Verify

/-! The bytes served. -/

section Bytes

/-- A mod's file at an offset of the disc. -/
def VExtent.byte (v : VExtent) (p : Nat) : Option Byte :=
  if v.off ≤ p then v.data[p - v.off]? else none

theorem VExtent.byte_eq_none {v : VExtent} {p : Nat} :
    v.byte p = none ↔ p < v.off ∨ v.off + v.size ≤ p := by
  rw [VExtent.byte]
  split
  next low =>
    rw [List.getElem?_eq_none_iff, VExtent.size]
    omega
  next high => simp [Nat.lt_of_not_le high]

/-- The mods' files at an offset, the later over the earlier, zeros between. -/
def overlay_at (extents : List VExtent) (p : Nat) : Byte :=
  extents.foldl (fun b v => (v.byte p).getD b) 0#8

variable {offset length : Nat}

/-- One file written into the buffer where the two meet. -/
theorem overlay_step (v : VExtent) (bound : offset < 2 ^ 64) (short : length < 2 ^ 32)
    {dst : List Byte} (sized : dst.length = length) :
    let lo := if offset > v.off then offset else v.off
    let end_ := (offset + length) % 2 ^ 64
    let hi := if end_ < v.off + v.size then end_ else v.off + v.size
    let dst' := if lo ≥ hi then dst
      else splice dst (lo - offset) (slice v.data (lo - v.off) (hi - lo))
    dst'.length = length ∧ ∀ i < length, dst'[i]? = (v.byte (offset + i)).or dst[i]? := by
  have low : (if offset > v.off then offset else v.off) = max offset v.off := by
    split <;> omega
  have high : (if (offset + length) % 2 ^ 64 < v.off + v.size then (offset + length) % 2 ^ 64
      else v.off + v.size) = min ((offset + length) % 2 ^ 64) (v.off + v.size) := by
    split <;> omega
  have ends := v.ends
  simp only [DISC_OVERLAY_END] at ends
  change v.off + v.size ≤ _ at ends
  dsimp only
  rw [low, high]
  split
  next apart =>
    refine ⟨sized, fun i inside => ?_⟩
    have outside : v.byte (offset + i) = none := VExtent.byte_eq_none.mpr (by omega)
    rw [outside, Option.none_or]
  next meets =>
    have unwrapped : (offset + length) % 2 ^ 64 = offset + length := by omega
    rw [unwrapped] at meets ⊢
    have size : (slice v.data (max offset v.off - v.off)
        (min (offset + length) (v.off + v.size) - max offset v.off)).length =
          min (offset + length) (v.off + v.size) - max offset v.off := by
      simp only [slice, List.length_take, List.length_drop]
      change min _ (v.size - _) = _
      omega
    refine ⟨?_, fun i inside => ?_⟩
    · rw [length_splice (by omega), sized]
    · rw [splice_getElem? (by omega), size]
      split
      next within =>
        rw [slice_getElem?, if_pos (by omega), VExtent.byte, if_pos (by omega)]
        have place : max offset v.off - v.off + (i - (max offset v.off - offset)) =
            offset + i - v.off := by omega
        have held : offset + i - v.off < v.data.length := by
          change _ < v.size
          omega
        rw [place, List.getElem?_eq_getElem held]
        rfl
      next without =>
        have outside : v.byte (offset + i) = none := VExtent.byte_eq_none.mpr (by omega)
        rw [outside, Option.none_or]

theorem disc_overlay_read_eq (d : OpenDisc) (bound : offset < 2 ^ 64) (short : length < 2 ^ 32) :
    disc_overlay_read d offset length =
      (List.range' offset length).map (overlay_at d.extents) := by
  have written : ∀ (extents : List VExtent) (dst : List Byte) (g : Nat → Byte),
      dst = (List.range' offset length).map g →
      extents.foldl
        (fun dst v =>
          let lo := if offset > v.off then offset else v.off
          let end_ := (offset + length) % 2 ^ 64
          let hi := if end_ < v.off + v.size then end_ else v.off + v.size
          if lo ≥ hi then dst
          else splice dst (lo - offset) (slice v.data (lo - v.off) (hi - lo))) dst =
        (List.range' offset length).map
          fun p => extents.foldl (fun b v => (v.byte p).getD b) (g p) := by
    intro extents
    induction extents with
    | nil => exact fun dst g same => same
    | cons v rest ih =>
        intro dst g same
        have sized : dst.length = length := by
          rw [same, List.length_map, List.length_range']
        obtain ⟨kept, at_⟩ := overlay_step v bound short sized
        apply ih _ fun p => (v.byte p).getD (g p)
        apply eq_map_range' kept
        intro i low
        rw [at_ i low, same, map_range'_getElem?, if_pos low]
        cases v.byte (offset + i) with
        | none => rfl
        | some b => rfl
  apply written d.extents _ fun _ => 0#8
  rw [List.map_const', List.length_range']

/-- The image at an offset, zeros past its end. -/
def OpenDisc.image_at (d : OpenDisc) (p : Nat) : Byte :=
  if p < d.store.covered then d.byte p else 0#8

/-- What the drive gives at an offset. -/
def OpenDisc.served_at (d : OpenDisc) (p : Nat) : Byte :=
  if d.extents ≠ [] ∧ DISC_OVERLAY_BASE ≤ p then overlay_at d.extents p else d.image_at p

theorem overlay_kept {extents : List VExtent} {p : Nat} (b : Byte)
    (outside : ∀ v ∈ extents, v.byte p = none) :
    extents.foldl (fun b v => (v.byte p).getD b) b = b := by
  induction extents with
  | nil => rfl
  | cons v rest ih =>
      obtain ⟨first, others⟩ := List.forall_mem_cons.mp outside
      rw [List.foldl_cons, first]
      exact ih others

theorem overlay_at_none {extents : List VExtent} {p : Nat}
    (outside : ∀ v ∈ extents, v.byte p = none) : overlay_at extents p = 0#8 :=
  overlay_kept 0#8 outside

/-- Some file's byte, when any file is there. -/
theorem overlay_at_some {extents : List VExtent} {p : Nat}
    (inside : ∃ v ∈ extents, v.byte p ≠ none) :
    ∃ v ∈ extents, v.byte p = some (overlay_at extents p) := by
  have found : ∀ (l : List VExtent) (b : Byte), (∃ v ∈ l, v.byte p ≠ none) →
      ∃ v ∈ l, v.byte p = some (l.foldl (fun b v => (v.byte p).getD b) b) := by
    intro l
    induction l with
    | nil => exact fun b none => absurd none (by simp)
    | cons v rest ih =>
        intro b inside
        rw [List.foldl_cons]
        cases Classical.em (∃ w ∈ rest, w.byte p ≠ none) with
        | inl later =>
            obtain ⟨w, member, byte⟩ := ih ((v.byte p).getD b) later
            exact ⟨w, List.mem_cons_of_mem _ member, byte⟩
        | inr last =>
            have empty : ∀ w ∈ rest, w.byte p = none := by
              intro w member
              cases byte : w.byte p with
              | none => rfl
              | some b => exact absurd ⟨w, member, by simp [byte]⟩ last
            obtain ⟨w, member, there⟩ := inside
            rcases List.mem_cons.mp member with rfl | later
            · obtain ⟨byte, held⟩ := Option.ne_none_iff_exists'.mp there
              refine ⟨w, List.mem_cons_self, ?_⟩
              rw [overlay_kept _ empty, held]
              rfl
            · exact absurd (empty w later) there
  exact found extents 0#8 inside

theorem image_read (d : OpenDisc) (length : Nat) :
    (List.range' offset (min (d.store.covered - offset) length)).map d.byte ++
        List.replicate (length - min (d.store.covered - offset) length) 0#8 =
      (List.range' offset length).map d.image_at := by
  apply eq_map_range'
  · rw [List.length_append, List.length_map, List.length_range', List.length_replicate]
    omega
  · intro i low
    rw [OpenDisc.image_at]
    split
    next inside =>
      rw [List.getElem?_append_left (by rw [List.length_map, List.length_range']; omega),
        map_range'_getElem?, if_pos (by omega)]
    next past =>
      rw [List.getElem?_append_right (by rw [List.length_map, List.length_range']; omega),
        List.getElem?_replicate, if_pos (by rw [List.length_map, List.length_range']; omega)]

theorem covered_lt (d : OpenDisc) : d.store.covered < 2 ^ 63 := by
  have := d.store.within
  have := d.store.file.reachable
  omega

/-- Where the files are not laid over the image they would change nothing. -/
theorem served_at_image (d : OpenDisc) (r : Request)
    (image : ¬ (r.past > DISC_OVERLAY_BASE ∧ d.extents ≠ [])) {p : Nat}
    (low : r.offset.toNat ≤ p) (high : p < r.offset.toNat + r.length.toNat) :
    d.served_at p = d.image_at p := by
  rw [OpenDisc.served_at]
  split
  next there =>
    have wraps : 2 ^ 64 ≤ r.offset.toNat + r.length.toNat := by
      by_contra small
      refine image ⟨?_, there.1⟩
      rw [Request.past, Nat.mod_eq_of_lt (by omega)]
      omega
    have far := r.length.isLt
    have bound := covered_lt d
    have outside : ∀ v ∈ d.extents, v.byte p = none := by
      intro v _
      have ends := v.ends
      simp only [DISC_OVERLAY_END] at ends
      change v.off + v.size ≤ _ at ends
      exact VExtent.byte_eq_none.mpr (by omega)
    rw [overlay_at_none outside, OpenDisc.image_at, if_neg (by omega)]
  next => rfl

theorem disc_peek_eq (d : OpenDisc) (r : Request) :
    disc_peek d r = .ok ((List.range' r.offset.toNat r.length.toNat).map d.served_at) := by
  have got : (if r.offset.toNat < d.store.covered then
      (if d.store.covered - r.offset.toNat < r.length.toNat then
        d.store.covered - r.offset.toNat else r.length.toNat) else 0) =
      min (d.store.covered - r.offset.toNat) r.length.toNat := by
    split
    · split <;> omega
    · omega
  have image : (if r.offset.toNat < d.store.covered then
      read_or_stop d r.offset.toNat (min (d.store.covered - r.offset.toNat) r.length.toNat)
    else pure [] : Except Stop (List Byte)) =
      .ok ((List.range' r.offset.toNat
        (min (d.store.covered - r.offset.toNat) r.length.toNat)).map d.byte) := by
    split
    next inside =>
      exact read_or_stop_eq d (by omega)
    next past =>
      have none_ : min (d.store.covered - r.offset.toNat) r.length.toNat = 0 := by omega
      rw [none_]
      rfl
  rw [disc_peek]
  dsimp only
  rw [got, image]
  change (if r.past > DISC_OVERLAY_BASE ∧ d.extents ≠ [] then _ else _ :
    Except Stop (List Byte)) = _
  rw [image_read]
  have short := r.length.isLt
  have bound := r.offset.isLt
  split
  next there =>
    obtain ⟨past, some_⟩ := there
    have from_ : (if r.offset.toNat > DISC_OVERLAY_BASE then r.offset.toNat
        else DISC_OVERLAY_BASE) = max r.offset.toNat DISC_OVERLAY_BASE := by
      split <;> omega
    have skip : (max r.offset.toNat DISC_OVERLAY_BASE - r.offset.toNat) % 2 ^ 32 =
        DISC_OVERLAY_BASE - r.offset.toNat := by
      simp only [DISC_OVERLAY_BASE]
      omega
    rw [from_, skip, disc_overlay_read_eq d (by simp only [DISC_OVERLAY_BASE]; omega) (by omega)]
    change Except.ok _ = _
    congr 1
    have reaches : DISC_OVERLAY_BASE - r.offset.toNat ≤ r.length.toNat := by
      rw [Request.past] at past
      omega
    have front : (((List.range' r.offset.toNat r.length.toNat).map d.image_at).take
        (DISC_OVERLAY_BASE - r.offset.toNat)).length = DISC_OVERLAY_BASE - r.offset.toNat := by
      rw [List.length_take, List.length_map, List.length_range']
      omega
    apply eq_map_range'
    · rw [List.length_append, front, List.length_map, List.length_range']
      omega
    · intro i low
      rw [OpenDisc.served_at]
      split
      next above =>
        rw [List.getElem?_append_right (by omega), front, map_range'_getElem?,
          if_pos (by omega)]
        congr 2
        omega
      next under =>
        have below : r.offset.toNat + i < DISC_OVERLAY_BASE := by
          by_contra above
          exact under ⟨some_, Nat.le_of_not_lt above⟩
        rw [List.getElem?_append_left (by omega), List.getElem?_take, if_pos (by omega),
          map_range'_getElem?, if_pos low]
  next image =>
    change Except.ok _ = _
    congr 1
    apply List.map_congr_left
    intro p member
    obtain ⟨low, high⟩ := List.mem_range'_1.mp member
    exact (served_at_image d r image low high).symm

end Bytes

end SoaPort.Disc
