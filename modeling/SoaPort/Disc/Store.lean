import SoaPort.Disc.Sha1

namespace SoaPort.Disc

open SoaPort.Lib

/-! The checked store (disc.c) and the drive's reads of it, with mods' files
past the image's end (vfst.c). -/

abbrev STORE_HEADER : Nat := 4096
abbrev STORE_EXTENT : Nat := 64
abbrev STORE_BLOCK : Nat := 65536
abbrev STORE_DIGEST : Nat := 20
abbrev STORE_SHA1_AT : Nat := 0xFEC
abbrev STORE_MAX_EXTENTS : Nat := 2 ^ 20
abbrev STORE_MAX_BLOCKS : Nat := 2 ^ 22

abbrev DISC_OVERLAY_BASE : Nat := 0x57060000
abbrev DISC_OVERLAY_END : Nat := 0x80000000

/-- A file of the host, no longer than its offsets reach. -/
structure HostFile where
  bytes : List Byte
  reachable : bytes.length < 2 ^ 63

/-- A mod's file on the virtual disc. -/
structure VExtent where
  off : Nat
  data : List Byte
  past_image : DISC_OVERLAY_BASE ≤ off
  ends : off + data.length ≤ DISC_OVERLAY_END

def VExtent.size (v : VExtent) : Nat := v.data.length

section Header

def le32 (p : List Byte) (at_ : Nat) : Nat :=
  (p.getD at_ 0#8).toNat + (p.getD (at_ + 1) 0#8).toNat * 2 ^ 8 +
    (p.getD (at_ + 2) 0#8).toNat * 2 ^ 16 + (p.getD (at_ + 3) 0#8).toNat * 2 ^ 24

def le64 (p : List Byte) (at_ : Nat) : Nat := le32 p at_ + le32 p (at_ + 4) * 2 ^ 32

/-- Why a store is not taken. -/
inductive Refusal where
  | version (found : Nat)
  | header
  | too_short
  | truncated (size needs : Nat)
  | tables

/-- A store's header on its own: format 1, its sizes, and its tables where format 1
puts them. -/
def say_store (h : List Byte) : Option Refusal :=
  let version := le32 h 0x08
  let header_n := le32 h 0x0C
  let extent_n := le32 h 0x10
  let n := le32 h 0x14
  let ext_at := le64 h 0x18
  let pay_at := le64 h 0x20
  let pay_n := le64 h 0x28
  let image_n := le64 h 0x30
  let covered := le64 h 0x38
  let block_at := le64 h 0xE8
  let block_size := le32 h 0xE0
  let blocks := le32 h 0xE4
  if version ≠ 1 then some (.version version)
  else if header_n ≠ STORE_HEADER ∨ extent_n ≠ STORE_EXTENT ∨ block_size ≠ STORE_BLOCK ∨ n = 0 ∨
      n > STORE_MAX_EXTENTS ∨ blocks > STORE_MAX_BLOCKS ∨ pay_n ≠ covered ∨ covered > image_n ∨
      blocks ≠ (pay_n + STORE_BLOCK - 1) % 2 ^ 64 / STORE_BLOCK ∨ ext_at ≠ STORE_HEADER ∨
      block_at ≠ ext_at + n * STORE_EXTENT ∨ pay_at < block_at + blocks * STORE_DIGEST then
    some .header
  else none

/-- An open store: where the image's offset 0 sits in the file, how far it goes, and
the digests of its blocks. -/
structure Store where
  file : HostFile
  payload : Nat
  covered : Nat
  blocks : List Byte
  block_n : Nat
  within : payload + covered ≤ file.bytes.length
  block_n_eq : block_n = (covered + STORE_BLOCK - 1) / STORE_BLOCK
  digests : blocks.length = block_n * STORE_DIGEST

theorem say_store_none {h : List Byte} (accepted : say_store h = none) :
    le64 h 0x28 = le64 h 0x38 ∧
      le32 h 0xE4 = (le64 h 0x28 + STORE_BLOCK - 1) % 2 ^ 64 / STORE_BLOCK ∧
      STORE_HEADER + le32 h 0x14 * STORE_EXTENT + le32 h 0xE4 * STORE_DIGEST ≤ le64 h 0x20 := by
  rw [say_store] at accepted
  split at accepted
  · cases accepted
  split at accepted
  · cases accepted
  · omega

section Accepted

variable {f : HostFile} (accepted : say_store f.bytes = none)
  (whole : ¬ (f.bytes.length < le64 f.bytes 0x20 ∨
    f.bytes.length - le64 f.bytes 0x20 < le64 f.bytes 0x28))

include accepted whole

theorem payload_within : le64 f.bytes 0x20 + le64 f.bytes 0x38 ≤ f.bytes.length := by
  have := say_store_none accepted
  omega

theorem block_count : le32 f.bytes 0xE4 =
    (le64 f.bytes 0x38 + STORE_BLOCK - 1) / STORE_BLOCK := by
  obtain ⟨sized, count, -⟩ := say_store_none accepted
  have := f.reachable
  rw [sized, Nat.mod_eq_of_lt (by simp only [STORE_BLOCK]; omega)] at count
  exact count

theorem table_length :
    (slice (slice f.bytes STORE_HEADER
      (le32 f.bytes 0x14 * STORE_EXTENT + le32 f.bytes 0xE4 * STORE_DIGEST))
      (le32 f.bytes 0x14 * STORE_EXTENT) (le32 f.bytes 0xE4 * STORE_DIGEST)).length =
        le32 f.bytes 0xE4 * STORE_DIGEST := by
  obtain ⟨-, -, room⟩ := say_store_none accepted
  simp only [slice, List.length_take, List.length_drop]
  omega

end Accepted

/-- The extents and the digests, as they lie after the header. -/
def store_tables (p : List Byte) : List Byte :=
  slice p STORE_HEADER (le32 p 0x14 * STORE_EXTENT + le32 p 0xE4 * STORE_DIGEST)

/-- The tables of a header that is accepted, held to its SHA-1. -/
def open_tables (f : HostFile) (accepted : say_store f.bytes = none) : Except Refusal Store :=
  if cut : f.bytes.length < le64 f.bytes 0x20 ∨
      f.bytes.length - le64 f.bytes 0x20 < le64 f.bytes 0x28 then
    .error (.truncated f.bytes.length (le64 f.bytes 0x20 + le64 f.bytes 0x28))
  else if sha1 (f.bytes.take STORE_SHA1_AT ++ store_tables f.bytes) ≠
      slice f.bytes STORE_SHA1_AT STORE_DIGEST then
    .error .tables
  else
    .ok
      { file := f
        payload := le64 f.bytes 0x20
        covered := le64 f.bytes 0x38
        blocks := slice (store_tables f.bytes) (le32 f.bytes 0x14 * STORE_EXTENT)
          (le32 f.bytes 0xE4 * STORE_DIGEST)
        block_n := le32 f.bytes 0xE4
        within := payload_within accepted cut
        block_n_eq := block_count accepted cut
        digests := table_length accepted cut }

/-- What the header is found to be decides. -/
def open_said (f : HostFile) : (said : Option Refusal) → say_store f.bytes = said →
    Except Refusal Store
  | some why, _ => .error why
  | none, accepted => open_tables f accepted

/-- The store in a file. -/
def open_store (f : HostFile) : Except Refusal Store :=
  if f.bytes.length < STORE_HEADER then .error .too_short
  else open_said f (say_store f.bytes) rfl

end Header

/-- The disc while it is open: the store, a byte of it that reads flipped (SOA_DISC_FLIP)
and the mods' files. -/
structure OpenDisc where
  store : Store
  flip : Option Nat
  extents : List VExtent

/-- Why the run stopped. -/
inductive Stop where
  | memory
  | read
  | damaged (block : Nat)

/-- What the checks keep between reads: whether their buffer is there, a bit per block
hashed, and the blocks in the order they were hashed, the last first. -/
structure Checks where
  buf : Bool
  seen : List Byte
  hashed : List Nat

/-- A read the drive makes, and whether the host has memory for the checks' buffer. -/
structure Request where
  offset : BitVec 64
  length : BitVec 32
  memory : Bool

section Reads

variable (d : OpenDisc)

def raw_read (p : List Byte) (at_ n : Nat) : Option (List Byte) :=
  if at_ + n ≤ p.length then some (slice p at_ n) else none

/-- `n` bytes of the image at `off`; the flip is applied here, before anything hashes
or serves them. -/
def read_at (off n : Nat) : Option (List Byte) :=
  match raw_read d.store.file.bytes (d.store.payload + off) n, d.flip with
  | none, _ => none
  | some dst, none => some dst
  | some dst, some flip =>
      if off ≤ flip ∧ flip - off < n then some (dst.modify (flip - off) (· ^^^ 1#8)) else some dst

/-- The image's size was measured at the open: a read inside it that fails stops the run. -/
def read_or_stop (off n : Nat) : Except Stop (List Byte) :=
  match read_at d off n with
  | none => .error .read
  | some dst => .ok dst

/-- Block `k` against its digest. -/
def block_ok (k : Nat) : Except Stop Bool := do
  let lo := k * STORE_BLOCK
  let n := if d.store.covered - lo < STORE_BLOCK then d.store.covered - lo else STORE_BLOCK
  let buf ← read_or_stop d lo n
  return sha1 buf = slice d.store.blocks (k * STORE_DIGEST) STORE_DIGEST

def seen_bit (seen : List Byte) (k : Nat) : Bool :=
  seen.getD (k / 8) 0#8 &&& (1#8 <<< (k % 8)) ≠ 0#8

def set_seen (seen : List Byte) (k : Nat) : List Byte :=
  seen.set (k / 8) (seen.getD (k / 8) 0#8 ||| (1#8 <<< (k % 8)))

/-- Every block a drive read touches, hashed the first time. -/
def verify_loop : List Nat → Checks → Option Stop × Checks
  | [], c => (none, c)
  | k :: ks, c =>
      if seen_bit c.seen k then verify_loop ks c
      else
        match block_ok d k with
        | .error stop => (some stop, c)
        | .ok false => (some (.damaged k), { c with hashed := k :: c.hashed })
        | .ok true =>
            verify_loop ks { c with seen := set_seen c.seen k, hashed := k :: c.hashed }

/-- The sum of an offset and a length, in 64 bits. -/
def Request.past (r : Request) : Nat := (r.offset.toNat + r.length.toNat) % 2 ^ 64

def verify_blocks (r : Request) (c : Checks) : Option Stop × Checks :=
  let end_ := if r.past < d.store.covered then r.past else d.store.covered
  let offset := r.offset.toNat
  if end_ ≤ offset then (none, c)
  else if c.buf = false ∧ r.memory = false then (some .memory, c)
  else
    let first := offset / STORE_BLOCK
    verify_loop d (List.range' first ((end_ + STORE_BLOCK - 1) / STORE_BLOCK - first))
      { c with buf := true }

/-- Virtual bytes from `offset`, zeros between. -/
def disc_overlay_read (offset : Nat) (length : Nat) : List Byte :=
  d.extents.foldl
    (fun dst v =>
      let lo := if offset > v.off then offset else v.off
      let end_ := (offset + length) % 2 ^ 64
      let hi := if end_ < v.off + v.size then end_ else v.off + v.size
      if lo ≥ hi then dst else splice dst (lo - offset) (slice v.data (lo - v.off) (hi - lo)))
    (List.replicate length 0#8)

/-- The image's bytes, zeros past its end, and over them the mods' files. -/
def disc_peek (r : Request) : Except Stop (List Byte) := do
  let offset := r.offset.toNat
  let length := r.length.toNat
  let got := if offset < d.store.covered then
    (if d.store.covered - offset < length then d.store.covered - offset else length) else 0
  let image ← (if offset < d.store.covered then read_or_stop d offset got else pure [])
  let dst := image ++ List.replicate (length - got) 0#8
  if r.past > DISC_OVERLAY_BASE ∧ d.extents ≠ [] then
    let from_ := if offset > DISC_OVERLAY_BASE then offset else DISC_OVERLAY_BASE
    let skip := (from_ - offset) % 2 ^ 32
    return dst.take skip ++ disc_overlay_read d from_ (length - skip)
  else return dst

/-- The drive's read. A mod's file is not hashed. -/
def disc_serve (verify : Bool) (r : Request) (c : Checks) : Except Stop (List Byte) × Checks :=
  let virt := r.offset.toNat ≥ DISC_OVERLAY_BASE ∧ d.extents ≠ []
  let (stop, c) := if verify ∧ ¬ virt then verify_blocks d r c else (none, c)
  match stop with
  | some stop => (.error stop, c)
  | none => (disc_peek d r, c)

/-- Nothing hashed yet. -/
def fresh_checks : Checks :=
  { buf := false, seen := List.replicate (d.store.block_n / 8 + 1) 0#8, hashed := [] }

/-- What a run of reads served, and where it stopped. -/
structure Run where
  served : List (Request × List Byte)
  stop : Option Stop
  checks : Checks

def serve_all (verify : Bool) : List Request → Checks → Run
  | [], c => ⟨[], none, c⟩
  | r :: rest, c =>
      match disc_serve d verify r c with
      | (.error stop, c) => ⟨[], some stop, c⟩
      | (.ok dst, c) =>
          let run := serve_all verify rest c
          { run with served := (r, dst) :: run.served }

end Reads

end SoaPort.Disc
