import SoaPort.Lib.Bytes
import SoaPort.Lib.Stream

namespace SoaPort.Save

open Lib

/-! The save extension: each mod's chunk inside the game's save file, in a gap
of its block and in the file's tail. -/

def GAP_LEN : Nat := 3156

def TAIL_LEN : Nat := 6592

def GAP_HEAD : Nat := 36

def TAIL_HEAD : Nat := 32

def VERSION : Nat := 1

def ID_MAX : Nat := 31

def KEPT_MAX : Nat := GAP_LEN + TAIL_LEN

/-- "soa." -/
def soa : List Byte := [0x73, 0x6F, 0x61, 0x2E]

/-- "soa.claims" -/
def CLAIMS_ID : List Byte := soa ++ [0x63, 0x6C, 0x61, 0x69, 0x6D, 0x73]

/-- "soa.savenow" -/
def SAVENOW_ID : List Byte := soa ++ [0x73, 0x61, 0x76, 0x65, 0x6E, 0x6F, 0x77]

/-- "SOAX" -/
def SOAX : List Byte := [0x53, 0x4F, 0x41, 0x58]

/-- "SOAT" -/
def SOAT : List Byte := [0x53, 0x4F, 0x41, 0x54]

def crc32_bit (c : BitVec 32) : BitVec 32 := (c >>> 1) ^^^ (0xEDB88320#32 &&& (0 - (c &&& 1)))

def crc32 (p : List Byte) : BitVec 32 :=
  ~~~p.foldl (fun c b => crc32_bit^[8] (c ^^^ b.setWidth 32)) 0xFFFFFFFF#32

structure Chunk where
  id : List Byte
  data : List Byte
  deriving DecidableEq, Repr

/-- A C string: the bytes up to a NUL. -/
def cstr (p : List Byte) : List Byte := p.takeWhile (· ≠ 0)

/-- The chunk at the front, and what follows it; none if it runs off. -/
def chunk_at : List Byte → Option (Chunk × List Byte)
  | [] => none
  | b :: rest =>
      let n := b.toNat
      if n = 0 ∨ n > ID_MAX ∨ rest.length < n + 4 then none
      else
        let size := of_be ((rest.drop n).take 4)
        if rest.length - n - 4 < size then none
        else some (⟨cstr (rest.take n), (rest.drop (n + 4)).take size⟩, rest.drop (n + 4 + size))

def chunk_put (c : Chunk) : List Byte :=
  BitVec.ofNat 8 c.id.length :: (c.id ++ to_be 4 c.data.length ++ c.data)

/-- The bytes from `p` to `next`. -/
def upto (p next : List Byte) : List Byte := p.take (p.length - next.length)

/-- `while (chunk_at(p, end, ..))`: each chunk, with its bytes as they stand. -/
def chunks (p : List Byte) : List (List Byte × Chunk) :=
  (drain (fun found p => (chunk_at p).map fun (c, next) => (found ++ [(upto p next, c)], next))
    [] p).1

/-- The kept chunk for `id`, if any. -/
def kept_chunk (kept id : List Byte) : Option Chunk :=
  ((chunks kept).find? fun found => found.2.id = id).map (·.2)

/-- A mod with an `on_save`: given the room, what it returns and what it left
in the buffer. -/
structure SaveMod where
  id : List Byte
  on_save : Nat → Int × (Nat → Byte)

def saves_for_itself (saves : List SaveMod) (id : List Byte) : Bool :=
  saves.any fun m => m.id = id

/-- One mod asked for its chunk. -/
def ask (kept : List Byte) (all : List Byte) (m : SaveMod) : List Byte :=
  let head := 1 + m.id.length + 4
  let room := KEPT_MAX - all.length
  let (got, buf) := if room > head then m.on_save (room - head) else (-2, fun _ => 0)
  -- nothing to keep: its old chunk goes too
  if got = -1 then all
  else if got < 0 ∨ got > (room - head : Nat) then
    match kept_chunk kept m.id with
    | some c =>
        if all.length + head + c.data.length ≤ KEPT_MAX then all ++ chunk_put ⟨m.id, c.data⟩
        else all
    | none => all
  else all ++ chunk_put ⟨m.id, (List.range got.toNat).map buf⟩

/-- One kept chunk carried over. -/
def keep (saves : List SaveMod) (all : List Byte) (found : List Byte × Chunk) : List Byte :=
  let c := found.2
  if !saves_for_itself saves c.id ∧ all.length + 1 + c.id.length + 4 + c.data.length ≤ KEPT_MAX then
    all ++ chunk_put c
  else all

/-- Every chunk of a snapshot: this port's own (`opened` when the save menu is
one it asked for, `claims` when there are any), each loaded mod's, then the
kept ones they do not replace. -/
def gather (saves : List SaveMod) (kept : List Byte) (opened claims : Option (List Byte)) :
    List Byte :=
  let all := (opened.elim [] fun sn => chunk_put ⟨SAVENOW_ID, sn⟩) ++
    claims.elim [] fun text => chunk_put ⟨CLAIMS_ID, text⟩
  (chunks kept).foldl (keep saves) (saves.foldl (ask kept) all)

/-- A whole chunk into the gap while it fits. -/
def gap_step (gap : List Byte × Nat) (p : List Byte) : Option ((List Byte × Nat) × List Byte) :=
  match chunk_at p with
  | none => none
  | some (_, next) =>
      if GAP_HEAD + gap.1.length + (upto p next).length ≤ GAP_LEN then
        some ((gap.1 ++ upto p next, gap.2 + 1), next)
      else none

/-- A chunk into the tail, or dropped. -/
def tail_step (tail : List Byte × Nat) (p : List Byte) : Option ((List Byte × Nat) × List Byte) :=
  (chunk_at p).map fun (_, next) =>
    (if TAIL_HEAD + tail.1.length + (upto p next).length > TAIL_LEN then tail
     else (tail.1 ++ upto p next, tail.2 + 1), next)

/-- The snapshot's chunks, in the gap and held for the tail, and their numbers. -/
structure Packed where
  gap : List Byte
  gap_chunks : Nat
  tail : List Byte
  tail_chunks : Nat

def pack (all : List Byte) : Packed :=
  let (gap, rest) := drain gap_step ([], 0) all
  let tail := (drain tail_step ([], 0) rest).1
  { gap := gap.1, gap_chunks := gap.2, tail := tail.1, tail_chunks := tail.2 }

/-- The block's gap after the snapshot, and what waits for the image; `g_id`
is the save's id. -/
def savext_snapshot (saves : List SaveMod) (kept : List Byte) (opened claims : Option (List Byte))
    (g_id gap : List Byte) : List Byte × Option Packed :=
  if saves = [] ∧ kept = [] ∧ claims = none ∧ opened = none then (gap, none)
  -- the block's gap holds a byte the game wrote
  else if gap.any (· ≠ 0) then (gap, none)
  else
    let all := gather saves kept opened claims
    if all = [] then (gap, none)
    else
      let packed := pack all
      (SOAX ++ to_be 2 VERSION ++ to_be 2 packed.gap_chunks ++ to_be 2 packed.tail_chunks ++
        to_be 2 0 ++ g_id ++ to_be 4 (crc32 packed.gap).toNat ++ to_be 4 packed.gap.length ++
        packed.gap ++ gap.drop (GAP_HEAD + packed.gap.length), some packed)

/-- The file's tail after the image is built. -/
def savext_image (snapshot : Option Packed) (g_id tail : List Byte) : List Byte :=
  match snapshot with
  | none => tail
  | some packed =>
      if packed.tail_chunks > 0 then
        SOAT ++ to_be 2 VERSION ++ to_be 2 packed.tail_chunks ++ g_id ++
          to_be 4 (crc32 packed.tail).toNat ++ to_be 4 packed.tail.length ++ packed.tail ++
          tail.drop (TAIL_HEAD + packed.tail.length)
      else tail

/-- The field of `n` bytes at an offset. -/
def field (p : List Byte) (off n : Nat) : List Byte := (p.drop off).take n

/-- The container a loaded save holds. -/
def savext_load_pre (gap tail : List Byte) : List Byte :=
  if field gap 0 4 = SOAX then
    let gap_len := of_be (field gap 32 4)
    if of_be (field gap 4 2) ≠ VERSION ∨ gap_len > GAP_LEN - GAP_HEAD ∨
        (crc32 (field gap GAP_HEAD gap_len)).toNat ≠ of_be (field gap 28 4) then []
    else if of_be (field gap 8 2) ≠ 0 then
      let tail_len := of_be (field tail 28 4)
      if field tail 0 4 ≠ SOAT ∨ field tail 8 16 ≠ field gap 12 16 ∨
          tail_len > TAIL_LEN - TAIL_HEAD ∨
          (crc32 (field tail TAIL_HEAD tail_len)).toNat ≠ of_be (field tail 24 4) then
        field gap GAP_HEAD gap_len
      else field gap GAP_HEAD gap_len ++ field tail TAIL_HEAD tail_len
    else field gap GAP_HEAD gap_len
  else []

/-- What a mod with an `on_load` is given: the last chunk of its id. -/
def load_call (got id : List Byte) : Option (List Byte) :=
  ((chunks got).reverse.find? fun found => found.2.id = id).map (·.2.data)

/-- The chunks kept for the next saves. -/
def savext_load (saves : List SaveMod) (got : List Byte) : List Byte :=
  ((chunks got).filter fun found =>
    !soa.isPrefixOf found.2.id && !saves_for_itself saves found.2.id).flatMap (·.1)

end SoaPort.Save
