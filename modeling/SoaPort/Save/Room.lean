import SoaPort.Lib.Text
import SoaPort.Save.Pack

namespace SoaPort.Save

open Lib

/-! The snapshot's and the load's buffers: where each copy goes and the room
each mod is offered, counted in the 32 bits the port counts them in. -/

def u32 (n : Nat) : Nat := n % 2 ^ 32

/-- An unsigned difference. -/
def sub32 (a b : Nat) : Nat := u32 (a + (2 ^ 32 - u32 b))

/-- What a snapshot or a load does with its buffers, in order. -/
inductive Access where
  /-- a chunk put at `all + used` -/
  | pack (used n : Nat)
  /-- `KEPT_MAX - used` taken for a mod -/
  | room (used : Nat)
  /-- an `on_save` offered this much of its buffer -/
  | offer (n : Nat)
  | gap (off n : Nat)
  | tail (off n : Nat)
  /-- a part of the container a loaded save holds -/
  | got (off n : Nat)
  | keep (off n : Nat)
  deriving DecidableEq, Repr

def Access.Inside : Access → Prop
  | .pack used n => used + n ≤ KEPT_MAX
  | .room used => used ≤ KEPT_MAX
  | .offer n => n ≤ KEPT_MAX
  | .gap off n => off + n ≤ GAP_LEN
  | .tail off n => off + n ≤ TAIL_LEN
  | .got off n => off + n ≤ KEPT_MAX
  | .keep off n => off + n ≤ KEPT_MAX

instance : DecidablePred Access.Inside := fun a => by
  cases a <;> exact inferInstanceAs (Decidable (_ ≤ _))

/-! The claims of the lock. -/

structure Claim where
  mod : List Byte
  name : List Byte
  number : BitVec 32
  deriving DecidableEq, Repr

/-- "flag " -/
def flag : List Byte := [0x66, 0x6C, 0x61, 0x67, 0x20]

def claim_line (c : Claim) : List Byte :=
  flag ++ c.mod ++ [0x20] ++ c.name ++ [0x20] ++
    (decimal c.number.toNat).map (fun d => BitVec.ofNat 8 d.toNat) ++ [0x0A]

/-- The lock's lines, as many as the room holds with a NUL after. -/
def mod_claims_text (cap : Nat) (text : List Byte) : List Claim → List Byte
  | [] => text
  | c :: claims =>
      let line := claim_line c
      if line.length ≥ sub32 cap text.length then text
      else mod_claims_text cap (text ++ line) claims

/-! A save this port opened. -/

/-- "SN1" -/
def SN1 : List Byte := [0x53, 0x4E, 0x31, 0x00]

def CHUNK_LEN : Nat := 12

/-- The map a save-now save is made on, and its fallback. -/
structure SaveNow where
  map : BitVec 32
  fallback : BitVec 32

def SaveNow.chunk (s : SaveNow) : List Byte :=
  SN1 ++ to_be 4 s.map.toNat ++ to_be 4 s.fallback.toNat

/-! The snapshot. -/

/-- A mod as the loader has it: its id is in a field of 64. -/
structure Saver extends SaveMod where
  short : id.length < 64

/-- The kept chunks, in their buffer. -/
structure KeptChunks where
  bytes : List Byte
  fits : bytes.length ≤ KEPT_MAX

structure Packing where
  all : List Byte
  used : Nat
  log : List Access

def Packing.start : Packing := ⟨[], 0, []⟩

def Packing.see (s : Packing) (a : Access) : Packing := { s with log := s.log ++ [a] }

def Packing.put (s : Packing) (c : Chunk) : Packing where
  all := s.all ++ chunk_put c
  used := u32 (s.used + (chunk_put c).length)
  log := s.log ++ [.pack s.used (chunk_put c).length]

/-- One mod asked for its chunk, `all` a buffer with an end. -/
def Packing.ask (kept : KeptChunks) (s : Packing) (m : Saver) : Packing :=
  let head := u32 (1 + m.id.length + 4)
  let room := sub32 KEPT_MAX s.used
  let s := s.see (.room s.used)
  let (got, buf, s) :=
    if room > head then
      let r := m.on_save (room - head)
      (BitVec.ofInt 32 r.1, r.2, s.see (.offer (room - head)))
    else (-2, fun _ => 0, s)
  -- nothing to keep: its old chunk goes too
  if got = -1 then s
  else if got.toInt < 0 ∨ got.toNat > sub32 room head then
    match kept_chunk kept.bytes m.id with
    | some c =>
        if u32 (s.used + head + c.data.length) ≤ KEPT_MAX then s.put ⟨m.id, c.data⟩ else s
    | none => s
  else s.put ⟨m.id, (List.range got.toNat).map buf⟩

/-- One kept chunk carried over. -/
def Packing.keep (saves : List SaveMod) (s : Packing) (found : List Byte × Chunk) : Packing :=
  let c := found.2
  if !saves_for_itself saves c.id ∧ u32 (s.used + 1) + c.id.length + 4 + c.data.length ≤ KEPT_MAX then
    s.put c
  else s

def Packing.port (opened : Option SaveNow) (claims : List Claim) (s : Packing) : Packing :=
  let s := opened.elim s fun sn => s.put ⟨SAVENOW_ID, sn.chunk⟩
  if claims = [] then s
  else s.put ⟨CLAIMS_ID, mod_claims_text (KEPT_MAX - (1 + CLAIMS_ID.length + 4)) [] claims⟩

/-- Every chunk, packed. -/
def Packing.gather (saves : List Saver) (kept : KeptChunks) (opened : Option SaveNow)
    (claims : List Claim) : Packing :=
  (chunks kept.bytes).foldl (.keep (saves.map (·.toSaveMod)))
    (saves.foldl (.ask kept) (Packing.start.port opened claims))

/-- What has been copied to one of the two areas, and the copies. -/
structure Copies where
  len : Nat
  log : List Access

def Copies.gap_step (s : Copies) (p : List Byte) : Option (Copies × List Byte) :=
  match chunk_at p with
  | none => none
  | some (_, next) =>
      let n := u32 (upto p next).length
      if u32 (GAP_HEAD + s.len + n) ≤ GAP_LEN then
        some (⟨u32 (s.len + n), s.log ++ [.gap (GAP_HEAD + s.len) (upto p next).length]⟩, next)
      else none

def Copies.tail_step (s : Copies) (p : List Byte) : Option (Copies × List Byte) :=
  (chunk_at p).map fun (_, next) =>
    let n := u32 (upto p next).length
    (if u32 (TAIL_HEAD + s.len + n) > TAIL_LEN then s
     else ⟨u32 (s.len + n), s.log ++ [.tail (TAIL_HEAD + s.len) (upto p next).length]⟩, next)

/-- The whole chunks into the gap, the rest to the tail. -/
def copies (all : List Byte) : List Access :=
  let (gap, rest) := drain Copies.gap_step ⟨0, []⟩ all
  gap.log ++ (drain Copies.tail_step ⟨0, []⟩ rest).1.log

def snapshot_accesses (saves : List Saver) (kept : KeptChunks) (opened : Option SaveNow)
    (claims : List Claim) (gap : List Byte) : List Access :=
  if saves = [] ∧ kept.bytes = [] ∧ claims = [] ∧ opened.isNone then []
  -- the block's gap holds a byte the game wrote
  else if gap.any (· ≠ 0) then []
  else
    let s := Packing.gather saves kept opened claims
    s.log ++ if s.used = 0 then [] else copies s.all

/-! The load. -/

def load_pre_accesses (gap tail : List Byte) : List Access :=
  if field gap 0 4 = SOAX then
    let gap_len := of_be (field gap 32 4)
    if of_be (field gap 4 2) ≠ VERSION ∨ gap_len > GAP_LEN - GAP_HEAD ∨
        (crc32 (field gap GAP_HEAD gap_len)).toNat ≠ of_be (field gap 28 4) then []
    else
      .got 0 gap_len ::
        if of_be (field gap 8 2) ≠ 0 then
          let tail_len := of_be (field tail 28 4)
          if field tail 0 4 ≠ SOAT ∨ field tail 8 16 ≠ field gap 12 16 ∨
              tail_len > TAIL_LEN - TAIL_HEAD ∨
              (crc32 (field tail TAIL_HEAD tail_len)).toNat ≠ of_be (field tail 24 4) then []
          else [.got gap_len tail_len]
        else []
  else []

/-- One chunk kept for the next saves, or not. -/
def Copies.load_step (saves : List SaveMod) (s : Copies) (found : List Byte × Chunk) : Copies :=
  if found.2.id = CLAIMS_ID then s
  else if soa.isPrefixOf found.2.id then s
  else if saves_for_itself saves found.2.id then s
  else ⟨u32 (s.len + u32 found.1.length), s.log ++ [.keep s.len found.1.length]⟩

def load_accesses (saves : List SaveMod) (gap tail : List Byte) : List Access :=
  load_pre_accesses gap tail ++
    ((chunks (savext_load_pre gap tail)).foldl (Copies.load_step saves) ⟨0, []⟩).log

end SoaPort.Save
