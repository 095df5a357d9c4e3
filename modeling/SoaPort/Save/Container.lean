import SoaPort.Save.Savext

namespace SoaPort.Save

open Lib

/-! `tools/savext.py`: the container read off a card image. -/

/-- What `parse` reports about a container that does not hold up. -/
inductive Problem where
  | header
  | gap_crc
  | tail_missing
  | tail_crc
  deriving DecidableEq, Repr

structure Container where
  present : Bool
  save_id : List Byte
  chunks : List (List Char × List Byte)
  in_gap : Nat
  in_tail : Nat
  problems : List Problem
  deriving DecidableEq

inductive SavextError where
  | runs_off
  | id_length
  | claims_past
  deriving DecidableEq, Repr

/-- `.decode("ascii", "replace")` -/
def decode_ascii (p : List Byte) : List Char :=
  p.map fun b => if b.toNat < 128 then Char.ofNat b.toNat else Char.ofNat 0xFFFD

def _chunks : Nat → List Byte → Except SavextError (List (List Char × List Byte))
  | 0, _ => .ok []
  | _ + 1, [] => .error .runs_off
  | count + 1, b :: rest =>
      let n := b.toNat
      if ¬ (1 ≤ n ∧ n ≤ ID_MAX) ∨ rest.length < n + 4 then .error .id_length
      else
        let size := of_be (field rest n 4)
        if rest.length < n + 4 + size then .error .claims_past
        else do
          let out ← _chunks count (rest.drop (n + 4 + size))
          .ok ((decode_ascii (rest.take n), field rest (n + 4) size) :: out)

/-- The container in a block's gap and a file's tail. -/
def parse (gap tail : List Byte) : Except SavextError Container :=
  let none_yet : Container :=
    { present := false, save_id := [], chunks := [], in_gap := 0, in_tail := 0, problems := [] }
  if field gap 0 4 ≠ SOAX then .ok none_yet
  else
    let c := { none_yet with present := true, save_id := field gap 12 16 }
    let in_gap := of_be (field gap 6 2)
    let in_tail := of_be (field gap 8 2)
    let length := of_be (field gap 32 4)
    let body := field gap GAP_HEAD length
    if of_be (field gap 4 2) ≠ VERSION ∨ length > GAP_LEN - GAP_HEAD then
      .ok { c with problems := [.header] }
    else if (crc32 body).toNat ≠ of_be (field gap 28 4) then .ok { c with problems := [.gap_crc] }
    else do
      let found ← _chunks in_gap body
      let c := { c with in_gap, in_tail, chunks := found }
      if in_tail = 0 then .ok c
      else
        let tlen := of_be (field tail 28 4)
        let body := field tail TAIL_HEAD tlen
        if field tail 0 4 ≠ SOAT ∨ field tail 8 16 ≠ field gap 12 16 ∨
            tlen > TAIL_LEN - TAIL_HEAD then
          .ok { c with problems := [.tail_missing] }
        else if (crc32 body).toNat ≠ of_be (field tail 24 4) then
          .ok { c with problems := [.tail_crc] }
        else do
          let more ← _chunks in_tail body
          .ok { c with chunks := found ++ more }

end SoaPort.Save
