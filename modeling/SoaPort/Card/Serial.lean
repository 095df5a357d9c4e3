import SoaPort.Lib.Bytes

namespace SoaPort.Card

open SoaPort.Lib

/-! How the runtime reads a card's header (exi.c): its checksum pair and the flash
ID its serial was made from. -/

/-- A big-endian halfword. -/
def halfword (p : Nat → Byte) (i : Nat) : BitVec 16 := p i ++ p (i + 1)

def fold_ffff (x : BitVec 16) : BitVec 16 := if x = 0xFFFF#16 then 0#16 else x

/-- Halfword `k` into the sum and the sum of complements, both `uint32_t`. -/
def card_checksum_add (p : Nat → Byte) (sums : BitVec 32 × BitVec 32) (k : Nat) :
    BitVec 32 × BitVec 32 :=
  let w := halfword p (2 * k)
  (sums.1 + w.setWidth 32, sums.2 + (~~~w).setWidth 32)

def card_checksum (p : Nat → Byte) (bytes : Nat) : BitVec 16 × BitVec 16 :=
  let sums := (List.range ((bytes + 1) / 2)).foldl (card_checksum_add p) (0#32, 0#32)
  (fold_ffff (sums.1.setWidth 16), fold_ffff (sums.2.setWidth 16))

/-- An `int64_t`: the product and the sum wrap, the shift is arithmetic. -/
def card_scramble_step (r : BitVec 64) : BitVec 64 :=
  (r * 0x41C64E6D#64 + 12345#64).sshiftRight 16

/-- The twelve bytes, `i` of which are done. -/
def flash_id_loop (h : Nat → Byte) : Nat → Nat → BitVec 64 → List Byte
  | 0, _, _ => []
  | left + 1, i, rand =>
      let rand := card_scramble_step rand
      let out := h i - rand.setWidth 8
      let rand := card_scramble_step rand &&& 0x7FFF#64
      out :: flash_id_loop h left (i + 1) rand

/-- `none` for a blank or damaged image. -/
def card_flash_id (h : Nat → Byte) : Option (List Byte) :=
  let (sum, inv) := card_checksum h 508
  if halfword h 508 ≠ sum then none
  else if halfword h 510 ≠ inv then none
  else
    let rand := h 12 ++ h 13 ++ h 14 ++ h 15 ++ h 16 ++ h 17 ++ h 18 ++ h 19
    some (flash_id_loop h 12 0 rand)

end SoaPort.Card
