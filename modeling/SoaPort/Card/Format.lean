import SoaPort.Lib.Bytes

namespace SoaPort.Card

open SoaPort.Lib

/-! The card header as tools/cardformat.py writes and reads it. Its numbers are
Python's: unbounded, and `x & mask` of a negative one is its remainder. -/

def BLOCK_BYTES : Nat := 8192
def ID_CHECK_BYTES : Nat := 508

/-- `x & (2 ** bits - 1)`. -/
def mask (bits : Nat) (x : Int) : Int := x % 2 ^ bits

/-- `x.to_bytes(size, "big")`, which raises when `x` does not fit. -/
def to_bytes (size : Nat) (x : Int) : Option (List Byte) :=
  if 0 ≤ x ∧ x < 256 ^ size then some (to_be size x.toNat) else none

/-- Each sum is kept below 2^16 at every halfword. -/
def checksum_add (data : List Byte) (sums : Int × Int) (k : Nat) : Int × Int :=
  let word : Int := (data.getD (2 * k) 0#8).toNat * 256 + (data.getD (2 * k + 1) 0#8).toNat
  (mask 16 (sums.1 + word), mask 16 (sums.2 + mask 16 (-word - 1)))

def checksum (data : List Byte) : Int × Int :=
  let sums := (List.range (data.length / 2)).foldl (checksum_add data) (0, 0)
  (if sums.1 = 0xFFFF then 0 else sums.1, if sums.2 = 0xFFFF then 0 else sums.2)

def scramble_step (rand : Int) : Int :=
  let value := mask 64 (rand * 0x41C64E6D + 12345)
  let value := if value >>> (63 : Nat) ≠ 0 then value - 2 ^ 64 else value
  value >>> (16 : Nat)

/-- `scramble`'s loop and, with the sign turned, `unscramble`'s. -/
def scramble_loop (sign : Int) : List Byte → Int → List Byte
  | [], _ => []
  | byte :: rest, rand =>
      let rand := scramble_step rand
      let out := BitVec.ofInt 8 (byte.toNat + sign * rand)
      out :: scramble_loop sign rest (mask 15 (scramble_step rand))

def scramble (flash_id : List Byte) (format_time : Int) : List Byte :=
  scramble_loop 1 flash_id format_time

def unscramble (serial : List Byte) (format_time : Int) : List Byte :=
  scramble_loop (-1) serial format_time

structure Geometry where
  size_mbit : Int
  sector_size : Int

/-- The ID block; `none` where the tool raises. -/
def id_block (geom : Geometry) (flash_id : List Byte) (format_time encode sram_bias sram_language
    vi_select : Int) : Option (List Byte) := do
  if flash_id.length ≠ 12 then none
  let block := List.replicate BLOCK_BYTES 0xFF#8
  let block := splice block 0 (scramble flash_id format_time)
  let block := splice block 12 (← to_bytes 8 (mask 64 format_time))
  let block := splice block 20 (← to_bytes 4 (mask 32 sram_bias))
  let block := splice block 24 (← to_bytes 4 (mask 32 sram_language))
  let block := splice block 28 (← to_bytes 4 (mask 16 vi_select))
  let block := splice block 32 (← to_bytes 2 0)
  let block := splice block 34 (← to_bytes 2 geom.size_mbit)
  let block := splice block 36 (← to_bytes 2 encode)
  let (total, inverse) := checksum (slice block 0 ID_CHECK_BYTES)
  let block := splice block 508 (← to_bytes 2 total)
  let block := splice block 510 (← to_bytes 2 inverse)
  pure block

/-- What reading a header keeps of it for the flash ID. -/
structure Header where
  serial : List Byte
  format_time : Int
  stored : Int × Int
  computed : Int × Int

def u16 (data : List Byte) (at_ : Nat) : Int := of_be (slice data at_ 2)

def parse_header (data : List Byte) : Header :=
  let head := slice data 0 BLOCK_BYTES
  { serial := slice head 0 12
    format_time := of_be (slice head 12 8)
    stored := (u16 head 508, u16 head 510)
    computed := checksum (slice head 0 ID_CHECK_BYTES) }

def Header.checksum_ok (h : Header) : Bool := h.stored = h.computed

def Header.flash_id (h : Header) : Option (List Byte) :=
  if h.checksum_ok then some (unscramble h.serial h.format_time) else none

end SoaPort.Card
