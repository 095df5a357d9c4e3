import SoaPort.Lib.Bytes
import Mathlib.Logic.Function.Basic

namespace SoaPort.Disc.Aklz

open SoaPort.Lib

/-! AKLZ containers (soa/aklz.py): a header, and an LZSS stream over a ring of 4096 bytes. -/

def MAGIC : List Byte := [0x41#8, 0x4B#8, 0x4C#8, 0x5A#8, 0x7E#8, 0x3F#8, 0x51#8, 0x64#8]
def HEADER_SIZE : Nat := 0x10
def RING_SIZE : Nat := 4096
def MAX_MATCH : Nat := 18
def THRESHOLD : Nat := 2
def RING_START : Nat := RING_SIZE - MAX_MATCH

inductive AklzError where
  | foreign
  | truncated
  | decoded (out want : Nat)
deriving DecidableEq

def AklzError.message : AklzError → String
  | .foreign => "not an AKLZ container"
  | .truncated => "truncated header"
  | .decoded out want => s!"decoded {out} bytes, header declares {want}"

/-- The ratio is a float, kept as its bytes. -/
structure AklzHeader where
  uncompressed_size : Nat
  ratio : List Byte

def is_aklz (data : List Byte) : Bool := data.take 8 = MAGIC

def parse_header (data : List Byte) : Except AklzError AklzHeader :=
  if !is_aklz data then .error .foreign
  else if data.length < HEADER_SIZE then .error .truncated
  else .ok ⟨of_be ((data.drop 12).take 4), (data.drop 8).take 4⟩

/-! The stream. -/

structure Window where
  ring : Nat → Byte
  r : Nat
  out : List Byte

def Window.put (s : Window) (byte : Byte) : Window where
  ring := Function.update s.ring s.r byte
  r := (s.r + 1) &&& (RING_SIZE - 1)
  out := s.out ++ [byte]

/-- A back-reference's bytes from its `k`-th on. -/
def copy_match (want offset : Nat) : Nat → Nat → Window → Window
  | 0, _, s => s
  | left + 1, k, s =>
      let s := s.put (s.ring ((offset + k) &&& (RING_SIZE - 1)))
      if want ≤ s.out.length then s else copy_match want offset left (k + 1) s

/-- The next flag bit brought down, and a byte of eight more when none is left. -/
def next_flag (data : List Byte) (pos flags : Nat) : Nat × Nat :=
  let flags := flags >>> 1
  if flags &&& 0x100 = 0 then (pos + 1, (data.getD pos 0#8).toNat ||| 0xFF00) else (pos, flags)

/-- A literal or a back-reference; none when the stream ends inside it. -/
def decode_token (data : List Byte) (want pos flags : Nat) (s : Window) : Option (Nat × Window) :=
  if flags &&& 1 ≠ 0 then
    if data.length ≤ pos then none else some (pos + 1, s.put (data.getD pos 0#8))
  else if data.length ≤ pos + 1 then none
  else
    let lo := (data.getD pos 0#8).toNat
    let hi := (data.getD (pos + 1) 0#8).toNat
    let offset := lo ||| ((hi &&& 0xF0) <<< 4)
    let length := (hi &&& 0x0F) + THRESHOLD + 1
    some (pos + 2, copy_match want offset length 0 s)

theorem le_next_flag (data : List Byte) (pos flags : Nat) :
    pos ≤ (next_flag data pos flags).1 := by
  unfold next_flag
  dsimp only
  split
  · exact Nat.le_succ pos
  · exact Nat.le_refl pos

theorem lt_decode_token {data : List Byte} {want pos flags next : Nat} {s s' : Window}
    (token : decode_token data want pos flags s = some (next, s')) : pos < next := by
  unfold decode_token at token
  split at token
  · split at token
    · cases token
    · cases token
      exact Nat.lt_succ_self pos
  · split at token
    · cases token
    · cases token
      omega

def decode (data : List Byte) (want pos flags : Nat) (s : Window) : Window :=
  if s.out.length < want ∧ pos < data.length then
    let f := next_flag data pos flags
    if data.length < f.1 then s
    else
      match _token : decode_token data want f.1 f.2 s with
      | none => s
      | some (next, s') => decode data want next f.2 s'
  else s
termination_by data.length - pos
decreasing_by
  have past := lt_decode_token _token
  have no_less : pos ≤ f.1 := le_next_flag data pos flags
  omega

def decompress (data : List Byte) (strict : Bool) : Except AklzError (List Byte) :=
  match parse_header data with
  | .error e => .error e
  | .ok header =>
      let want := header.uncompressed_size
      let s := decode data want HEADER_SIZE 0 ⟨fun _ => 0#8, RING_START, []⟩
      if strict && s.out.length ≠ want then .error (.decoded s.out.length want) else .ok s.out

end SoaPort.Disc.Aklz
