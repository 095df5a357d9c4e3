import SoaPort.Lib.WordOrder
import SoaPort.Recomp.Cpu

namespace SoaPort.Msl

open SoaPort.Lib SoaPort.Recomp

/-! The MSL string routines that work a word at a time (strcmp.c, strcpy.c, fillmem.c), in
the byte order of the machine they are compiled for. A pointer is its offset in the guest's
memory, which the host keeps aligned; a loop that outlasts its fuel has not ended. -/

abbrev Memory := Nat → BitVec 8

/-- `*(const u32*)p` -/
def load (o : WordOrder) (mem : Memory) (p : Nat) : BitVec 32 := o.word fun k => mem (p + k)

/-- `*(u32*)p = w` -/
def store (o : WordOrder) (mem : Memory) (p : Nat) (w : BitVec 32) : Memory := fun a =>
  if p ≤ a ∧ a < p + 4 then o.byte w (a - p) else mem a

/-- The spelling for a little-endian host turns the bytes round. -/
def IN_STRING_ORDER (o : WordOrder) (w : BitVec 32) : BitVec 32 :=
  match o with
  | .big => w
  | .little =>
      w >>> 24 ||| (w >>> 8 &&& 0xFF00#32) ||| (w <<< 8 &&& 0xFF0000#32) ||| w <<< 24

/-! strcmp.c -/

/-- `d = c1 - c2`, of two unsigned words kept in an int. -/
def difference (c1 c2 : BitVec 8) : BitVec 32 := c1.setWidth 32 - c2.setWidth 32

/-- `do { ++p1; ++p2; … } while (c1)` -/
def byte_loop (mem : Memory) : (fuel p1 p2 : Nat) → Option (BitVec 32)
  | 0, _, _ => none
  | fuel + 1, p1, p2 =>
      let c1 := mem (p1 + 1)
      let d := difference c1 (mem (p2 + 1))
      if d ≠ 0 then some d
      else if c1 = 0 then some 0
      else byte_loop mem fuel (p1 + 1) (p2 + 1)

/-- The plain bytewise compare, the first bytes being the same. -/
def bytewise (mem : Memory) (fuel p1 p2 : Nat) : Option (BitVec 32) :=
  if mem p1 = 0 then some 0 else byte_loop mem fuel p1 p2

/-- `tail:` -/
def tail (mem : Memory) (fuel p1 p2 : Nat) : Option (BitVec 32) :=
  let d := difference (mem p1) (mem p2)
  if d ≠ 0 then some d else bytewise mem fuel p1 p2

/-- Words are compared until one of the first string's may hold a zero byte. -/
def word_loop (o : WordOrder) (mem : Memory) : (fuel wp1 wp2 : Nat) → Option (BitVec 32)
  | 0, _, _ => none
  | fuel + 1, wp1, wp2 =>
      let w1 := load o mem wp1
      let w2 := load o mem wp2
      if (w1 - 0x01010101#32) &&& 0x80808080#32 ≠ 0#32 then tail mem fuel wp1 wp2
      else if w1 = w2 then word_loop o mem fuel (wp1 + 4) (wp2 + 4)
      else some (if IN_STRING_ORDER o w1 > IN_STRING_ORDER o w2 then 1 else -1)

/-- `for (n = 3 - a; n; n--)`, up to the next word boundary. -/
def align_loop (o : WordOrder) (mem : Memory) (fuel : Nat) : (n p1 p2 : Nat) → Option (BitVec 32)
  | 0, p1, p2 => word_loop o mem fuel (p1 + 1) (p2 + 1)
  | n + 1, p1, p2 =>
      let c1 := mem (p1 + 1)
      let d := difference c1 (mem (p2 + 1))
      if d ≠ 0 then some d
      else if c1 = 0 then some 0
      else align_loop o mem fuel n (p1 + 1) (p2 + 1)

/-- `fn_8025EF88` -/
def strcmp (o : WordOrder) (mem : Memory) (fuel p1 p2 : Nat) : Option (BitVec 32) :=
  let d := difference (mem p1) (mem p2)
  if d ≠ 0 then some d
  else
    let a := p1 % 4
    if a = p2 % 4 then
      if a ≠ 0 then
        if mem p1 = 0 then some 0 else align_loop o mem fuel (3 - a) p1 p2
      else word_loop o mem fuel p1 p2
    else bytewise mem fuel p1 p2

/-! strcpy.c -/

/-- `while ((*++q = *++p) != 0)` -/
def copy_loop : (fuel : Nat) → Memory → (q p : Nat) → Option Memory
  | 0, _, _, _ => none
  | fuel + 1, mem, q, p =>
      let c := mem (p + 1)
      let mem := Function.update mem (q + 1) c
      if c = 0 then some mem else copy_loop fuel mem (q + 1) (p + 1)

/-- `if ((*q = *p) != 0)` and the loop under it. -/
def copy_tail (fuel : Nat) (mem : Memory) (q p : Nat) : Option Memory :=
  let c := mem p
  let mem := Function.update mem q c
  if c = 0 then some mem else copy_loop fuel mem q p

/-- Words are copied while no byte of the word may be zero. -/
def word_copy (o : WordOrder) : (fuel : Nat) → Memory → (q p : Nat) → Option Memory
  | 0, _, _, _ => none
  | fuel + 1, mem, q, p =>
      let w := load o mem p
      if (w + 0xFEFEFEFF#32) &&& 0x80808080#32 = 0#32 then
        word_copy o fuel (store o mem q w) (q + 4) (p + 4)
      else copy_tail fuel mem q p

/-- `for (n = 3 - n; n > 0; n--)` -/
def copy_align (o : WordOrder) (fuel : Nat) : (n : Nat) → Memory → (q p : Nat) → Option Memory
  | 0, mem, q, p => word_copy o fuel mem (q + 1) (p + 1)
  | n + 1, mem, q, p =>
      let c := mem (p + 1)
      let mem := Function.update mem (q + 1) c
      if c = 0 then some mem else copy_align o fuel n mem (q + 1) (p + 1)

def strcpy (o : WordOrder) (mem : Memory) (fuel dst src : Nat) : Option Memory :=
  if dst % 4 = src % 4 then
    let n := src % 4
    if n ≠ 0 then
      let c := mem src
      let mem := Function.update mem dst c
      if c = 0 then some mem else copy_align o fuel (3 - n) mem dst src
    else word_copy o fuel mem dst src
  else copy_tail fuel mem dst src

/-! fillmem.c -/

/-- `*++b = v`, `i` times. -/
def fill_bytes (v : BitVec 8) : (i : Nat) → Memory → (b : Int) → Memory × Int
  | 0, mem, b => (mem, b)
  | i + 1, mem, b => fill_bytes v i (Function.update mem (b + 1).toNat v) (b + 1)

/-- `*++w = v`, `i` times. -/
def fill_words (o : WordOrder) (v : BitVec 32) : (i : Nat) → Memory → (w : Int) → Memory × Int
  | 0, mem, w => (mem, w)
  | i + 1, mem, w => fill_words o v i (store o mem (w + 4).toNat v) (w + 4)

/-- `__fill_mem`, its eight words a turn written as the words of all the turns. -/
def fill_mem (o : WordOrder) (mem : Memory) (dst : Nat) (val : BitVec 32) (n : Nat) : Memory :=
  let b := (dst : Int) - 1
  let v : BitVec 32 := (val.setWidth 8).setWidth 32
  if n ≥ 32 then
    -- ~b & 3
    let i := ((-b - 1) % 4).toNat
    let n := n - i
    let head := fill_bytes (v.setWidth 8) i mem b
    let v := if v ≠ 0 then v ||| (v <<< 24 ||| v <<< 16 ||| v <<< 8) else v
    let blocks := fill_words o v (8 * (n / 32 % 2 ^ 32)) head.1 (head.2 - 3)
    let words := fill_words o v (n % 32 / 4) blocks.1 blocks.2
    (fill_bytes (v.setWidth 8) (n % 4) words.1 (words.2 + 3)).1
  else (fill_bytes (v.setWidth 8) n mem b).1

/-! The adapters (decomp_swap.c): arguments in r3 to r5, the result in r3. -/

section Adapters

variable {ρ : Type}

/-- A pointer into the guest's memory, back as an address. -/
def guest (p : Nat) : Word := 0x80000000#32 + BitVec.ofNat 32 p

/-- strcmp -/
def fn_8025EF88 (fuel : Nat) (s : CpuState ρ) : Option (CpuState ρ) :=
  (strcmp .little s.mem fuel (mem_ptr (s.gpr 3)) (mem_ptr (s.gpr 4))).map fun d =>
    { s with pc := 0x8025EF88#32, gpr := Function.update s.gpr 3 d }

/-- strcpy -/
def fn_8025F120 (fuel : Nat) (s : CpuState ρ) : Option (CpuState ρ) :=
  (strcpy .little s.mem fuel (mem_ptr (s.gpr 3)) (mem_ptr (s.gpr 4))).map fun mem =>
    { s with
      pc := 0x8025F120#32, mem := mem, gpr := Function.update s.gpr 3 (guest (mem_ptr (s.gpr 3))) }

/-- memset -/
def fn_80005434 (s : CpuState ρ) : CpuState ρ :=
  { s with
    pc := 0x80005434#32
    mem := fill_mem .little s.mem (mem_ptr (s.gpr 3)) (s.gpr 4) (s.gpr 5).toNat
    gpr := Function.update s.gpr 3 (guest (mem_ptr (s.gpr 3))) }

end Adapters

end SoaPort.Msl
