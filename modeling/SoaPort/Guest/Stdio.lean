import Mathlib.Data.List.TakeWhile
import SoaPort.Lib.Bytes

namespace SoaPort.Guest.Stdio

open Lib

/-! The guest's printf (hle_stdio.c): its format and arguments read where the call left them,
one host call for each conversion. A byte of text is the character of that number. -/

structure CpuState where
  gpr : Nat → BitVec 32
  fpr : Nat → BitVec 64
  mem : BitVec 32 → Byte

def CpuState.mem_r8 (g : CpuState) (a : BitVec 32) : Byte := g.mem a

def CpuState.mem_r32 (g : CpuState) (a : BitVec 32) : BitVec 32 :=
  g.mem a ++ g.mem (a + 1) ++ g.mem (a + 2) ++ g.mem (a + 3)

def CpuState.mem_r64 (g : CpuState) (a : BitVec 32) : BitVec 64 := g.mem_r32 a ++ g.mem_r32 (a + 4)

/-- Where an argument lies: a register, a pair from `n` on, or the caller's stack. -/
inductive Slot where
  | gpr (n : Nat)
  | pair (n : Nat)
  | fpr (n : Nat)
  | stack (a : BitVec 32)
  | stack64 (a : BitVec 32)
deriving DecidableEq, Repr

def CpuState.u32 (g : CpuState) : Slot → BitVec 32
  | .gpr n => g.gpr n
  | .stack a => g.mem_r32 a
  | _ => 0

/-- A 64-bit integer, or a double's bits. -/
def CpuState.u64 (g : CpuState) : Slot → BitVec 64
  | .pair n => g.gpr n ++ g.gpr (n + 1)
  | .fpr n => g.fpr n
  | .stack64 a => g.mem_r64 a
  | _ => 0

/-- The next integer register, 4 to 10, the next floating one, 1 to 8, and the next overflow
slot. -/
structure VaList where
  gpr : Nat
  fpr : Nat
  stack : BitVec 32
deriving DecidableEq, Repr

def align8 (a : BitVec 32) : BitVec 32 := (a + 7) &&& ~~~7#32

def next_u32 (va : VaList) : Slot × VaList :=
  if va.gpr ≤ 10 then (.gpr va.gpr, { va with gpr := va.gpr + 1 })
  else (.stack va.stack, { va with stack := va.stack + 4 })

def next_u64 (va : VaList) : Slot × VaList :=
  let gpr := if va.gpr % 2 = 1 then va.gpr + 1 else va.gpr
  if gpr ≤ 9 then (.pair gpr, { va with gpr := gpr + 2 })
  else (.stack64 (align8 va.stack), { va with gpr := 11, stack := align8 va.stack + 8 })

def next_f64 (va : VaList) : Slot × VaList :=
  if va.fpr ≤ 8 then (.fpr va.fpr, { va with fpr := va.fpr + 1 })
  else (.stack64 (align8 va.stack), { va with stack := align8 va.stack + 8 })

/-- At most `n` bytes, up to a NUL. -/
def CpuState.chars (g : CpuState) (a : BitVec 32) : Nat → List Char
  | 0 => []
  | n + 1 =>
      if g.mem_r8 a = 0 then [] else Char.ofNat (g.mem_r8 a).toNat :: g.chars (a + 1) n

def guest_string (g : CpuState) (addr : BitVec 32) (cap : Nat) : List Char :=
  if addr = 0 then "(null)".toList.take (cap - 1) else g.chars addr (cap - 1)

/-- An argument given to the host's snprintf, of the C type it has there. -/
inductive Arg where
  | int (v : BitVec 32)
  | uint (v : BitVec 32)
  | llong (v : BitVec 64)
  | ullong (v : BitVec 64)
  | str (s : List Char)
  | double (v : BitVec 64)

/-- One call of the host's snprintf. -/
structure Call where
  spec : List Char
  arg : Option Arg

/-- A conversion done: its text in the format, the arguments taken, and the host's call. -/
structure Item where
  raw : List Char
  slots : List Slot
  call : Call

def is_flag (c : Char) : Bool := "-+ #0".toList.contains c

def is_length (c : Char) : Bool := c = 'l' || c = 'h' || c = 'L'

/-- Past the flags, the width, the precision and the length: how many were l, and what
follows. -/
def scan (p : List Char) : Nat × List Char :=
  let p := p.dropWhile is_flag
  let p := p.dropWhile Char.isDigit
  let p := if p.head? = some '*' then p.tail else p
  let p :=
    if p.head? = some '.' then p.tail.dropWhile fun c => c.isDigit || c = '*' else p
  ((p.takeWhile is_length).count 'l', p.dropWhile is_length)

/-- One conversion: the text from its % to its character `c`. -/
def convert (g : CpuState) (va : VaList) (longs : Nat) (raw : List Char) (c : Char) : Item × VaList :=
  -- char spec[32]
  let spec := raw.take 31
  if c = '%' then (⟨raw, [], ⟨['%', '%'], none⟩⟩, va)
  else if c = 'd' ∨ c = 'i' then
    if longs ≥ 2 then
      let (slot, va) := next_u64 va
      (⟨raw, [slot], ⟨"%lld".toList, some (.llong (g.u64 slot))⟩⟩, va)
    else
      let (slot, va) := next_u32 va
      (⟨raw, [slot], ⟨spec.dropLast ++ ['d'], some (.int (g.u32 slot))⟩⟩, va)
  else if c = 'u' ∨ c = 'x' ∨ c = 'X' ∨ c = 'o' then
    if longs ≥ 2 then
      let (slot, va) := next_u64 va
      (⟨raw, [slot], ⟨if c = 'u' then "%llu".toList else "%llx".toList,
        some (.ullong (g.u64 slot))⟩⟩, va)
    else
      let (slot, va) := next_u32 va
      (⟨raw, [slot], ⟨spec, some (.uint (g.u32 slot))⟩⟩, va)
  else if c = 'c' then
    let (slot, va) := next_u32 va
    (⟨raw, [slot], ⟨"%c".toList, some (.int (g.u32 slot))⟩⟩, va)
  else if c = 'p' then
    let (slot, va) := next_u32 va
    (⟨raw, [slot], ⟨"%08X".toList, some (.uint (g.u32 slot))⟩⟩, va)
  else if c = 's' then
    let (slot, va) := next_u32 va
    (⟨raw, [slot], ⟨spec, some (.str (guest_string g (g.u32 slot) 512))⟩⟩, va)
  else if c = 'f' ∨ c = 'e' ∨ c = 'g' ∨ c = 'E' ∨ c = 'G' then
    let (slot, va) := next_f64 va
    (⟨raw, [slot], ⟨spec, some (.double (g.u64 slot))⟩⟩, va)
  else (⟨raw, [], ⟨"%s".toList, some (.str spec)⟩⟩, va)

theorem scan_length (p : List Char) : (scan p).2.length ≤ p.length := by
  have tail : ∀ (q : List Char) (c : Char),
      (if q.head? = some c then q.tail else q).length ≤ q.length := by
    intro q c
    split
    · rw [List.length_tail]
      omega
    · exact le_rfl
  have dot : ∀ q : List Char, (if q.head? = some '.' then
      q.tail.dropWhile fun c => c.isDigit || c = '*' else q).length ≤ q.length := by
    intro q
    split
    · refine (List.length_dropWhile_le _ _).trans ?_
      rw [List.length_tail]
      omega
    · exact le_rfl
  unfold scan
  refine (List.length_dropWhile_le _ _).trans ((dot _).trans ((tail _ '*').trans ?_))
  exact (List.length_dropWhile_le _ _).trans (List.length_dropWhile_le _ _)

/-- What snprintf leaves in item[512], up to a NUL. -/
def item_text (host : Call → List Char) (call : Call) : List Char :=
  ((host call).take 511).takeWhile (· ≠ Char.ofNat 0)

/-- The loop over the format; `host` is what snprintf writes. -/
def format_loop (g : CpuState) (host : Call → List Char) (cap : Nat) (p : List Char) (va : VaList)
    (out : List Char) (items : List Item) : List Char × List Item :=
  match p with
  | [] => (out, items)
  | c :: p =>
      if out.length + 1 < cap then
        if c ≠ '%' then format_loop g host cap p va (out ++ [c]) items
        else
          match _left : scan p with
          | (_, []) => (out, items)
          | (longs, k :: rest) =>
              let raw := '%' :: p.take (p.length - (rest.length + 1)) ++ [k]
              let (item, va) := convert g va longs raw k
              format_loop g host cap rest va
                (out ++ (item_text host item.call).take (cap - 1 - out.length)) (items ++ [item])
      else (out, items)
termination_by p.length
decreasing_by
  · simp
  · have shorter := scan_length p
    rw [_left] at shorter
    simp only [List.length_cons] at shorter ⊢
    omega

/-- The text, and the conversions done for it. -/
def guest_format (g : CpuState) (host : Call → List Char) (first cap : Nat) :
    List Char × List Item :=
  let fmt := guest_string g (g.gpr first) 1024
  format_loop g host cap fmt ⟨first + 1, 1, g.gpr 1 + 8⟩ [] []

end SoaPort.Guest.Stdio
