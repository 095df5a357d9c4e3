import Mathlib
import SoaPort.Ppc.Decode

namespace SoaPort.Ppc

/-! The executable image: text and data sections over the bytes of the file. -/

/-- A section's name is not kept: nothing modelled here reads it. -/
structure Section where
  file_offset : Nat
  address : Nat
  size : Nat
  is_text : Bool
  deriving DecidableEq, Repr

namespace Section

def «end» (s : Section) : Nat := s.address + s.size

def contains (s : Section) (addr : Nat) : Bool :=
  s.address ≤ addr && addr < s.end

/-- `range(s.address, s.end, 4)`. -/
def words (s : Section) : List Nat :=
  List.range' s.address ((s.size + 3) / 4) 4

end Section

structure Dol where
  sections : List Section
  entry_point : Nat
  data : List (BitVec 8)

def from_bytes (bytes : List (BitVec 8)) : Nat :=
  bytes.foldl (fun n b => n * 256 + b.toNat) 0

namespace Dol

def text (dol : Dol) : List Section := dol.sections.filter (·.is_text)

def section_at (dol : Dol) (addr : Nat) : Option Section :=
  dol.sections.find? (·.contains addr)

/-- `length` bytes from virtual address `addr`. Where the address is not
mapped the source raises; here nothing is read. -/
def read (dol : Dol) (addr length : Nat) : List (BitVec 8) :=
  match dol.section_at addr with
  | none => []
  | some s => (dol.data.drop (s.file_offset + (addr - s.address))).take length

def word (dol : Dol) (addr : Nat) : Nat := from_bytes (dol.read addr 4)

/-- The words of a section's bytes with their offsets, as the scans step
through them: `range(0, len(data) - 3, 4)`. -/
def scan (dol : Dol) (s : Section) : List (Nat × Nat) :=
  let data := dol.read s.address s.size
  (List.range (data.length / 4)).map fun k =>
    (s.address + 4 * k, from_bytes ((data.drop (4 * k)).take 4))

theorem from_bytes_lt (bytes : List (BitVec 8)) : from_bytes bytes < 256 ^ bytes.length := by
  induction bytes using List.reverseRecOn with
  | nil => exact Nat.one_pos
  | append_singleton bytes b ih =>
      have low := b.isLt
      rw [from_bytes, List.foldl_append, List.length_append, List.length_singleton, Nat.pow_succ]
      change from_bytes bytes * 256 + b.toNat < _
      omega

theorem word_lt (dol : Dol) (addr : Nat) : dol.word addr < 2 ^ 32 := by
  have short : (dol.read addr 4).length ≤ 4 := by
    unfold read
    split
    · exact Nat.zero_le 4
    · exact List.length_take_le ..
  calc
    dol.word addr < 256 ^ (dol.read addr 4).length := from_bytes_lt _
    _ ≤ 256 ^ 4 := Nat.pow_le_pow_right (by decide) short
    _ = 2 ^ 32 := by decide

end Dol

/-! `CodeView`: decoded instructions across the text sections. The cache is not
kept: it only remembers what `decode` returned. -/

namespace CodeView

def contains (dol : Dol) (addr : Nat) : Bool := dol.text.any (·.contains addr)

/-- `code.at`. -/
def get (dol : Dol) (addr : Nat) : Option Insn :=
  if addr % 4 ≠ 0 then none
  else if contains dol addr then some (decode (dol.word addr) addr)
  else none

/-- The instruction at an address when there is a valid one. -/
def valid (dol : Dol) (addr : Nat) : Option Insn :=
  match get dol addr with
  | some i => if i.valid then some i else none
  | none => none

/-- `code.at(addr - back)`; no instruction lies below address zero. -/
def before (dol : Dol) (addr back : Nat) : Option Insn :=
  if back ≤ addr then valid dol (addr - back) else none

theorem valid_eq_some {dol : Dol} {addr : Nat} {i : Insn} :
    valid dol addr = some i ↔ get dol addr = some i ∧ i.valid = true := by
  unfold valid
  cases get dol addr with
  | none => simp
  | some j =>
      by_cases ok : j.valid = true
      · simp only [ok, if_true, Option.some.injEq]
        constructor
        · intro same
          subst same
          exact ⟨rfl, ok⟩
        · exact fun h => h.1
      · simp only [ok, Option.some.injEq]
        constructor
        · intro absurd
          cases absurd
        · rintro ⟨same, good⟩
          subst same
          exact (ok good).elim

theorem contains_of_get {dol : Dol} {addr : Nat} {i : Insn} (found : get dol addr = some i) :
    contains dol addr = true := by
  unfold get at found
  split at found
  · cases found
  · split at found
    · assumption
    · cases found

theorem contains_of_valid {dol : Dol} {addr : Nat} {i : Insn}
    (found : valid dol addr = some i) : contains dol addr = true :=
  contains_of_get (valid_eq_some.mp found).1

end CodeView

end SoaPort.Ppc
