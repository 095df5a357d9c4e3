import SoaPort.Disc.Sha1

namespace SoaPort.Disc

open SoaPort.Lib

/-! The disc's file table: the index of it (disc.c), and the table mods' lines rebuild
(vfst.c). `none` is code that leaves one of its arrays, or does not end. -/

abbrev FST_ENTRY : Nat := 12
abbrev PATH_MAX_DISC : Nat := 256
abbrev NAME_MAX_DISC : Nat := 256

def be24 (p : List Byte) (at_ : Nat) : Nat := of_be (slice p at_ 3)

/-- The string at an offset, when it ends inside the table. -/
def cstr (str : List Byte) (at_ : Nat) : Option (List Byte) :=
  if 0#8 ∈ str.drop at_ then some ((str.drop at_).takeWhile (· ≠ 0#8)) else none

/-- Why a table or the lines over it are refused. -/
inductive Why where
  | root
  | count (n : Nat)
  | name (entry : Nat)
  | range (entry : Nat)
  | memory
  | not_whole
  | entries (found wanted : Nat)
  | unresolved (path : List Byte)
  | moved (path : List Byte) (a b : Nat)
  | misplaced (path : List Byte)
deriving DecidableEq

section Index

structure Extent where
  off : Nat
  size : Nat
  path : List Byte
  order : Nat

/-- A directory whose entries are still to come, and the path down to it. -/
structure Opened where
  next : Nat
  path : List Byte

structure Index where
  opened : List Opened
  ext : List Extent

/-- The directories that have not closed before entry `i`, the innermost first. -/
def still_open (opened : List Opened) (i : Nat) : List Opened :=
  opened.dropWhile fun d => d.next ≤ i

/-- The path down to the innermost open directory. -/
def prefix_of : List Opened → List Byte
  | [] => []
  | d :: _ => d.path

def index_entry (fst : List Byte) (n : Nat) (st : Index) (i : Nat) : Option Index :=
  let at_ := i * FST_ENTRY
  let opened := still_open st.opened i
  match cstr (fst.drop (n * FST_ENTRY % 2 ^ 32)) (be24 fst (at_ + 1)) with
  | none => none
  | some name =>
      let path := prefix_of opened ++ name
      if PATH_MAX_DISC ≤ path.length + 1 then none
      else if fst.getD at_ 0#8 ≠ 0#8 then
        let end_ := (be32 fst (at_ + 8)).toNat
        if end_ ≤ i ∨ end_ > n ∨ opened.length = 32 then none
        else some { st with opened := ⟨end_, path ++ [0x2F#8]⟩ :: opened }
      else
        let file : Extent :=
          ⟨(be32 fst (at_ + 4)).toNat, (be32 fst (at_ + 8)).toNat, path, i⟩
        some { opened := opened, ext := st.ext ++ [file] }

/-- Every file in the table by its full path, sorted by where it lies. -/
def index_fst (fst : List Byte) : Option (List Extent) :=
  let n := (be32 fst 8).toNat
  if n = 0 ∨ n > fst.length / FST_ENTRY then none
  else
    ((List.range' 1 (n - 1)).foldlM (index_entry fst n) ⟨[], []⟩).map fun st =>
      st.ext.mergeSort fun x y => x.off < y.off ∨ x.off = y.off ∧ x.order ≤ y.order

end Index

section Entries

/-- An entry. A file has its offset and length; a directory its parent and the first
entry past it. An added file has the directory it goes in. -/
structure Ent where
  dir : Bool
  name : Nat
  a : Nat
  b : Nat
  add_dir : Option Nat

/-- The base entries, `count` of them, then the added ones; and the names. -/
structure Table where
  count : Nat
  e : List Ent
  str : List Byte

def ent_at (fst : List Byte) (i : Nat) : Ent :=
  { dir := fst.getD (i * FST_ENTRY) 0#8 ≠ 0#8
    name := be24 fst (i * FST_ENTRY + 1)
    a := (be32 fst (i * FST_ENTRY + 4)).toNat
    b := (be32 fst (i * FST_ENTRY + 8)).toNat
    add_dir := none }

def check_ent (count : Nat) (str : List Byte) (i : Nat) (x : Ent) : Option Why :=
  if i ≠ 0 ∧ cstr str x.name = none then some (.name i)
  else if x.dir ∧ i ≠ 0 ∧ (x.b ≤ i ∨ x.b > count) then some (.range i)
  else none

def parse (fst : List Byte) : Except Why Table :=
  let count := (be32 fst 8).toNat
  let str := fst.drop (count * FST_ENTRY % 2 ^ 32)
  if fst.length < FST_ENTRY ∨ fst.getD 0 0#8 = 0#8 then .error .root
  else if count = 0 ∨ count * FST_ENTRY > fst.length then .error (.count count)
  else
    match (List.range count).findSome? fun i => check_ent count str i (ent_at fst i) with
    | some why => .error why
    | none => .ok ⟨count, (List.range count).map (ent_at fst), str⟩

def name_of (t : Table) (i : Nat) : Option (List Byte) := do
  let x ← t.e[i]?
  cstr t.str x.name

def tolower (b : Byte) : Byte := if 0x41#8 ≤ b ∧ b ≤ 0x5A#8 then b + 0x20#8 else b

/-- The same name, in any case. -/
def ieq (p q : List Byte) : Bool := p.map tolower = q.map tolower

/-- The entry of this name among a directory's own, subdirectories' ranges skipped. -/
def walk_dir (t : Table) (s : List Byte) : Nat → Nat → Nat → Option (Option Nat)
  | 0, i, end_ => if i < end_ then none else some none
  | fuel + 1, i, end_ =>
      if i < end_ then do
        let x ← t.e[i]?
        let name ← name_of t i
        if ieq name s then some (some i)
        else walk_dir t s fuel (if x.dir then x.b else i + 1) end_
      else some none

/-- The components of a path, first to last. -/
def components (path : List Byte) : List (List Byte) :=
  path.splitOn 0x2F#8

def walk_from (t : Table) (d : Nat) : List (List Byte) → Option (Option Nat)
  | [] => some (some d)
  | s :: rest => do
      let x ← t.e[d]?
      match ← walk_dir t s (t.count + 1) (d + 1) (if d = 0 then t.count else x.b) with
      | none => some none
      | some found =>
          let y ← t.e[found]?
          if rest = [] then some (some found)
          else if y.dir then walk_from t found rest
          else some none

/-- The SDK's walk over the base entries. -/
def walk (t : Table) (path : List Byte) : Option (Option Nat) :=
  if path = [] then some (some 0) else walk_from t 0 (components path)

/-- A path being written into an array of two names' length. -/
structure Path where
  used : Nat
  text : List Byte

/-- `snprintf` at `used`. Past the array's end its room has wrapped round. -/
def Path.put (p : Path) (s : List Byte) : Option Path :=
  if p.used > NAME_MAX_DISC * 2 then none
  else some ⟨p.used + s.length, (p.text ++ s).take (NAME_MAX_DISC * 2 - 1)⟩

def put_dirs (t : Table) (dirs : List Nat) (p : Path) : Option Path :=
  dirs.foldlM (fun p d => do p.put ((← name_of t d) ++ [0x2F#8])) p

/-- The directory and those its parent links lead to, at most 32 of them. -/
def links (t : Table) : Nat → Nat → Option (List Nat)
  | 0, _ => some []
  | fuel + 1, d =>
      if 0 < d ∧ d < 2 ^ 31 then do
        let x ← t.e[d]?
        return d :: (← links t fuel x.a)
      else some []

/-- The full path of an added file. -/
def added_path (t : Table) (i : Nat) : Option (List Byte) := do
  let x ← t.e[i]?
  let dirs ← links t 32 (x.add_dir.getD 0)
  let p ← put_dirs t dirs.reverse ⟨0, []⟩
  let p ← p.put (← name_of t i)
  return p.text

def added_loop (t : Table) (path : List Byte) : List Nat → Option (Option Nat)
  | [] => some none
  | i :: rest => do
      let full ← added_path t i
      if ieq full path then some (some i) else added_loop t path rest

/-- An added entry with this path. -/
def added (t : Table) (path : List Byte) : Option (Option Nat) :=
  added_loop t path (List.range' t.count (t.e.length - t.count))

def find (t : Table) (path : List Byte) : Option (Option Nat) := do
  match ← walk t path with
  | some i => some (some i)
  | none => added t path

end Entries

section Emission

structure Emit where
  out : List Byte
  n : Nat

def entry_bytes (x : Ent) (a b : Nat) : List Byte :=
  [if x.dir then 1#8 else 0#8] ++ to_be 3 x.name ++ to_be 4 a ++ to_be 4 b

/-- One entry more, while the table has room for it. -/
def emit_entry (t : Table) (m : Emit) (i a b : Nat) : Option Emit := do
  let x ← t.e[i]?
  if m.n < t.e.length then some ⟨m.out ++ entry_bytes x a b, m.n + 1⟩ else none

/-- The files added to a directory. -/
def emit_added (t : Table) (d : Nat) (m : Emit) : Option Emit :=
  (List.range' t.count (t.e.length - t.count)).foldlM
    (fun m i => do
      let x ← t.e[i]?
      if x.add_dir = some d then emit_entry t m i x.a x.b else some m) m

mutual

/-- Directory `d`, its own entries in base order, then the files added to it. -/
def emit_dir (t : Table) : Nat → Emit → Nat → Nat → Option Emit
  | 0, _, _, _ => none
  | fuel + 1, m, d, parent_new => do
      let me := m.n
      let x ← t.e[d]?
      let m ← emit_entry t m d (if d = 0 then 0 else parent_new) 0
      let m ← emit_entries t fuel m (d + 1) (if d = 0 then t.count else x.b) me
      let m ← emit_added t d m
      return { m with out := splice m.out (me * FST_ENTRY + 8) (to_be 4 m.n) }

def emit_entries (t : Table) : Nat → Emit → Nat → Nat → Nat → Option Emit
  | 0, m, i, end_, _ => if i < end_ then none else some m
  | fuel + 1, m, i, end_, me =>
      if i < end_ then do
        let x ← t.e[i]?
        if x.dir then
          emit_entries t fuel (← emit_dir t fuel m i me) x.b end_ me
        else
          emit_entries t fuel (← emit_entry t m i x.a x.b) (i + 1) end_ me
      else some m

end

/-- The rebuilt table, when it comes out whole. -/
def serialise (t : Table) : Option (Option (List Byte)) := do
  let m ← emit_dir t (2 * t.count + 2) ⟨[], 0⟩ 0 0
  return if m.n = t.e.length then some (m.out ++ t.str) else none

end Emission

end SoaPort.Disc
