import SoaPort.Disc.Fst
import SoaPort.Disc.Store

namespace SoaPort.Disc

open SoaPort.Lib

/-! Mods' lines over the file table (vfst.c). -/

abbrev ALIGN : Nat := 32 * 1024
abbrev MEM_CAP : Nat := 256 * 2 ^ 20
abbrev SOURCE_CAP : Nat := 16 * 2 ^ 20

inductive Verb where
  | replace
  | add
  | alias_
deriving DecidableEq

/-- One line of a mod's files.txt. The build fills `offset`, and `refused` for every line
of a mod it refuses. -/
structure FileOp where
  verb : Verb
  path : List Byte
  target : List Byte
  data : List Byte
  mod_index : Nat
  refused : Bool
  offset : Nat

/-- A path of printable ASCII without backslashes, each component named. -/
def valid_path (p : List Byte) : Bool :=
  p ≠ [] ∧ p.length ≤ 255 ∧ p.head? ≠ some 0x2F#8 ∧ p.getLast? ≠ some 0x2F#8 ∧
    (p.all fun b => 0x21#8 ≤ b ∧ b ≤ 0x7E#8 ∧ b ≠ 0x5C#8) ∧
    (components p).all fun c => c ≠ [] ∧ c ≠ [0x2E#8] ∧ c ≠ [0x2E#8, 0x2E#8]

/-- What stands before the last slash, and after it. -/
def dirname (p : List Byte) : List Byte :=
  (p.reverse.dropWhile (· ≠ 0x2F#8)).tail.reverse

def basename (p : List Byte) : List Byte := (p.reverse.takeWhile (· ≠ 0x2F#8)).reverse

/-- The string table with a new name, and where it is. -/
def add_name (t : Table) (name : List Byte) : Table × Nat :=
  ({ t with str := t.str ++ name ++ [0#8] }, t.str.length % 2 ^ 32)

def add_entry (t : Table) (dir : Nat) (name : List Byte) (off len : Nat) : Option Table :=
  let (t, at_) := add_name t name
  if at_ = 0xFFFFFFFF then none
  else some { t with e := t.e ++ [⟨false, at_, off, len, some dir⟩] }

/-- The path a line placed, and its mod. -/
structure Claim where
  path : List Byte
  verb : Verb
  mod_index : Nat

/-- A build under way. Nothing is placed before the image's end. -/
structure Pass where
  table : Table
  ops : List FileOp
  claims : List Claim
  cursor : Nat
  mem : Nat
  extents : List VExtent
  past_image : DISC_OVERLAY_BASE ≤ cursor

/-- What one line comes to. -/
inductive Outcome where
  | placed (p : Pass)
  | refused
  | collide
  | failed (why : Why)

/-- The line's own bytes, placed at the cursor. -/
def place (p : Pass) (k : Nat) (op : FileOp) (t : Table)
    (ends : p.cursor + op.data.length ≤ DISC_OVERLAY_END) : Pass where
  table := t
  ops := p.ops.set k { op with offset := p.cursor }
  claims := p.claims ++ [⟨op.path, op.verb, op.mod_index⟩]
  cursor := (p.cursor + op.data.length + ALIGN - 1) / ALIGN * ALIGN + ALIGN
  mem := p.mem + op.data.length
  extents := p.extents ++ [⟨p.cursor, op.data, p.past_image, ends⟩]
  past_image := by
    have := p.past_image
    simp only [ALIGN]
    omega

/-- A directory of the disc. -/
def walk_to_dir (t : Table) (path : List Byte) : Option (Option Nat) := do
  match ← walk t path with
  | none => some none
  | some d =>
      let x ← t.e[d]?
      return if x.dir then some d else none

/-- A file of the disc, or one a mod adds. -/
def find_file (t : Table) (path : List Byte) : Option (Option Ent) := do
  match ← find t path with
  | none => some none
  | some i =>
      let x ← t.e[i]?
      return if x.dir then none else some x

/-- A `replace` or an `add`. -/
def place_source (p : Pass) (k : Nat) (op : FileOp) : Option Outcome :=
  if op.data.length > SOURCE_CAP then some .refused
  else if p.mem + op.data.length > MEM_CAP then some .refused
  else if ends : p.cursor + op.data.length ≤ DISC_OVERLAY_END then do
    match op.verb with
    | .replace =>
        match ← walk p.table op.path with
        | none => some .refused
        | some at_ =>
            let x ← p.table.e[at_]?
            if x.dir then some .refused
            else
              let t := { p.table with
                e := p.table.e.set at_ { x with a := p.cursor, b := op.data.length } }
              some (.placed (place p k op t ends))
    | _ =>
        if (← find p.table op.path).isSome then some .refused
        else
          match ← walk_to_dir p.table (dirname op.path) with
          | none => some .refused
          | some d =>
              match add_entry p.table d (basename op.path) p.cursor op.data.length with
              | none => some (.failed .memory)
              | some t => some (.placed (place p k op t ends))
  else some .refused

/-- Whether another line is an alias of this path. -/
def names_alias (ops : List FileOp) (k : Nat) (path : List Byte) : Bool :=
  (List.range ops.length).any fun j =>
    match ops[j]? with
    | some op => j ≠ k ∧ op.verb = .alias_ ∧ op.refused = false ∧ ieq op.path path
    | none => false

def place_alias (p : Pass) (k : Nat) (op : FileOp) : Option Outcome := do
  if (← find p.table op.path).isSome then some .refused
  else if names_alias p.ops k op.target then some .refused
  else
    match ← find_file p.table op.target with
    | none => some .refused
    | some target =>
        match ← walk_to_dir p.table (dirname op.path) with
        | none => some .refused
        | some d =>
            match add_entry p.table d (basename op.path) target.a target.b with
            | none => some (.failed .memory)
            | some t =>
                some (.placed
                  { p with
                    table := t
                    ops := p.ops.set k { op with offset := target.a }
                    claims := p.claims ++ [⟨op.path, op.verb, op.mod_index⟩] })

/-- One line that is its phase's. -/
def take_line (p : Pass) (k : Nat) (op : FileOp) : Option Outcome :=
  if valid_path op.path = false then some .refused
  else
    match p.claims.find? fun c => ieq c.path op.path with
    | some c => some (if c.mod_index = op.mod_index then .refused else .collide)
    | none =>
        match op.verb with
        | .alias_ => place_alias p k op
        | _ => place_source p k op

/-- A whole mod refused. -/
def refuse (ops : List FileOp) (mod_index : Nat) : List FileOp :=
  ops.map fun op => if op.mod_index = mod_index then { op with refused := true } else op

/-- How a pass over the lines ends; `again` without a mod it refused. -/
inductive PassEnd where
  | built (p : Pass)
  | again (ops : List FileOp)
  | collide
  | failed (why : Why)

/-- The lines of one phase, in order: `alias_` for the second. -/
def pass_loop (second : Bool) : List Nat → Pass → Option PassEnd
  | [], p => some (.built p)
  | k :: rest, p =>
      match p.ops[k]? with
      | none => none
      | some op =>
          if op.refused ∨ second ≠ decide (op.verb = .alias_) then pass_loop second rest p
          else do
            match ← take_line p k op with
            | .placed p => pass_loop second rest p
            | .refused => some (.again (refuse p.ops op.mod_index))
            | .collide => some .collide
            | .failed why => some (.failed why)

/-- Replacements and additions for every mod, then aliases, so an alias reads a
replacement whatever order the mods come in. -/
def build_pass (t : Table) (ops : List FileOp) : Option PassEnd := do
  let start : Pass :=
    { table := t, ops := ops, claims := [], cursor := DISC_OVERLAY_BASE, mem := 0, extents := []
      past_image := le_refl _ }
  match ← pass_loop false (List.range ops.length) start with
  | .built p => pass_loop true (List.range ops.length) p
  | other => some other

section Check

/-- The directory among `x` and its siblings that holds entry `i`. -/
def holding (t : Table) (i : Nat) : Nat → Nat → Nat → Option (Option Nat)
  | 0, x, end_ => if x < end_ ∧ x ≤ i then none else some none
  | fuel + 1, x, end_ =>
      if x < end_ ∧ x ≤ i then do
        let y ← t.e[x]?
        if y.dir ∧ i < y.b ∧ x < i then some (some x)
        else holding t i fuel (if y.dir then y.b else x + 1) end_
      else some none

/-- The directories holding entry `i`, from the root: an array of 32. -/
def chain (t : Table) (i : Nat) : Nat → Nat → Nat → Option (List Nat)
  | 0, d, _ => if d < i then none else some []
  | fuel + 1, d, depth =>
      if d < i then do
        let x ← t.e[d]?
        match ← holding t i (t.count + 1) (d + 1) (if d = 0 then t.count else x.b) with
        | none => some []
        | some next => if 32 ≤ depth then none else return next :: (← chain t i fuel next (depth + 1))
      else some []

/-- The path of a base file, as the check writes it. -/
def file_path (t : Table) (i : Nat) : Option (List Byte) := do
  let dirs ← chain t i (i + 1) 0 0
  let p ← put_dirs t dirs ⟨0, []⟩
  let p ← p.put (← name_of t i)
  return p.text

/-- The last line in force that replaces a path. -/
def replaced_by (ops : List FileOp) (path : List Byte) : Option FileOp :=
  (ops.filter fun op => op.refused = false ∧ op.verb = .replace ∧ ieq op.path path).getLast?

/-- A base file is where it was, or where its replacement is. -/
def check_file (b r : Table) (ops : List FileOp) (i : Nat) : Option (Option Why) := do
  let x ← b.e[i]?
  if x.dir then some none
  else
    let path ← file_path b i
    match ← walk r path with
    | none => some (some (.unresolved path))
    | some at_ =>
        let y ← r.e[at_]?
        let (a, len) := match replaced_by ops path with
          | some op => (op.offset, op.data.length)
          | none => (x.a, x.b)
        return if y.a = a ∧ y.b = len then none else some (.moved path y.a y.b)

/-- An added or aliased path is where the line put it. -/
def check_line (r : Table) (op : FileOp) : Option (Option Why) :=
  if op.refused ∨ op.verb = .replace then some none
  else do
    match ← walk r op.path with
    | none => some (some (.misplaced op.path))
    | some at_ =>
        let y ← r.e[at_]?
        return if y.a = op.offset then none else some (.misplaced op.path)

/-- The first fault found. -/
def first_why {α : Type} (f : α → Option (Option Why)) : List α → Option (Option Why)
  | [] => some none
  | x :: rest => do
      match ← f x with
      | some why => some (some why)
      | none => first_why f rest

def disc_overlay_check (base fst : List Byte) (ops : List FileOp) : Option (Option Why) :=
  match parse base with
  | .error why => some (some why)
  | .ok b =>
      match parse fst with
      | .error why => some (some why)
      | .ok r => do
          let added_n := (ops.filter fun op => op.refused = false ∧ op.verb ≠ .replace).length
          if r.count ≠ b.count + added_n then some (some (.entries r.count (b.count + added_n)))
          else
            match ← first_why (check_file b r ops) (List.range' 1 (b.count - 1)) with
            | some why => some (some why)
            | none => first_why (check_line r) ops

end Check

/-- What the build gives: the rebuilt table with the files placed for it, two mods at one
path, or a reason. -/
inductive Built where
  | table (fst : List Byte) (extents : List VExtent)
  | collide
  | refused (why : Why)

/-- The table rebuilt, of the lines that are left. -/
def finish (base : List Byte) (p : Pass) : Option Built := do
  match ← serialise p.table with
  | none => some (.refused .not_whole)
  | some out =>
      match ← disc_overlay_check base out p.ops with
      | some why => some (.refused why)
      | none => some (.table out p.extents)

/-- A refused mod leaves nothing behind: the build runs again without it. -/
def build_loop (fst : List Byte) : Nat → List FileOp → Option Built
  | 0, _ => none
  | fuel + 1, ops =>
      match parse fst with
      | .error why => some (.refused why)
      | .ok t => do
          match ← build_pass t ops with
          | .built p => finish fst p
          | .again ops => build_loop fst fuel ops
          | .collide => some .collide
          | .failed why => some (.refused why)

def disc_overlay_build (fst : List Byte) (ops : List FileOp) : Option Built :=
  build_loop fst (ops.length + 1) ops

end SoaPort.Disc
