import SoaPort.Lib.Bytes

namespace SoaPort.Gx

/-! The command stream of the graphics processor: how long a command is, and
what it says. -/

abbrev Byte := BitVec 8

abbrev Word := BitVec 32

/-- A big-endian number. -/
def be (p : List Byte) : Nat := p.foldl (fun n b => n * 256 + b.toNat) 0

def be16 (p : List Byte) : Nat := be (p.take 2)

def be32 (p : List Byte) : Word := BitVec.ofNat 32 (be (p.take 4))

/-- The byte at an offset. -/
def byte (p : List Byte) (off : Nat) : Nat := (p.getD off 0).toNat

/-- A capture-only record: a display-list call with the list's bytes inline. -/
def CAP_LIST : Nat := 0x41

/-! Vertex size from the current VCD/VAT. -/

/-- u8 s8 u16 s16 f32. -/
def comp_size (fmt : Nat) : Nat := if fmt = 4 then 4 else if fmt ≥ 2 then 2 else 1

/-- 565 888 888x 4444 6666 8888. -/
def color_size (comp : Nat) : Nat := [2, 3, 4, 2, 3, 4, 4, 4].getD (comp % 8) 0

def attr_size (vcd direct_size : Nat) : Nat :=
  match vcd % 4 with
  | 0 => 0
  | 1 => direct_size
  | 2 => 1
  | _ => 2

def bits (w sh width : Nat) : Nat := (w >>> sh) % 2 ^ width

/-- `cp` is the CP register shadow. -/
def vertex_size (cp : Nat → Word) (vat : Nat) : Nat :=
  let lo := (cp 0x50).toNat
  let hi := (cp 0x60).toNat
  let a := (cp (0x70 + vat)).toNat
  let b := (cp (0x80 + vat)).toNat
  let c := (cp (0x90 + vat)).toNat
  let tc := [(bits a 21 1, bits a 22 3), (bits b 0 1, bits b 1 3), (bits b 9 1, bits b 10 3),
    (bits b 18 1, bits b 19 3), (bits b 27 1, bits b 28 3), (bits c 5 1, bits c 6 3),
    (bits c 14 1, bits c 15 3), (bits c 23 1, bits c 24 3)]
  let matrices := bits lo 0 1 + ((List.range 8).map fun i => bits lo (1 + i) 1).sum
  let position := attr_size (bits lo 9 2)
    ((if bits a 0 1 ≠ 0 then 3 else 2) * comp_size (bits a 1 3))
  let normal :=
    let vcd := bits lo 11 2
    let elems := bits a 9 1
    let fmt := bits a 10 3
    -- NBT with three separate indices
    if vcd ≥ 2 ∧ elems ≠ 0 ∧ bits a 31 1 ≠ 0 then 3 * (if vcd = 2 then 1 else 2)
    else attr_size vcd ((if elems ≠ 0 then 9 else 3) * comp_size fmt)
  let colors := attr_size (bits lo 13 2) (color_size (bits a 14 3)) +
    attr_size (bits lo 15 2) (color_size (bits a 18 3))
  let textures := (tc.zipIdx.map fun (t, i) =>
    attr_size (bits hi (2 * i) 2) ((if t.1 ≠ 0 then 2 else 1) * comp_size t.2)).sum
  matrices + position + normal + colors + textures

inductive Command where
  /-- A no-op, or an invalidation of the vertex cache. -/
  | nop
  | cp (reg : Nat) (v : Word)
  | xf (addr : Nat) (values : List Word)
  | xf_indexed (op index v : Nat)
  /-- A display list; a capture's record holds its bytes. -/
  | list (addr size : Word) (body : Option (List Byte))
  | bp (v : Word)
  | draw (op count : Nat) (verts : List Byte) (vsize : Nat)
  | unknown (op : Nat)
  deriving DecidableEq, Repr

def is_indexed (op : Nat) : Bool := op = 0x20 || op = 0x28 || op = 0x30 || op = 0x38

def is_draw (op : Nat) : Bool := 0x80 ≤ op && op < 0xC0

/-- The size of the command at the front, once the bytes that decide it are
there. `cap_lists` is set while a capture is read. -/
def need (cp : Nat → Word) (cap_lists : Bool) (p : List Byte) : Option Nat :=
  let op := byte p 0
  if op = 0x08 then some 6
  else if op = 0x10 then
    if p.length < 5 then none else some (5 + 4 * (be16 (p.drop 1) + 1))
  else if is_indexed op then some 5
  else if op = 0x40 then some 9
  else if op = CAP_LIST ∧ cap_lists then
    if p.length < 9 then none else some (9 + (be32 (p.drop 5)).toNat)
  else if op = 0x61 then some 5
  else if is_draw op then
    if p.length < 3 then none else some (3 + be16 (p.drop 1) * vertex_size cp (op % 8))
  else some 1

/-- The command of exactly these bytes. -/
def decode (cp : Nat → Word) (cap_lists : Bool) (p : List Byte) : Command :=
  let op := byte p 0
  if op = 0x00 ∨ op = 0x48 then .nop
  else if op = 0x08 then .cp (byte p 1) (be32 (p.drop 2))
  else if op = 0x10 then
    .xf (be16 (p.drop 3))
      ((List.range (be16 (p.drop 1) + 1)).map fun i => be32 (p.drop (5 + 4 * i)))
  else if is_indexed op then .xf_indexed op (be16 (p.drop 1)) (be16 (p.drop 3))
  else if op = 0x40 then .list (be32 (p.drop 1)) (be32 (p.drop 5)) none
  else if op = CAP_LIST ∧ cap_lists then
    .list (be32 (p.drop 1)) (be32 (p.drop 5)) (some (p.drop 9))
  else if op = 0x61 then .bp (be32 (p.drop 1))
  else if is_draw op then .draw op (be16 (p.drop 1)) (p.drop 3) (vertex_size cp (op % 8))
  else .unknown op

/-- The first command and the bytes after it; none while it is cut off. -/
def next_command (cp : Nat → Word) (cap_lists : Bool) (p : List Byte) :
    Option (Command × List Byte) :=
  if p = [] then none
  else
    match need cp cap_lists p with
    | none => none
    | some n => if p.length < n then none else some (decode cp cap_lists (p.take n), p.drop n)

/-! A command is a prefix of the stream, and the same command whatever follows
it. -/

section Framing

variable {cp : Nat → Word} {cap_lists : Bool} {p : List Byte} {n : Nat}

theorem byte_prefixed (whole : n ≤ p.length) (ys : List Byte) {i : Nat} (inside : i < n) :
    byte (p.take n ++ ys) i = byte p i := by
  unfold byte
  rw [List.getD_eq_getElem?_getD, List.getD_eq_getElem?_getD,
    List.getElem?_append_left (by rw [List.length_take]; omega), List.getElem?_take_of_lt inside]

theorem be16_prefixed (whole : n ≤ p.length) (ys : List Byte) {i : Nat} (inside : i + 2 ≤ n) :
    be16 ((p.take n ++ ys).drop i) = be16 (p.drop i) :=
  congrArg be (Lib.take_drop_prefixed whole ys inside)

theorem be32_prefixed (whole : n ≤ p.length) (ys : List Byte) {i : Nat} (inside : i + 4 ≤ n) :
    be32 ((p.take n ++ ys).drop i) = be32 (p.drop i) :=
  congrArg (fun q => BitVec.ofNat 32 (be q)) (Lib.take_drop_prefixed whole ys inside)

theorem need_pos (size : need cp cap_lists p = some n) : 0 < n := by
  unfold need at size
  dsimp only at size
  repeat' split at size
  all_goals first | cases size; omega | cases size

theorem need_none (short : need cp cap_lists p = none) : p.length < 9 := by
  unfold need at short
  dsimp only at short
  repeat' split at short
  all_goals first | omega | cases short

/-- The bytes that decide a command's size are among its own, and more bytes
do not change it. -/
theorem need_prefixed (size : need cp cap_lists p = some n) (nonempty : p ≠ []) {m : Nat}
    (whole : m ≤ p.length) (enough : n ≤ m ∨ m = p.length) (ys : List Byte) :
    need cp cap_lists (p.take m ++ ys) = some n := by
  have positive : 0 < m := by
    have := need_pos size
    have := List.length_pos_iff.mpr nonempty
    omega
  have longer : m ≤ (p.take m ++ ys).length := by
    rw [List.length_append, List.length_take]
    omega
  unfold need at size ⊢
  rw [byte_prefixed whole ys positive]
  generalize byte p 0 = op at size ⊢
  dsimp only at size ⊢
  split at size
  · rw [if_pos (by assumption)]
    exact size
  · rw [if_neg (by assumption)]
    split at size
    · rw [if_pos (by assumption)]
      split at size
      · cases size
      · cases size
        rw [if_neg (by omega), be16_prefixed whole ys (by omega)]
    · rw [if_neg (by assumption)]
      split at size
      · rw [if_pos (by assumption)]
        exact size
      · rw [if_neg (by assumption)]
        split at size
        · rw [if_pos (by assumption)]
          exact size
        · rw [if_neg (by assumption)]
          split at size
          · rw [if_pos (by assumption)]
            split at size
            · cases size
            · cases size
              rw [if_neg (by omega), be32_prefixed whole ys (by omega)]
          · rw [if_neg (by assumption)]
            split at size
            · rw [if_pos (by assumption)]
              exact size
            · rw [if_neg (by assumption)]
              split at size
              · rw [if_pos (by assumption)]
                split at size
                · cases size
                · cases size
                  rw [if_neg (by omega), be16_prefixed whole ys (by omega)]
              · rw [if_neg (by assumption)]
                exact size

theorem next_command_some {cmd : Command} {rest : List Byte}
    (found : next_command cp cap_lists p = some (cmd, rest)) :
    ∃ item, item ≠ [] ∧ p = item ++ rest ∧ cmd = decode cp cap_lists item ∧
      ∀ ys, next_command cp cap_lists (item ++ ys) = some (cmd, ys) := by
  unfold next_command at found
  split at found
  · cases found
  · rename_i inhabited
    split at found
    · cases found
    · rename_i n size
      split at found
      · cases found
      · rename_i whole
        have whole : n ≤ p.length := Nat.le_of_not_lt whole
        have positive := need_pos size
        cases found
        have length : (p.take n).length = n := by rw [List.length_take]; omega
        have nonempty : p.take n ≠ [] := List.length_pos_iff.mp (by omega)
        refine ⟨p.take n, nonempty, (List.take_append_drop n p).symm, rfl, fun ys => ?_⟩
        rw [next_command, if_neg (by simp [nonempty]),
          need_prefixed size inhabited whole (.inl (Nat.le_refl n)) ys]
        dsimp only
        rw [if_neg (by rw [List.length_append]; omega), List.take_left' length,
          List.drop_left' length]

/-- Where no command is whole, its size is not known or not reached. -/
theorem next_command_none (cut : next_command cp cap_lists p = none) :
    p.length < 9 ∨ p ≠ [] ∧ ∃ n, need cp cap_lists p = some n ∧ p.length < n := by
  unfold next_command at cut
  split at cut
  · rename_i empty
    rw [empty]
    exact .inl (by decide)
  · rename_i nonempty
    split at cut
    · rename_i short
      exact .inl (need_none short)
    · rename_i n size
      split at cut
      · rename_i less
        exact .inr ⟨nonempty, n, size, less⟩
      · cases cut

end Framing

end SoaPort.Gx
