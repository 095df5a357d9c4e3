import SoaPort.Gx.Parse

namespace SoaPort.Gx

/-! The renderer's reader of one vertex: the bytes it reads, of the stream and of
the arrays in memory, and where it leaves the stream's pointer. -/

/-- A byte of the vertex stream, or of the memory image. -/
inductive Place where
  | stream (i : Nat)
  | mem (a : Nat)
  deriving DecidableEq, Repr

def Place.plus : Place → Nat → Place
  | .stream i, k => .stream (i + k)
  | .mem a, k => .mem (a + k)

/-- What a read of the vertex gives, the bytes read, the arrays' elements out of
memory counted, and the spans asked of the queued copies. -/
structure Decoded (α : Type) where
  value : α
  reads : List Place
  verts_bad : Nat
  hazards : List (Word × Nat)

namespace Decoded

instance : Monad Decoded where
  pure a := ⟨a, [], 0, []⟩
  bind m f :=
    let n := f m.value
    ⟨n.value, m.reads ++ n.reads, m.verts_bad + n.verts_bad, m.hazards ++ n.hazards⟩

instance : LawfulMonad Decoded := LawfulMonad.mk' _
  (fun m => by simp [Functor.map])
  (fun a f => by simp [bind, pure])
  (fun m f g => by simp [bind, Nat.add_assoc])

variable {α β : Type}

@[simp] theorem pure_value (a : α) : (pure a : Decoded α).value = a := rfl
@[simp] theorem pure_reads (a : α) : (pure a : Decoded α).reads = [] := rfl

@[simp] theorem bind_value (m : Decoded α) (f : α → Decoded β) :
    (m >>= f).value = (f m.value).value := rfl

@[simp] theorem bind_reads (m : Decoded α) (f : α → Decoded β) :
    (m >>= f).reads = m.reads ++ (f m.value).reads := rfl

@[simp] theorem map_reads (m : Decoded α) (f : α → β) : (f <$> m).reads = m.reads := by
  simp [Functor.map]

@[simp] theorem map_value (m : Decoded α) (f : α → β) : (f <$> m).value = f m.value := rfl

/-- One after another. -/
def each : List (Decoded α) → Decoded (List α)
  | [] => pure []
  | m :: ms => do
      let a ← m
      let as ← each ms
      pure (a :: as)

theorem each_reads (ms : List (Decoded α)) : (each ms).reads = ms.flatMap Decoded.reads := by
  induction ms with
  | nil => rfl
  | cons m ms ih => simp [each, ih]

end Decoded

/-- The registers, the vertex stream and the memory image. -/
structure Source where
  cp : Nat → Word
  xf : Nat → Word
  stream : Nat → Byte
  mem : Nat → Byte
  /-- copies to memory since the last drain -/
  pending_n : Nat

/-- `p[k]`. -/
def Source.at_ (src : Source) (p : Place) (k : Nat) : Decoded Nat :=
  let b := match p.plus k with
    | .stream i => src.stream i
    | .mem a => src.mem a
  ⟨b.toNat, [p.plus k], 0, []⟩

def Source.be16 (src : Source) (p : Place) : Decoded Nat := do
  let hi ← src.at_ p 0
  let lo ← src.at_ p 1
  pure (hi <<< 8 ||| lo)

def Source.be32 (src : Source) (p : Place) : Decoded Nat := do
  let b0 ← src.at_ p 0
  let b1 ← src.at_ p 1
  let b2 ← src.at_ p 2
  let b3 ← src.at_ p 3
  pure (b0 <<< 24 ||| b1 <<< 16 ||| b2 <<< 8 ||| b3)

/-- A float of the vertex: a number of a byte or two times `2 ^ -frac`, which no
rounding changes, or the 32 bits given. -/
inductive Coord where
  | fixed (v : Int) (frac : Nat)
  | f32 (bits : Nat)
  deriving DecidableEq, Repr

structure Color4 where
  r : Rat
  g : Rat
  b : Rat
  a : Rat
  deriving DecidableEq, Repr

structure VertexIn where
  pos : List Coord
  nrm : List Coord
  col : List Color4
  tex : List (List Coord)
  posidx : Nat
  texidx : List Nat
  has_nrm : Bool
  has_col : List Bool
  has_tex : List Bool
  deriving DecidableEq, Repr

def comp_bytes (fmt : Nat) : Nat := if fmt = 4 then 4 else if fmt ≥ 2 then 2 else 1

def read_comp (src : Source) (p : Place) (fmt frac : Nat) : Decoded Coord :=
  match fmt with
  | 0 => do pure (.fixed (← src.at_ p 0) frac)
  | 1 => do pure (.fixed (BitVec.ofNat 8 (← src.at_ p 0)).toInt frac)
  | 2 => do pure (.fixed (← src.be16 p) frac)
  | 3 => do pure (.fixed (BitVec.ofNat 16 (← src.be16 p)).toInt frac)
  | _ => do pure (.f32 (← src.be32 p))

/-- `n` components from `p` on. -/
def read_comps (src : Source) (p : Place) (n fmt frac : Nat) : Decoded (List Coord) :=
  .each ((List.range n).map fun i => read_comp src (p.plus (i * comp_bytes fmt)) fmt frac)

def color_bytes (fmt : Nat) : Nat := [2, 3, 4, 2, 3, 4, 4, 4].getD (fmt % 8) 0

def read_color (src : Source) (p : Place) (fmt : Nat) : Decoded Color4 :=
  match fmt with
  | 0 => do -- RGB565
      let v ← src.be16 p
      pure ⟨(v >>> 11 &&& 31 : Nat) / 31, (v >>> 5 &&& 63 : Nat) / 63, (v &&& 31 : Nat) / 31, 1⟩
  | 3 => do -- RGBA4444
      let v ← src.be16 p
      pure ⟨(v >>> 12 &&& 15 : Nat) / 15, (v >>> 8 &&& 15 : Nat) / 15, (v >>> 4 &&& 15 : Nat) / 15,
        (v &&& 15 : Nat) / 15⟩
  | 4 => do -- RGBA6666
      let b0 ← src.at_ p 0
      let b1 ← src.at_ p 1
      let b2 ← src.at_ p 2
      let v := b0 <<< 16 ||| b1 <<< 8 ||| b2
      pure ⟨(v >>> 18 &&& 63 : Nat) / 63, (v >>> 12 &&& 63 : Nat) / 63, (v >>> 6 &&& 63 : Nat) / 63,
        (v &&& 63 : Nat) / 63⟩
  | fmt => do
      let r ← src.at_ p 0
      let g ← src.at_ p 1
      let b ← src.at_ p 2
      if fmt = 1 ∨ fmt = 2 then pure ⟨r / 255, g / 255, b / 255, 1⟩ -- RGB888, RGBX8888
      else -- RGBA8888
        let a ← src.at_ p 3
        pure ⟨r / 255, g / 255, b / 255, a / 255⟩

/-- Where element `idx` of an array is. -/
def array_addr (cp : Nat → Word) (array idx : Nat) : Word :=
  let base := cp (0xA0 + array) &&& 0x1FFFFFFF#32
  let stride := cp (0xB0 + array) &&& 0xFF#32
  base + BitVec.ofNat 32 idx * stride

/-- An element's data, unless it ends past MEM1. -/
def array_data (src : Source) (array idx direct_size : Nat) : Decoded (Option Place) :=
  let addr := array_addr src.cp array idx
  if (addr &&& MEM_MASK).toNat + direct_size > MEM1_SIZE then ⟨none, [], 1, []⟩
  else
    ⟨some (.mem (mem_ptr (addr ||| 0x80000000#32))), [], 0,
      if src.pending_n ≠ 0 then [(addr, direct_size)] else []⟩

/-- Where an attribute's data lives: inline in the stream, or in the array the
index selects; and the stream's pointer after it. -/
def attr_data (src : Source) (mode p array direct_size : Nat) : Decoded (Option Place × Nat) :=
  match mode with
  | 0 => pure (none, p)
  | 1 => pure (some (.stream p), p + direct_size)
  | 2 => do
      let idx ← src.at_ (.stream p) 0
      let d ← array_data src array idx direct_size
      pure (d, p + 1)
  | _ => do
      let idx ← src.be16 (.stream p)
      let d ← array_data src array idx direct_size
      pure (d, p + 2)

/-- An attribute read with `read`, where it has data. -/
def read_attr {α : Type} (src : Source) (mode p array direct_size : Nat)
    (read : Place → Decoded α) : Decoded (Option α × Nat) := do
  let (d, p) ← attr_data src mode p array direct_size
  match d with
  | none => pure (none, p)
  | some d => do
      let v ← read d
      pure (some v, p)

/-- A matrix index of the stream, or the default. -/
def matrix_index (src : Source) (present dflt p : Nat) : Decoded (Nat × Nat) :=
  if present ≠ 0 then do pure (← src.at_ (.stream p) 0, p + 1) else pure (dflt, p)

def texture_indices (src : Source) (lo p : Nat) : List Nat → Decoded (List Nat × Nat)
  | [] => pure ([], p)
  | i :: is => do
      let dflt :=
        if i < 4 then bits (src.xf 0x1018).toNat (6 + 6 * i) 6
        else bits (src.xf 0x1019).toNat (6 * (i - 4)) 6
      let (v, p) ← matrix_index src (bits lo (1 + i) 1) dflt p
      let (vs, p) ← texture_indices src lo p is
      pure (v :: vs, p)

/-- The normal: of three indices the first, of nine components the first three. -/
def read_normal (src : Source) (lo a p : Nat) : Decoded (Option (List Coord) × Bool × Nat) := do
  let mode := bits lo 11 2
  let elems := bits a 9 1
  let fmt := bits a 10 3
  let nb := comp_bytes fmt
  let frac := if fmt = 1 then 6 else if fmt = 3 then 14 else 0
  if mode ≥ 2 ∧ elems ≠ 0 ∧ bits a 31 1 ≠ 0 then
    let (nrm, p) ← read_attr src mode p 1 (3 * nb) fun d => read_comps src d 3 fmt frac
    let (_, p) ← attr_data src mode p 1 (3 * nb)
    let (_, p) ← attr_data src mode p 1 (3 * nb)
    pure (nrm, true, p)
  else if mode ≠ 0 then
    let (nrm, p) ← read_attr src mode p 1 ((if elems ≠ 0 then 9 else 3) * nb) fun d =>
      read_comps src d 3 fmt frac
    pure (nrm, true, p)
  else pure (none, false, p)

/-- The texture coordinates: elements, format and scale of each. -/
def texture_formats (a b c : Nat) : List (Nat × Nat × Nat) :=
  [(bits a 21 1, bits a 22 3, bits a 25 5), (bits b 0 1, bits b 1 3, bits b 4 5),
    (bits b 9 1, bits b 10 3, bits b 13 5), (bits b 18 1, bits b 19 3, bits b 22 5),
    (bits b 27 1, bits b 28 3, bits c 0 5), (bits c 5 1, bits c 6 3, bits c 9 5),
    (bits c 14 1, bits c 15 3, bits c 18 5), (bits c 23 1, bits c 24 3, bits c 27 5)]

def read_textures (src : Source) (hi p : Nat) :
    List ((Nat × Nat × Nat) × Nat) → Decoded (List (Option (List Coord)) × Nat)
  | [] => pure ([], p)
  | ((elems, fmt, frac), i) :: tc => do
      let cnt := if elems ≠ 0 then 2 else 1
      let (v, p) ← read_attr src (bits hi (2 * i) 2) p (4 + i) (cnt * comp_bytes fmt) fun d =>
        read_comps src d cnt fmt (if fmt = 4 then 0 else frac)
      let (vs, p) ← read_textures src hi p tc
      pure (v :: vs, p)

/-- What `memset` leaves of `n` components, the first ones read. -/
def filled (n : Nat) (v : Option (List Coord)) : List Coord :=
  let v := v.getD []
  v ++ List.replicate (n - v.length) (.fixed 0 0)

def decode_vertex (src : Source) (p vat : Nat) : Decoded (VertexIn × Nat) := do
  let lo := (src.cp 0x50).toNat
  let hi := (src.cp 0x60).toNat
  let a := (src.cp (0x70 + vat)).toNat
  let b := (src.cp (0x80 + vat)).toNat
  let c := (src.cp (0x90 + vat)).toNat
  let (posidx, p) ← matrix_index src (bits lo 0 1) (bits (src.xf 0x1018).toNat 0 6) p
  let (texidx, p) ← texture_indices src lo p (List.range 8)
  -- position
  let cnt := if bits a 0 1 ≠ 0 then 3 else 2
  let fmt := bits a 1 3
  let (pos, p) ← read_attr src (bits lo 9 2) p 0 (cnt * comp_bytes fmt) fun d =>
    read_comps src d cnt fmt (if fmt = 4 then 0 else bits a 4 5)
  let (nrm, has_nrm, p) ← read_normal src lo a p
  -- colors
  let (col0, p) ← read_attr src (bits lo 13 2) p 2 (color_bytes (bits a 14 3)) fun d =>
    read_color src d (bits a 14 3)
  let (col1, p) ← read_attr src (bits lo 15 2) p 3 (color_bytes (bits a 18 3)) fun d =>
    read_color src d (bits a 18 3)
  let (tex, p) ← read_textures src hi p (texture_formats a b c).zipIdx
  pure
    ({ pos := filled 3 pos
       nrm := filled 3 nrm
       col := [col0.getD ⟨0, 0, 0, 0⟩, col1.getD ⟨0, 0, 0, 0⟩]
       tex := tex.map (filled 2)
       posidx
       texidx
       has_nrm
       has_col := [col0.isSome, col1.isSome]
       has_tex := tex.map Option.isSome }, p)

end SoaPort.Gx
