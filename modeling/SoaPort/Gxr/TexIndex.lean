import SoaPort.Lib.Slots

namespace SoaPort.Gxr

/-! The texture cache's index: an entry is found by its key, by linear probing in a table of
twice as many places as there are entries. -/

abbrev TEX_CACHE : Nat := 1024
def TEX_INDEX : Nat := 2048
def HASH_P2 : BitVec 64 := 0xC2B2AE3D27D4EB4F

/-- What an entry is found by. -/
structure TexEntry where
  addr : BitVec 32
  fmt : BitVec 32
  w : BitVec 32
  h : BitVec 32
  tlut_off : BitVec 32
  tlut_fmt : BitVec 32
deriving DecidableEq

structure TexCache where
  g_cache : Fin TEX_CACHE → TexEntry
  g_index : Nat → Option (Fin TEX_CACHE) -- the source has the entry's number plus 1, and 0

def tex_home (e : TexEntry) : Nat :=
  let k := (e.addr.setWidth 64 <<< 32) ^^^ (e.fmt.setWidth 64 <<< 28) ^^^
    (e.w.setWidth 64 <<< 16) ^^^ e.h.setWidth 64 ^^^ (e.tlut_off.setWidth 64 <<< 7) ^^^
    (e.tlut_fmt.setWidth 64 <<< 60)
  let k := k ^^^ (k >>> 33)
  let k := k * HASH_P2
  let k := k ^^^ (k >>> 29)
  (k.setWidth 32).toNat &&& (TEX_INDEX - 1)

def same_key (a b : TexEntry) : Bool :=
  a.addr == b.addr && a.fmt == b.fmt && a.w == b.w && a.h == b.h && a.tlut_off == b.tlut_off &&
    a.tlut_fmt == b.tlut_fmt

/-- A search that has gone round the whole table never ends, and gives nothing; NULL is what
one that ends on an empty place gives. -/
def tex_find (g : TexCache) (key : TexEntry) : Option (Option (Fin TEX_CACHE)) :=
  (Lib.probe (fun i => (g.g_index i).all fun n => same_key (g.g_cache n) key) TEX_INDEX TEX_INDEX
    (tex_home key)).map g.g_index

def tex_index_add (g : TexCache) (n : Fin TEX_CACHE) : Option TexCache :=
  (Lib.probe (fun i => (g.g_index i).isNone) TEX_INDEX TEX_INDEX (tex_home (g.g_cache n))).map
    fun i => { g with g_index := Function.update g.g_index i (some n) }

/-- The test under which the key at `j` stays where it is. -/
def stays (i j home : Nat) : Bool :=
  if i ≤ j then i < home && home ≤ j else i < home || home ≤ j

/-- The two loops that close the gap at `i`, a step at a time: each looks at the place after
`j`, and one that moves a key empties the place it was in. -/
def close_gap (g_cache : Fin TEX_CACHE → TexEntry) :
    Nat → (Nat → Option (Fin TEX_CACHE)) → Nat → Nat → Option (Nat → Option (Fin TEX_CACHE))
  | 0, _, _, _ => none
  | steps + 1, g_index, i, j =>
      let j := (j + 1) % TEX_INDEX
      match g_index j with
      | none => some g_index
      | some n =>
          if stays i j (tex_home (g_cache n)) then close_gap g_cache steps g_index i j
          else
            close_gap g_cache steps
              (Function.update (Function.update g_index i (some n)) j none) j j

def tex_index_remove (g : TexCache) (n : Fin TEX_CACHE) : Option TexCache :=
  (Lib.probe (fun i => g.g_index i = some n) TEX_INDEX TEX_INDEX (tex_home (g.g_cache n))).bind
    fun i => (close_gap g.g_cache TEX_INDEX (Function.update g.g_index i none) i i).map
      fun g_index => { g with g_index := g_index }

/-! Runs of calls. -/

inductive IndexCall where
  | add (n : Fin TEX_CACHE) (key : TexEntry)
  | remove (n : Fin TEX_CACHE)

/-- An entry is given its key before it is added. -/
def index_call (g : TexCache) : IndexCall → Option TexCache
  | .add n key => tex_index_add { g with g_cache := Function.update g.g_cache n key } n
  | .remove n => tex_index_remove g n

def index_calls : List IndexCall → TexCache → Option TexCache
  | [], g => some g
  | call :: rest, g => (index_call g call).bind (index_calls rest)

/-- The cache as the program starts. -/
def tex_start : TexCache where
  g_cache := fun _ => ⟨0, 0, 0, 0, 0, 0⟩
  g_index := fun _ => none

end SoaPort.Gxr
