import SoaPort.Lib.Probe
import SoaPort.Lib.Bytes
import Mathlib.Algebra.Order.Ring.Rat
import Mathlib.Data.Rat.Defs

namespace SoaPort.Gxr

open SoaPort.Lib

/-! Frame pairs: each draw's match in the frame before (gxr.c, fifopair.py). Positions and
centres are exact numbers. -/

def PAIR_DRAWS : Nat := 16384
def PAIR_SLOTS : Nat := 32768
def PAIR_VERTS : Nat := 262144
def PAIR_NONE : Nat := 0xFFFFFFFF
def PAIR_LOOK : Nat := 32

abbrev Vec4 : Type := Fin 4 → Rat

/-- What a draw is keyed by: its vertex count, and the rest (its display list, arrays,
textures, primitive and tev). -/
structure Key (K : Type) where
  count : Nat
  rest : K
deriving DecidableEq

/-- A draw of some vertices, with their places in clip space. -/
structure Draw (K : Type) where
  key : Key K
  prim : BitVec 8
  ortho : BitVec 8
  clip : List Vec4
  counted : clip.length = key.count
  some_ : 0 < key.count

section Tables

structure PairRec where
  key : BitVec 64
  count : Nat
  off : Nat
  next : Nat
  idx : Nat
  cen : Vec4
  prim : BitVec 8
  ortho : BitVec 8

/-- A slot of the key table, empty with no count. -/
structure PairSlot where
  key : BitVec 64
  count : Nat
  head : Nat
  tail : Nat

structure PairFrame where
  record : Nat → PairRec
  nrec : Nat
  slot : Nat → PairSlot
  npos : Nat

structure PairClaim where
  cur_off : Nat
  prev_off : Nat
  record : Nat
  idx : Nat

/-- The two frames, the mode, and what was found. -/
structure Pairs where
  g_pair : Bool → PairFrame
  g_pair_cur : Bool
  mode_record : Bool
  mode_lerp : Bool
  g_pair_ndraw : Nat
  g_pair_list : List (Nat × Nat)
  g_pair_matched : Nat
  g_pair_unmatched : Nat
  g_pair_demoted : Nat
  g_pair_over : Nat

/-- Whether a slot ends the search for a key. -/
def slot_stops (F : PairFrame) (key : BitVec 64) (count : Nat) (i : Nat) : Bool :=
  (F.slot i).count = 0 ∨ (F.slot i).key = key ∧ (F.slot i).count = count

def pair_home (key : BitVec 64) : Nat := (key ^^^ key >>> 32).toNat % 2 ^ 32 &&& (PAIR_SLOTS - 1)

/-- The slot for a key, or where it would go; none when the table is full. -/
def pair_slot (F : PairFrame) (key : BitVec 64) (count : Nat) : Option Nat :=
  probe (slot_stops F key count) PAIR_SLOTS PAIR_SLOTS (pair_home key)

def pair_reset (F : PairFrame) : PairFrame :=
  { F with nrec := 0, npos := 0, slot := fun _ => ⟨0, 0, 0, 0⟩ }

def Pairs.cur (g : Pairs) : PairFrame := g.g_pair g.g_pair_cur

def Pairs.set_cur (g : Pairs) (F : PairFrame) : Pairs :=
  { g with g_pair := Function.update g.g_pair g.g_pair_cur F }

/-- A record of the draw in the slot's chain. -/
def pair_record (C : PairFrame) (i : Nat) (key : BitVec 64) (prim : BitVec 8) (count : Nat)
    (ortho : BitVec 8) (idx : Nat) : PairFrame :=
  let r := C.nrec
  let sl := C.slot i
  let kept : PairRec := ⟨key, count, C.npos, PAIR_NONE, idx, (C.record r).cen, prim, ortho⟩
  let record := Function.update C.record r kept
  { nrec := r + 1
    npos := C.npos + count
    record :=
      if sl.count = 0 then record
      else Function.update record sl.tail { record sl.tail with next := r }
    slot :=
      Function.update C.slot i
        (if sl.count = 0 then ⟨key, count, r, r⟩ else { sl with tail := r }) }

def pair_claim (g : Pairs) (key : BitVec 64) (prim : BitVec 8) (count : Nat) (ortho : BitVec 8) :
    Pairs × PairClaim :=
  let c : PairClaim := ⟨PAIR_NONE, PAIR_NONE, PAIR_NONE, g.g_pair_ndraw⟩
  let g := { g with g_pair_ndraw := g.g_pair_ndraw + 1 }
  if g.mode_record then
    let C := g.cur
    match if C.nrec < PAIR_DRAWS ∧ C.npos + count ≤ PAIR_VERTS then pair_slot C key count
      else none with
    | none => ({ g with g_pair_over := g.g_pair_over + 1 }, c)
    | some i =>
        (g.set_cur (pair_record C i key prim count ortho c.idx),
          { c with cur_off := C.npos, record := C.nrec })
  else (g, c)

/-- The centre of a draw's vertices, summed one by one. -/
def pair_centre (count : Nat) (v : List Vec4) : Vec4 := fun i =>
  v.foldl (fun c x => c + x i) 0 / count

def pair_dist (p c : Vec4) : Rat :=
  (List.finRange 4).foldl (fun d i => d + (p i - c i) * (p i - c i)) 0

/-- The nearest record so far, and the one before it in the chain. -/
structure Best where
  record : Nat
  prev : Nat
  d : Rat

/-- The nearer of what is kept and a record; the first of equals. -/
def pair_nearer (r prev : Nat) (d : Rat) : Option Best → Best
  | none => ⟨r, prev, d⟩
  | some best => if d < best.d then ⟨r, prev, d⟩ else best

/-- The nearest of a chain's next records, at most `k` of them. -/
def pair_look (P : PairFrame) (cen : Vec4) : Nat → Nat → Nat → Option Best → Option Best
  | 0, _, _, best => best
  | k + 1, r, prev, best =>
      if r = PAIR_NONE then best
      else
        pair_look P cen k (P.record r).next r
          (some (pair_nearer r prev (pair_dist (P.record r).cen cen) best))

/-- What led to the record leads past it. -/
def pair_past (P : PairFrame) (i : Nat) (best : Best) : PairFrame :=
  let next := (P.record best.record).next
  if best.prev = PAIR_NONE then
    { P with slot := Function.update P.slot i { P.slot i with head := next } }
  else
    { P with record := Function.update P.record best.prev { P.record best.prev with next := next } }

/-- The record taken out of its slot's chain. -/
def pair_unlink (P : PairFrame) (i : Nat) (best : Best) : PairFrame :=
  let P := pair_past P i best
  if (P.slot i).tail = best.record then
    { P with slot := Function.update P.slot i { P.slot i with tail := best.prev } }
  else P

/-- The match in the frame before of a draw with centre `cen`. -/
def pair_take (g : Pairs) (c : PairClaim) (key : BitVec 64) (count : Nat) (ortho : BitVec 8)
    (cen : Vec4) : Pairs × PairClaim :=
  let P := g.g_pair (!g.g_pair_cur)
  match pair_slot P key count with
  | none => ({ g with g_pair_unmatched := g.g_pair_unmatched + 1 }, c)
  | some i =>
      if (P.slot i).count = 0 ∨ (P.slot i).head = PAIR_NONE then
        ({ g with g_pair_unmatched := g.g_pair_unmatched + 1 }, c)
      else
        match pair_look P cen PAIR_LOOK (P.slot i).head PAIR_NONE none with
        | none => (g, c)
        | some best =>
            let found := P.record best.record
            let g :=
              { g with
                g_pair := Function.update g.g_pair (!g.g_pair_cur) (pair_unlink P i best)
                g_pair_list := g.g_pair_list ++ [(found.idx, c.idx)] }
            if found.ortho ≠ ortho then ({ g with g_pair_demoted := g.g_pair_demoted + 1 }, c)
            else ({ g with g_pair_matched := g.g_pair_matched + 1 }, { c with prev_off := found.off })

/-- The centre of a record kept. -/
def with_cen (F : PairFrame) (r : Nat) (cen : Vec4) : PairFrame :=
  { F with record := Function.update F.record r { F.record r with cen := cen } }

def pair_match (g : Pairs) (c : PairClaim) (key : BitVec 64) (count : Nat) (ortho : BitVec 8)
    (v : List Vec4) : Pairs × PairClaim :=
  let cen := pair_centre count v
  let g := if c.record = PAIR_NONE then g else g.set_cur (with_cen g.cur c.record cen)
  if g.mode_lerp = false then (g, c) else pair_take g c key count ortho cen

/-- The screen copy ends a frame: what was recorded becomes the frame before. -/
def pair_rotate (g : Pairs) : Pairs :=
  let g := { g with g_pair_cur := !g.g_pair_cur, g_pair_ndraw := 0 }
  g.set_cur (pair_reset g.cur)

/-- A draw: claimed, then matched once it is transformed. -/
def pair_draw {K : Type} (hash : Key K → BitVec 64) (g : Pairs) (d : Draw K) : Pairs :=
  let (g, c) := pair_claim g (hash d.key) d.prim d.key.count d.ortho
  (pair_match g c (hash d.key) d.key.count d.ortho d.clip).1

/-- A frame's draws, and its end. -/
def pair_frame {K : Type} (hash : Key K → BitVec 64) (g : Pairs) (draws : List (Draw K)) : Pairs :=
  pair_rotate (draws.foldl (pair_draw hash) g)

/-- `gxr_pair_mode` with both modes on: two empty frames. -/
def pair_start (record : Nat → PairRec) : Pairs where
  g_pair := fun _ => pair_reset ⟨record, 0, fun _ => ⟨0, 0, 0, 0⟩, 0⟩
  g_pair_cur := false
  mode_record := true
  mode_lerp := true
  g_pair_ndraw := 0
  g_pair_list := []
  g_pair_matched := 0
  g_pair_unmatched := 0
  g_pair_demoted := 0
  g_pair_over := 0

end Tables

section Fifopair

def LOOK : Nat := 32

/-- fifopair's centre of a draw. -/
def centre (clip : List Vec4) : Vec4 := fun k => (clip.map fun c => c k).sum / clip.length

def dist (ca cb : Vec4) : Rat := ((List.finRange 4).map fun k => (ca k - cb k) * (ca k - cb k)).sum

/-- The nearer of what is kept and place `k`; the first of equals. -/
def nearer (d : Rat) (k : Nat) : Option (Nat × Rat) → Nat × Rat
  | none => (k, d)
  | some (best, best_d) => if d < best_d then (k, d) else (best, best_d)

/-- The place of the nearest, numbered from `k` on. -/
def nearest (d : Nat → Rat) : List Nat → Nat → Option (Nat × Rat) → Option (Nat × Rat)
  | [], _, best => best
  | i :: rest, k, best => nearest d rest (k + 1) (some (nearer (d i) k best))

variable {K : Type} [DecidableEq K]

/-- The indices of `a`'s draws, from number `i` on, each under its draw's key. -/
def pool_from (pool : Key K → List Nat) (i : Nat) : List (Draw K) → Key K → List Nat
  | [] => pool
  | d :: rest => pool_from (Function.update pool d.key (pool d.key ++ [i])) (i + 1) rest

def pool_of (a : List (Draw K)) : Key K → List Nat := pool_from (fun _ => []) 0 a

/-- How far a draw of `a` is from `d`. -/
def far (a : List (Draw K)) (d : Draw K) (i : Nat) : Rat :=
  match a[i]? with
  | some ca => dist (centre ca.clip) (centre d.clip)
  | none => 0

/-- The pool after a draw of `b`, and its pair. -/
def match_one (a : List (Draw K)) (pool : Key K → List Nat) (d : Draw K) :
    (Key K → List Nat) × Option Nat :=
  let q := pool d.key
  match nearest (far a d) (q.take LOOK) 0 none with
  | none => (pool, none)
  | some (best, _) => (Function.update pool d.key (q.eraseIdx best), q[best]?)

/-- fifopair's `match`, over the draws of `b` from number `j` on. -/
def match_from (a : List (Draw K)) (pool : Key K → List Nat) (j : Nat) :
    List (Draw K) → List (Nat × Nat)
  | [] => []
  | d :: rest =>
      let (pool, found) := match_one a pool d
      let pairs := match_from a pool (j + 1) rest
      match found with
      | some i => (i, j) :: pairs
      | none => pairs

def match_ (a b : List (Draw K)) : List (Nat × Nat) := match_from a (pool_of a) 0 b

end Fifopair

end SoaPort.Gxr
