import SoaPort.Gx.Vertex
import Mathlib.Algebra.BigOperators.Group.List.Basic
import Mathlib.Tactic.IntervalCases
import Mathlib.Tactic.SplitIfs

namespace SoaPort.Gx

/-! ### What of a vertex is read -/

/-- A byte of the vertex, or of MEM1. -/
def Place.Inside (p size : Nat) : Place → Prop
  | .stream i => p ≤ i ∧ i < p + size
  | .mem a => a < MEM1_SIZE

/-- An attribute as the registers describe it. -/
structure Attr where
  mode : Nat
  array : Nat
  direct_size : Nat
  /-- a component format of no meaning, two bytes long, of which four are read -/
  reserved : Bool

def Attr.size (A : Attr) : Nat := attr_size A.mode A.direct_size

/-- The index that stands at `o`. -/
def Source.index (src : Source) (mode o : Nat) : Nat :=
  if mode = 2 then (src.stream o).toNat
  else (src.stream o).toNat <<< 8 ||| (src.stream (o + 1)).toNat

/-- Two bytes come after a reserved format's last component: of the vertex, which
ends at `last`, or of MEM1. -/
def Attr.Clear (src : Source) (last o : Nat) (A : Attr) : Prop :=
  A.reserved = true →
    (A.mode = 1 → o + A.direct_size + 2 ≤ last) ∧
    (2 ≤ A.mode →
      let data := mem_ptr (array_addr src.cp A.array (src.index A.mode o))
      data + A.direct_size ≤ MEM1_SIZE → data + A.direct_size + 2 ≤ MEM1_SIZE)

def Clears (src : Source) (last : Nat) : Nat → List Attr → Prop
  | _, [] => True
  | o, A :: As => A.Clear src last o ∧ Clears src last (o + A.size) As

def sizes (As : List Attr) : Nat := (As.map Attr.size).sum

@[simp] theorem sizes_nil : sizes [] = 0 := rfl

@[simp] theorem sizes_cons (A : Attr) (As : List Attr) : sizes (A :: As) = A.size + sizes As := by
  simp [sizes]

@[simp] theorem sizes_append (As Bs : List Attr) : sizes (As ++ Bs) = sizes As + sizes Bs := by
  simp [sizes]

theorem clears_append {src : Source} {last o : Nat} {As Bs : List Attr} :
    Clears src last o (As ++ Bs) ↔ Clears src last o As ∧ Clears src last (o + sizes As) Bs := by
  induction As generalizing o with
  | nil => simp [Clears]
  | cons A As ih =>
      simp only [List.cons_append, Clears, ih, sizes_cons, Nat.add_assoc, and_assoc]

/-- A read of the attributes from `o` on: where it leaves the pointer, and when
it keeps to the vertex and to MEM1. -/
structure Follows {α : Type} (src : Source) (p size : Nat) (ptr : α → Nat) (m : Decoded α)
    (o : Nat) (As : List Attr) : Prop where
  next : ptr m.value = o + sizes As
  inside : p ≤ o → o + sizes As ≤ p + size →
    ((∀ r ∈ m.reads, r.Inside p size) ↔ Clears src (p + size) o As)

section Follows

variable {α β : Type} {src : Source} {p size o : Nat} {ptr : α → Nat} {ptr' : β → Nat}

theorem Follows.pure {a : α} (here : ptr a = o) :
    Follows src p size ptr (pure a : Decoded α) o [] where
  next := here
  inside _ _ := by simp [Clears]

theorem Follows.bind {m : Decoded α} {f : α → Decoded β} {As Bs : List Attr}
    (first : Follows src p size ptr m o As)
    (rest : ∀ a, ptr a = o + sizes As → Follows src p size ptr' (f a) (o + sizes As) Bs) :
    Follows src p size ptr' (m >>= f) o (As ++ Bs) where
  next := by
    rw [Decoded.bind_value, (rest _ first.next).next, sizes_append, Nat.add_assoc]
  inside low high := by
    have rest := rest _ first.next
    rw [sizes_append] at high
    rw [clears_append, ← first.inside low (by omega), ← rest.inside (by omega) (by omega)]
    simp only [Decoded.bind_reads, List.mem_append]
    constructor
    · intro all
      exact ⟨fun r here => all r (.inl here), fun r there => all r (.inr there)⟩
    · rintro ⟨here, there⟩ r (member | member)
      · exact here r member
      · exact there r member

/-- What is read last gives only a value. -/
theorem Follows.last {m : Decoded α} {f : α → β} {As : List Attr}
    (first : Follows src p size ptr m o As) (same : ∀ a, ptr' (f a) = ptr a) :
    Follows src p size ptr' (m >>= fun a => Pure.pure (f a)) o As where
  next := by
    rw [← first.next]
    exact same m.value
  inside low high := by
    rw [← first.inside low high]
    simp

end Follows

/-! ### One attribute -/

/-- `e` bytes are read, the first ones. -/
def Covers (reads : List Place) (d : Place) (e : Nat) : Prop :=
  ∀ r, r ∈ reads ↔ ∃ k < e, r = d.plus k

theorem covers_range (d : Place) (e : Nat) : Covers ((List.range e).map d.plus) d e := by
  intro r
  simp [eq_comm]

theorem covers_inside {reads : List Place} {p size e o : Nat} (covers : Covers reads (.stream o) e)
    (some_ : 0 < e) (low : p ≤ o) :
    (∀ r ∈ reads, r.Inside p size) ↔ o + e ≤ p + size := by
  constructor
  · intro all
    have last := all (.stream (o + (e - 1))) ((covers _).mpr ⟨e - 1, by omega, rfl⟩)
    simp only [Place.Inside] at last
    omega
  · intro high r member
    obtain ⟨k, small, rfl⟩ := (covers r).mp member
    simp only [Place.plus, Place.Inside]
    omega

theorem covers_ram {reads : List Place} {p size e a : Nat} (covers : Covers reads (.mem a) e)
    (some_ : 0 < e) : (∀ r ∈ reads, r.Inside p size) ↔ a + e ≤ MEM1_SIZE := by
  constructor
  · intro all
    have last := all (.mem (a + (e - 1))) ((covers _).mpr ⟨e - 1, by omega, rfl⟩)
    simp only [Place.Inside] at last
    omega
  · intro high r member
    obtain ⟨k, small, rfl⟩ := (covers r).mp member
    simp only [Place.plus, Place.Inside]
    omega

theorem array_data_place (src : Source) (array idx direct_size : Nat) :
    (array_data src array idx direct_size).value =
      if mem_ptr (array_addr src.cp array idx) + direct_size > MEM1_SIZE then none
      else some (.mem (mem_ptr (array_addr src.cp array idx))) := by
  have masked (w : Word) : mem_ptr (w ||| 0x80000000#32) = mem_ptr w := by
    have same : (w ||| 0x80000000#32) &&& MEM_MASK = w &&& MEM_MASK := by
      rw [BitVec.and_comm, BitVec.and_or_distrib_left, BitVec.and_comm MEM_MASK w]
      have none : MEM_MASK &&& 0x80000000#32 = 0#32 := by decide
      rw [none, BitVec.or_zero]
    rw [mem_ptr, mem_ptr, same]
  simp only [array_data, masked]
  rw [mem_ptr]
  split <;> rfl

section Attr

variable {α : Type} {src : Source} {p size o mode array direct_size e : Nat} {reserved : Bool}
  {read : Place → Decoded α}

/-- What is read of an element, once its index is. -/
theorem array_inside (covers : ∀ d, Covers (read d).reads d e) (some_ : 0 < e)
    (tight : reserved = true → e = direct_size + 2) (loose : reserved = false → e ≤ direct_size)
    (indexed : 2 ≤ mode) {last : Nat} :
    (∀ d, (array_data src array (src.index mode o) direct_size).value = some d →
        ∀ r ∈ (read d).reads, r.Inside p size) ↔
      Attr.Clear src last o ⟨mode, array, direct_size, reserved⟩ := by
  rw [array_data_place]
  simp only [Attr.Clear]
  by_cases far : mem_ptr (array_addr src.cp array (src.index mode o)) + direct_size > MEM1_SIZE
  · rw [if_pos far]
    constructor
    · intro _ _
      exact ⟨fun direct => by omega, fun _ near => by omega⟩
    · intro _ d none
      simp at none
  · rw [if_neg far]
    simp only [Option.some_inj, forall_eq', covers_ram (covers _) some_]
    cases reserved with
    | false =>
        have loose := loose rfl
        simp only [Bool.false_eq_true, false_implies, iff_true]
        omega
    | true =>
        rw [tight rfl]
        constructor
        · intro near _
          exact ⟨fun direct => by omega, fun _ _ => near⟩
        · intro clear
          exact (clear rfl).2 indexed (by omega)

theorem array_data_reads (src : Source) (array idx direct_size : Nat) :
    (array_data src array idx direct_size).reads = [] := by
  simp only [array_data]
  split <;> rfl

/-- An index of `n` bytes, and the element it selects. -/
theorem indexed_follows (covers : ∀ d, Covers (read d).reads d e) (some_ : 0 < e)
    (tight : reserved = true → e = direct_size + 2) (loose : reserved = false → e ≤ direct_size)
    (indexed : 2 ≤ mode) {n : Nat} {index : Decoded Nat} (value : index.value = src.index mode o)
    (covered : Covers index.reads (.stream o) n) (length : 0 < n)
    (wide : attr_size mode direct_size = n)
    (same : read_attr src mode o array direct_size read = (do
      let idx ← index
      let d ← array_data src array idx direct_size
      match d with
      | none => pure (none, o + n)
      | some d => do
          let v ← read d
          pure (some v, o + n))) :
    Follows src p size Prod.snd (read_attr src mode o array direct_size read) o
      [⟨mode, array, direct_size, reserved⟩] := by
  have total : sizes [⟨mode, array, direct_size, reserved⟩] = n := by
    simp [Attr.size, wide]
  rw [same]
  have element : (∀ d, (array_data src array (src.index mode o) direct_size).value = some d →
      ∀ r ∈ (read d).reads, r.Inside p size) ↔
        Attr.Clear src (p + size) o ⟨mode, array, direct_size, reserved⟩ :=
    array_inside covers some_ tight loose indexed
  rw [← value] at element
  constructor
  · rw [total]
    simp only [Decoded.bind_value]
    cases (array_data src array index.value direct_size).value <;> rfl
  · intro low high
    rw [total] at high
    have before : ∀ r ∈ index.reads, r.Inside p size :=
      (covers_inside covered length low).mpr high
    simp only [Clears, and_true]
    rw [← element]
    simp only [Decoded.bind_reads, array_data_reads, List.nil_append, List.mem_append]
    cases (array_data src array index.value direct_size).value with
    | none =>
        simp only [Decoded.pure_reads, List.not_mem_nil, or_false]
        exact iff_of_true before (by simp)
    | some d =>
        simp only [Decoded.bind_reads, Decoded.pure_reads, List.append_nil, Option.some_inj,
          forall_eq']
        constructor
        · intro all r member
          exact all r (.inr member)
        · rintro all r (member | member)
          · exact before r member
          · exact all r member

theorem read_attr_follows (small : mode < 4) (covers : ∀ d, Covers (read d).reads d e)
    (some_ : 0 < e) (tight : reserved = true → e = direct_size + 2)
    (loose : reserved = false → e ≤ direct_size) :
    Follows src p size Prod.snd (read_attr src mode o array direct_size read) o
      [⟨mode, array, direct_size, reserved⟩] := by
  have cases_ : mode = 0 ∨ mode = 1 ∨ mode = 2 ∨ mode = 3 := by omega
  rcases cases_ with rfl | rfl | rfl | rfl
  · exact ⟨rfl, fun _ _ => by simp [read_attr, attr_data, Clears, Attr.Clear]⟩
  · refine ⟨by simp [read_attr, attr_data, Attr.size, attr_size], fun low high => ?_⟩
    have reads : (read_attr src 1 o array direct_size read).reads = (read (.stream o)).reads := by
      simp [read_attr, attr_data]
    rw [reads, covers_inside (covers _) some_ low]
    simp only [Clears, and_true, Attr.Clear]
    simp only [sizes_cons, sizes_nil, Attr.size, attr_size] at high
    cases reserved with
    | false =>
        have loose := loose rfl
        simp only [Bool.false_eq_true, false_implies, iff_true]
        omega
    | true =>
        rw [tight rfl]
        simp
        omega
  · have value : (src.at_ (.stream o) 0).value = src.index 2 o := rfl
    refine indexed_follows covers some_ tight loose (by decide) value
      (covers_range _ 1) (by decide) rfl ?_
    simp only [read_attr, attr_data, bind_assoc, pure_bind] <;> rfl
  · have value : (src.be16 (.stream o)).value = src.index 3 o := rfl
    refine indexed_follows covers some_ tight loose (by decide) value
      (covers_range _ 2) (by decide) rfl ?_
    simp only [read_attr, attr_data, bind_assoc, pure_bind] <;> rfl

end Attr

/-! ### The values of an attribute -/

/-- The bytes of a component that are read. -/
def comp_width (fmt : Nat) : Nat := if fmt ≤ 1 then 1 else if fmt ≤ 3 then 2 else 4

theorem read_comp_reads (src : Source) (p : Place) (fmt frac : Nat) :
    (read_comp src p fmt frac).reads = (List.range (comp_width fmt)).map p.plus := by
  match fmt with
  | 0 => rfl
  | 1 => rfl
  | 2 => rfl
  | 3 => rfl
  | n + 4 =>
      have wide : comp_width (n + 4) = 4 := by
        rw [comp_width, if_neg (by omega), if_neg (by omega)]
      rw [wide]
      rfl

theorem plus_plus (d : Place) (i k : Nat) : (d.plus i).plus k = d.plus (i + k) := by
  cases d <;> simp [Place.plus, Nat.add_assoc]

theorem comp_bytes_le (fmt : Nat) : 0 < comp_bytes fmt ∧ comp_bytes fmt ≤ comp_width fmt := by
  simp only [comp_bytes, comp_width]
  split_ifs <;> omega

/-- Components that stand next to each other are read without a gap. -/
theorem read_comps_covers (src : Source) (d : Place) {n : Nat} (some_ : 0 < n) (fmt frac : Nat) :
    Covers (read_comps src d n fmt frac).reads d ((n - 1) * comp_bytes fmt + comp_width fmt) := by
  intro r
  obtain ⟨least, less⟩ := comp_bytes_le fmt
  simp only [read_comps, Decoded.each_reads, List.flatMap_map, read_comp_reads, List.mem_flatMap,
    List.mem_range, List.mem_map, plus_plus]
  constructor
  · rintro ⟨i, inside, k, low, rfl⟩
    refine ⟨i * comp_bytes fmt + k, ?_, rfl⟩
    have before : i * comp_bytes fmt ≤ (n - 1) * comp_bytes fmt :=
      Nat.mul_le_mul_right _ (by omega)
    omega
  · rintro ⟨j, inside, rfl⟩
    by_cases early : j / comp_bytes fmt ≤ n - 1
    · have rest := Nat.mod_lt j least
      refine ⟨j / comp_bytes fmt, by omega, j % comp_bytes fmt, by omega, ?_⟩
      rw [Nat.mul_comm, Nat.div_add_mod]
    · have past : (n - 1) * comp_bytes fmt ≤ j := by
        rw [Nat.mul_comm]
        exact (Nat.mul_le_mul_left _ (by omega)).trans (Nat.mul_div_le j _)
      refine ⟨n - 1, by omega, j - (n - 1) * comp_bytes fmt, by omega, ?_⟩
      rw [Nat.add_sub_cancel' past]

def color_width (fmt : Nat) : Nat := [2, 3, 3, 2, 3, 4, 4, 4].getD fmt 0

theorem read_color_covers (src : Source) (d : Place) {fmt : Nat} (small : fmt < 8) :
    Covers (read_color src d fmt).reads d (color_width fmt) := by
  have reads : (read_color src d fmt).reads = (List.range (color_width fmt)).map d.plus := by
    interval_cases fmt <;> rfl
  rw [reads]
  exact covers_range d _

/-! ### A vertex -/

def matrix_attr (lo i : Nat) : Attr := ⟨bits lo i 1, 0, 1, false⟩

def position_attr (lo a : Nat) : Attr where
  mode := bits lo 9 2
  array := 0
  direct_size := (if bits a 0 1 ≠ 0 then 3 else 2) * comp_bytes (bits a 1 3)
  reserved := 5 ≤ bits a 1 3

/-- Of a normal with three indices the first is read, and of one with nine
components the first three, with others after them. -/
def normal_attrs (lo a : Nat) : List Attr :=
  let mode := bits lo 11 2
  let nb := comp_bytes (bits a 10 3)
  if mode ≥ 2 ∧ bits a 9 1 ≠ 0 ∧ bits a 31 1 ≠ 0 then
    [⟨mode, 1, 3 * nb, 5 ≤ bits a 10 3⟩, ⟨mode, 1, 3 * nb, false⟩, ⟨mode, 1, 3 * nb, false⟩]
  else
    [⟨mode, 1, (if bits a 9 1 ≠ 0 then 9 else 3) * nb, 5 ≤ bits a 10 3 && bits a 9 1 = 0⟩]

def color_attr (mode array fmt : Nat) : Attr := ⟨mode, array, color_bytes fmt, false⟩

def texture_attr (hi : Nat) : (Nat × Nat × Nat) × Nat → Attr
  | ((elems, fmt, _), i) =>
      ⟨bits hi (2 * i) 2, 4 + i, (if elems ≠ 0 then 2 else 1) * comp_bytes fmt, 5 ≤ fmt⟩

/-- What a vertex has, in order. -/
def attrs (cp : Nat → Word) (vat : Nat) : List Attr :=
  let lo := (cp 0x50).toNat
  let hi := (cp 0x60).toNat
  let a := (cp (0x70 + vat)).toNat
  let b := (cp (0x80 + vat)).toNat
  let c := (cp (0x90 + vat)).toNat
  [matrix_attr lo 0] ++ ((List.range 8).map (fun i => matrix_attr lo (1 + i)) ++
    ([position_attr lo a] ++ (normal_attrs lo a ++
      ([color_attr (bits lo 13 2) 2 (bits a 14 3)] ++
        ([color_attr (bits lo 15 2) 3 (bits a 18 3)] ++
          (texture_formats a b c).zipIdx.map (texture_attr hi))))))

theorem bits_lt (w sh width : Nat) : bits w sh width < 2 ^ width :=
  Nat.mod_lt _ (Nat.two_pow_pos width)

/-- What `vertex_size` adds up is what the vertex has. -/
theorem vertex_size_eq (cp : Nat → Word) (vat : Nat) :
    vertex_size cp vat = sizes (attrs cp vat) := by
  have one (w i : Nat) : attr_size (bits w i 1) 1 = bits w i 1 := by
    have small : bits w i 1 < 2 := bits_lt w i 1
    generalize bits w i 1 = v at small
    interval_cases v <;> rfl
  have normal (lo a : Nat) : sizes (normal_attrs lo a) =
      if bits lo 11 2 ≥ 2 ∧ bits a 9 1 ≠ 0 ∧ bits a 31 1 ≠ 0 then
        3 * (if bits lo 11 2 = 2 then 1 else 2)
      else attr_size (bits lo 11 2) ((if bits a 9 1 ≠ 0 then 9 else 3) * comp_size (bits a 10 3)) := by
    have small : bits lo 11 2 < 4 := bits_lt lo 11 2
    simp only [normal_attrs]
    generalize bits lo 11 2 = mode at small
    split
    case isTrue three =>
      have indexed : mode = 2 ∨ mode = 3 := by omega
      rcases indexed with rfl | rfl <;> simp [Attr.size, attr_size]
    case isFalse =>
      simp [Attr.size]
      rfl
  simp only [vertex_size, attrs, sizes_append, sizes_cons, sizes_nil, normal]
  simp [matrix_attr, position_attr, color_attr, texture_attr, texture_formats, Attr.size, one,
    sizes, List.range_succ, List.zipIdx_cons, comp_bytes, comp_size, color_bytes, color_size]
  omega

section Vertex

variable {src : Source} {p size o : Nat}

theorem matrix_index_follows (lo i dflt : Nat) :
    Follows src p size Prod.snd (matrix_index src (bits lo i 1) dflt o) o [matrix_attr lo i] := by
  have small : bits lo i 1 < 2 := bits_lt lo i 1
  simp only [matrix_attr]
  generalize bits lo i 1 = v at small
  interval_cases v
  · exact ⟨rfl, fun _ _ => by simp [matrix_index, Clears, Attr.Clear]⟩
  · refine ⟨rfl, fun low high => ?_⟩
    simp only [sizes_cons, sizes_nil, Attr.size, attr_size] at high
    have inside : ∀ r ∈ (src.at_ (.stream o) 0).reads, r.Inside p size :=
      (covers_inside (covers_range (.stream o) 1) (by decide) low).mpr high
    exact iff_of_true inside ⟨by simp [Attr.Clear], trivial⟩

theorem texture_indices_follows (lo : Nat) (is : List Nat) :
    Follows src p size Prod.snd (texture_indices src lo o is) o
      (is.map fun i => matrix_attr lo (1 + i)) := by
  induction is generalizing o with
  | nil => exact .pure rfl
  | cons i is ih =>
      refine (matrix_index_follows lo (1 + i) _).bind fun v next => ?_
      rw [← next]
      exact ih.last fun vs => rfl

theorem comps_follows {mode array n count fmt : Nat} (frac : Nat) (small : mode < 4)
    (some_ : 0 < n) (some : 0 < count) (low : count ≤ n) :
    Follows src p size Prod.snd
      (read_attr src mode o array (n * comp_bytes fmt) fun d => read_comps src d count fmt frac) o
      [⟨mode, array, n * comp_bytes fmt, 5 ≤ fmt && count = n⟩] := by
  obtain ⟨least, most⟩ := comp_bytes_le fmt
  have each : (count - 1) * comp_bytes fmt + comp_bytes fmt = count * comp_bytes fmt := by
    rw [← Nat.succ_mul, Nat.succ_eq_add_one, Nat.sub_add_cancel some]
  have all : count * comp_bytes fmt ≤ n * comp_bytes fmt := Nat.mul_le_mul_right _ low
  refine read_attr_follows small (fun d => read_comps_covers src d some fmt frac) (by omega) ?_ ?_
  · intro reserved
    simp only [Bool.and_eq_true, decide_eq_true_eq] at reserved
    obtain ⟨wide, rfl⟩ := reserved
    have narrow : comp_bytes fmt = 2 := by
      simp only [comp_bytes]
      split_ifs <;> omega
    have four : comp_width fmt = 4 := by
      simp only [comp_width]
      split_ifs <;> omega
    omega
  · intro loose
    rw [Bool.and_eq_false_iff] at loose
    rcases loose with narrow | fewer
    · have small : fmt < 5 := by simpa using narrow
      have same : comp_width fmt = comp_bytes fmt := by
        interval_cases fmt <;> rfl
      omega
    · have less : count + 1 ≤ n := by
        have different : count ≠ n := by simpa using fewer
        omega
      have more : (count + 1) * comp_bytes fmt ≤ n * comp_bytes fmt :=
        Nat.mul_le_mul_right _ less
      have wide : comp_width fmt ≤ 2 * comp_bytes fmt := by
        simp only [comp_bytes, comp_width]
        split_ifs <;> omega
      rw [Nat.succ_mul] at more
      omega

theorem all_comps_follows {mode array n fmt : Nat} (frac : Nat) (small : mode < 4)
    (some_ : 0 < n) :
    Follows src p size Prod.snd
      (read_attr src mode o array (n * comp_bytes fmt) fun d => read_comps src d n fmt frac) o
      [⟨mode, array, n * comp_bytes fmt, 5 ≤ fmt⟩] := by
  have comps : Follows src p size Prod.snd
      (read_attr src mode o array (n * comp_bytes fmt) fun d => read_comps src d n fmt frac) o
      [⟨mode, array, n * comp_bytes fmt, 5 ≤ fmt && n = n⟩] :=
    comps_follows frac small some_ some_ (Nat.le_refl _)
  simpa only [decide_true, Bool.and_true] using comps

theorem some_comps {elems n : Nat} (some_ : 0 < n) : 0 < if elems ≠ 0 then n + 1 else n := by
  split <;> omega

theorem attr_data_follows {mode : Nat} (small : mode < 4) (array direct_size : Nat) :
    Follows src p size Prod.snd (attr_data src mode o array direct_size) o
      [⟨mode, array, direct_size, false⟩] := by
  have clear (last : Nat) : Clears src last o [⟨mode, array, direct_size, false⟩] := by
    simp [Clears, Attr.Clear]
  interval_cases mode
  · exact ⟨rfl, fun _ _ => iff_of_true (by simp [attr_data]) (clear _)⟩
  · exact ⟨rfl, fun _ _ => iff_of_true (by simp [attr_data]) (clear _)⟩
  · refine ⟨rfl, fun low high => iff_of_true ?_ (clear _)⟩
    have inside : ∀ r ∈ (src.at_ (.stream o) 0).reads, r.Inside p size :=
      (covers_inside (covers_range (.stream o) 1) (by decide) low).mpr high
    simpa [attr_data, array_data_reads] using inside
  · refine ⟨rfl, fun low high => iff_of_true ?_ (clear _)⟩
    have inside : ∀ r ∈ (src.be16 (.stream o)).reads, r.Inside p size :=
      (covers_inside (covers_range (.stream o) 2) (by decide) low).mpr high
    simpa [attr_data, array_data_reads] using inside

theorem normal_follows (lo a : Nat) :
    Follows src p size (fun v : Option (List Coord) × Bool × Nat => v.2.2) (read_normal src lo a o)
      o (normal_attrs lo a) := by
  have small : bits lo 11 2 < 4 := bits_lt lo 11 2
  simp only [read_normal, normal_attrs]
  generalize bits lo 11 2 = mode at small
  generalize (if bits a 10 3 = 1 then 6 else if bits a 10 3 = 3 then 14 else 0) = frac
  generalize bits a 10 3 = fmt
  have whole : Follows src p size Prod.snd
      (read_attr src mode o 1 (3 * comp_bytes fmt) fun d => read_comps src d 3 fmt frac) o
      [⟨mode, 1, 3 * comp_bytes fmt, 5 ≤ fmt⟩] := all_comps_follows frac small (by decide)
  have part : Follows src p size Prod.snd
      (read_attr src mode o 1 (9 * comp_bytes fmt) fun d => read_comps src d 3 fmt frac) o
      [⟨mode, 1, 9 * comp_bytes fmt, 5 ≤ fmt && 3 = 9⟩] :=
    comps_follows frac small (by decide) (by decide) (by decide)
  split
  case isTrue =>
    refine whole.bind fun v next => ?_
    rw [← next]
    refine (attr_data_follows small 1 _).bind fun v next => ?_
    rw [← next]
    exact (attr_data_follows small 1 _).last fun v => rfl
  case isFalse =>
    by_cases given : mode = 0
    · subst given
      exact ⟨rfl, fun _ _ => by simp [Clears, Attr.Clear]⟩
    · rw [if_pos given]
      cases nine : decide (bits a 9 1 = 0) with
      | true =>
          rw [decide_eq_true_eq] at nine
          simp only [nine, ne_eq, not_true_eq_false, if_false, Bool.and_true]
          exact whole.last fun v => rfl
      | false =>
          rw [decide_eq_false_iff_not] at nine
          have off : (decide (5 ≤ fmt) && decide (3 = 9)) = false := Bool.and_false _
          rw [off] at part
          rw [if_pos nine]
          simp only [Bool.and_false]
          exact part.last fun v => rfl

theorem texture_follows (hi : Nat) (tc : List ((Nat × Nat × Nat) × Nat)) :
    Follows src p size Prod.snd (read_textures src hi o tc) o (tc.map (texture_attr hi)) := by
  induction tc generalizing o with
  | nil => exact .pure rfl
  | cons t tc ih =>
      obtain ⟨⟨elems, fmt, frac⟩, i⟩ := t
      have small : bits hi (2 * i) 2 < 4 := bits_lt hi (2 * i) 2
      have here : Follows src p size Prod.snd
          (read_attr src (bits hi (2 * i) 2) o (4 + i)
            ((if elems ≠ 0 then 2 else 1) * comp_bytes fmt) fun d =>
              read_comps src d (if elems ≠ 0 then 2 else 1) fmt (if fmt = 4 then 0 else frac)) o
          [texture_attr hi ((elems, fmt, frac), i)] :=
        all_comps_follows _ small (some_comps (by decide))
      refine here.bind fun v next => ?_
      rw [← next]
      exact ih.last fun vs => rfl

theorem color_follows {mode : Nat} (small : mode < 4) (array : Nat) {fmt : Nat} (low : fmt < 8) :
    Follows src p size Prod.snd
      (read_attr src mode o array (color_bytes fmt) fun d => read_color src d fmt) o
      [color_attr mode array fmt] := by
  refine read_attr_follows small (fun d => read_color_covers src d low) ?_ (by simp) ?_
  · interval_cases fmt <;> decide
  · intro _
    interval_cases fmt <;> decide

theorem decode_vertex_follows (vat : Nat) :
    Follows src p size Prod.snd (decode_vertex src o vat) o (attrs src.cp vat) := by
  simp only [decode_vertex, attrs]
  generalize (src.cp 0x50).toNat = lo
  generalize (src.cp (0x70 + vat)).toNat = a
  refine (matrix_index_follows _ 0 _).bind fun v next => ?_
  rw [← next]
  refine (texture_indices_follows _ _).bind fun v next => ?_
  rw [← next]
  have position (o frac : Nat) : Follows src p size Prod.snd
      (read_attr src (bits lo 9 2) o 0
        ((if bits a 0 1 ≠ 0 then 3 else 2) * comp_bytes (bits a 1 3)) fun d =>
          read_comps src d (if bits a 0 1 ≠ 0 then 3 else 2) (bits a 1 3) frac) o
      [position_attr lo a] :=
    all_comps_follows frac (bits_lt lo 9 2) (some_comps (by decide))
  refine (position _ _).bind fun v next => ?_
  rw [← next]
  refine (normal_follows _ _).bind fun v next => ?_
  rw [← next]
  refine (color_follows (bits_lt _ _ _) 2 (bits_lt _ _ _)).bind fun v next => ?_
  rw [← next]
  refine (color_follows (bits_lt _ _ _) 3 (bits_lt _ _ _)).bind fun v next => ?_
  rw [← next]
  exact (texture_follows _ _).last fun v => rfl

end Vertex

/-- The pointer goes on by the vertex's size, over bytes of the vertex alone, and
an array's bytes are of MEM1. -/
structure Exact (src : Source) (p vat : Nat) : Prop where
  next : (decode_vertex src p vat).value.2 = p + vertex_size src.cp vat
  inside : ∀ r ∈ (decode_vertex src p vat).reads, r.Inside p (vertex_size src.cp vat)

theorem decode_vertex_next (src : Source) (p vat : Nat) :
    (decode_vertex src p vat).value.2 = p + vertex_size src.cp vat := by
  have follows : Follows src p 0 Prod.snd (decode_vertex src p vat) p (attrs src.cp vat) :=
    decode_vertex_follows vat
  rw [vertex_size_eq]
  exact follows.next

theorem decode_vertex_exact_iff (src : Source) (p vat : Nat) :
    Exact src p vat ↔
      Clears src (p + vertex_size src.cp vat) p (attrs src.cp vat) := by
  have follows : Follows src p (vertex_size src.cp vat) Prod.snd (decode_vertex src p vat) p
      (attrs src.cp vat) := decode_vertex_follows vat
  have inside := follows.inside (Nat.le_refl p) (by rw [vertex_size_eq])
  rw [← inside]
  exact ⟨Exact.inside, fun all => ⟨decode_vertex_next src p vat, all⟩⟩

/-- A position of three components of format 5, inline, and nothing else. -/
def reserved_position : Source where
  cp := fun reg => if reg = 0x50 then 0x200#32 else if reg = 0x70 then 0x0B#32 else 0#32
  xf := fun _ => 0#32
  stream := fun _ => 0#8
  mem := fun _ => 0#8
  pending_n := 0

/-- Six bytes of a vertex, of which the seventh and eighth are read. -/
theorem reserved_position_stray : ¬ ∀ (src : Source) (p vat : Nat), Exact src p vat := by
  intro all
  have inside := (all reserved_position 0 0).inside (.stream 7) (by decide)
  have size : vertex_size reserved_position.cp 0 = 6 := by decide
  rw [size] at inside
  exact absurd inside.2 (by decide)

end SoaPort.Gx
