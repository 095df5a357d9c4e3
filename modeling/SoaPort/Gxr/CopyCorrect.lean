import Mathlib.Data.List.Basic
import Mathlib.Tactic.Ring
import SoaPort.Gxr.Copy
import SoaPort.Lib.Scatter

namespace SoaPort.Gxr

open SoaPort.Lib

/-! A copy's image, decoded row by row as the rows are written, is the texture
decoded from memory once they all are: no row reads or writes another's bytes. -/

/-! Bytes of a tile, by the row of texels they belong to. -/

def texel_row (texfmt off : Nat) : Nat :=
  match texfmt with
  | 0 => off / 4
  | _ => off % 32 / 8

section Tile

variable {texfmt tw th bpt : Nat} (tiling : copy_tiling texfmt = (tw, th, bpt))

theorem copy_format_le {intensity : Bool} {fmt chan_a chan_b : Nat}
    (format : copy_format intensity fmt = some (texfmt, chan_a, chan_b)) : texfmt ≤ 6 := by
  unfold copy_format at format
  split at format
  · split at format
    · cases format
      omega
    · cases format
  · split at format
    all_goals
      cases format
      try decide

theorem copy_formats (known : texfmt ≤ 6) :
    texfmt = 0 ∨ texfmt = 1 ∨ texfmt = 2 ∨ texfmt = 3 ∨ texfmt = 4 ∨ texfmt = 5 ∨
      texfmt = 6 := by
  omega

include tiling in
theorem write_texel_frame (known : texfmt ≤ 6) {tile ix iy a : Nat} (px : Nat → Byte) (I : Nat)
    (mem : Ram) (column : ix < tw) (row : iy < th)
    (other : ∀ off < bpt, texel_row texfmt off = iy → a ≠ tile + off) :
    write_texel texfmt tile ix iy px I mem a = mem a := by
  obtain rfl | rfl | rfl | rfl | rfl | rfl | rfl := copy_formats known
  · cases tiling
    have apart := other (iy * 4 + ix / 2) (by omega) (by change _ / 4 = iy; omega)
    exact Function.update_of_ne apart _ mem
  iterate 2
    · cases tiling
      have apart := other (iy * 8 + ix) (by omega) (by change _ % 32 / 8 = iy; omega)
      exact Function.update_of_ne apart _ mem
  iterate 3
    · cases tiling
      have first := other ((iy * 4 + ix) * 2) (by omega) (by change _ % 32 / 8 = iy; omega)
      have second := other ((iy * 4 + ix) * 2 + 1) (by omega) (by change _ % 32 / 8 = iy; omega)
      have pair (u v : Byte) := (Function.update_of_ne second v _).trans
        (Function.update_of_ne first u mem)
      first
      | exact pair _ _
      | rcases Nat.lt_or_ge (px 3).toNat 224 with dark | bright
        · exact (congrFun (if_neg (Nat.not_le_of_lt dark)) a).trans (pair _ _)
        · exact (congrFun (if_pos bright) a).trans (pair _ _)
  · cases tiling
    have alpha := other ((iy * 4 + ix) * 2) (by omega) (by change _ % 32 / 8 = iy; omega)
    have red := other ((iy * 4 + ix) * 2 + 1) (by omega) (by change _ % 32 / 8 = iy; omega)
    have green := other ((iy * 4 + ix) * 2 + 32) (by omega) (by change _ % 32 / 8 = iy; omega)
    have blue := other ((iy * 4 + ix) * 2 + 33) (by omega) (by change _ % 32 / 8 = iy; omega)
    exact (Function.update_of_ne blue _ _).trans ((Function.update_of_ne green _ _).trans
      ((Function.update_of_ne red _ _).trans (Function.update_of_ne alpha _ mem)))

include tiling in
theorem decode_texel_congr (known : texfmt ≤ 6) {tile ix iy : Nat} (tmem : Ram) {mem mem' : Ram}
    (tlut_off tlut_fmt : Nat) (column : ix < tw) (row : iy < th)
    (same : ∀ off < bpt, texel_row texfmt off = iy → mem (tile + off) = mem' (tile + off)) :
    decode_texel tmem mem tile ix iy texfmt tlut_off tlut_fmt =
      decode_texel tmem mem' tile ix iy texfmt 0 0 := by
  obtain rfl | rfl | rfl | rfl | rfl | rfl | rfl := copy_formats known
  · cases tiling
    have nibbles := same (iy * 4 + ix / 2) (by omega) (by change _ / 4 = iy; omega)
    simp only [decode_texel, nibbles]
  iterate 2
    · cases tiling
      have single := same (iy * 8 + ix) (by omega) (by change _ % 32 / 8 = iy; omega)
      simp only [decode_texel, single]
  iterate 3
    · cases tiling
      have first := same ((iy * 4 + ix) * 2) (by omega) (by change _ % 32 / 8 = iy; omega)
      have second := same ((iy * 4 + ix) * 2 + 1) (by omega) (by change _ % 32 / 8 = iy; omega)
      rw [← Nat.add_assoc] at second
      simp only [decode_texel, half_word, first, second]
  · cases tiling
    have alpha := same ((iy * 4 + ix) * 2) (by omega) (by change _ % 32 / 8 = iy; omega)
    have red := same ((iy * 4 + ix) * 2 + 1) (by omega) (by change _ % 32 / 8 = iy; omega)
    have green := same ((iy * 4 + ix) * 2 + 32) (by omega) (by change _ % 32 / 8 = iy; omega)
    have blue := same ((iy * 4 + ix) * 2 + 33) (by omega) (by change _ % 32 / 8 = iy; omega)
    rw [← Nat.add_assoc] at red green blue
    simp only [decode_texel, alpha, red, green, blue]

/-! Two texels share no byte unless they are in one row. -/

def tile_at (base cols tw th bpt x y : Nat) : Nat := base + y / th * (cols * bpt) + x / tw * bpt

theorem digits_unique {n a b c d : Nat} (hb : b < n) (hd : d < n)
    (same : a * n + b = c * n + d) : a = c ∧ b = d := by
  have positive : 0 < n := Nat.zero_lt_of_lt hb
  have high := congrArg (· / n) same
  have low := congrArg (· % n) same
  simp only [Nat.mul_comm _ n, Nat.mul_add_div positive, Nat.mul_add_mod, Nat.div_eq_of_lt hb,
    Nat.div_eq_of_lt hd, Nat.mod_eq_of_lt hb, Nat.mod_eq_of_lt hd, Nat.add_zero] at high low
  exact ⟨high, low⟩

theorem tile_column_lt {tw w x : Nat} (positive : 0 < tw) (inside : x < w) :
    x / tw < (w + tw - 1) / tw := by
  rw [Nat.div_lt_iff_lt_mul positive]
  have covers := Nat.lt_div_mul_add (a := w + tw - 1) positive
  omega

/-- The bytes the texels of row `y` are stored in. -/
def RowByte (base cols tw th bpt texfmt ow y a : Nat) : Prop :=
  ∃ x < ow, ∃ off < bpt, a = tile_at base cols tw th bpt x y + off ∧
    texel_row texfmt off = y % th

theorem tile_at_unique {base cols tw th bpt x x' y y' off off' : Nat} (column : x / tw < cols)
    (column' : x' / tw < cols) (inside : off < bpt) (inside' : off' < bpt)
    (same : tile_at base cols tw th bpt x y + off = tile_at base cols tw th bpt x' y' + off') :
    y / th = y' / th ∧ off = off' := by
  have flat (x y off : Nat) : tile_at base cols tw th bpt x y + off =
      base + ((y / th * cols + x / tw) * bpt + off) := by
    unfold tile_at
    ring
  rw [flat, flat] at same
  obtain ⟨tile, offset⟩ := digits_unique inside inside' (Nat.add_left_cancel same)
  exact ⟨(digits_unique column column' tile).1, offset⟩

theorem row_of_byte {base cols tw th bpt ow y a x' off' y' : Nat}
    (columns : ∀ x < ow, x / tw < cols) (byte : RowByte base cols tw th bpt texfmt ow y a)
    (column' : x' < ow) (inside' : off' < bpt) (row' : texel_row texfmt off' = y' % th)
    (same : a = tile_at base cols tw th bpt x' y' + off') : y = y' := by
  obtain ⟨x, column, off, inside, place, row⟩ := byte
  obtain ⟨tile, rfl⟩ := tile_at_unique (columns x column) (columns x' column') inside inside'
    (place.symm.trans same)
  rw [← Nat.div_add_mod y th, ← Nat.div_add_mod y' th, tile, ← row, ← row']

end Tile

/-! The two decoders. -/

section Decoders

variable {texfmt tw th bpt : Nat} (tiling : copy_tiling texfmt = (tw, th, bpt))

theorem row_tiling_eq (known : texfmt ≤ 6) : row_tiling texfmt = some (copy_tiling texfmt) := by
  obtain rfl | rfl | rfl | rfl | rfl | rfl | rfl := copy_formats known
  all_goals rfl

theorem level_tiling_eq (known : texfmt ≤ 6) : level_tiling texfmt = copy_tiling texfmt := by
  obtain rfl | rfl | rfl | rfl | rfl | rfl | rfl := copy_formats known
  all_goals rfl

include tiling in
theorem tiling_pos : 0 < tw ∧ 0 < th ∧ 0 < bpt := by
  unfold copy_tiling at tiling
  split at tiling
  all_goals
    cases tiling
    decide

/-- The texels of a row, tile by tile, the last tile cut at the edge. -/
def row_steps (tw w : Nat) : List (Nat × Nat) :=
  (List.range ((w + tw - 1) / tw)).flatMap fun tx =>
    ((List.range tw).takeWhile fun ix => tx * tw + ix < w).map fun ix => (tx, ix)

theorem mem_row_steps {tw w x : Nat} (positive : 0 < tw) (inside : x < w) :
    (x / tw, x % tw) ∈ row_steps tw w := by
  refine List.mem_flatMap.mpr ⟨x / tw, ?_, ?_⟩
  · exact List.mem_range.mpr (tile_column_lt positive inside)
  · refine List.mem_map.mpr ⟨x % tw, mem_takeWhile_range (Nat.mod_lt x positive) ?_, rfl⟩
    intro j before
    have split := Nat.div_add_mod x tw
    rw [Nat.mul_comm] at split
    exact decide_eq_true (by omega)

theorem row_steps_inside {tw w : Nat} {step : Nat × Nat} (member : step ∈ row_steps tw w) :
    step.2 < tw ∧ step.1 * tw + step.2 < w := by
  obtain ⟨tx, _, listed⟩ := List.mem_flatMap.mp member
  obtain ⟨ix, taken, rfl⟩ := List.mem_map.mp listed
  have within := List.mem_range.mp ((List.takeWhile_prefix _).subset taken)
  have uncut := List.mem_takeWhile_imp taken
  exact ⟨within, of_decide_eq_true uncut⟩

include tiling in
theorem tex_decode_row_eq (known : texfmt ≤ 6) (tmem mem : Ram) (base w y : Nat) (out : Texels) :
    tex_decode_row tmem mem base texfmt w y out =
      scatter (fun step => y * w + (step.1 * tw + step.2))
        (fun step => decode_texel tmem mem
          (base + y / th * ((w + tw - 1) / tw) * bpt + step.1 * bpt) step.2 (y % th) texfmt 0 0)
        (row_steps tw w) out := by
  unfold tex_decode_row
  rw [row_tiling_eq known, tiling, row_steps, scatter_flatMap]
  dsimp only
  congr 1
  funext out tx
  unfold scatter
  rw [List.foldl_map]

/-- The texels of a texture as `decode_level` takes them: tile by tile, row by
row of the tile. -/
def level_steps (tw th w h : Nat) : List ((Nat × Nat) × (Nat × Nat)) :=
  (List.range ((h + th - 1) / th)).flatMap fun ty =>
    (List.range ((w + tw - 1) / tw)).flatMap fun tx =>
      ((List.range th).takeWhile fun iy => ty * th + iy < h).flatMap fun iy =>
        ((List.range tw).takeWhile fun ix => tx * tw + ix < w).map fun ix => ((ty, tx), (iy, ix))

theorem mem_level_steps {tw th w h x y : Nat} (wide : 0 < tw) (tall : 0 < th) (column : x < w)
    (row : y < h) : ((y / th, x / tw), (y % th, x % tw)) ∈ level_steps tw th w h := by
  have below {n k d : Nat} (positive : 0 < d) (inside : k < n) :
      k % d ∈ (List.range d).takeWhile fun i => k / d * d + i < n := by
    apply mem_takeWhile_range (Nat.mod_lt k positive)
    intro j before
    have split := Nat.div_add_mod k d
    rw [Nat.mul_comm] at split
    exact decide_eq_true (by omega)
  refine List.mem_flatMap.mpr ⟨y / th, List.mem_range.mpr (tile_column_lt tall row), ?_⟩
  refine List.mem_flatMap.mpr ⟨x / tw, List.mem_range.mpr (tile_column_lt wide column), ?_⟩
  refine List.mem_flatMap.mpr ⟨y % th, below tall row, ?_⟩
  exact List.mem_map.mpr ⟨x % tw, below wide column, rfl⟩

theorem level_steps_inside {tw th w h : Nat} {step : (Nat × Nat) × (Nat × Nat)}
    (member : step ∈ level_steps tw th w h) :
    (step.2.1 < th ∧ step.1.1 * th + step.2.1 < h) ∧
      (step.2.2 < tw ∧ step.1.2 * tw + step.2.2 < w) := by
  obtain ⟨ty, _, listed⟩ := List.mem_flatMap.mp member
  obtain ⟨tx, _, listed⟩ := List.mem_flatMap.mp listed
  obtain ⟨iy, row, listed⟩ := List.mem_flatMap.mp listed
  obtain ⟨ix, column, rfl⟩ := List.mem_map.mp listed
  have rows := List.mem_range.mp ((List.takeWhile_prefix _).subset row)
  have columns := List.mem_range.mp ((List.takeWhile_prefix _).subset column)
  have bottom := List.mem_takeWhile_imp row
  have edge := List.mem_takeWhile_imp column
  exact ⟨⟨rows, of_decide_eq_true bottom⟩, ⟨columns, of_decide_eq_true edge⟩⟩

include tiling in
theorem decode_level_eq (known : texfmt ≤ 6) (tmem mem : Ram) (addr w h tlut_off tlut_fmt : Nat)
    (out : Texels) (start : mem_ptr addr < MEM1_SIZE)
    (inside : ∀ ty < (h + th - 1) / th, ∀ tx < (w + tw - 1) / tw,
      mem_ptr addr + (ty * ((w + tw - 1) / tw) + tx) * bpt + bpt ≤ MEM1_SIZE) :
    decode_level tmem mem addr texfmt w h tlut_off tlut_fmt out =
      scatter (fun step => (step.1.1 * th + step.2.1) * w + (step.1.2 * tw + step.2.2))
        (fun step => decode_texel tmem mem
          (mem_ptr addr + (step.1.1 * ((w + tw - 1) / tw) + step.1.2) * bpt) step.2.2 step.2.1
          texfmt tlut_off tlut_fmt)
        (level_steps tw th w h) out := by
  unfold decode_level
  rw [if_neg (Nat.not_le_of_lt start), level_tiling_eq known, tiling, level_steps, scatter_flatMap]
  dsimp only
  rw [if_neg (by omega)]
  apply List.foldl_ext
  intro out ty row
  rw [scatter_flatMap]
  apply List.foldl_ext
  intro out tx column
  rw [if_neg (Nat.not_lt_of_le (inside ty (List.mem_range.mp row) tx (List.mem_range.mp column))),
    scatter_flatMap]
  unfold decode_tile scatter
  simp only [List.foldl_map]

theorem div_mod_digits {d x : Nat} : x / d * d + x % d = x := by
  rw [Nat.mul_comm]
  exact Nat.div_add_mod x d

include tiling in
theorem row_decoded (known : texfmt ≤ 6) (tmem mem : Ram) (base : Nat) {w x y : Nat}
    (out : Texels) (column : x < w) :
    tex_decode_row tmem mem base texfmt w y out (y * w + x) =
      decode_texel tmem mem (tile_at base ((w + tw - 1) / tw) tw th bpt x y) (x % tw) (y % th)
        texfmt 0 0 := by
  obtain ⟨wide, _, _⟩ := tiling_pos tiling
  rw [tex_decode_row_eq tiling known]
  apply scatter_of_mem
  · exact ⟨_, mem_row_steps wide column, congrArg (y * w + ·) div_mod_digits⟩
  · intro step member named
    obtain ⟨within, _⟩ := row_steps_inside member
    have place : step.1 * tw + step.2 = x / tw * tw + x % tw :=
      (Nat.add_left_cancel named).trans div_mod_digits.symm
    obtain ⟨tile, offset⟩ := digits_unique within (Nat.mod_lt x wide) place
    rw [tile, offset, tile_at, Nat.mul_assoc]

include tiling in
theorem row_others (known : texfmt ≤ 6) (tmem mem : Ram) (base : Nat) {w x y y' : Nat}
    (out : Texels) (column : x < w) (other : y' ≠ y) :
    tex_decode_row tmem mem base texfmt w y' out (y * w + x) = out (y * w + x) := by
  rw [tex_decode_row_eq tiling known]
  apply scatter_of_ne
  intro step member named
  exact other (digits_unique (row_steps_inside member).2 column named).1

include tiling in
theorem level_decoded (known : texfmt ≤ 6) (tmem mem : Ram) (addr tlut_off tlut_fmt : Nat)
    {w h x y : Nat} (out : Texels) (column : x < w) (row : y < h)
    (start : mem_ptr addr < MEM1_SIZE)
    (inside : ∀ ty < (h + th - 1) / th, ∀ tx < (w + tw - 1) / tw,
      mem_ptr addr + (ty * ((w + tw - 1) / tw) + tx) * bpt + bpt ≤ MEM1_SIZE) :
    decode_level tmem mem addr texfmt w h tlut_off tlut_fmt out (y * w + x) =
      decode_texel tmem mem (tile_at (mem_ptr addr) ((w + tw - 1) / tw) tw th bpt x y) (x % tw)
        (y % th) texfmt tlut_off tlut_fmt := by
  obtain ⟨wide, tall, _⟩ := tiling_pos tiling
  rw [decode_level_eq tiling known tmem mem addr w h tlut_off tlut_fmt out start inside]
  apply scatter_of_mem
  · refine ⟨_, mem_level_steps wide tall column row, ?_⟩
    rw [div_mod_digits, div_mod_digits]
  · intro step member named
    obtain ⟨⟨rows, _⟩, ⟨columns, edge⟩⟩ := level_steps_inside member
    obtain ⟨line, place⟩ := digits_unique edge column named
    obtain ⟨ty, iy⟩ := digits_unique rows (Nat.mod_lt y tall) (line.trans div_mod_digits.symm)
    obtain ⟨tx, ix⟩ := digits_unique columns (Nat.mod_lt x wide) (place.trans div_mod_digits.symm)
    have tile : mem_ptr addr + (y / th * ((w + tw - 1) / tw) + x / tw) * bpt =
        tile_at (mem_ptr addr) ((w + tw - 1) / tw) tw th bpt x y := by
      unfold tile_at
      ring
    rw [ty, iy, tx, ix, tile]

end Decoders

/-! The rows of one copy, in any order. -/

section Rows

/-- Every row is run whole, its texels before its image row; rows may come in
any order, and one in the middle of another. -/
structure Interleaves (D : CopyCmd) (trace : List Event) : Prop where
  inside : ∀ e ∈ trace, e.row < D.oh
  rows : ∀ y < D.oh, trace.filter (fun e => e.row = y) = row_events D.ow y

variable {luma : Byte → Byte → Byte → Nat} {tmem : Ram} {efb : Efb} {D : CopyCmd}
  {texfmt chan_a chan_b tw th bpt : Nat} (tiling : copy_tiling texfmt = (tw, th, bpt))

theorem mem_ptr_cached (addr : Nat) : mem_ptr (addr ||| 0x80000000) = mem_ptr addr := by
  unfold mem_ptr
  rw [Nat.and_or_distrib_right]
  exact Nat.or_zero _

/-- The columns of tiles of a copy. -/
def CopyCmd.cols (D : CopyCmd) (tw : Nat) : Nat := (D.ow + tw - 1) / tw

include tiling in
theorem row_bytes_packed (packed : D.row_bytes texfmt = D.natural texfmt) :
    D.row_bytes texfmt = D.cols tw * bpt := by
  rw [packed, CopyCmd.natural, tiling]
  rfl

include tiling in
/-- Writing a texel changes no byte of another row. -/
theorem copy_texel_other (known : texfmt ≤ 6) {x y y' a : Nat} (mem : Ram) (column : x < D.ow)
    (other : y ≠ y')
    (byte : RowByte (mem_ptr D.dest) (D.cols tw) tw th bpt texfmt D.ow y' a) :
    copy_texel luma efb D texfmt chan_a chan_b (D.cols tw * bpt) x y mem a = mem a := by
  obtain ⟨wide, tall, _⟩ := tiling_pos tiling
  have apart : ∀ off < bpt, texel_row texfmt off = y % th →
      a ≠ mem_ptr D.dest + y / th * (D.cols tw * bpt) + x / tw * bpt + off := by
    intro off inside row same
    have rows := row_of_byte (fun x' inside' => tile_column_lt wide inside') byte column inside row
      same
    exact other rows.symm
  have kept (px : Nat → Byte) (I : Nat) := write_texel_frame tiling known px I mem
    (Nat.mod_lt x wide) (Nat.mod_lt y tall) apart
  unfold copy_texel
  rw [tiling]
  dsimp only
  rw [mem_ptr_cached]
  split
  · exact kept _ _
  · exact kept _ _

theorem Interleaves.column {trace : List Event} (order : Interleaves D trace) {x y : Nat}
    (member : Event.texel x y ∈ trace) : x < D.ow := by
  have listed : Event.texel x y ∈ trace.filter fun e => e.row = y :=
    List.mem_filter.mpr ⟨member, decide_eq_true rfl⟩
  rw [order.rows y (order.inside _ member), row_events] at listed
  rcases List.mem_append.mp listed with texel | decode
  · obtain ⟨x', column, same⟩ := List.mem_map.mp texel
    cases same
    exact List.mem_range.mp column
  · cases List.mem_singleton.mp decode

include tiling in
/-- What other rows do leaves a row's bytes, and its row of the image. -/
theorem run_others (known : texfmt ≤ 6) (packed : D.row_bytes texfmt = D.natural texfmt) {y : Nat}
    {trace : List Event} (others : ∀ e ∈ trace, e.row ≠ y)
    (columns : ∀ x y', Event.texel x y' ∈ trace → x < D.ow) (s : Made) :
    (∀ a, RowByte (mem_ptr D.dest) (D.cols tw) tw th bpt texfmt D.ow y a →
      (run luma tmem efb D texfmt chan_a chan_b trace s).mem a = s.mem a) ∧
    ∀ x < D.ow, (run luma tmem efb D texfmt chan_a chan_b trace s).image (y * D.ow + x) =
      s.image (y * D.ow + x) := by
  induction trace generalizing s with
  | nil => exact ⟨fun _ _ => rfl, fun _ _ => rfl⟩
  | cons e trace ih =>
      have rest := ih (fun e' later => others e' (List.mem_cons_of_mem e later))
        (fun x y' later => columns x y' (List.mem_cons_of_mem e later))
        (exec luma tmem efb D texfmt chan_a chan_b s e)
      have other := others e List.mem_cons_self
      cases e with
      | texel x' y' =>
          refine ⟨fun a byte => (rest.1 a byte).trans ?_, rest.2⟩
          change copy_texel luma efb D texfmt chan_a chan_b (D.row_bytes texfmt) x' y' s.mem a = _
          rw [row_bytes_packed tiling packed]
          exact copy_texel_other tiling known s.mem (columns x' y' List.mem_cons_self) other byte
      | decode y' =>
          have same : (exec luma tmem efb D texfmt chan_a chan_b s (.decode y')).mem = s.mem := by
            simp only [exec]
            split
            · rfl
            · rfl
          refine ⟨fun a byte => (rest.1 a byte).trans (congrFun same a), ?_⟩
          intro x column
          refine (rest.2 x column).trans ?_
          simp only [exec]
          split
          · exact row_others tiling known tmem s.mem _ s.image column other
          · rfl

include tiling in
theorem tiles_inside (packed : D.row_bytes texfmt = D.natural texfmt)
    (fits : D.fits texfmt = true) {ty tx : Nat} (row : ty < (D.oh + th - 1) / th)
    (column : tx < D.cols tw) :
    mem_ptr D.dest + (ty * D.cols tw + tx) * bpt + bpt ≤ MEM1_SIZE := by
  unfold CopyCmd.fits at fits
  rw [row_bytes_packed tiling packed, tiling] at fits
  have bound := of_decide_eq_true fits
  unfold copy_extent at bound
  rw [if_pos ⟨Nat.ne_of_gt (Nat.zero_lt_of_lt row), Nat.ne_of_gt (Nat.zero_lt_of_lt column)⟩] at bound
  have last : ty ≤ (D.oh + th - 1) / th - 1 := Nat.le_sub_one_of_lt row
  have rows : ty * (D.cols tw * bpt) ≤ ((D.oh + th - 1) / th - 1) * (D.cols tw * bpt) :=
    Nat.mul_le_mul_right _ last
  have columns : (tx + 1) * bpt ≤ D.cols tw * bpt := Nat.mul_le_mul_right _ column
  have place : (ty * D.cols tw + tx) * bpt + bpt = ty * (D.cols tw * bpt) + (tx + 1) * bpt := by
    ring
  change mem_ptr D.dest + (((D.oh + th - 1) / th - 1) * (D.cols tw * bpt) + D.cols tw * bpt) ≤
    MEM1_SIZE at bound
  omega

/-! Whole rows in any order, and the pool's threads, are such runs. -/

theorem row_of_mem {ow y : Nat} {e : Event} (member : e ∈ row_events ow y) : e.row = y := by
  rcases List.mem_append.mp member with texel | decode
  · obtain ⟨x, _, rfl⟩ := List.mem_map.mp texel
    rfl
  · rw [List.mem_singleton.mp decode]
    rfl

theorem filter_rows (ow y : Nat) {ys : List Nat} (distinct : ys.Nodup) :
    (ys.flatMap (row_events ow)).filter (fun e => e.row = y) =
      if y ∈ ys then row_events ow y else [] := by
  induction ys with
  | nil => rfl
  | cons y' ys ih =>
      obtain ⟨fresh, distinct⟩ := List.nodup_cons.mp distinct
      rw [List.flatMap_cons, List.filter_append, ih distinct]
      by_cases here : y' = y
      · subst here
        have all : (row_events ow y').filter (fun e => e.row = y') = row_events ow y' :=
          List.filter_eq_self.mpr fun e member => decide_eq_true (row_of_mem member)
        rw [all, if_neg fresh, if_pos List.mem_cons_self, List.append_nil]
      · have none : (row_events ow y').filter (fun e => e.row = y) = [] := by
          refine List.filter_eq_nil_iff.mpr fun e member => ?_
          rw [row_of_mem member, decide_eq_true_eq]
          exact here
        have other : y ∈ y' :: ys ↔ y ∈ ys := by
          rw [List.mem_cons]
          exact or_iff_right fun same => here same.symm
        rw [none, List.nil_append]
        simp only [other]

theorem interleaves_rows {ys : List Nat} (perm : ys.Perm (List.range D.oh)) :
    Interleaves D (ys.flatMap (row_events D.ow)) := by
  constructor
  · intro e member
    obtain ⟨y, listed, row⟩ := List.mem_flatMap.mp member
    rw [row_of_mem row]
    exact List.mem_range.mp (perm.mem_iff.mp listed)
  · intro y row
    have distinct : ys.Nodup := perm.nodup_iff.mpr List.nodup_range
    rw [filter_rows D.ow y distinct, if_pos (perm.mem_iff.mpr (List.mem_range.mpr row))]

/-- The thread that takes row `y`. -/
def CopyCmd.owner (D : CopyCmd) (nthreads y : Nat) : Nat :=
  (if D.half then 2 * y else y) % nthreads + 1

theorem takes_owner (nthreads y : Nat) : D.takes nthreads (D.owner nthreads y) y = true := by
  unfold CopyCmd.takes CopyCmd.owner my_row
  cases D.half with
  | false => simp
  | true => simp

/-- Each thread goes through its own rows; the threads in any interleaving. -/
theorem interleaves_threads {nthreads : Nat} {trace : List Event}
    (inside : ∀ e ∈ trace, e.row < D.oh)
    (threads : ∀ y < D.oh, trace.filter (fun e => D.takes nthreads (D.owner nthreads y) e.row) =
      thread_events D nthreads (D.owner nthreads y)) :
    Interleaves D trace := by
  refine ⟨inside, fun y row => ?_⟩
  have mine := congrArg (List.filter fun e => e.row = y) (threads y row)
  rw [List.filter_filter] at mine
  have same : ∀ e ∈ trace, (decide (e.row = y) && D.takes nthreads (D.owner nthreads y) e.row) =
      decide (e.row = y) := by
    intro e _
    by_cases here : e.row = y
    · rw [here, takes_owner, Bool.and_true]
    · rw [decide_eq_false here, Bool.false_and]
  rw [List.filter_congr same, thread_events, filter_rows D.ow y (List.nodup_range.filter _)] at mine
  have listed : y ∈ (List.range D.oh).filter (D.takes nthreads (D.owner nthreads y)) :=
    List.mem_filter.mpr ⟨List.mem_range.mpr row, takes_owner nthreads y⟩
  rw [if_pos listed] at mine
  exact mine

theorem takes_alone {nthreads : Nat} (alone : nthreads ≤ 1) (tid y : Nat) :
    D.takes nthreads tid y = true := by
  have mine (y : Nat) : my_row nthreads tid y = true := by
    rw [my_row, decide_eq_true alone, Bool.true_or]
  unfold CopyCmd.takes
  rw [mine, mine, mine]
  cases D.half with
  | false => rfl
  | true => rfl

/-- With no workers the rows go in order. -/
theorem copy_to_texture_alone {nthreads : Nat} (alone : nthreads ≤ 1) (tid : Nat)
    (format : copy_format D.intensity D.fmt = some (texfmt, chan_a, chan_b))
    (fits : D.fits texfmt = true) (s : Made) :
    copy_to_texture luma tmem efb D nthreads tid s =
      run luma tmem efb D texfmt chan_a chan_b
        ((List.range D.oh).flatMap (row_events D.ow)) s := by
  have all : (List.range D.oh).filter (D.takes nthreads tid) = List.range D.oh :=
    List.filter_eq_self.mpr fun y _ => takes_alone alone tid y
  unfold copy_to_texture thread_events
  rw [format, all]
  exact if_neg (not_not_intro fits)

end Rows

/-- The image a copy builds row by row, each row decoded as its owner finishes
it and the rows in any order, is the texture decoded from memory afterwards. -/
theorem copy_image_decoded (luma : Byte → Byte → Byte → Nat) (tmem : Ram) (efb : Efb)
    (D : CopyCmd) {texfmt chan_a chan_b : Nat}
    (format : copy_format D.intensity D.fmt = some (texfmt, chan_a, chan_b))
    (imaged : D.cp_image = true) (packed : D.row_bytes texfmt = D.natural texfmt)
    (fits : D.fits texfmt = true) {trace : List Event} (order : Interleaves D trace) (s : Made)
    (out : Texels) (tlut_off tlut_fmt : Nat) {x y : Nat} (column : x < D.ow) (row : y < D.oh) :
    (run luma tmem efb D texfmt chan_a chan_b trace s).image (y * D.ow + x) =
      decode_level tmem (run luma tmem efb D texfmt chan_a chan_b trace s).mem D.dest texfmt D.ow
        D.oh tlut_off tlut_fmt out (y * D.ow + x) := by
  have known := copy_format_le format
  obtain ⟨⟨tw, th, bpt⟩, tiling⟩ : ∃ t, copy_tiling texfmt = t := ⟨_, rfl⟩
  obtain ⟨wide, tall, some_bytes⟩ := tiling_pos tiling
  have inside : ∀ ty < (D.oh + th - 1) / th, ∀ tx < D.cols tw,
      mem_ptr D.dest + (ty * D.cols tw + tx) * bpt + bpt ≤ MEM1_SIZE :=
    fun ty below tx beside => tiles_inside tiling packed fits below beside
  have start : mem_ptr D.dest < MEM1_SIZE := by
    have first := inside _ (tile_column_lt tall row) _ (tile_column_lt wide column)
    omega
  -- the row's last event is its decode
  have mine := order.rows y row
  rw [row_events] at mine
  obtain ⟨before, after, rfl, _, decoded⟩ := List.filter_eq_append_iff.mp mine
  obtain ⟨between, rest, rfl, _, _, none⟩ := List.filter_eq_cons_iff.mp decoded
  have others : ∀ e ∈ rest, e.row ≠ y := by
    intro e member same
    have listed : e ∈ rest.filter fun e => e.row = y :=
      List.mem_filter.mpr ⟨member, decide_eq_true same⟩
    rw [none] at listed
    cases listed
  have columns : ∀ x y', Event.texel x y' ∈ rest → x < D.ow := by
    intro x y' member
    apply order.column (y := y')
    simp [member]
  let s₁ := run luma tmem efb D texfmt chan_a chan_b (before ++ between) s
  let s₂ := exec luma tmem efb D texfmt chan_a chan_b s₁ (.decode y)
  have made : run luma tmem efb D texfmt chan_a chan_b (before ++ (between ++ .decode y :: rest)) s =
      run luma tmem efb D texfmt chan_a chan_b rest s₂ := by
    rw [← List.append_assoc]
    unfold run
    rw [List.foldl_append]
    rfl
  obtain ⟨bytes, image⟩ :=
    @run_others luma tmem efb D _ chan_a chan_b _ _ _ tiling known packed _ _ others columns s₂
  have decode : s₂ =
      ⟨s₁.mem, tex_decode_row tmem s₁.mem (mem_ptr D.dest) texfmt D.ow y s₁.image⟩ := by
    rw [← mem_ptr_cached]
    exact if_pos imaged
  rw [made, image x column, level_decoded tiling known tmem _ D.dest tlut_off tlut_fmt out column row
    start inside, decode]
  refine (row_decoded tiling known tmem s₁.mem (mem_ptr D.dest) s₁.image column).trans ?_
  symm
  apply decode_texel_congr tiling known tmem tlut_off tlut_fmt (Nat.mod_lt x wide)
    (Nat.mod_lt y tall)
  intro off small line
  have kept := bytes (tile_at (mem_ptr D.dest) (D.cols tw) tw th bpt x y + off)
    ⟨x, column, off, small, rfl, line⟩
  rw [decode] at kept
  exact kept

/-- A 2x2 copy to RGB565, its second row first. -/
theorem copy_image_decoded_two_rows :
    let D : CopyCmd := ⟨0x40, 0, 0x401, 0x8000, 0, 0, 64, 0, true⟩
    let trace := [1, 0].flatMap (row_events D.ow)
    let made := run (fun r g b => (257 * r.toNat + 504 * g.toNat + 98 * b.toNat + 16000) / 1000)
      (fun _ => 0) (fun _ _ _ => 0xA5) D 4 0 3 trace ⟨fun _ => 0, fun _ => ⟨0, 0, 0, 0⟩⟩
    made.image (1 * D.ow + 1) =
      decode_level (fun _ => 0) made.mem D.dest 4 D.ow D.oh 0 0 (fun _ => ⟨0, 0, 0, 0⟩)
        (1 * D.ow + 1) :=
  copy_image_decoded _ (fun _ => 0) _ ⟨0x40, 0, 0x401, 0x8000, 0, 0, 64, 0, true⟩ (by decide) rfl
    (by decide) (by decide) (interleaves_rows (by decide)) _ _ 0 0 (by decide) (by decide)

end SoaPort.Gxr
