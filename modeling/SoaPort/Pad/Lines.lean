import Mathlib.Data.List.Basic
import SoaPort.Pad.State

namespace SoaPort.Pad

open Lib

/-! What a line says is what was written. -/

section Tokens

variable {t tail : Text}

/-- A field: some characters, none of them a blank or an end of line, and the
first not the # of a comment. -/
structure Field (t : Text) : Prop where
  some_char : t ≠ []
  whole : ∀ c ∈ t, ends_token c = false
  no_comment : ∀ c ∈ t.head?, c ≠ '#'

/-- The same, as a check of the text. -/
def field_check (t : Text) : Bool :=
  !t.isEmpty && t.all (fun c => !ends_token c) && t.head? != some '#'

theorem Field.of_check {t : Text} (check : field_check t = true) : Field t := by
  simp only [field_check, Bool.and_eq_true, Bool.not_eq_true', List.isEmpty_eq_false_iff,
    List.all_eq_true, bne_iff_ne] at check
  obtain ⟨⟨some_char, whole⟩, no_comment⟩ := check
  refine ⟨some_char, whole, fun c head same => no_comment ?_⟩
  rw [Option.mem_def.mp head, same]

/-- What may follow a field. -/
def Separated (tail : Text) : Prop := ∀ c ∈ tail.head?, ends_token c = true

theorem separated_nil : Separated [] := by simp [Separated]

theorem separated_blank (rest : Text) : Separated (' ' :: rest) := by
  intro c member
  cases member
  rfl

theorem pad_token_field (field : Field t) (sep : Separated tail) :
    pad_token (t ++ tail) = (some t, tail.drop 1) := by
  have stop : ∀ c ∈ tail.head?, (!ends_token c) = false := fun c member => by rw [sep c member]; rfl
  have all : ∀ c ∈ t, (!ends_token c) = true := fun c member => by rw [field.whole c member]; rfl
  obtain ⟨taken, dropped⟩ := span_append all stop
  cases t with
  | nil => exact absurd rfl field.some_char
  | cons c t =>
      have here := field.whole c (by simp)
      have comment := field.no_comment c rfl
      simp only [ends_token, Bool.or_eq_false_iff, decide_eq_false_iff_not] at here
      rw [List.cons_append] at taken dropped ⊢
      have kept : (c :: (t ++ tail)).dropWhile blank = c :: (t ++ tail) := by
        rw [List.dropWhile_cons, here.1.1]
        rfl
      rw [pad_token, kept]
      dsimp only
      rw [if_neg (by simp [here.1.2, here.2, comment]), taken, dropped]

end Tokens

section Numbers

variable {n : Nat}

theorem decimal_field (n : Nat) : Field (decimal n) := by
  refine ⟨decimal_ne_nil n, fun c member => ?_, fun c member => ?_⟩
  · obtain ⟨low, _⟩ := isDigit_bounds (isDigit_of_mem_decimal member)
    have not_any : ∀ d : Char, d.toNat < 48 → c ≠ d := by
      rintro d below rfl
      omega
    simp [ends_token, blank, not_any ' ' (by decide), not_any '\t' (by decide),
      not_any '\n' (by decide), not_any '\r' (by decide)]
  · obtain ⟨low, _⟩ := isDigit_bounds (isDigit_of_mem_decimal (List.mem_of_mem_head? member))
    rintro rfl
    exact absurd low (by decide)

theorem pad_parse_pair_str (v : Byte × Byte) : pad_parse_pair (pair_str v) = some v := by
  have x := v.1.isLt
  have y := v.2.isLt
  have first : strtoul ULONG_MAX (pair_str v) = some (v.1.toNat, ',' :: decimal v.2.toNat) :=
    strtoul_decimal (by unfold ULONG_MAX; omega) (by intro c member; cases member; rfl)
  have second : strtoul ULONG_MAX (decimal v.2.toNat) = some (v.2.toNat, []) := by
    have read : strtoul ULONG_MAX (decimal v.2.toNat ++ []) = some (v.2.toNat, []) :=
      strtoul_decimal (by unfold ULONG_MAX; omega) (by simp)
    rwa [List.append_nil] at read
  simp [pad_parse_pair, first, second]
  omega

theorem pair_field (v : Byte × Byte) : Field (pair_str v) := by
  obtain ⟨some_digit, first, head⟩ := decimal_field v.1.toNat
  refine ⟨by simp [pair_str], fun c member => ?_, fun c member => ?_⟩
  · rw [pair_str, List.mem_append, List.mem_cons] at member
    rcases member with before | rfl | after
    · exact first c before
    · rfl
    · exact (decimal_field v.2.toNat).whole c after
  · rw [pair_str, List.head?_append_of_ne_nil _ some_digit] at member
    exact head c member

end Numbers

/-! Names. -/

section Names

variable {w : Nat}

/-- A table of names a recording can write and read: each name is read back as
its bit, and holds no separator. -/
structure Table (names : List (Text × BitVec w)) : Prop where
  found : ∀ e ∈ names, named names e.1 = e.2
  bit : ∀ e ∈ names, ∃ i < w, e.2 = BitVec.twoPow w i
  field : ∀ e ∈ names, Field e.1
  plus : ∀ e ∈ names, '+' ∉ e.1
  dash : ∀ e ∈ names, '-' ∉ e.1
  at_ : ∀ e ∈ names, '@' ∉ e.1

theorem button_table : Table g_button_names := by
  refine ⟨by decide, by decide, fun e member => .of_check ?_, by decide, by decide, by decide⟩
  revert e
  decide

theorem host_table : Table g_host_names := by
  refine ⟨by decide, by decide, fun e member => .of_check ?_, by decide, by decide, by decide⟩
  revert e
  decide

variable {names es : List (Text × BitVec w)}

theorem twoPow_ne_zero {i : Nat} (small : i < w) : BitVec.twoPow w i ≠ 0 := by
  intro zero
  have bit := congrArg (fun b => BitVec.getLsbD b i) zero
  simp [small] at bit

theorem Table.ne_zero (table : Table names) {e : Text × BitVec w} (member : e ∈ names) :
    e.2 ≠ 0 := by
  obtain ⟨i, small, same⟩ := table.bit e member
  rw [same]
  exact twoPow_ne_zero small

/-- The bits of the entries a state sets are the state's bits in the table. -/
theorem Table.bits (table : Table names) (b acc : BitVec w) :
    (names.filter fun e => b &&& e.2 ≠ 0).foldl (fun a e => a ||| e.2) acc =
      acc ||| b &&& names.foldl (fun a e => a ||| e.2) 0 := by
  have all : ∀ (es : List (Text × BitVec w)) (acc bits : BitVec w), (∀ e ∈ es, e ∈ names) →
      (es.filter fun e => b &&& e.2 ≠ 0).foldl (fun a e => a ||| e.2) (acc ||| b &&& bits) =
        acc ||| b &&& es.foldl (fun a e => a ||| e.2) bits := by
    intro es
    induction es with
    | nil => intro acc bits _; rfl
    | cons e es ih =>
        intro acc bits inside
        have later := fun acc bits => ih acc bits fun d member => inside d (by simp [member])
        obtain ⟨i, small, same⟩ := table.bit e (inside e (by simp))
        have step : b &&& (bits ||| e.2) = (b &&& bits) ||| (b &&& e.2) := BitVec.and_or_distrib_left
        rw [List.foldl_cons, ← later acc (bits ||| e.2), step, List.filter_cons]
        split
        · rename_i set
          have whole : b &&& e.2 = e.2 := by
            rw [same, BitVec.and_twoPow] at set ⊢
            split
            · rfl
            · rename_i clear
              rw [if_neg clear] at set
              exact absurd set (by simp)
          rw [List.foldl_cons, whole, BitVec.or_assoc]
        · rename_i clear
          have nothing : b &&& e.2 = 0 := by simpa using clear
          rw [nothing, show b &&& bits ||| 0 = b &&& bits from BitVec.or_zero]
  have whole := all names acc 0 fun e member => member
  rwa [show b &&& 0 = 0 from BitVec.and_zero, show acc ||| 0 = acc from BitVec.or_zero] at whole

theorem intercalate_cons {x y : Text} {rest : List Text} :
    List.intercalate ['+'] (x :: y :: rest) = x ++ '+' :: List.intercalate ['+'] (y :: rest) := by
  rw [List.intercalate, List.intersperse_cons_cons]
  rfl

theorem takeWhile_name {x tail : Text} (plain : '+' ∉ x) (stop : ∀ c ∈ tail.head?, c = '+') :
    (x ++ tail).takeWhile (· ≠ '+') = x ∧ (x ++ tail).dropWhile (· ≠ '+') = tail := by
  refine span_append (fun c member => ?_) fun c member => by simpa using stop c member
  rw [decide_eq_true_eq]
  rintro rfl
  exact plain member

/-- The names of some entries read back as their bits. -/
theorem Table.parse_names (table : Table names) {find : Text → BitVec w}
    (known : ∀ e ∈ es, find e.1 = e.2) (inside : ∀ e ∈ es, e ∈ names) (fuel : Nat)
    (enough : es.length ≤ fuel) (b : BitVec w) :
    Pad.parse_names find fuel (List.intercalate ['+'] (es.map (·.1))) b =
      some (es.foldl (fun a e => a ||| e.2) b) := by
  induction es generalizing fuel b with
  | nil =>
      cases fuel <;> rfl
  | cons e es ih =>
      have here := inside e (by simp)
      obtain ⟨fuel, rfl⟩ : ∃ k, fuel = k + 1 := ⟨fuel - 1, by rw [List.length_cons] at enough; omega⟩
      have later := ih (fun d member => known d (by simp [member]))
        (fun d member => inside d (by simp [member])) fuel
        (by rw [List.length_cons] at enough; omega)
      obtain ⟨tail, split, after, stop⟩ : ∃ tail,
          List.intercalate ['+'] ((e :: es).map (·.1)) = e.1 ++ tail ∧
            tail.drop 1 = List.intercalate ['+'] (es.map (·.1)) ∧
            ∀ c ∈ tail.head?, c = '+' := by
        cases es with
        | nil => exact ⟨[], by simp [List.intercalate], rfl, by simp⟩
        | cons d es =>
            refine ⟨'+' :: List.intercalate ['+'] ((d :: es).map (·.1)), ?_, rfl, ?_⟩
            · exact intercalate_cons
            · intro c member
              cases member
              rfl
      obtain ⟨taken, dropped⟩ := takeWhile_name (table.plus e here) stop
      obtain ⟨c, rest, chars⟩ := List.exists_cons_of_ne_nil (table.field e here).some_char
      have not_end : List.intercalate ['+'] ((e :: es).map (·.1)) = c :: (rest ++ tail) := by
        rw [split, chars, List.cons_append]
      rw [not_end, Pad.parse_names, ← List.cons_append, ← chars, taken, dropped, after]
      · rw [known e (by simp), if_neg (table.ne_zero here), later, List.foldl_cons]
      · simp

theorem mem_intercalate {c : Char} {l : List Text} (member : c ∈ List.intercalate ['+'] l) :
    c = '+' ∨ ∃ t ∈ l, c ∈ t := by
  induction l with
  | nil => simp [List.intercalate] at member
  | cons x l ih =>
      cases l with
      | nil =>
          rw [show List.intercalate ['+'] [x] = x by simp [List.intercalate]] at member
          exact .inr ⟨x, by simp, member⟩
      | cons y l =>
          rw [intercalate_cons, List.mem_append, List.mem_cons] at member
          rcases member with here | plus | later
          · exact .inr ⟨x, by simp, here⟩
          · exact .inl plus
          · rcases ih later with plus | ⟨t, inside, there⟩
            · exact .inl plus
            · exact .inr ⟨t, List.mem_cons_of_mem _ inside, there⟩

theorem intercalate_head {x : Text} {l : List Text} (some_char : x ≠ []) :
    (List.intercalate ['+'] (x :: l)).head? = x.head? := by
  cases l with
  | nil => rw [show List.intercalate ['+'] [x] = x by simp [List.intercalate]]
  | cons y l => rw [intercalate_cons, List.head?_append_of_ne_nil _ some_char]

theorem intercalate_length {l : List Text} (some_chars : ∀ t ∈ l, t ≠ []) :
    l.length ≤ (List.intercalate ['+'] l).length := by
  induction l with
  | nil => exact Nat.zero_le _
  | cons x l ih =>
      have here := List.length_pos_iff.mpr (some_chars x (by simp))
      cases l with
      | nil =>
          rw [show List.intercalate ['+'] [x] = x by simp [List.intercalate]]
          exact here
      | cons y l =>
          have later := ih fun t member => some_chars t (List.mem_cons_of_mem _ member)
          rw [intercalate_cons, List.length_append]
          simp only [List.length_cons] at later ⊢
          omega

variable {b : BitVec w} (table : Table names)
  (covered : b &&& names.foldl (fun a e => a ||| e.2) 0 = b)

include table covered

/-- A state with a bit set has a name to write. -/
theorem Table.some_name (pressed : b ≠ 0) : ∃ e es,
    (names.filter fun e => b &&& e.2 ≠ 0) = e :: es ∧ e ∈ names := by
  cases found : names.filter fun e => b &&& e.2 ≠ 0 with
  | nil =>
      have bits := table.bits b 0
      rw [found, covered, List.foldl_nil, show 0 ||| b = b from BitVec.zero_or] at bits
      exact absurd bits.symm pressed
  | cons e es => exact ⟨e, es, rfl, (List.mem_filter.mp (found ▸ List.mem_cons_self)).1⟩

theorem Table.names_field : Field (names_str names b) := by
  rw [names_str]
  split
  · exact ⟨by simp, by simp [ends_token, blank], by simp⟩
  · rename_i pressed
    obtain ⟨e, es, found, inside⟩ := table.some_name covered pressed
    have field := table.field e inside
    have members : ∀ t ∈ (names.filter fun e => b &&& e.2 ≠ 0).map (·.1), ∃ e ∈ names, e.1 = t := by
      intro t member
      obtain ⟨d, there, rfl⟩ := List.mem_map.mp member
      exact ⟨d, (List.mem_filter.mp there).1, rfl⟩
    refine ⟨?_, fun c member => ?_, ?_⟩
    · rw [found, List.map_cons]
      intro nothing
      have head := intercalate_head (l := es.map (·.1)) field.some_char
      rw [nothing] at head
      exact field.some_char (List.head?_eq_none_iff.mp head.symm)
    · rcases mem_intercalate member with rfl | ⟨t, there, char⟩
      · rfl
      · obtain ⟨d, known, rfl⟩ := members t there
        exact (table.field d known).whole c char
    · rw [found, List.map_cons, intercalate_head field.some_char]
      exact field.no_comment

theorem Table.names_head : ∀ c ∈ (names_str names b).head?, c ≠ '@' := by
  rw [names_str]
  split
  · simp
  · rename_i pressed
    obtain ⟨e, es, found, inside⟩ := table.some_name covered pressed
    rw [found, List.map_cons, intercalate_head (table.field e inside).some_char]
    rintro c member rfl
    exact table.at_ e inside (List.mem_of_mem_head? member)

/-- Names written are the bits read. -/
theorem Table.parse_names_str {find : Text → BitVec w} (known : ∀ e ∈ names, find e.1 = e.2) :
    (if names_str names b = ['-'] then some 0
      else Pad.parse_names find (names_str names b).length (names_str names b) 0) = some b := by
  rcases eq_or_ne b 0 with rfl | pressed
  · rw [names_str, if_pos rfl, if_pos rfl]
  · obtain ⟨e, es, found, inside⟩ := table.some_name covered pressed
    have written : names_str names b =
        List.intercalate ['+'] ((names.filter fun e => b &&& e.2 ≠ 0).map (·.1)) := if_neg pressed
    have not_dash : names_str names b ≠ ['-'] := by
      intro dash
      have head := intercalate_head (l := es.map (·.1)) (table.field e inside).some_char
      rw [← List.map_cons, ← found, ← written, dash] at head
      exact table.dash e inside (List.mem_of_mem_head? head.symm)
    have some_chars : ∀ t ∈ (names.filter fun e => b &&& e.2 ≠ 0).map (·.1), t ≠ [] := by
      intro t member
      obtain ⟨d, there, rfl⟩ := List.mem_map.mp member
      exact (table.field d (List.mem_filter.mp there).1).some_char
    have enough := intercalate_length some_chars
    rw [List.length_map] at enough
    rw [if_neg not_dash, written, table.parse_names
      (fun d member => known d (List.mem_filter.mp member).1)
      (fun d member => (List.mem_filter.mp member).1) _ enough, table.bits, covered,
      show 0 ||| b = b from BitVec.zero_or]

end Names

/-! States. -/

theorem pad_parse_buttons_str {b : BitVec 16} (only : b &&& BTN_ALL = b) :
    pad_parse_buttons (pad_buttons_str b) = some b :=
  button_table.parse_names_str only button_table.found

/-- The pairs a line gives: those up to the last that is not at rest. -/
def pairs_given (st : PadState) : List (Byte × Byte) :=
  if st.trig ≠ (0, 0) then [st.stick, st.cstick, st.trig]
  else if st.cstick ≠ (128, 128) then [st.stick, st.cstick]
  else if st.stick ≠ (128, 128) then [st.stick]
  else []

theorem pad_state_str_eq (st : PadState) : pad_state_str st =
    pad_buttons_str st.buttons ++ (pairs_given st).flatMap fun v => ' ' :: pair_str v := by
  rw [pad_state_str, pairs_given]
  rcases eq_or_ne st.trig (0, 0) with trig | trig
  · have no_trig : ¬ st.trig ≠ (0, 0) := fun other => other trig
    rcases eq_or_ne st.cstick (128, 128) with cstick | cstick
    · have no_cstick : ¬ (st.trig ≠ (0, 0) ∨ st.cstick ≠ (128, 128)) := by
        rintro (other | other)
        · exact no_trig other
        · exact other cstick
      rcases eq_or_ne st.stick (128, 128) with stick | stick
      · rw [if_neg (by rintro (other | other); exacts [no_cstick other, other stick]),
          if_neg no_cstick, if_neg no_trig, if_neg no_trig, if_neg (fun other => other cstick),
          if_neg (fun other => other stick)]
        simp
      · rw [if_pos (.inr stick), if_neg no_cstick, if_neg no_trig, if_neg no_trig,
          if_neg (fun other => other cstick), if_pos stick]
        simp
    · rw [if_pos (.inl (.inr cstick)), if_pos (.inr cstick), if_neg no_trig, if_neg no_trig,
        if_pos cstick]
      simp
  · rw [if_pos (.inl (.inl trig)), if_pos (.inl trig), if_pos trig, if_pos trig]
    simp

/-- Pairs put in their places, in order. -/
def place_all : List (Byte × Byte → PadState → PadState) → List (Byte × Byte) → PadState → PadState
  | place :: places, v :: vs, st => place_all places vs (place v st)
  | _, _, st => st

theorem place_pairs_given (st : PadState) :
    place_all pad_places (pairs_given st) { PAD_NEUTRAL with buttons := st.buttons } = st := by
  obtain ⟨buttons, stick, cstick, trig⟩ := st
  rw [pairs_given]
  dsimp only
  split
  · rfl
  · rename_i no_trig
    split
    · rw [not_not.mp no_trig]
      rfl
    · rename_i no_cstick
      split
      · rw [not_not.mp no_trig, not_not.mp no_cstick]
        rfl
      · rename_i no_stick
        rw [not_not.mp no_trig, not_not.mp no_cstick, not_not.mp no_stick]
        rfl

theorem separated_pairs {tail : Text} (sep : Separated tail) (vs : List (Byte × Byte)) :
    Separated ((vs.flatMap fun v => ' ' :: pair_str v) ++ tail) := by
  cases vs with
  | nil => exact sep
  | cons v vs => exact separated_blank _

theorem pad_parse_pairs_given {tail : Text} (sep : Separated tail)
    (ended : pad_token (tail.drop 1) = (none, tail.drop 1))
    (places : List (Byte × Byte → PadState → PadState)) (vs : List (Byte × Byte))
    (room : vs.length ≤ places.length) (st : PadState) :
    pad_parse_pairs places st (((vs.flatMap fun v => ' ' :: pair_str v) ++ tail).drop 1) =
      some (place_all places vs st, tail.drop 1) := by
  induction vs generalizing places st with
  | nil =>
      rw [List.flatMap_nil, List.nil_append]
      cases places with
      | nil => rw [pad_parse_pairs, ended]; rfl
      | cons place places => rw [pad_parse_pairs, ended]; rfl
  | cons v vs ih =>
      cases places with
      | nil => cases room
      | cons place places =>
          have token := pad_token_field (pair_field v) (separated_pairs sep vs)
          rw [List.flatMap_cons, List.append_assoc, List.cons_append, List.drop_succ_cons,
            List.drop_zero, pad_parse_pairs, token]
          dsimp only
          rw [pad_parse_pair_str]
          exact ih places (Nat.le_of_succ_le_succ room) _

theorem pairs_given_length (st : PadState) : (pairs_given st).length ≤ pad_places.length := by
  rw [pairs_given]
  split
  · exact Nat.le_refl 3
  · split
    · exact Nat.le_succ 2
    · split
      · exact Nat.le_add_left 1 2
      · exact Nat.zero_le _

/-- A state's line reads back as the state, with whatever comment follows. -/
theorem pad_parse_line_str {frame : Nat} (counts : frame ≤ ULONG_MAX) {st : PadState}
    (only : st.buttons &&& BTN_ALL = st.buttons) {tail : Text} (sep : Separated tail)
    (ended : pad_token (tail.drop 1) = (none, tail.drop 1)) :
    pad_parse_line (decimal frame ++ ' ' :: (pad_state_str st ++ tail)) =
      .state ⟨frame, parse_retrace (tail.drop 1), st⟩ := by
  have number : strtoul ULONG_MAX (decimal frame) = some (frame, []) := by
    have read : strtoul ULONG_MAX (decimal frame ++ []) = some (frame, []) :=
      strtoul_decimal counts (by simp)
    rwa [List.append_nil] at read
  have names := button_table.names_field only
  rw [pad_parse_line, pad_token_field (decimal_field frame) (separated_blank _)]
  dsimp only
  rw [number, pad_state_str_eq, List.append_assoc, List.drop_succ_cons, List.drop_zero,
    pad_buttons_str, pad_token_field names (separated_pairs sep _)]
  dsimp only
  rw [← pad_buttons_str, pad_parse_buttons_str only]
  dsimp only
  rw [pad_parse_pairs_given sep ended _ _ (pairs_given_length st), place_pairs_given]

theorem pad_parse_host_str (h : Host) : pad_parse_host (host_names_str h) = some h := by
  have covered : h &&& g_host_names.foldl (fun a e => a ||| e.2) 0 = h := BitVec.and_allOnes
  exact host_table.parse_names_str covered host_table.found

end SoaPort.Pad
