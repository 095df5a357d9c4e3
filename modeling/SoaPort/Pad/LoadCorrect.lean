import SoaPort.Pad.Lines
import SoaPort.Pad.Replay

namespace SoaPort.Pad

open Lib

/-! The loader reads the lines the recorder writes. -/

/-- The event line an event is read as. -/
def Event.line (frame : Nat) : Event → EventLine
  | .pad2 none => ⟨frame, .pad2, false, 0, PAD_NEUTRAL, []⟩
  | .pad2 (some st) => ⟨frame, .pad2, true, 0, st, []⟩
  | .host h => ⟨frame, .host, true, h, PAD_NEUTRAL, []⟩
  | .applied a => ⟨frame, a.kind, true, 0, PAD_NEUTRAL, a.value⟩

/-- Only the twelve buttons are down. -/
def PadState.Plain (st : PadState) : Prop := st.buttons &&& BTN_ALL = st.buttons

def Event.Plain : Event → Prop
  | .pad2 (some st) => st.Plain
  | _ => True

def Loaded.push (l : Loaded) : Line → Loaded
  | .pad e => { l with play := l.play ++ [e] }
  | .event frame e =>
      { l with
        ev := l.ev ++ [e.line frame]
        last := fun kind => if kind = e.kind then some frame else l.last kind }
  | .comment _ => l

/-- A line the loader takes: in its sort's frame order, and of a state the
recording can give. -/
def Line.Fits (l : Loaded) : Line → Prop
  | .pad e => e.frame ≤ ULONG_MAX ∧ e.retrace < 2 ^ 64 ∧ e.st.Plain ∧
      ∀ d ∈ l.play.getLast?, d.frame ≤ e.frame
  | .event frame e => frame ≤ ULONG_MAX ∧ e.Plain ∧ ∀ d ∈ l.last e.kind, d ≤ frame
  | .comment _ => True

section Values

theorem Field.token_nil {t : Text} (field : Field t) : pad_token t = (some t, []) := by
  have token := pad_token_field field separated_nil
  rwa [List.append_nil] at token

theorem decimal3_length {n : Nat} (small : n < 1000) : (decimal3 n).length = 3 := by
  have short : (decimal n).length ≤ 3 :=
    (Nat.length_toDigits_le_iff (by decide) (by decide)).mpr small
  rw [decimal3, List.length_append, List.length_replicate]
  omega

theorem letter_field (letter : Fin 26) :
    ends_token (Char.ofNat (97 + letter)) = false := by
  revert letter
  decide

theorem text_of_warp (number : Fin 1000) (letter : Fin 26) :
    text_of (.warp number letter) =
      "warp:".toList ++ (decimal3 number ++ [Char.ofNat (97 + letter)]) := List.append_assoc _ _ _

theorem text_of_field (a : Action) : Field (text_of a) := by
  cases a with
  | warp number letter =>
      have word_field : Field "warp:".toList := .of_check (by decide)
      rw [text_of_warp]
      refine ⟨by simp, fun c member => ?_, ?_⟩
      · rcases List.mem_append.mp member with word | rest
        · exact word_field.whole c word
        · rcases List.mem_append.mp rest with digits | last
          · rcases List.mem_append.mp digits with zeros | digits
            · rw [List.eq_of_mem_replicate zeros]
              rfl
            · exact (decimal_field number).whole c digits
          · rw [List.mem_singleton.mp last]
            exact letter_field letter
      · rw [List.head?_append_of_ne_nil _ (by decide)]
        exact word_field.no_comment
  | part => exact .of_check (by decide)
  | ending => exact .of_check (by decide)
  | fade => exact .of_check (by decide)
  | encounters_off => exact .of_check (by decide)
  | encounters_on => exact .of_check (by decide)

theorem text_of_length (a : Action) : (text_of a).length < TEXT_CAP := by
  cases a with
  | warp number letter =>
      have digits := decimal3_length number.isLt
      rw [text_of_warp, List.length_append, List.length_append, digits]
      change 5 + (3 + 1) < 24
      decide
  | part => decide
  | ending => decide
  | fade => decide
  | encounters_off => decide
  | encounters_on => decide

theorem host_field (h : Host) : Field (host_names_str h) :=
  host_table.names_field BitVec.and_allOnes

theorem off_not_buttons {b : BitVec 16} (plain : b &&& BTN_ALL = b) :
    pad_buttons_str b ≠ "off".toList := by
  intro off
  have read := pad_parse_buttons_str plain
  rw [off] at read
  revert read
  rw [show pad_parse_buttons "off".toList = none by decide]
  exact fun read => nomatch read

/-- A value written is the value read. -/
theorem parse_value_str {frame : Nat} (counts : frame ≤ ULONG_MAX) {e : Event} (plain : e.Plain) :
    parse_value frame e.kind e.value = some (e.line frame) := by
  cases e with
  | pad2 st =>
      cases st with
      | none => rfl
      | some st =>
          have read : pad_parse_line (decimal frame ++ ' ' :: (pad_state_str st ++ [])) = _ :=
            pad_parse_line_str counts plain separated_nil rfl
          have word : (pad_token (pad_state_str st)).1 = some (pad_buttons_str st.buttons) := by
            have token := pad_token_field (button_table.names_field plain)
              (separated_pairs separated_nil (pairs_given st))
            rw [List.append_nil] at token
            rw [pad_state_str_eq, pad_buttons_str, token]
          rw [List.append_nil] at read
          rw [Event.kind, Event.value, parse_value]
          dsimp only
          rw [read, word, if_neg (fun off => off_not_buttons plain (Option.some.inj off.1))]
          rfl
  | host h =>
      rw [Event.kind, Event.value, parse_value]
      dsimp only
      rw [(host_field h).token_nil]
      dsimp only
      rw [pad_parse_host_str]
      rfl
  | applied a =>
      cases a with
      | turbo on => cases on <;> rfl
      | action a =>
          rw [Event.kind, Event.value, Applied.kind, Applied.value, parse_value]
          dsimp only
          rw [(text_of_field a).token_nil]
          dsimp only
          rw [if_pos ⟨text_of_length a, rfl, .inl (by decide)⟩]
          rfl
      | savenow => rfl

theorem kind_field (kind : EventKind) : Field ('@' :: k_ev_names kind) := by
  cases kind <;> exact .of_check (by decide)

theorem find_kind (kind : EventKind) :
    (ev_kinds.find? fun k => some ('@' :: k_ev_names kind) = some ('@' :: k_ev_names k)) =
      some kind := by
  cases kind <;> decide

end Values

/-! Whole lines. -/

section Whole

variable {l : Loaded}

/-- The look at a line before anything of it is cut. -/
def looked_at (line : Text) : Text := ((line.dropWhile blank).dropWhile Char.isDigit).dropWhile blank

theorem dropWhile_head {p : Char → Bool} {t : Text} (stop : ∀ c ∈ t.head?, p c = false) :
    t.dropWhile p = t := by
  cases t with
  | nil => rfl
  | cons c t => rw [List.dropWhile_cons, stop c rfl]; rfl

theorem looked_at_frame (frame : Nat) {rest : Text} (next : ∀ c ∈ rest.head?, blank c = false) :
    looked_at (decimal frame ++ ' ' :: rest) = rest := by
  obtain ⟨c, digits, written, digit⟩ := decimal_head frame
  have not_blank : blank c = false := by
    have ends := (decimal_field frame).whole c (written ▸ List.mem_cons_self)
    simp only [ends_token, Bool.or_eq_false_iff] at ends
    exact ends.1.1
  have first : (decimal frame ++ ' ' :: rest).dropWhile blank = decimal frame ++ ' ' :: rest := by
    rw [written, List.cons_append]
    exact dropWhile_head (by intro d member; cases member; exact not_blank)
  have digits_off : (decimal frame ++ ' ' :: rest).dropWhile Char.isDigit = ' ' :: rest :=
    (span_append (fun _ member => isDigit_of_mem_decimal member)
      (by intro d member; cases member; rfl)).2
  rw [looked_at, first, digits_off, List.dropWhile_cons]
  exact dropWhile_head next

theorem decimal_head_ne {frame : Nat} {rest : Text} {d : Char} (other : d.isDigit = false) :
    (decimal frame ++ rest).head? ≠ some d := by
  obtain ⟨c, digits, written, digit⟩ := decimal_head frame
  rw [written]
  rintro same
  cases same
  rw [digit] at other
  cases other

theorem strtoul_frame {frame : Nat} (counts : frame ≤ ULONG_MAX) :
    strtoul ULONG_MAX (decimal frame) = some (frame, []) := by
  have read : strtoul ULONG_MAX (decimal frame ++ []) = some (frame, []) :=
    strtoul_decimal counts (by simp)
  rwa [List.append_nil] at read

/-- An event's line is kept, in its kind's frame order. -/
theorem pad_parse_event_str {frame : Nat} (counts : frame ≤ ULONG_MAX) {e : Event} (plain : e.Plain)
    {last : EventKind → Option Nat} (order : ∀ d ∈ last e.kind, d ≤ frame) :
    pad_parse_event (Line.event frame e).text last = .kept (e.line frame) := by
  generalize fields : (if e.value = [] then [] else ' ' :: e.value) = tail
  have sep : Separated tail := by
    rw [← fields]
    split
    · exact separated_nil
    · exact separated_blank _
  have after : tail.drop 1 = e.value := by
    rw [← fields]
    split
    · rename_i empty
      rw [empty]
      rfl
    · rfl
  have text : (Line.event frame e).text =
      decimal frame ++ ' ' :: (('@' :: k_ev_names e.kind) ++ tail) := by
    rw [Line.text, fields, List.append_assoc, List.append_assoc]
    rfl
  have at_first : ∀ c ∈ (('@' :: k_ev_names e.kind) ++ tail).head?, blank c = false := by
    intro c member
    cases member
    rfl
  have look := looked_at_frame frame at_first
  have in_order : ¬ (last e.kind).any (frame < ·) = true := by
    cases found : last e.kind with
    | none => simp
    | some d =>
        have := order d found
        simp only [Option.any_some, decide_eq_true_eq]
        omega
  have not_at : ¬ ((('@' :: k_ev_names e.kind) ++ tail).head? ≠ some '@' ∨
      (decimal frame ++ ' ' :: (('@' :: k_ev_names e.kind) ++ tail)).head? = some '@') := by
    rintro (other | first)
    · exact other rfl
    · exact decimal_head_ne rfl first
  rw [text, pad_parse_event, ← looked_at, look]
  dsimp only
  rw [if_neg not_at, pad_token_field (decimal_field frame) (separated_blank _)]
  dsimp only
  rw [strtoul_frame counts]
  dsimp only
  rw [List.drop_succ_cons, List.drop_zero,
    dropWhile_head at_first,
    if_neg (by simp), pad_token_field (kind_field e.kind) sep]
  dsimp only
  rw [find_kind, after]
  dsimp only
  rw [if_neg in_order, parse_value_str counts plain]

theorem not_config {line : Text} (head : line.head? ≠ some '#') :
    "# config ".toList.isPrefixOf line = false := by
  cases line with
  | nil => rfl
  | cons c rest =>
      have other : ('#' == c) = false := by
        rw [beq_eq_false_iff_ne]
        rintro rfl
        exact head rfl
      have mark : "# config ".toList = '#' :: " config ".toList := by decide
      rw [mark, List.isPrefixOf_cons_cons, other]
      rfl

theorem parse_retrace_str {n : Nat} (small : n < 2 ^ 64) :
    parse_retrace ("#r".toList ++ decimal n) = n := by
  have read : strtoul (2 ^ 64 - 1) (decimal n ++ []) = some (n, []) :=
    strtoul_decimal (Nat.le_sub_one_of_lt small) (by simp)
  obtain ⟨c, digits, written, digit⟩ := decimal_head n
  have first : ((decimal n).head?.map Char.isDigit).getD false = true := by
    rw [written]
    exact digit
  have mark : ("#r".toList ++ decimal n).dropWhile blank = '#' :: 'r' :: decimal n := rfl
  have letter : ('r' :: decimal n).dropWhile (· = ' ') = 'r' :: decimal n := rfl
  rw [List.append_nil] at read
  have counted : parse_retrace ("#r".toList ++ decimal n) =
      if ((decimal n).head?.map Char.isDigit).getD false = true then
        ((strtoul (2 ^ 64 - 1) (decimal n)).map (·.1)).getD 0
      else 0 := by
    rw [parse_retrace, mark]
    simp only [letter]
  rw [counted, if_pos first, read]
  rfl

/-- A comment is passed over. -/
theorem load_comment (l : Loaded) (text : Text) : l.load_line ('#' :: text) = l := by
  rw [Loaded.load_line]
  split
  · rfl
  · rfl

/-- A line the recorder writes is taken as it was meant. -/
theorem load_line_fits {line : Line} (fits : line.Fits l) :
    l.load_line line.text = l.push line := by
  cases line with
  | comment text => exact load_comment l text
  | event frame e =>
      obtain ⟨counts, plain, order⟩ := fits
      have head : (Line.event frame e).text.head? ≠ some '#' := by
        rw [Line.text, List.append_assoc, List.append_assoc]
        exact decimal_head_ne rfl
      have same : (e.line frame).kind = e.kind := by
        rcases e with (_ | _) | _ | _ <;> rfl
      have when : (e.line frame).frame = frame := by
        rcases e with (_ | _) | _ | _ <;> rfl
      rw [Loaded.load_line, not_config head, if_neg Bool.false_ne_true,
        pad_parse_event_str counts plain order]
      dsimp only [Loaded.push]
      rw [same, when]
  | pad e =>
      obtain ⟨counts, retrace, plain, order⟩ := fits
      have text : (Line.pad e).text = decimal e.frame ++
          ' ' :: (pad_state_str e.st ++ (" #r".toList ++ decimal e.retrace)) := by
        rw [Line.text, List.append_assoc]
      have head : (Line.pad e).text.head? ≠ some '#' := by
        rw [text]
        exact decimal_head_ne rfl
      have names : (pad_buttons_str e.st.buttons).head? ≠ none := fun nothing =>
        (button_table.names_field plain).some_char (List.head?_eq_none_iff.mp nothing)
      have body : (pad_state_str e.st ++ (" #r".toList ++ decimal e.retrace)).head? =
          (pad_buttons_str e.st.buttons).head? := by
        rw [pad_state_str_eq, List.append_assoc]
        exact List.head?_append_of_ne_nil _ (button_table.names_field plain).some_char
      have not_event : pad_parse_event (Line.pad e).text l.last = .not_event := by
        have names_first : ∀ c ∈ (pad_state_str e.st ++ (" #r".toList ++ decimal e.retrace)).head?,
            blank c = false := by
          rw [body]
          intro c member
          have ends := (button_table.names_field plain).whole c (List.mem_of_mem_head? member)
          simp only [ends_token, Bool.or_eq_false_iff] at ends
          exact ends.1.1
        have look := looked_at_frame e.frame names_first
        rw [text, pad_parse_event, ← looked_at, look]
        refine if_pos (.inl ?_)
        rw [body]
        intro same
        exact button_table.names_head plain '@' same rfl
      have read : pad_parse_line (decimal e.frame ++ ' ' :: (pad_state_str e.st ++
          (" #r".toList ++ decimal e.retrace))) = _ :=
        pad_parse_line_str counts plain (separated_blank _) rfl
      have in_order : ¬ l.play.getLast?.any (e.frame < ·.frame) = true := by
        cases found : l.play.getLast? with
        | none => simp
        | some d =>
            have := order d found
            simp only [Option.any_some, decide_eq_true_eq]
            omega
      rw [← text, show (" #r".toList ++ decimal e.retrace).drop 1 = "#r".toList ++ decimal e.retrace
        from rfl, parse_retrace_str retrace] at read
      rw [Loaded.load_line, not_config head, if_neg Bool.false_ne_true, not_event]
      dsimp only
      rw [read]
      dsimp only
      rw [if_neg in_order]
      rfl

end Whole

/-! A whole file. -/

/-- Lines the loader takes one after another. -/
def AllFit : Loaded → List Line → Prop
  | _, [] => True
  | l, line :: lines => line.Fits l ∧ AllFit (l.push line) lines

theorem AllFit.append {l : Loaded} {xs ys : List Line} (first : AllFit l xs)
    (rest : AllFit (xs.foldl Loaded.push l) ys) : AllFit l (xs ++ ys) := by
  induction xs generalizing l with
  | nil => exact rest
  | cons x xs ih => exact ⟨first.1, ih first.2 rest⟩

theorem load_lines {l : Loaded} {lines : List Line} (fit : AllFit l lines) :
    (lines.map Line.text).foldl Loaded.load_line l = lines.foldl Loaded.push l := by
  induction lines generalizing l with
  | nil => rfl
  | cons line lines ih =>
      rw [List.map_cons, List.foldl_cons, load_line_fits fit.1, ih fit.2, List.foldl_cons]

/-- The loader takes every line of a recording, as the recorder wrote it. -/
theorem load_recording (config : Text) {lines : List Line} (fit : AllFit .init lines) :
    (recording config lines).foldl Loaded.load_line .init = lines.foldl Loaded.push .init := by
  rw [recording, List.foldl_cons, Line.text, load_comment, List.foldl_cons]
  exact load_lines fit

def Line.frame? : Line → Option PadFrame
  | .pad e => some e
  | _ => none

def Line.event? : Line → Option EventLine
  | .event frame e => some (e.line frame)
  | _ => none

theorem push_play (l : Loaded) (lines : List Line) :
    (lines.foldl Loaded.push l).play = l.play ++ lines.filterMap Line.frame? := by
  induction lines generalizing l with
  | nil => exact (List.append_nil _).symm
  | cons line lines ih =>
      rw [List.foldl_cons, ih]
      cases line with
      | pad e =>
          rw [List.filterMap_cons_some (f := Line.frame?) (b := e) rfl]
          exact List.append_assoc _ _ _
      | event frame e => rw [List.filterMap_cons_none rfl]; rfl
      | comment text => rw [List.filterMap_cons_none rfl]; rfl

theorem push_ev (l : Loaded) (lines : List Line) :
    (lines.foldl Loaded.push l).ev = l.ev ++ lines.filterMap Line.event? := by
  induction lines generalizing l with
  | nil => exact (List.append_nil _).symm
  | cons line lines ih =>
      rw [List.foldl_cons, ih]
      cases line with
      | pad e => rw [List.filterMap_cons_none rfl]; rfl
      | event frame e =>
          rw [List.filterMap_cons_some (f := Line.event?) (b := e.line frame) rfl]
          exact List.append_assoc _ _ _
      | comment text => rw [List.filterMap_cons_none rfl]; rfl

theorem push_bad (l : Loaded) (lines : List Line) : (lines.foldl Loaded.push l).bad = l.bad := by
  induction lines generalizing l with
  | nil => rfl
  | cons line lines ih =>
      rw [List.foldl_cons, ih]
      cases line <;> rfl

end SoaPort.Pad
