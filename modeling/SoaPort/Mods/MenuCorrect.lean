import Mathlib.Data.List.TakeWhile
import SoaPort.Mods.Menu

namespace SoaPort.Mods.Menu

/-! A list's entries, and what each names. -/

def blank (c : Char) : Bool := c = ' '

def trim (e : Str) : Str := (e.dropWhile blank).rdropWhile blank

/-- The entries of a list: between commas, less the blanks around them. -/
def entries (p : Str) : List Str := ((p.splitOn ',').map trim).filter (· ≠ [])

/-- The mod an entry is about. -/
def name_of (e : Str) : Str := if e.head? = some '-' then e.tail else e

/-- The list with `key` turned on or off: its own entries go, and `-KEY` comes last. -/
def toggled (es : List Str) (key : Str) (on : Bool) : List Str :=
  es.filter (fun e => name_of e ≠ key) ++ if on then [] else ['-' :: key]

/-- A list's text. -/
def text (es : List Str) : Str := List.intercalate [','] es

section Entries

def separates (c : Char) : Bool := c = ' ' || c = ','

theorem entries_comma (p : Str) : entries (',' :: p) = entries p := by
  rw [entries, List.splitOn_cons_eq_if_modifyHead, if_pos (by decide)]
  rfl

theorem entries_blank (p : Str) : entries (' ' :: p) = entries p := by
  obtain ⟨first, more, is⟩ := List.exists_cons_of_ne_nil (List.splitOn_ne_nil ',' p)
  rw [entries, entries, List.splitOn_cons_eq_if_modifyHead, if_neg (by decide), is]
  rfl

theorem entries_skip (p : Str) : entries (p.dropWhile separates) = entries p := by
  induction p with
  | nil => rfl
  | cons c p ih =>
      by_cases at_ : separates c = true
      · rw [List.dropWhile_cons_of_pos at_, ih]
        rcases Bool.or_eq_true_iff.mp at_ with is | is
        · rw [of_decide_eq_true is, entries_blank]
        · rw [of_decide_eq_true is, entries_comma]
      · rw [List.dropWhile_cons_of_neg at_]

/-- The first piece ends at the first comma. -/
theorem splitOn_first {w rest : Str} (bare : ∀ c ∈ w, c ≠ ',')
    (stops : rest = [] ∨ rest.head? = some ',') :
    (w ++ rest).splitOn ',' = w :: (rest.splitOn ',').tail ∧ entries (w ++ rest) =
      [trim w].filter (· ≠ []) ++ entries rest := by
  have start : rest.splitOn ',' = [] :: (rest.splitOn ',').tail := by
    cases rest with
    | nil => rfl
    | cons c rest =>
        rcases stops with none_ | is
        · cases none_
        · cases is
          rw [List.splitOn_cons_eq_if_modifyHead, if_pos (by decide)]
          rfl
  have split : (w ++ rest).splitOn ',' = w :: (rest.splitOn ',').tail := by
    induction w with
    | nil => exact start
    | cons c w ih =>
        obtain ⟨here, others⟩ := List.forall_mem_cons.mp bare
        rw [List.cons_append, List.splitOn_cons_eq_if_modifyHead, if_neg (by simpa using here),
          ih others]
        rfl
  refine ⟨split, ?_⟩
  have rest_entries : entries rest = ((rest.splitOn ',').tail.map trim).filter (· ≠ []) := by
    rw [entries, start]
    rfl
  rw [entries, split, rest_entries, List.map_cons, ← List.singleton_append, List.filter_append]

theorem trim_eq {w : Str} (starts : w.head? ≠ some ' ') : trim w = w.rdropWhile blank := by
  cases w with
  | nil => rfl
  | cons c w =>
      have other : blank c = false := by
        apply decide_eq_false
        rintro rfl
        exact starts rfl
      rw [trim, List.dropWhile_cons_of_neg (by rw [other]; decide)]

theorem head_dropWhile {q : Char → Bool} (p : Str) {c : Char}
    (head : (p.dropWhile q).head? = some c) : q c = false := by
  have ends := List.head?_dropWhile_not q p
  rw [head] at ends
  exact ends

/-- The turns find the entries. -/
theorem turns_of_entries {fuel : Nat} {p : Str} (enough : p.length ≤ fuel) :
    ((turns_of fuel p).map entry).filter (· ≠ []) = entries p := by
  induction fuel generalizing p with
  | zero =>
      rw [List.eq_nil_of_length_eq_zero (Nat.le_zero.mp enough)]
      rfl
  | succ fuel ih =>
      rw [turns_of]
      split
      · next none_ =>
          rw [none_]
          rfl
      · next some_ =>
          rw [← entries_skip p]
          have shorter := List.length_dropWhile_le separates p
          have skipped : (p.dropWhile separates).head? ≠ some ',' ∧
              (p.dropWhile separates).head? ≠ some ' ' :=
            ⟨fun is => absurd (head_dropWhile p is) (by decide),
              fun is => absurd (head_dropWhile p is) (by decide)⟩
          have same : (p.dropWhile fun c => c = ' ' || c = ',') = p.dropWhile separates := rfl
          dsimp only
          rw [same]
          generalize p.dropWhile separates = q at shorter skipped
          have whole := List.takeWhile_append_dropWhile (p := (· ≠ ',')) (l := q)
          have bare : ∀ c ∈ q.takeWhile (· ≠ ','), c ≠ ',' := fun c member => by
            simpa using List.mem_takeWhile_imp member
          have stops : q.dropWhile (· ≠ ',') = [] ∨ (q.dropWhile (· ≠ ',')).head? = some ',' := by
            cases rest : q.dropWhile (· ≠ ',') with
            | nil => exact .inl rfl
            | cons c rest =>
                have at_ := head_dropWhile q (congrArg List.head? rest)
                have is : c = ',' := by simpa using at_
                exact .inr (by rw [is]; rfl)
          have rest_le : (q.dropWhile (· ≠ ',')).length ≤ fuel := by
            cases q with
            | nil => exact Nat.zero_le fuel
            | cons c q =>
                have inner : c ≠ ',' := fun is => skipped.1 (congrArg some is)
                have less := List.length_dropWhile_le (· ≠ ',') q
                rw [List.dropWhile_cons_of_pos (p := (· ≠ ',')) (decide_eq_true inner)]
                rw [List.length_cons] at shorter
                omega
          have starts : (q.takeWhile (· ≠ ',')).head? ≠ some ' ' := by
            cases q with
            | nil => exact fun is => by cases is
            | cons c q =>
                have inner : c ≠ ',' := fun is => skipped.1 (congrArg some is)
                rw [List.takeWhile_cons_of_pos (p := (· ≠ ',')) (decide_eq_true inner)]
                exact skipped.2
          have split := (splitOn_first bare stops).2
          rw [whole, trim_eq starts] at split
          rw [split, ← ih rest_le, List.map_cons, ← List.singleton_append, List.filter_append]
          rfl

end Entries

/-! What `set_mod_on` saves. -/

theorem text_append (es : List Str) (e : Str) :
    text (es ++ [e]) = if es = [] then e else text es ++ ',' :: e := by
  induction es with
  | nil => simp [text]
  | cons first more ih =>
      rw [if_neg (List.cons_ne_nil first more)]
      cases more with
      | nil => simp [text]
      | cons second more =>
          rw [if_neg (List.cons_ne_nil second more)] at ih
          simp only [text, List.cons_append, List.intercalate_cons_cons] at ih ⊢
          rw [ih]
          simp

theorem text_eq_nil {es : List Str} (some_ : ∀ e ∈ es, e ≠ []) : text es = [] ↔ es = [] := by
  constructor
  · intro none_
    cases es with
    | nil => rfl
    | cons e more =>
        cases more with
        | nil =>
            have only : e = [] := by simpa [text] using none_
            exact absurd only (some_ e (List.mem_singleton_self e))
        | cons next more => simp [text] at none_
  · rintro rfl
    rfl

/-- An entry put after others. -/
theorem text_put {es : List Str} (some_ : ∀ e ∈ es, e ≠ []) (e : Str) :
    text es ++ comma (text es) ++ e = text (es ++ [e]) := by
  rw [text_append]
  by_cases none_ : es = []
  · rw [if_pos none_, none_]
    rfl
  · have long : (text es).length ≠ 0 := fun zero =>
      none_ ((text_eq_nil some_).mp (List.eq_nil_of_length_eq_zero zero))
    rw [if_neg none_, comma, if_pos long, List.append_assoc]
    rfl

theorem text_le (es more : List Str) : (text es).length ≤ (text (es ++ more)).length := by
  induction more using List.reverseRecOn with
  | nil => rw [List.append_nil]
  | append_singleton more e ih =>
      rw [← List.append_assoc, text_append]
      split
      next none_ =>
        rw [none_] at ih
        exact Nat.le_trans ih (Nat.zero_le _)
      next =>
        rw [List.length_append]
        omega

theorem own_iff {key p : Str} (some_ : entry p ≠ []) :
    own key p = true ↔ name_of (entry p) = key := by
  have prefixed : entry p <+: p :=
    (List.rdropWhile_prefix _ _).trans (List.takeWhile_prefix _)
  have taken : entry p = p.take (entry p).length := List.prefix_iff_eq_take.mp prefixed
  have same_head : (entry p).head? = p.head? := by
    obtain ⟨rest, whole⟩ := prefixed
    have head : (entry p ++ rest).head? = (entry p).head? :=
      List.head?_append_of_ne_nil _ some_
    rw [whole] at head
    exact head.symm
  have name : name_of (entry p) = (entry p).drop (dash p) := by
    rw [name_of, dash, same_head]
    split
    · exact (List.drop_one).symm
    · exact (List.drop_zero).symm
  have dash_le : dash p ≤ (entry p).length := by
    have := List.length_pos_iff.mpr some_
    rw [dash]
    split <;> omega
  rw [own, Bool.and_eq_true, decide_eq_true_eq, decide_eq_true_eq, name]
  constructor
  · rintro ⟨long, same⟩
    rw [taken, long, List.drop_take, Nat.add_sub_cancel]
    exact same
  · intro same
    have long := congrArg List.length same
    rw [List.length_drop] at long
    have whole : (entry p).length = key.length + dash p := by omega
    refine ⟨whole, ?_⟩
    rw [taken, whole, List.drop_take, Nat.add_sub_cancel] at same
    exact same

/-- The turns kept for a mod are the entries that do not name it. -/
theorem keep_text {key : Str} {ts done : List Str} (some_ : ∀ e ∈ done, e ≠ [])
    (fits : (text (done ++ ((ts.map entry).filter (· ≠ [])).filter (name_of · ≠ key))).length < 512) :
    keep key ts (text done) =
      some (text (done ++ ((ts.map entry).filter (· ≠ [])).filter (name_of · ≠ key))) := by
  induction ts generalizing done with
  | nil => rw [List.map_nil, List.filter_nil, List.filter_nil, List.append_nil, keep]
  | cons p ts ih =>
      rw [List.map_cons] at fits ⊢
      rw [keep]
      by_cases none_ : entry p = []
      · rw [List.filter_cons_of_neg (by simpa using none_)] at fits ⊢
        rw [if_pos none_]
        exact ih some_ fits
      rw [if_neg none_]
      rw [List.filter_cons_of_pos (by simpa using none_)] at fits ⊢
      by_cases owns : name_of (entry p) = key
      · rw [List.filter_cons_of_neg (by simpa using owns)] at fits ⊢
        rw [if_pos ((own_iff none_).mpr owns)]
        exact ih some_ fits
      · rw [List.filter_cons_of_pos (by simpa using owns), List.append_cons] at fits ⊢
        have other : ¬ own key p = true := fun is => owns ((own_iff none_).mp is)
        have within := Nat.lt_of_le_of_lt (text_le (done ++ [entry p]) _) fits
        dsimp only
        rw [if_neg other, text_put some_, if_neg (Nat.not_le.mpr within)]
        apply ih _ fits
        intro e mem
        rcases List.mem_append.mp mem with old | new
        · exact some_ e old
        · rw [List.mem_singleton.mp new]
          exact none_

theorem entries_some {p e : Str} (mem : e ∈ entries p) : e ≠ [] := by
  simpa using (List.mem_filter.mp mem).2

theorem keep_turns {p key : Str}
    (fits : (text ((entries p).filter (name_of · ≠ key))).length < 512) :
    keep key (turns p) [] = some (text ((entries p).filter (name_of · ≠ key))) := by
  rw [← turns_of_entries (Nat.le_refl p.length)] at fits ⊢
  have none_ : ∀ e ∈ ([] : List Str), e ≠ [] := fun e mem => absurd mem List.not_mem_nil
  exact keep_text none_ fits

/-- The text of the toggled list is what `set_mod_on` has saved, when it fits. -/
theorem set_mod_on_save {s : State} {key : Str} {on : Bool}
    (fits : (text (toggled (entries (order_now s)) key on)).length < 512) :
    set_mod_on s key on = save s (text (toggled (entries (order_now s)) key on)) := by
  have kept_le := text_le ((entries (order_now s)).filter (name_of · ≠ key))
    (if on then [] else ['-' :: key])
  rw [toggled] at fits ⊢
  rw [set_mod_on, keep_turns (Nat.lt_of_le_of_lt kept_le fits)]
  cases on with
  | true =>
      dsimp only
      rw [if_pos rfl, if_pos rfl, List.append_nil]
  | false =>
      have some_ : ∀ e ∈ (entries (order_now s)).filter (name_of · ≠ key), e ≠ [] :=
        fun e mem => entries_some (List.mem_filter.mp mem).1
      dsimp only at fits ⊢
      rw [if_neg Bool.false_ne_true] at fits ⊢
      rw [if_neg Bool.false_ne_true, text_put some_, List.take_of_length_le (by omega)]

theorem find_set {α : Type} {edits : List α} {q : α → Bool} {i : Nat} {x : α}
    (at_ : edits.findIdx? q = some i) (holds : q x = true) :
    (edits.set i x).find? q = some x := by
  induction edits generalizing i with
  | nil => cases at_
  | cons e more ih =>
      rw [List.findIdx?_cons] at at_
      split at at_
      next here =>
        cases at_
        rw [List.set_cons_zero, List.find?_cons_of_pos holds]
      next other =>
        obtain ⟨j, later, rfl⟩ := Option.map_eq_some_iff.mp at_
        rw [List.set_cons_succ, List.find?_cons_of_neg other]
        exact ih later

theorem edited_save {s : State} {value : Str}
    (room : (edited s MOD_ORDER).isSome ∨ s.g_edits.length < EDITS) :
    edited (save s value) MOD_ORDER = some (value.take 63) := by
  have same_key : MOD_ORDER.take 79 = MOD_ORDER := rfl
  have found : (save s value).g_edits.find? (fun e => e.1 = MOD_ORDER) =
      some (MOD_ORDER, value.take 63) := by
    change (remember s.g_edits MOD_ORDER value).find? _ = _
    rw [remember]
    cases at_ : s.g_edits.findIdx? fun e => e.1 = MOD_ORDER with
    | some i => exact find_set at_ rfl
    | none =>
        have absent : s.g_edits.find? (fun e => e.1 = MOD_ORDER) = none := by
          rw [List.find?_eq_none]
          intro e mem
          rw [List.findIdx?_eq_none_iff.mp at_ e mem]
          exact Bool.false_ne_true
        have less : s.g_edits.length ≠ EDITS := by
          rw [edited, absent] at room
          exact Nat.ne_of_lt (room.resolve_left Bool.false_ne_true)
        dsimp only
        rw [if_neg less, List.find?_append, absent, same_key]
        rfl
  rw [edited, found]
  rfl

/-- What the menu reads next is what it saved, when the edit keeps it whole. -/
theorem order_now_save {s : State} {value : Str} (short : value.length ≤ 63)
    (room : (edited s MOD_ORDER).isSome ∨ s.g_edits.length < EDITS) :
    order_now (save s value) = value := by
  rw [order_now, edited_save room, List.take_of_length_le short]

/-! What turns a mod off, for the menu. -/

/-- A mod's name as a list can hold it. -/
structure Word (key : Str) : Prop where
  some_ : key ≠ []
  chars : ∀ c ∈ key, is_space c = false ∧ c ≠ '#' ∧ c ≠ ','

theorem rdropWhile_append {α : Type} (q : α → Bool) (a b : List α) :
    (a ++ b).rdropWhile q =
      if b.rdropWhile q = [] then a.rdropWhile q else a ++ b.rdropWhile q := by
  simp only [List.rdropWhile, List.reverse_append, List.dropWhile_append, List.reverse_eq_nil_iff,
    List.isEmpty_iff]
  split <;> simp

theorem Word.blank {key : Str} (word : Word key) {c : Char} (mem : c ∈ key) :
    Menu.blank c = false := by
  apply decide_eq_false
  rintro rfl
  have space := (word.chars ' ' mem).1
  cases space

/-- A trailing blank is not part of a name. -/
theorem Word.rdropWhile {key : Str} (word : Word key) :
    ('-' :: key).rdropWhile Menu.blank = '-' :: key := by
  rw [List.rdropWhile_eq_self_iff]
  intro some_
  have last := List.getLast_mem word.some_
  rw [List.getLast_cons word.some_, word.blank last]
  exact Bool.false_ne_true

theorem at_off_iff {key q : Str} : at_off key q = true ↔
    ∃ rest, q = '-' :: key ++ rest ∧
      (rest = [] ∨ rest.head? = some ',' ∨ rest.head? = some ' ') := by
  rw [at_off, Bool.and_eq_true, Bool.and_eq_true, decide_eq_true_eq, decide_eq_true_eq]
  constructor
  · rintro ⟨⟨dash_, same⟩, ends⟩
    cases q with
    | nil => cases dash_
    | cons c q =>
        cases dash_
        rw [Nat.add_comm, List.drop_succ_cons] at ends
        rw [List.drop_succ_cons, List.drop_zero] at same
        refine ⟨q.drop key.length, ?_, ?_⟩
        · have whole := List.take_append_drop key.length q
          rw [same] at whole
          rw [List.cons_append, whole]
        · cases rest : q.drop key.length with
          | nil => exact .inl rfl
          | cons c rest =>
              rw [rest] at ends
              rcases Bool.or_eq_true_iff.mp ends with is | is
              · exact .inr (.inl (congrArg some (of_decide_eq_true is)))
              · exact .inr (.inr (congrArg some (of_decide_eq_true is)))
  · rintro ⟨rest, rfl, ends⟩
    refine ⟨⟨rfl, ?_⟩, ?_⟩
    · rw [List.cons_append, List.drop_succ_cons, List.drop_zero, List.take_left]
    · rw [Nat.add_comm, List.cons_append, List.drop_succ_cons, List.drop_left]
      cases rest with
      | nil => rfl
      | cons c rest =>
          rcases ends with none_ | is | is
          · cases none_
          · cases is
            rfl
          · cases is
            rfl

/-- An entry the menu takes for one that turns the mod off: `-KEY`, or more words after it. -/
def Offs (key e : Str) : Prop := e = '-' :: key ∨ '-' :: key ++ [' '] <+: e

theorem at_off_entry {key : Str} (word : Word key) (q : Str) :
    at_off key q = true ↔ Offs key (entry q) := by
  rw [at_off_iff]
  have bare : ∀ c ∈ '-' :: key, (decide (c ≠ ',')) = true := by
    intro c mem
    apply decide_eq_true
    rcases List.mem_cons.mp mem with rfl | inner
    · decide
    · exact (word.chars c inner).2.2
  constructor
  · rintro ⟨rest, rfl, ends⟩
    rw [entry, List.takeWhile_append_of_pos bare]
    change Offs key (List.rdropWhile Menu.blank _)
    rw [rdropWhile_append, word.rdropWhile]
    split
    next => exact .inl rfl
    next more =>
      right
      apply (List.prefix_append_right_inj _).mpr
      cases rest with
      | nil => exact absurd rfl more
      | cons c rest =>
          rcases ends with none_ | is | is
          · cases none_
          · cases is
            exact absurd rfl more
          · cases is
            have start : (' ' :: rest).takeWhile (· ≠ ',') = ' ' :: rest.takeWhile (· ≠ ',') :=
              List.takeWhile_cons_of_pos (by decide)
            rw [start] at more ⊢
            have part := List.rdropWhile_prefix Menu.blank (' ' :: rest.takeWhile (· ≠ ','))
            cases left : (' ' :: rest.takeWhile (· ≠ ',')).rdropWhile Menu.blank with
            | nil => exact absurd left more
            | cons d left_over =>
                rw [left, List.cons_prefix_cons] at part
                rw [part.1]
                exact List.prefix_append [' '] left_over
  · rintro (is | more)
    · have cut := List.takeWhile_append_dropWhile (p := (· ≠ ',')) (l := q)
      have trimmed : (q.takeWhile (· ≠ ',')).rdropWhile Menu.blank ++
          (q.takeWhile (· ≠ ',')).rtakeWhile Menu.blank = q.takeWhile (· ≠ ',') :=
        List.rdropWhile_append_rtakeWhile
      rw [entry] at is
      change (q.takeWhile (· ≠ ',')).rdropWhile Menu.blank = _ at is
      rw [is] at trimmed
      refine ⟨(q.takeWhile (· ≠ ',')).rtakeWhile Menu.blank ++ q.dropWhile (· ≠ ','), ?_, ?_⟩
      · rw [← List.append_assoc, trimmed, cut]
      · cases blanks : (q.takeWhile (· ≠ ',')).rtakeWhile Menu.blank with
        | cons c blanks' =>
            have all : Menu.blank c = true := by
              have mem : c ∈ (q.takeWhile (· ≠ ',')).rtakeWhile Menu.blank := by
                rw [blanks]
                exact List.mem_cons_self
              exact List.mem_rtakeWhile_imp mem
            right
            right
            exact congrArg some (of_decide_eq_true all)
        | nil =>
            cases after : q.dropWhile (· ≠ ',') with
            | nil => exact .inl rfl
            | cons c after' =>
                have stops := head_dropWhile q (congrArg List.head? after)
                have comma_ : c = ',' := by simpa using stops
                exact .inr (.inl (congrArg some comma_))
    · have part : entry q <+: q :=
        (List.rdropWhile_prefix _ _).trans (List.takeWhile_prefix _)
      obtain ⟨after, whole⟩ := more.trans part
      refine ⟨' ' :: after, ?_, .inr (.inr rfl)⟩
      rw [← whole, List.append_assoc]
      rfl

/-- The menu's answer, over the list's entries. -/
theorem turned_off_iff {s : State} {key : Str} (word : Word key) :
    turned_off s key = true ↔ ∃ e ∈ entries (order_now s), Offs key e := by
  rw [turned_off, List.any_eq_true, ← turns_of_entries (Nat.le_refl _)]
  constructor
  · rintro ⟨q, mem, offs⟩
    have entry_offs := (at_off_entry word q).mp offs
    refine ⟨entry q, List.mem_filter.mpr ⟨List.mem_map_of_mem mem, ?_⟩, entry_offs⟩
    apply decide_eq_true
    intro none_
    rw [none_] at entry_offs
    rcases entry_offs with is | part
    · cases is
    · exact absurd (List.prefix_nil.mp part) (List.cons_ne_nil _ _)
  · rintro ⟨e, mem, offs⟩
    obtain ⟨q, mem_q, rfl⟩ := List.mem_map.mp (List.mem_filter.mp mem).1
    exact ⟨q, mem_q, (at_off_entry word q).mpr offs⟩

/-! A saved list read back. -/

structure Entry (e : Str) : Prop where
  some_ : e ≠ []
  trimmed : trim e = e
  bare : ',' ∉ e

theorem trim_trim (e : Str) : trim (trim e) = trim e := by
  cases none_ : trim e with
  | nil => rfl
  | cons c rest =>
      have part := List.rdropWhile_prefix blank (e.dropWhile blank)
      change trim e <+: _ at part
      rw [none_] at part
      obtain ⟨after, whole⟩ := part
      have head : blank c = false := head_dropWhile e (by rw [← whole]; rfl)
      have front : (c :: rest).dropWhile blank = c :: rest :=
        List.dropWhile_cons_of_neg (by rw [head]; exact Bool.false_ne_true)
      rw [trim, front, ← none_, trim, List.rdropWhile_idempotent]

theorem mem_splitOn_bare {p w : Str} (mem : w ∈ p.splitOn ',') : ',' ∉ w := by
  induction p generalizing w with
  | nil =>
      rw [List.splitOn_nil, List.mem_singleton] at mem
      rw [mem]
      exact List.not_mem_nil
  | cons c p ih =>
      rw [List.splitOn_cons_eq_if_modifyHead] at mem
      split at mem
      · rcases List.mem_cons.mp mem with rfl | later
        · exact List.not_mem_nil
        · exact ih later
      next other =>
        obtain ⟨first, more, is⟩ := List.exists_cons_of_ne_nil (List.splitOn_ne_nil ',' p)
        rw [is, List.modifyHead_cons] at mem
        rcases List.mem_cons.mp mem with rfl | later
        · intro inside
          rcases List.mem_cons.mp inside with rfl | inner
          · exact other (by decide)
          · exact ih (by rw [is]; exact List.mem_cons_self) inner
        · exact ih (by rw [is]; exact List.mem_cons_of_mem _ later)

theorem mem_entries {p e : Str} (mem : e ∈ entries p) : Entry e where
  some_ := entries_some mem
  trimmed := by
    obtain ⟨w, -, rfl⟩ := List.mem_map.mp (List.mem_filter.mp mem).1
    exact trim_trim w
  bare := by
    obtain ⟨w, piece, rfl⟩ := List.mem_map.mp (List.mem_filter.mp mem).1
    intro inside
    have part : trim w <:+: w :=
      (List.rdropWhile_prefix _ _).isInfix.trans (List.dropWhile_suffix _).isInfix
    exact mem_splitOn_bare piece (part.subset inside)

theorem Word.entry {key : Str} (word : Word key) : Entry ('-' :: key) where
  some_ := List.cons_ne_nil _ _
  trimmed := by
    rw [trim_eq (fun is => by cases is), word.rdropWhile]
  bare inside := by
    rcases List.mem_cons.mp inside with is | inner
    · cases is
    · exact (word.chars ',' inner).2.2 rfl

theorem splitOn_text {es : List Str} (some_ : es ≠ []) (each : ∀ e ∈ es, Entry e) :
    (text es).splitOn ',' = es :=
  List.splitOn_intercalate ',' (fun e mem => (each e mem).bare) some_

theorem entries_text {es : List Str} (each : ∀ e ∈ es, Entry e) : entries (text es) = es := by
  by_cases none_ : es = []
  · rw [none_]
    rfl
  · rw [entries, splitOn_text none_ each]
    have same : es.map trim = es := by
      rw [List.map_congr_left fun e mem => (each e mem).trimmed]
      exact List.map_id' es
    rw [same, List.filter_eq_self]
    intro e mem
    exact decide_eq_true (each e mem).some_

/-! What turns a mod off when the game next starts. -/

/-- The one name `read_order` takes from an entry. -/
def taken (e : Str) : Option Str :=
  match split e 2 with
  | some [tok] => some tok
  | _ => none

/-- How the entry names the mod, if it does. -/
def naming (key e : Str) : Option Str := (taken e).filter (name_of · = key)

theorem read_name_eq (plan : List Planned) (rank : Nat) (e : Str) :
    read_name (plan, rank) e =
      match taken e with
      | none => (plan, rank)
      | some tok =>
          match plan.findIdx? (·.key = name_of tok) with
          | none => (plan, rank)
          | some i =>
              if (plan.getD i default).rank.isSome then (plan, rank)
              else
                (plan.modify i fun m => { m with rank := some rank, off := tok.head? = some '-' },
                  rank + 1) := by
  rw [read_name, taken]
  cases split e 2 with
  | none => rfl
  | some toks =>
      match toks with
      | [] | _ :: _ :: _ => rfl
      | [tok] =>
          have name : name_of tok =
              if (decide (tok.head? = some '-')) = true then tok.tail else tok := by
            rw [name_of]
            by_cases dash_ : tok.head? = some '-'
            · rw [if_pos dash_, if_pos (decide_eq_true dash_)]
            · rw [if_neg dash_, if_neg (by simpa using dash_)]
          dsimp only
          exact congrArg (fun key => match plan.findIdx? (·.key = key) with
            | none => (plan, rank)
            | some i =>
                if (plan.getD i default).rank.isSome then (plan, rank)
                else
                  (plan.modify i fun m =>
                    { m with rank := some rank, off := tok.head? = some '-' }, rank + 1)) name.symm

theorem getD_modify {plan : List Planned} {i j : Nat} (f : Planned → Planned)
    (i_lt : i < plan.length) :
    (plan.modify j f).getD i default =
      if j = i then f (plan.getD i default) else plan.getD i default := by
  rw [List.getD_eq_getElem?_getD, List.getElem?_modify, List.getD_eq_getElem?_getD,
    List.getElem?_eq_getElem i_lt]
  split <;> rfl

theorem map_key_modify {plan : List Planned} {j : Nat} {f : Planned → Planned}
    (kept : ∀ m, (f m).key = m.key) :
    (plan.modify j f).map Planned.key = plan.map Planned.key := by
  induction plan generalizing j with
  | nil => cases j <;> rfl
  | cons m plan ih =>
      cases j with
      | zero => rw [List.modify_zero_cons, List.map_cons, List.map_cons, kept]
      | succ j => rw [List.modify_succ_cons, List.map_cons, List.map_cons, ih]

/-- An entry gives a place to the mod it names, if that has none yet, and to no other. -/
theorem read_name_at {plan : List Planned} {rank i : Nat} {e : Str}
    (distinct : (plan.map Planned.key).Nodup) (i_lt : i < plan.length) :
    (read_name (plan, rank) e).1.map Planned.key = plan.map Planned.key ∧
      (read_name (plan, rank) e).1.getD i default =
        match naming (plan.getD i default).key e with
        | none => plan.getD i default
        | some tok =>
            if (plan.getD i default).rank.isSome then plan.getD i default
            else { plan.getD i default with rank := some rank, off := tok.head? = some '-' } := by
  rw [read_name_eq, naming]
  cases taken e with
  | none => exact ⟨rfl, rfl⟩
  | some tok =>
      have at_i : plan.getD i default = plan.get ⟨i, i_lt⟩ := by
        rw [List.getD_eq_getElem?_getD, List.getElem?_eq_getElem i_lt]
        rfl
      have named : ∀ j, plan.findIdx? (·.key = name_of tok) = some j →
          ((plan.getD i default).key = name_of tok ↔ j = i) := by
        intro j found
        obtain ⟨j_lt, at_j, -⟩ := List.findIdx?_eq_some_iff_getElem.mp found
        have at_j : (plan.get ⟨j, j_lt⟩).key = name_of tok := of_decide_eq_true at_j
        rw [at_i, ← at_j]
        constructor
        · intro same
          have i_lt' : i < (plan.map Planned.key).length := by rwa [List.length_map]
          have j_lt' : j < (plan.map Planned.key).length := by rwa [List.length_map]
          have same' : (plan.map Planned.key)[i] = (plan.map Planned.key)[j] := by
            rw [List.getElem_map, List.getElem_map]
            exact same
          exact (distinct.getElem_inj_iff.mp same').symm
        · rintro rfl
          rfl
      have unnamed : plan.findIdx? (·.key = name_of tok) = none →
          (plan.getD i default).key ≠ name_of tok := by
        intro missed same
        have out := List.findIdx?_eq_none_iff.mp missed (plan.get ⟨i, i_lt⟩) (List.get_mem ..)
        rw [← at_i] at out
        exact of_decide_eq_false out same
      dsimp only
      rw [Option.filter_some]
      cases found : plan.findIdx? (·.key = name_of tok) with
      | none =>
          refine ⟨rfl, ?_⟩
          rw [if_neg (by simpa using Ne.symm (unnamed found))]
      | some j =>
          dsimp only
          by_cases j_i : j = i
          · subst j_i
            have same := (named j found).mpr rfl
            rw [if_pos (decide_eq_true same.symm)]
            split
            next => exact ⟨rfl, rfl⟩
            next =>
              refine ⟨map_key_modify fun _ => rfl, ?_⟩
              rw [getD_modify _ i_lt, if_pos rfl]
          · have other : (if (decide (name_of tok = (plan.getD i default).key)) = true then some tok
                else none) = none :=
              if_neg fun same => j_i ((named j found).mp (of_decide_eq_true same).symm)
            rw [other]
            split
            next => exact ⟨rfl, rfl⟩
            next =>
              refine ⟨map_key_modify fun _ => rfl, ?_⟩
              rw [getD_modify _ i_lt, if_neg j_i]

theorem read_names_ranked {plan : List Planned} {rank i : Nat} {es : List Str}
    (distinct : (plan.map Planned.key).Nodup) (i_lt : i < plan.length)
    (ranked : (plan.getD i default).rank.isSome = true) :
    (es.foldl read_name (plan, rank)).1.getD i default = plan.getD i default := by
  induction es generalizing plan rank with
  | nil => rfl
  | cons e es ih =>
      obtain ⟨keys, at_i⟩ := @read_name_at plan rank i e distinct i_lt
      rw [List.foldl_cons]
      generalize read_name (plan, rank) e = after at keys at_i ⊢
      obtain ⟨plan', rank'⟩ := after
      dsimp only at keys at_i
      have same : plan'.getD i default = plan.getD i default := by
        rw [at_i]
        split
        · rfl
        · rw [if_pos ranked]
      have length := congrArg List.length keys
      rw [List.length_map, List.length_map] at length
      rw [← keys] at distinct
      rw [← length] at i_lt
      rw [← same] at ranked ⊢
      exact ih distinct i_lt ranked

/-- The first entry that names a mod decides whether it is off. -/
theorem read_names_off {plan : List Planned} {rank i : Nat} {es : List Str}
    (distinct : (plan.map Planned.key).Nodup) (i_lt : i < plan.length)
    (unranked : (plan.getD i default).rank = none) :
    ((es.foldl read_name (plan, rank)).1.getD i default).off =
      match es.findSome? (naming (plan.getD i default).key) with
      | none => (plan.getD i default).off
      | some tok => decide (tok.head? = some '-') := by
  induction es generalizing plan rank with
  | nil => rfl
  | cons e es ih =>
      obtain ⟨keys, at_i⟩ := @read_name_at plan rank i e distinct i_lt
      rw [List.foldl_cons, List.findSome?_cons]
      generalize read_name (plan, rank) e = after at keys at_i ⊢
      obtain ⟨plan', rank'⟩ := after
      dsimp only at keys at_i
      have length := congrArg List.length keys
      rw [List.length_map, List.length_map] at length
      rw [← keys] at distinct
      rw [← length] at i_lt
      cases named : naming (plan.getD i default).key e with
      | none =>
          rw [named] at at_i
          dsimp only at at_i ⊢
          rw [← at_i] at unranked ⊢
          exact ih distinct i_lt unranked
      | some tok =>
          rw [named, unranked] at at_i
          have ranked : (plan'.getD i default).rank.isSome = true := by
            rw [at_i]
            rfl
          rw [read_names_ranked distinct i_lt ranked, at_i]
          rfl

/-- Mods as they stand before the list is read. -/
structure Unread (plan : List Planned) : Prop where
  distinct : (plan.map Planned.key).Nodup
  unranked : ∀ m ∈ plan, m.rank = none
  on : ∀ m ∈ plan, m.off = false
  words : ∀ m ∈ plan, Word m.key

theorem read_order_off {plan : List Planned} (unread : Unread plan) {es : List Str}
    (each : ∀ e ∈ es, Entry e) (short : (text es).length ≤ 2047) {i : Nat}
    (i_lt : i < plan.length) :
    ((read_order (some (text es)) plan).getD i default).off = true ↔
      ∃ tok, es.findSome? (naming (plan.getD i default).key) = some tok ∧
        tok.head? = some '-' := by
  have mem : plan.getD i default ∈ plan := by
    rw [List.getD_eq_getElem?_getD, List.getElem?_eq_getElem i_lt]
    exact List.getElem_mem i_lt
  have off := unread.on _ mem
  by_cases none_ : es = []
  · rw [none_]
    change (plan.getD i default).off = true ↔ _
    rw [off]
    constructor
    · intro is
      cases is
    · rintro ⟨tok, is, -⟩
      cases is
  · have some_ : text es ≠ [] := fun is =>
      none_ ((text_eq_nil fun e mem => (each e mem).some_).mp is)
    have reads : read_order (some (text es)) plan = (es.foldl read_name (plan, 0)).1 := by
      cases is : text es with
      | nil => exact absurd is some_
      | cons c more =>
          rw [is] at short
          have back := splitOn_text none_ each
          rw [is] at back
          change ((((c :: more).take 2047).splitOn ',').foldl read_name (plan, 0)).1 = _
          rw [List.take_of_length_le short, back]
    rw [reads, read_names_off unread.distinct i_lt (unread.unranked _ mem), off]
    cases es.findSome? (naming (plan.getD i default).key) with
    | none =>
        constructor
        · intro is
          cases is
        · rintro ⟨tok, is, -⟩
          cases is
    | some tok =>
        constructor
        · intro is
          exact ⟨tok, rfl, of_decide_eq_true is⟩
        · rintro ⟨tok', same, is⟩
          cases same
          exact decide_eq_true is

/-! Lists both readers take alike. -/

/-- The entries `read_order` takes for the mod's are written bare, those the menu takes for
its turning off are too, and none of these comes after one that lists it. -/
structure Alike (es : List Str) (key : Str) : Prop where
  bare : ∀ e ∈ es, ∀ tok, naming key e = some tok → e = tok
  off : ∀ e ∈ es, Offs key e → e = '-' :: key
  once : es.Pairwise fun a b => a = key → key.head? ≠ some '-' → b ≠ '-' :: key

theorem naming_name {key e tok : Str} (named : naming key e = some tok) :
    taken e = some tok ∧ name_of tok = key := by
  rw [naming, Option.filter_eq_some_iff] at named
  exact ⟨named.1, of_decide_eq_true named.2⟩

/-- `-KEY` is one word. -/
theorem Word.taken {key : Str} (word : Word key) :
    Menu.taken ('-' :: key) = some ('-' :: key) := by
  have before : ('-' :: key).takeWhile (· ≠ '#') = '-' :: key := by
    rw [List.takeWhile_eq_self_iff]
    intro c mem
    apply decide_eq_true
    rcases List.mem_cons.mp mem with rfl | inner
    · decide
    · exact (word.chars c inner).2.1
  have one : ('-' :: key).splitOnP is_space = ['-' :: key] := by
    apply List.splitOnP_eq_singleton
    intro c mem
    rcases List.mem_cons.mp mem with rfl | inner
    · decide
    · exact (word.chars c inner).1
  rw [Menu.taken, split, before, one]
  rfl

theorem Word.naming {key : Str} (word : Word key) :
    Menu.naming key ('-' :: key) = some ('-' :: key) := by
  rw [Menu.naming, word.taken]
  exact if_pos (decide_eq_true rfl)

/-- Over such a list the first entry that names the mod turns it off when any does. -/
theorem Alike.agree {es : List Str} {key : Str} (alike : Alike es key) (word : Word key) :
    (∃ e ∈ es, Offs key e) ↔
      ∃ tok, es.findSome? (naming key) = some tok ∧ tok.head? = some '-' := by
  induction es with
  | nil =>
      constructor
      · rintro ⟨e, mem, -⟩
        cases mem
      · rintro ⟨tok, is, -⟩
        cases is
  | cons e es ih =>
      have later : Alike es key := ⟨fun e' mem => alike.bare e' (List.mem_cons_of_mem _ mem),
        fun e' mem => alike.off e' (List.mem_cons_of_mem _ mem), alike.once.of_cons⟩
      rw [List.findSome?_cons]
      cases named : naming key e with
      | none =>
          have not_off : ¬ Offs key e := by
            intro offs
            rw [alike.off e List.mem_cons_self offs, word.naming] at named
            cases named
          rw [← ih later]
          constructor
          · rintro ⟨e', mem, offs⟩
            rcases List.mem_cons.mp mem with rfl | inner
            · exact absurd offs not_off
            · exact ⟨e', inner, offs⟩
          · rintro ⟨e', mem, offs⟩
            exact ⟨e', List.mem_cons_of_mem _ mem, offs⟩
      | some tok =>
          have same := alike.bare e List.mem_cons_self tok named
          subst same
          have name := (naming_name named).2
          dsimp only
          constructor
          · rintro ⟨e', mem, offs⟩
            refine ⟨e, rfl, ?_⟩
            by_contra listed
            rw [name_of, if_neg listed] at name
            have dashed := alike.off e' mem offs
            rcases List.mem_cons.mp mem with rfl | inner
            · rw [dashed] at listed
              exact listed rfl
            · rw [name] at listed
              exact List.rel_of_pairwise_cons alike.once inner name listed dashed
          · rintro ⟨tok, is, dash_⟩
            cases is
            refine ⟨e, List.mem_cons_self, .inl ?_⟩
            rw [name_of, if_pos dash_] at name
            cases e with
            | nil => cases dash_
            | cons c rest =>
                cases dash_
                exact congrArg (List.cons '-') name

/-- Toggling a mod leaves such a list. -/
theorem Alike.toggled {es : List Str} {key other : Str} (alike : Alike es key)
    (word : Word other) (on : Bool) : Alike (Menu.toggled es other on) key := by
  have sub : (es.filter (name_of · ≠ other)).Sublist es := List.filter_sublist
  have kept : Alike (es.filter (name_of · ≠ other)) key :=
    ⟨fun e mem => alike.bare e (sub.subset mem), fun e mem => alike.off e (sub.subset mem),
      alike.once.sublist sub⟩
  rw [Menu.toggled]
  cases on with
  | true =>
      rw [if_pos rfl, List.append_nil]
      exact kept
  | false =>
      rw [if_neg Bool.false_ne_true]
      constructor
      case bare =>
        intro e mem tok named
        rcases List.mem_append.mp mem with old | new
        · exact kept.bare e old tok named
        · cases List.mem_singleton.mp new
          have is := (naming_name named).1
          rw [word.taken] at is
          exact Option.some.inj is
      case off =>
        intro e mem offs
        rcases List.mem_append.mp mem with old | new
        · exact kept.off e old offs
        · cases List.mem_singleton.mp new
          rcases offs with is | part
          · exact is
          · rw [List.cons_append, List.cons_prefix_cons] at part
            have blank_ : ' ' ∈ other :=
              part.2.subset (List.mem_append_right key (List.mem_singleton_self ' '))
            have space := (word.chars ' ' blank_).1
            cases space
      case once =>
        rw [List.pairwise_append]
        refine ⟨kept.once, List.pairwise_singleton _ _, ?_⟩
        intro a mem b new is listed same
        cases List.mem_singleton.mp new
        cases same
        have others := of_decide_eq_true (List.mem_filter.mp mem).2
        rw [is] at others
        exact others (by rw [name_of, if_neg listed])

/-! Runs of toggles. -/

/-- A mod, and whether it is turned on. -/
abbrev Toggle : Type := Str × Bool

def toggle (s : State) (t : Toggle) : State := set_mod_on s t.1 t.2

/-- mod_order as it was last saved. -/
def saved (s : State) : Str := s.ini.getD []

/-- The list saved is the one before with this mod turned on or off, and the menu answers for
every mod as `read_order` will. -/
structure Toggled (plan : List Planned) (s : State) (t : Toggle) : Prop where
  saves : (toggle s t).ini = some (text (toggled (entries (saved s)) t.1 t.2))
  answers : ∀ i < plan.length,
    turned_off (toggle s t) (plan.getD i default).key =
      ((read_order (toggle s t).ini plan).getD i default).off

/-- The menu reads the list saved, has room to keep another, and it is one both take alike. -/
structure Ready (plan : List Planned) (s : State) : Prop where
  reads : order_now s = saved s
  room : (edited s MOD_ORDER).isSome ∨ s.g_edits.length < EDITS
  alike : ∀ m ∈ plan, Alike (entries (saved s)) m.key

/-- The toggle is of one of the mods, and the list it makes fits an edit's 63 bytes. -/
structure Fits (plan : List Planned) (s : State) (t : Toggle) : Prop where
  mod_ : ∃ m ∈ plan, m.key = t.1
  short : (text (toggled (entries (saved s)) t.1 t.2)).length ≤ 63

variable {plan : List Planned} {s : State} {t : Toggle}

theorem Fits.word (fits : Fits plan s t) (unread : Unread plan) : Word t.1 := by
  obtain ⟨m, mem, is⟩ := fits.mod_
  rw [← is]
  exact unread.words m mem

theorem toggled_entries (word : Word t.1) {e : Str}
    (mem : e ∈ toggled (entries (saved s)) t.1 t.2) : Entry e := by
  rcases List.mem_append.mp mem with old | new
  · exact mem_entries (List.mem_filter.mp old).1
  · split at new
    · cases new
    · rw [List.mem_singleton.mp new]
      exact word.entry

theorem Ready.toggle_eq (ready : Ready plan s) (fits : Fits plan s t) :
    toggle s t = save s (text (toggled (entries (saved s)) t.1 t.2)) := by
  have short := fits.short
  rw [← ready.reads] at short ⊢
  exact set_mod_on_save (by omega)

theorem Ready.toggle (ready : Ready plan s) (unread : Unread plan) (fits : Fits plan s t) :
    Ready plan (Menu.toggle s t) := by
  have word := fits.word unread
  have back := entries_text fun e mem => toggled_entries (s := s) word mem
  rw [ready.toggle_eq fits]
  constructor
  case reads => exact order_now_save fits.short ready.room
  case room =>
    rw [edited_save ready.room]
    exact .inl rfl
  case alike =>
    intro m mem
    change Alike (entries (text _)) m.key
    rw [back]
    exact (ready.alike m mem).toggled word t.2

theorem Ready.toggled (ready : Ready plan s) (unread : Unread plan) (fits : Fits plan s t) :
    Toggled plan s t := by
  have word := fits.word unread
  have each : ∀ e ∈ Menu.toggled (entries (saved s)) t.1 t.2, Entry e :=
    fun e mem => toggled_entries word mem
  constructor
  case saves => rw [ready.toggle_eq fits, save]
  case answers =>
    intro i i_lt
    have mem : plan.getD i default ∈ plan := by
      rw [List.getD_eq_getElem?_getD, List.getElem?_eq_getElem i_lt]
      exact List.getElem_mem i_lt
    have key := unread.words _ mem
    have agree := ((ready.alike _ mem).toggled word t.2).agree key
    have short := fits.short
    rw [Bool.eq_iff_iff, turned_off_iff key, ready.toggle_eq fits,
      order_now_save fits.short ready.room, entries_text each, agree]
    exact (read_order_off unread each (by omega) i_lt).symm

def toggles_run (s : State) (ts : List Toggle) : State := ts.foldl toggle s

/-- Every toggle of a run fits. -/
def All_fit (plan : List Planned) : State → List Toggle → Prop
  | _, [] => True
  | s, t :: ts => Fits plan s t ∧ All_fit plan (toggle s t) ts

/-- A mod as planned, by its key. -/
def planned (key : String) : Planned := ⟨key.toList, [], none, false, false⟩

def two_mods : List Planned := [planned "a", planned "b"]

/-- Nothing listed, and nothing saved yet. -/
def unlisted : State := ⟨none, [], none⟩

/-- Three mods listed, by 24 characters each. -/
def long_order : State :=
  let env := (List.replicate 24 'x' ++ ',' :: List.replicate 24 'y' ++ ',' ::
    List.replicate 24 'z')
  ⟨some env, [], some env⟩

end SoaPort.Mods.Menu
