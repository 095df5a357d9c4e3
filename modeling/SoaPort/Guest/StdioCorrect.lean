import SoaPort.Guest.Stdio

namespace SoaPort.Guest.Stdio

open Lib

/-! The formats of the guest's printf, the arguments a call of it passes, and which conversions
`guest_format` gives theirs. -/

/-- The length modifiers. -/
inductive Len where
  | none
  | l
  | ll
  | h
deriving DecidableEq

def Len.text : Len → List Char
  | .none => []
  | .l => ['l']
  | .ll => ['l', 'l']
  | .h => ['h']

inductive Kind where
  | d | i | u | x | X | o | c | p | s | f | e | g | E | G | percent
deriving DecidableEq

def Kind.char : Kind → Char
  | .d => 'd'
  | .i => 'i'
  | .u => 'u'
  | .x => 'x'
  | .X => 'X'
  | .o => 'o'
  | .c => 'c'
  | .p => 'p'
  | .s => 's'
  | .f => 'f'
  | .e => 'e'
  | .g => 'g'
  | .E => 'E'
  | .G => 'G'
  | .percent => '%'

/-- A width, or a precision after its point: digits, perhaps none, or a *. -/
inductive Size where
  | digits (ds : List Char)
  | star

def Size.text : Size → List Char
  | .digits ds => ds
  | .star => ['*']

def Size.Plain : Size → Prop
  | .digits ds => ∀ d ∈ ds, d.isDigit = true
  | .star => True

/-- One conversion of a format. -/
structure Conv where
  flags : List Char
  width : Size
  precision : Option Size
  len : Len
  kind : Kind
  flagged : ∀ c ∈ flags, is_flag c = true
  width_plain : width.Plain
  precision_plain : ∀ s, precision = some s → s.Plain

namespace Conv

variable (v : Conv)

def point : List Char := v.precision.elim [] fun s => '.' :: s.text

/-- What stands between the % and the length. -/
def front : List Char := v.flags ++ v.width.text ++ v.point

def text : List Char := '%' :: (v.front ++ v.len.text) ++ [v.kind.char]

end Conv

inductive Piece where
  | lit (c : Char)
  | conv (v : Conv)

def Piece.text : Piece → List Char
  | .lit c => [c]
  | .conv v => v.text

/-- A literal is one byte, neither NUL nor a %. -/
def Piece.Plain : Piece → Prop
  | .lit c => c ≠ '%' ∧ c.toNat ≠ 0 ∧ c.toNat < 256
  | .conv _ => True

def render (ps : List Piece) : List Char := ps.flatMap Piece.text

/-! What the call passes. -/

/-- The types of the guest's arguments, a long one of 32 bits. -/
inductive Ty where
  | int
  | int64
  | double

def Size.types : Size → List Ty
  | .digits _ => []
  | .star => [.int]

/-- A 64-bit integer's conversion. -/
def Conv.wide (v : Conv) : Bool :=
  v.len = .ll && [Kind.d, .i, .u, .x, .X, .o].contains v.kind

def Conv.types (v : Conv) : List Ty :=
  v.width.types ++ v.precision.elim [] Size.types ++
    match v.kind with
    | .percent => []
    | .f | .e | .g | .E | .G => [.double]
    | _ => if v.wide then [.int64] else [.int]

/-- Where the PowerPC EABI passes the next argument. -/
def pass (va : VaList) : Ty → Slot × VaList
  | .int =>
      if va.gpr ≤ 10 then (.gpr va.gpr, { va with gpr := va.gpr + 1 })
      else (.stack va.stack, { va with stack := va.stack + 4 })
  | .int64 =>
      -- r5:r6, r7:r8 or r9:r10
      let gpr := if va.gpr % 2 = 1 then va.gpr else va.gpr + 1
      if gpr ≤ 9 then (.pair gpr, { va with gpr := gpr + 2 })
      else (.stack64 (align8 va.stack), { va with gpr := 11, stack := align8 va.stack + 8 })
  | .double =>
      if va.fpr ≤ 8 then (.fpr va.fpr, { va with fpr := va.fpr + 1 })
      else (.stack64 (align8 va.stack), { va with stack := align8 va.stack + 8 })

def pass_all : VaList → List Ty → List Slot × VaList
  | va, [] => ([], va)
  | va, t :: ts =>
      let (slot, va) := pass va t
      let (slots, va) := pass_all va ts
      (slot :: slots, va)

/-! What a specification makes the host's printf take. -/

inductive CType where
  | int | uint | long | ulong | llong | ullong | str | wide_str | wide_char | double | long_double
deriving DecidableEq

def Arg.type : Arg → CType
  | .int _ => .int
  | .uint _ => .uint
  | .llong _ => .llong
  | .ullong _ => .ullong
  | .str _ => .str
  | .double _ => .double

/-- By the C standard; none where it leaves the conversion undefined. -/
def conversion_type (len : List Char) (c : Char) : Option (List CType) :=
  if c = '%' then if len = [] then some [] else none
  else if c = 'd' ∨ c = 'i' then
    if len = [] ∨ len = ['h'] then some [.int]
    else if len = ['l'] then some [.long]
    else if len = ['l', 'l'] then some [.llong]
    else none
  else if c = 'u' ∨ c = 'x' ∨ c = 'X' ∨ c = 'o' then
    if len = [] ∨ len = ['h'] then some [.uint]
    else if len = ['l'] then some [.ulong]
    else if len = ['l', 'l'] then some [.ullong]
    else none
  else if c = 'c' then
    if len = [] then some [.int] else if len = ['l'] then some [.wide_char] else none
  else if c = 's' then
    if len = [] then some [.str] else if len = ['l'] then some [.wide_str] else none
  else if c = 'f' ∨ c = 'e' ∨ c = 'g' ∨ c = 'E' ∨ c = 'G' then
    if len = [] ∨ len = ['l'] then some [.double]
    else if len = ['L'] then some [.long_double]
    else none
  else none

/-- A * takes an int; digits follow one only in another's place. -/
def size_takes (p : List Char) : List CType × List Char :=
  if p.head? = some '*' then ([.int], p.tail) else ([], p.dropWhile Char.isDigit)

def host_takes : List Char → Option (List CType)
  | '%' :: p =>
      let (width, p) := size_takes (p.dropWhile is_flag)
      let (precision, p) := if p.head? = some '.' then size_takes p.tail else ([], p)
      match p.dropWhile is_length with
      | [c] => (conversion_type (p.takeWhile is_length) c).map (width ++ precision ++ ·)
      | _ => none
  | _ => none

/-- The host is given exactly what the specification takes. -/
def Call.Matched (call : Call) : Prop :=
  host_takes call.spec = some (call.arg.map Arg.type).toList

/-- The conversion's own text, the arguments passed for it, and a host call that takes what it
is given. -/
structure Right (va : VaList) (v : Conv) (item : Item) : Prop where
  raw : item.raw = v.text
  slots : item.slots = (pass_all va v.types).1
  call : item.call.Matched

/-! Reading a conversion's text. -/

section Scan

/-- The list does not go on with what `q` passes. -/
def Stops (q : Char → Bool) (ys : List Char) : Prop := ∀ c, ys.head? = some c → q c = false

theorem Stops.drop {q : Char → Bool} {ys : List Char} (stops : Stops q ys) :
    ys.dropWhile q = ys := by
  cases ys with
  | nil => rfl
  | cons c ys => exact List.dropWhile_cons_of_neg (by simp [stops c rfl])

theorem Stops.take {q : Char → Bool} {ys : List Char} (stops : Stops q ys) :
    ys.takeWhile q = [] := by
  cases ys with
  | nil => rfl
  | cons c ys => exact List.takeWhile_cons_of_neg (by simp [stops c rfl])

/-- The letters a length or a conversion begins with. -/
def letters : List Char := "lhdiuxXocpsfegEG%".toList

/-- A fact of each of a few characters, as the list's own test. -/
theorem of_all {p : Char → Prop} [DecidablePred p] {cs : List Char}
    (all : cs.all (fun c => decide (p c)) = true) : ∀ c ∈ cs, p c :=
  fun c member => of_decide_eq_true (List.all_eq_true.mp all c member)

theorem letter_plain {c : Char} (letter : c ∈ letters) :
    is_flag c = false ∧ c.isDigit = false ∧ c ≠ '*' ∧ c ≠ '.' := by
  have each : ∀ c ∈ letters, is_flag c = false ∧ c.isDigit = false ∧ c ≠ '*' ∧ c ≠ '.' :=
    of_all (by decide)
  exact each c letter

theorem kind_letter (k : Kind) : k.char ∈ letters := by
  cases k <;> decide

theorem kind_not_length (k : Kind) : is_length k.char = false := by
  cases k <;> decide

/-- What ends a conversion's text, and follows it. -/
def ending (len : Len) (k : Kind) (rest : List Char) : List Char := len.text ++ k.char :: rest

theorem ending_head {len : Len} {k : Kind} {rest : List Char} {c : Char}
    (first : (ending len k rest).head? = some c) : c ∈ letters := by
  cases len with
  | none =>
      cases first
      exact kind_letter k
  | l => cases first; decide
  | ll => cases first; decide
  | h => cases first; decide

theorem len_takes (len : Len) : ∀ c ∈ len.text, is_length c = true := by
  cases len <;> exact of_all (by decide)

theorem ending_length (len : Len) (k : Kind) (rest : List Char) :
    (ending len k rest).takeWhile is_length = len.text ∧
      (ending len k rest).dropWhile is_length = k.char :: rest := by
  have stops : Stops is_length (k.char :: rest) := by
    intro c first
    cases first
    exact kind_not_length k
  rw [ending, List.takeWhile_append_of_pos (len_takes len),
    List.dropWhile_append_of_pos (len_takes len), stops.take, stops.drop, List.append_nil]
  exact ⟨rfl, rfl⟩

variable {fs ds ys : List Char}

/-- Digits are passed after the flags, those the flags took among them. -/
theorem drop_digits (flagged : ∀ c ∈ fs, is_flag c = true) (digits : ∀ d ∈ ds, d.isDigit = true)
    (flag : Stops is_flag ys) (digit : Stops Char.isDigit ys) :
    ((fs ++ ds ++ ys).dropWhile is_flag).dropWhile Char.isDigit = ys := by
  rw [List.append_assoc, List.dropWhile_append_of_pos flagged, List.dropWhile_append]
  split
  · rw [flag.drop, digit.drop]
  · have left : ∀ d ∈ ds.dropWhile is_flag, d.isDigit = true :=
      fun d member => digits d ((List.dropWhile_sublist _).subset member)
    rw [List.dropWhile_append_of_pos left, digit.drop]

/-- No * stands before what follows them. -/
theorem drop_flags_head (flagged : ∀ c ∈ fs, is_flag c = true)
    (digits : ∀ d ∈ ds, d.isDigit = true) (flag : Stops is_flag ys)
    (other : ys.head? ≠ some '*') :
    ((fs ++ ds ++ ys).dropWhile is_flag).head? ≠ some '*' := by
  rw [List.append_assoc, List.dropWhile_append_of_pos flagged, List.dropWhile_append]
  split
  · rwa [flag.drop]
  · rename_i some_
    cases left : ds.dropWhile is_flag with
    | nil => simp [left] at some_
    | cons d later =>
        intro star
        cases star
        have member : '*' ∈ ds := (List.dropWhile_sublist _).subset (by rw [left]; simp)
        exact absurd (digits _ member) (by decide)

/-- What follows the width: a point or a letter. -/
theorem after_width {precision : Option Size} {len : Len} {k : Kind} {rest : List Char}
    {c : Char}
    (first : ((precision.elim [] fun s => '.' :: s.text) ++ ending len k rest).head? = some c) :
    is_flag c = false ∧ c.isDigit = false ∧ c ≠ '*' := by
  cases precision with
  | none =>
      obtain ⟨flag, digit, star, _⟩ := letter_plain (ending_head first)
      exact ⟨flag, digit, star⟩
  | some s => cases first; decide

theorem star_stops (ys : List Char) :
    Stops is_flag ('*' :: ys) ∧ Stops Char.isDigit ('*' :: ys) := by
  constructor <;> intro c first <;> cases first <;> decide

/-- The code's reader takes a conversion's text up to its character. -/
theorem scan_text (v : Conv) (rest : List Char) :
    scan (v.front ++ ending v.len v.kind rest) =
      (v.len.text.count 'l', v.kind.char :: rest) := by
  obtain ⟨flags, width, precision, len, kind, flagged, width_plain, precision_plain⟩ := v
  have past_width : ∀ ys, (∀ c, ys.head? = some c → is_flag c = false ∧ c.isDigit = false ∧
        c ≠ '*') →
      (let p := ((flags ++ width.text ++ ys).dropWhile is_flag).dropWhile Char.isDigit
       if p.head? = some '*' then p.tail else p) = ys := by
    intro ys plain
    cases width with
    | digits ds =>
        dsimp only
        rw [Size.text, drop_digits flagged width_plain (fun c first => (plain c first).1)
          (fun c first => (plain c first).2.1), if_neg]
        exact fun star => (plain _ star).2.2 rfl
    | star =>
        obtain ⟨flag, digit⟩ := star_stops ys
        dsimp only
        rw [Size.text, List.append_assoc, List.dropWhile_append_of_pos flagged,
          List.singleton_append, flag.drop, digit.drop]
        exact if_pos rfl
  have past_point : (let p := (precision.elim [] fun s => '.' :: s.text) ++ ending len kind rest
      if p.head? = some '.' then p.tail.dropWhile fun c => c.isDigit || c = '*' else p) =
      ending len kind rest := by
    cases precision with
    | none =>
        refine if_neg fun point => ?_
        exact (letter_plain (ending_head point)).2.2.2 rfl
    | some s =>
        refine (if_pos rfl).trans ?_
        have taken : ∀ c ∈ s.text, (c.isDigit || decide (c = '*')) = true := by
          intro c member
          cases s with
          | digits ds => simp [precision_plain _ rfl c member]
          | star => simp [List.mem_singleton.mp member]
        have stops : Stops (fun c => c.isDigit || decide (c = '*')) (ending len kind rest) := by
          intro c first
          obtain ⟨_, digit, star, _⟩ := letter_plain (ending_head first)
          simp [digit, star]
        change (s.text ++ ending len kind rest).dropWhile _ = _
        rw [List.dropWhile_append_of_pos taken, stops.drop]
  have start := past_width ((precision.elim [] fun s => '.' :: s.text) ++ ending len kind rest)
    fun c first => after_width first
  rw [scan, Conv.front, Conv.point, List.append_assoc (flags ++ width.text)]
  dsimp only at start past_point ⊢
  rw [start, past_point, (ending_length len kind rest).1, (ending_length len kind rest).2]

end Scan

/-! What the host makes of a conversion's text. -/

section Host

variable {fs ds : List Char} {es : Option (List Char)}

def point_text (es : Option (List Char)) : List Char := es.elim [] ('.' :: ·)

/-- A specification without a * takes what its length and character say. -/
theorem host_takes_plain (flagged : ∀ c ∈ fs, is_flag c = true)
    (digits : ∀ d ∈ ds, d.isDigit = true) (more : ∀ e, es = some e → ∀ d ∈ e, d.isDigit = true)
    (len : Len) (k : Kind) :
    host_takes ('%' :: (fs ++ ds ++ point_text es ++ ending len k [])) =
      conversion_type len.text k.char := by
  have plain : ∀ c, (point_text es ++ ending len k []).head? = some c →
      is_flag c = false ∧ c.isDigit = false ∧ c ≠ '*' := by
    intro c first
    cases es with
    | none =>
        obtain ⟨flag, digit, star, _⟩ := letter_plain (ending_head first)
        exact ⟨flag, digit, star⟩
    | some e => cases first; decide
  have width : size_takes ((fs ++ ds ++ (point_text es ++ ending len k [])).dropWhile is_flag) =
      ([], point_text es ++ ending len k []) := by
    rw [size_takes, if_neg, drop_digits flagged digits (fun c first => (plain c first).1)
      (fun c first => (plain c first).2.1)]
    exact drop_flags_head flagged digits (fun c first => (plain c first).1)
      fun star => (plain _ star).2.2 rfl
  have precision : (if (point_text es ++ ending len k []).head? = some '.' then
      size_takes (point_text es ++ ending len k []).tail
        else ([], point_text es ++ ending len k [])) = ([], ending len k []) := by
    cases es with
    | none => exact if_neg fun point => (letter_plain (ending_head point)).2.2.2 rfl
    | some e =>
        refine (if_pos rfl).trans ?_
        change size_takes (e ++ ending len k []) = _
        have stops : Stops Char.isDigit (ending len k []) :=
          fun c first => (letter_plain (ending_head first)).2.1
        rw [size_takes, List.dropWhile_append_of_pos (more e rfl), stops.drop, if_neg]
        cases e with
        | nil => exact fun star => (letter_plain (ending_head star)).2.2.1 rfl
        | cons d e =>
            intro star
            cases star
            exact absurd (more _ rfl '*' (by simp)) (by decide)
  rw [host_takes, List.append_assoc (fs ++ ds), width]
  dsimp only
  rw [precision]
  dsimp only
  rw [(ending_length len k []).1, (ending_length len k []).2]
  dsimp only
  rw [List.append_nil]
  cases conversion_type len.text k.char <;> rfl

theorem conversion_known {len : List Char} {c : Char} {tys : List CType}
    (known : conversion_type len c = some tys) : c ∈ "%diuxXocsfegEG".toList := by
  unfold conversion_type at known
  split at known
  · rename_i same
    rw [same]
    decide
  split at known
  · rename_i same
    rcases same with rfl | rfl <;> decide
  split at known
  · rename_i same
    rcases same with rfl | rfl | rfl | rfl <;> decide
  split at known
  · rename_i same
    rw [same]
    decide
  split at known
  · rename_i same
    rw [same]
    decide
  split at known
  · rename_i same
    rcases same with rfl | rfl | rfl | rfl | rfl <;> decide
  · cases known

/-- A character of a text before its conversion's. -/
def Inner (c : Char) : Prop :=
  is_flag c = true ∨ c.isDigit = true ∨ is_length c = true ∨ c = '*' ∨ c = '.'

theorem inner_unknown {c : Char} (inner : Inner c) (len : List Char) :
    conversion_type len c = none := by
  cases known : conversion_type len c with
  | none => rfl
  | some tys =>
      have other : ∀ c ∈ "%diuxXocsfegEG".toList, is_flag c = false ∧ c.isDigit = false ∧
          is_length c = false ∧ c ≠ '*' ∧ c ≠ '.' := of_all (by decide)
      obtain ⟨flag, digit, length, star, point⟩ := other c (conversion_known known)
      rcases inner with is | is | is | is | is
      · rw [flag] at is; cases is
      · rw [digit] at is; cases is
      · rw [length] at is; cases is
      · exact absurd is star
      · exact absurd is point

theorem size_takes_sublist (p : List Char) : (size_takes p).2.Sublist p := by
  unfold size_takes
  split
  · exact List.tail_sublist p
  · exact List.dropWhile_sublist _

/-- A specification cut before its conversion's character is undefined. -/
theorem host_takes_cut {body : List Char} (inner : ∀ c ∈ body, Inner c) :
    host_takes ('%' :: body) = none := by
  rw [host_takes]
  dsimp only
  have width := size_takes_sublist (body.dropWhile is_flag)
  generalize size_takes (body.dropWhile is_flag) = w at width
  have precision : (if w.2.head? = some '.' then size_takes w.2.tail else ([], w.2)).2.Sublist
      w.2 := by
    split
    · exact (size_takes_sublist _).trans (List.tail_sublist _)
    · exact List.Sublist.refl _
  generalize (if w.2.head? = some '.' then size_takes w.2.tail else ([], w.2)) = q at precision
  have within : (q.2.dropWhile is_length).Sublist body :=
    (List.dropWhile_sublist _).trans
      (precision.trans (width.trans (List.dropWhile_sublist _)))
  split
  · rename_i c only
    rw [only] at within
    rw [inner_unknown (inner c (within.subset (by simp)))]
    rfl
  · rfl

end Host

/-! One conversion. -/

namespace Conv

variable (v : Conv)

def Starless : Prop :=
  (∃ ds, v.width = .digits ds) ∧ ∀ s, v.precision = some s → ∃ es, s = .digits es

/-- The host's type is the one given: no l for an int, and the specification whole where the
conversion's own character is used. -/
def Fits : Prop :=
  match v.kind with
  | .percent | .c | .p => True
  | .d | .i => v.len ≠ .l ∨ 31 < v.text.length
  | .u | .x | .X | .o => v.len ≠ .l ∧ v.text.length ≤ 31
  | .s => v.len = .none ∧ v.text.length ≤ 31
  | .f | .e | .g | .E | .G => (v.len = .none ∨ v.len = .l) ∧ v.text.length ≤ 31

/-- No *, a 64-bit integer only on the stack, and a type that fits. -/
def Good (va : VaList) : Prop :=
  v.Starless ∧ if v.wide then 10 ≤ va.gpr else v.Fits

end Conv

section One

variable {v : Conv} {g : CpuState} {va : VaList}

theorem starless_front (starless : v.Starless) :
    ∃ ds es, v.front = v.flags ++ ds ++ point_text es ∧ (∀ d ∈ ds, d.isDigit = true) ∧
      ∀ e, es = some e → ∀ d ∈ e, d.isDigit = true := by
  obtain ⟨⟨ds, width⟩, point⟩ := starless
  have digits := v.width_plain
  rw [width] at digits
  cases precision : v.precision with
  | none =>
      refine ⟨ds, none, ?_, digits, fun e some_ => by cases some_⟩
      rw [Conv.front, Conv.point, width, precision]
      rfl
  | some s =>
      obtain ⟨es, rfl⟩ := point s precision
      refine ⟨ds, some es, ?_, digits, fun e some_ => ?_⟩
      · rw [Conv.front, Conv.point, width, precision]
        rfl
      · cases some_
        exact v.precision_plain _ precision

theorem front_inner (v : Conv) : ∀ c ∈ v.front ++ v.len.text, Inner c := by
  have sized : ∀ s : Size, s.Plain → ∀ c ∈ s.text, Inner c := by
    intro s plain c member
    cases s with
    | digits ds => exact .inr (.inl (plain c member))
    | star => exact .inr (.inr (.inr (.inl (List.mem_singleton.mp member))))
  intro c member
  rw [Conv.front, List.mem_append, List.mem_append, List.mem_append] at member
  rcases member with ((flag | width) | point) | len
  · exact .inl (v.flagged c flag)
  · exact sized _ v.width_plain c width
  · rw [Conv.point] at point
    cases precision : v.precision with
    | none =>
        rw [precision] at point
        cases point
    | some s =>
        rw [precision] at point
        rcases List.mem_cons.mp point with rfl | later
        · exact .inr (.inr (.inr (.inr rfl)))
        · exact sized s (v.precision_plain s precision) c later
  · exact .inr (.inr (.inl (len_takes _ c len)))

theorem text_eq (v : Conv) : v.text = '%' :: (v.front ++ ending v.len v.kind []) := by
  rw [Conv.text, ending]
  simp

theorem text_length (v : Conv) : v.text.length = v.front.length + v.len.text.length + 2 := by
  rw [Conv.text]
  simp
  omega

/-- The host given the conversion's own specification, as the code cuts it. -/
theorem spec_matched (starless : v.Starless) (arg : Arg) :
    (⟨v.text.take 31, some arg⟩ : Call).Matched ↔
      conversion_type v.len.text v.kind.char = some [arg.type] ∧ v.text.length ≤ 31 := by
  obtain ⟨ds, es, front, digits, more⟩ := starless_front starless
  unfold Call.Matched
  rcases Nat.lt_or_ge 31 v.text.length with long | short
  · have cut : v.text.take 31 = '%' :: (v.front ++ v.len.text).take 30 := by
      have room : 30 ≤ (v.front ++ v.len.text).length := by
        rw [text_length] at long
        rw [List.length_append]
        omega
      rw [Conv.text, List.cons_append, List.take_succ_cons, List.take_append_of_le_length room]
    rw [cut, host_takes_cut fun c member => front_inner v c (List.mem_of_mem_take member)]
    constructor
    · intro none_
      cases none_
    · intro fits
      omega
  · rw [List.take_of_length_le short, text_eq, front, host_takes_plain v.flagged digits more]
    rw [← front, ← text_eq]
    exact ⟨fun given => ⟨given, short⟩, fun given => given.1⟩

/-- A front cut short is a front. -/
theorem front_take {fs ds : List Char} {es : Option (List Char)} (n : Nat)
    (flagged : ∀ c ∈ fs, is_flag c = true) (digits : ∀ d ∈ ds, d.isDigit = true)
    (more : ∀ e, es = some e → ∀ d ∈ e, d.isDigit = true) :
    ∃ fs' ds' es', (fs ++ ds ++ point_text es).take n = fs' ++ ds' ++ point_text es' ∧
      (∀ c ∈ fs', is_flag c = true) ∧ (∀ d ∈ ds', d.isDigit = true) ∧
      ∀ e, es' = some e → ∀ d ∈ e, d.isDigit = true := by
  have point : ∀ k, ∃ es', (point_text es).take k = point_text es' ∧
      ∀ e, es' = some e → ∀ d ∈ e, d.isDigit = true := by
    intro k
    cases k with
    | zero => exact ⟨none, rfl, fun e some_ => by cases some_⟩
    | succ k =>
        cases es with
        | none => exact ⟨none, List.take_nil, fun e some_ => by cases some_⟩
        | some e =>
            refine ⟨some (e.take k), rfl, fun e' some_ d member => ?_⟩
            cases some_
            exact more e rfl d (List.mem_of_mem_take member)
  obtain ⟨es', cut, more'⟩ := point (n - (fs ++ ds).length)
  refine ⟨fs.take n, ds.take (n - fs.length), es', ?_,
    fun c member => flagged c (List.mem_of_mem_take member),
    fun d member => digits d (List.mem_of_mem_take member), more'⟩
  rw [List.take_append, cut, List.take_append]

/-- The host given a d for the conversion's character. -/
theorem signed_matched (starless : v.Starless) (narrow : v.len ≠ .ll) (w : BitVec 32) :
    (⟨(v.text.take 31).dropLast ++ ['d'], some (.int w)⟩ : Call).Matched ↔
      v.len ≠ .l ∨ 31 < v.text.length := by
  obtain ⟨ds, es, front, digits, more⟩ := starless_front starless
  unfold Call.Matched
  rcases Nat.lt_or_ge 31 v.text.length with long | short
  · refine ⟨fun _ => .inr long, fun _ => ?_⟩
    have one : v.len.text.length ≤ 1 := by
      cases len : v.len with
      | ll => exact absurd len narrow
      | none => decide
      | l => decide
      | h => decide
    have cut : (v.text.take 31).dropLast = '%' :: v.front.take 29 := by
      have room : 29 ≤ v.front.length := by
        rw [text_length] at long
        omega
      rw [List.dropLast_take long, text_eq, List.take_succ_cons,
        List.take_append_of_le_length room]
    obtain ⟨fs', ds', es', shape, flagged', digits', more'⟩ :=
      front_take 29 v.flagged digits more
    have taken := host_takes_plain flagged' digits' more' .none .d
    rw [← shape, ← front] at taken
    rw [cut]
    exact taken
  · have whole : (v.text.take 31).dropLast ++ ['d'] =
        '%' :: (v.front ++ ending v.len .d []) := by
      rw [List.take_of_length_le short, Conv.text, List.dropLast_concat, List.cons_append,
        List.append_assoc]
      rfl
    rw [whole, front, host_takes_plain v.flagged digits more]
    cases len : v.len with
    | ll => exact absurd len narrow
    | none => simp [conversion_type, Len.text, Kind.char, Arg.type]
    | l =>
        simp [conversion_type, Len.text, Kind.char, Arg.type]
        omega
    | h => simp [conversion_type, Len.text, Kind.char, Arg.type]

/-! The arguments taken, and those passed. -/

theorem pass_all_length (va : VaList) (ts : List Ty) : (pass_all va ts).1.length = ts.length := by
  induction ts generalizing va with
  | nil => rfl
  | cons t ts ih =>
      rw [pass_all, List.length_cons]
      exact congrArg (· + 1) (ih _)

theorem next_u64_eq (stacked : 10 ≤ va.gpr) : next_u64 va = pass va .int64 := by
  unfold next_u64 pass
  dsimp only
  rw [if_neg (show ¬ (if va.gpr % 2 = 1 then va.gpr + 1 else va.gpr) ≤ 9 by split <;> omega),
    if_neg (show ¬ (if va.gpr % 2 = 1 then va.gpr else va.gpr + 1) ≤ 9 by split <;> omega)]

/-- In the registers the pair is never the one passed. -/
theorem next_u64_ne (registers : va.gpr < 10) : (next_u64 va).1 ≠ (pass va .int64).1 := by
  unfold next_u64 pass
  dsimp only
  rcases Nat.mod_two_eq_zero_or_one va.gpr with even | odd
  · have not_odd : ¬ va.gpr % 2 = 1 := by omega
    rw [if_neg not_odd, if_neg not_odd]
    split
    · split
      · simp
      · simp
    · omega
  · rw [if_pos odd, if_pos odd]
    split
    · split
      · simp
      · simp
    · split
      · simp
      · omega

/-- The base of what a conversion takes, its *s apart. -/
def Conv.base (v : Conv) : List Ty :=
  match v.kind with
  | .percent => []
  | .f | .e | .g | .E | .G => [.double]
  | _ => if v.wide then [.int64] else [.int]

theorem starless_types (starless : v.Starless) : v.types = v.base := by
  obtain ⟨⟨ds, width⟩, point⟩ := starless
  rw [Conv.types, width]
  cases precision : v.precision with
  | none => rfl
  | some s =>
      obtain ⟨es, rfl⟩ := point s precision
      rfl

theorem starred_types (starred : ¬ v.Starless) : v.base.length < v.types.length := by
  have length : v.types.length =
      v.width.types.length + (v.precision.elim [] Size.types).length + v.base.length := by
    rw [← List.length_append, ← List.length_append]
    rfl
  rw [length]
  by_contra none_
  apply starred
  have width_none : v.width.types.length = 0 := by omega
  have point_none : (v.precision.elim [] Size.types).length = 0 := by omega
  constructor
  · cases width : v.width with
    | digits ds => exact ⟨ds, rfl⟩
    | star =>
        rw [width] at width_none
        cases width_none
  · intro s precision
    rw [precision] at point_none
    cases s with
    | digits es => exact ⟨es, rfl⟩
    | star => cases point_none

/-- The conversions that take one 32-bit integer. -/
theorem taken_int (call : Slot → Call) {item : Item} {va' : VaList} {raw : List Char}
    (types : v.types = [.int]) (raw_eq : raw = v.text)
    (made : (item, va') = (⟨raw, [(next_u32 va).1], call (next_u32 va).1⟩, (next_u32 va).2)) :
    (Right va v item ↔ (call (next_u32 va).1).Matched) ∧ va' = (pass_all va v.types).2 := by
  cases made
  rw [types]
  refine ⟨⟨fun right => right.call, fun matched => ⟨raw_eq, ?_, matched⟩⟩, rfl⟩
  rw [types]
  rfl

theorem taken_double (call : Slot → Call) {item : Item} {va' : VaList} {raw : List Char}
    (types : v.types = [.double]) (raw_eq : raw = v.text)
    (made : (item, va') = (⟨raw, [(next_f64 va).1], call (next_f64 va).1⟩, (next_f64 va).2)) :
    (Right va v item ↔ (call (next_f64 va).1).Matched) ∧ va' = (pass_all va v.types).2 := by
  cases made
  rw [types]
  refine ⟨⟨fun right => right.call, fun matched => ⟨raw_eq, ?_, matched⟩⟩, rfl⟩
  rw [types]
  rfl

theorem taken_int64 (call : Slot → Call) {item : Item} {va' : VaList} {raw : List Char}
    (types : v.types = [.int64]) (raw_eq : raw = v.text) (matched : ∀ slot, (call slot).Matched)
    (made : (item, va') = (⟨raw, [(next_u64 va).1], call (next_u64 va).1⟩, (next_u64 va).2)) :
    (Right va v item ↔ 10 ≤ va.gpr) ∧ (10 ≤ va.gpr → va' = (pass_all va v.types).2) := by
  cases made
  refine ⟨⟨fun right => ?_, fun stacked => ⟨raw_eq, ?_, matched _⟩⟩, fun stacked => ?_⟩
  · by_contra registers
    have slots := right.slots
    rw [types] at slots
    have same : (next_u64 va).1 = (pass va .int64).1 := List.head_eq_of_cons_eq slots
    exact next_u64_ne (by omega) same
  · rw [types, next_u64_eq stacked]
    rfl
  · rw [types, next_u64_eq stacked]
    rfl

theorem longs_wide (len : Len) : 2 ≤ len.text.count 'l' ↔ len = .ll := by
  cases len <;> decide

/-- The code's step for a conversion of this kind takes its 32-bit integer, or its 64-bit one. -/
theorem convert_signed {raw : List Char} {k : Kind} (signed : k = .d ∨ k = .i) (longs : Nat) :
    convert g va longs raw k.char =
      if longs ≥ 2 then
        (⟨raw, [(next_u64 va).1], ⟨"%lld".toList, some (.llong (g.u64 (next_u64 va).1))⟩⟩,
          (next_u64 va).2)
      else
        (⟨raw, [(next_u32 va).1],
          ⟨(raw.take 31).dropLast ++ ['d'], some (.int (g.u32 (next_u32 va).1))⟩⟩,
          (next_u32 va).2) := by
  rcases signed with rfl | rfl <;> rfl

theorem convert_unsigned {raw : List Char} {k : Kind}
    (unsigned : k = .u ∨ k = .x ∨ k = .X ∨ k = .o) (longs : Nat) :
    convert g va longs raw k.char =
      if longs ≥ 2 then
        (⟨raw, [(next_u64 va).1], ⟨if k.char = 'u' then "%llu".toList else "%llx".toList,
          some (.ullong (g.u64 (next_u64 va).1))⟩⟩, (next_u64 va).2)
      else
        (⟨raw, [(next_u32 va).1], ⟨raw.take 31, some (.uint (g.u32 (next_u32 va).1))⟩⟩,
          (next_u32 va).2) := by
  rcases unsigned with rfl | rfl | rfl | rfl <;> rfl

theorem convert_float {raw : List Char} {k : Kind}
    (float : k = .f ∨ k = .e ∨ k = .g ∨ k = .E ∨ k = .G) (longs : Nat) :
    convert g va longs raw k.char =
      (⟨raw, [(next_f64 va).1], ⟨raw.take 31, some (.double (g.u64 (next_f64 va).1))⟩⟩,
        (next_f64 va).2) := by
  rcases float with rfl | rfl | rfl | rfl | rfl <;> rfl

/-- As many arguments are taken as the conversion's character alone would have. -/
theorem convert_length (v : Conv) (longs : Nat) (raw : List Char) :
    (convert g va longs raw v.kind.char).1.slots.length = v.base.length := by
  have wide : ∀ ts : List Ty, ts = (if v.wide then [Ty.int64] else [Ty.int]) → ts.length = 1 := by
    intro ts same
    rw [same]
    split <;> rfl
  rw [Conv.base]
  cases kind : v.kind with
  | d | i =>
      rw [convert_signed (by simp) longs]
      refine Eq.trans ?_ (wide _ rfl).symm
      split <;> rfl
  | u | x | X | o =>
      rw [convert_unsigned (by simp) longs]
      refine Eq.trans ?_ (wide _ rfl).symm
      split <;> rfl
  | c | p | s => exact (wide _ rfl).symm
  | _ => rfl

/-- A conversion gets its argument exactly when it is good, and then leaves the places as the
call has them. -/
structure Converted (va : VaList) (v : Conv) (done : Item × VaList) : Prop where
  right : Right va v done.1 ↔ v.Good va
  left : v.Good va → done.2 = (pass_all va v.types).2

theorem converted_int (call : Slot → Call) {done : Item × VaList} (starless : v.Starless)
    (narrow : v.wide = false) (base : v.base = [.int])
    (matched : ∀ slot, (call slot).Matched ↔ v.Fits)
    (made : done = (⟨v.text, [(next_u32 va).1], call (next_u32 va).1⟩, (next_u32 va).2)) :
    Converted va v done := by
  obtain ⟨right, left⟩ := taken_int call ((starless_types starless).trans base) rfl made
  have good : v.Good va ↔ v.Fits := by
    rw [Conv.Good, narrow]
    exact ⟨fun both => both.2, fun fits => ⟨starless, fits⟩⟩
  exact ⟨right.trans ((matched _).trans good.symm), fun _ => left⟩

theorem converted_int64 (call : Slot → Call) {done : Item × VaList} (starless : v.Starless)
    (wide : v.wide = true) (base : v.base = [.int64]) (matched : ∀ slot, (call slot).Matched)
    (made : done = (⟨v.text, [(next_u64 va).1], call (next_u64 va).1⟩, (next_u64 va).2)) :
    Converted va v done := by
  obtain ⟨right, left⟩ := taken_int64 call ((starless_types starless).trans base) rfl matched made
  have good : v.Good va ↔ 10 ≤ va.gpr := by
    rw [Conv.Good, wide]
    exact ⟨fun both => both.2, fun stacked => ⟨starless, stacked⟩⟩
  exact ⟨right.trans good.symm, fun fits => left (good.mp fits)⟩

theorem starless_converted (starless : v.Starless) :
    Converted va v (convert g va (v.len.text.count 'l') v.text v.kind.char) := by
  have integer : ∀ k, v.kind = k → [Kind.d, .i, .u, .x, .X, .o].contains k = true →
      (v.wide = true ↔ v.len = .ll) := by
    intro k same known
    rw [Conv.wide, same, known, Bool.and_true, decide_eq_true_eq]
  have narrow : ∀ k, v.kind = k → [Kind.d, .i, .u, .x, .X, .o].contains k = false →
      v.wide = false := by
    intro k same other
    rw [Conv.wide, same, other, Bool.and_false]
  cases kind : v.kind with
  | d | i =>
      rw [convert_signed (by simp)]
      have wide := integer _ kind rfl
      rcases Decidable.em (v.len = .ll) with long | short
      · rw [if_pos ((longs_wide _).mpr long)]
        refine converted_int64 (fun slot => ⟨"%lld".toList, some (.llong (g.u64 slot))⟩)
          starless (wide.mpr long) ?_ (fun slot => rfl) rfl
        rw [Conv.base, kind]
        exact if_pos (wide.mpr long)
      · rw [if_neg fun two => short ((longs_wide _).mp two)]
        have not_wide : v.wide = false := Bool.eq_false_iff.mpr fun is => short (wide.mp is)
        refine converted_int (fun slot =>
          ⟨(v.text.take 31).dropLast ++ ['d'], some (.int (g.u32 slot))⟩)
          starless not_wide ?_ (fun slot => ?_) rfl
        · rw [Conv.base, kind]
          dsimp only
          rw [not_wide]
          rfl
        · rw [Conv.Fits, kind]
          exact signed_matched starless short _
  | u | x | X | o =>
      rw [convert_unsigned (by simp)]
      have wide := integer _ kind rfl
      rcases Decidable.em (v.len = .ll) with long | short
      · rw [if_pos ((longs_wide _).mpr long)]
        refine converted_int64 (fun slot =>
            ⟨if v.kind.char = 'u' then "%llu".toList else "%llx".toList,
              some (.ullong (g.u64 slot))⟩) starless (wide.mpr long) ?_ (fun slot => ?_) ?_
        · rw [Conv.base, kind]
          exact if_pos (wide.mpr long)
        · rw [kind]
          rfl
        · rw [kind]
      · rw [if_neg fun two => short ((longs_wide _).mp two)]
        have not_wide : v.wide = false := Bool.eq_false_iff.mpr fun is => short (wide.mp is)
        refine converted_int (fun slot => ⟨v.text.take 31, some (.uint (g.u32 slot))⟩)
          starless not_wide ?_ (fun slot => ?_) rfl
        · rw [Conv.base, kind]
          dsimp only
          rw [not_wide]
          rfl
        · rw [Conv.Fits, kind]
          refine (spec_matched starless _).trans (and_congr_left fun _ => ?_)
          rw [kind]
          cases len : v.len with
          | ll => exact absurd len short
          | _ => simp [conversion_type, Len.text, Kind.char, Arg.type]
  | c =>
      refine converted_int (fun slot => ⟨"%c".toList, some (.int (g.u32 slot))⟩)
        starless (narrow _ kind rfl) ?_ (fun slot => ?_) rfl
      · rw [Conv.base, kind]
        dsimp only
        rw [narrow _ kind rfl]
        rfl
      · rw [Conv.Fits, kind]
        exact ⟨fun _ => trivial, fun _ => rfl⟩
  | p =>
      refine converted_int (fun slot => ⟨"%08X".toList, some (.uint (g.u32 slot))⟩)
        starless (narrow _ kind rfl) ?_ (fun slot => ?_) rfl
      · rw [Conv.base, kind]
        dsimp only
        rw [narrow _ kind rfl]
        rfl
      · rw [Conv.Fits, kind]
        exact ⟨fun _ => trivial, fun _ => rfl⟩
  | s =>
      refine converted_int (fun slot =>
        ⟨v.text.take 31, some (.str (guest_string g (g.u32 slot) 512))⟩)
        starless (narrow _ kind rfl) ?_ (fun slot => ?_) rfl
      · rw [Conv.base, kind]
        dsimp only
        rw [narrow _ kind rfl]
        rfl
      · rw [Conv.Fits, kind]
        refine (spec_matched starless _).trans (and_congr_left fun _ => ?_)
        rw [kind]
        cases v.len <;> simp [conversion_type, Len.text, Kind.char, Arg.type]
  | f | e | g | E | G =>
      have base : v.base = [.double] := by rw [Conv.base, kind]
      rw [convert_float (by simp)]
      obtain ⟨right, left⟩ := taken_double
        (fun slot => ⟨v.text.take 31, some (.double (g.u64 slot))⟩)
        ((starless_types starless).trans base) rfl rfl
      refine ⟨right.trans ?_, fun _ => left⟩
      rw [Conv.Good, narrow _ kind rfl, if_neg Bool.false_ne_true, Conv.Fits, kind]
      refine (spec_matched starless _).trans ?_
      have fits : conversion_type v.len.text v.kind.char = some [CType.double] ↔
          (v.len = .none ∨ v.len = .l) := by
        rw [kind]
        cases v.len <;> simp [conversion_type, Len.text, Kind.char]
      exact ⟨fun both => ⟨starless, fits.mp both.1, both.2⟩,
        fun both => ⟨fits.mpr both.2.1, both.2.2⟩⟩
  | percent =>
      have base : v.base = [] := by rw [Conv.base, kind]
      refine ⟨⟨fun _ => ⟨starless, ?_⟩, fun _ => ⟨rfl, ?_, rfl⟩⟩, fun _ => ?_⟩
      · rw [narrow _ kind rfl, if_neg Bool.false_ne_true, Conv.Fits, kind]
        trivial
      · rw [starless_types starless, base]
        rfl
      · rw [starless_types starless, base]
        rfl

/-- Of any conversion. -/
theorem converted (v : Conv) :
    Converted va v (convert g va (v.len.text.count 'l') v.text v.kind.char) := by
  rcases Classical.em v.Starless with starless | starred
  · exact starless_converted starless
  · refine ⟨⟨fun right => absurd ?_ starred, fun good => absurd good.1 starred⟩,
      fun good => absurd good.1 starred⟩
    have length := congrArg List.length right.slots
    rw [convert_length, pass_all_length] at length
    have more := starred_types starred
    omega

end One

/-! The loop. -/

section Loop

variable {g : CpuState} {host : Call → List Char} {cap : Nat}

theorem loop_full {p out : List Char} {va : VaList} {items : List Item}
    (full : ¬ out.length + 1 < cap) :
    format_loop g host cap p va out items = (out, items) := by
  rw [format_loop.eq_def]
  split
  · rfl
  · exact if_neg full

theorem loop_lit {c : Char} (plain : c ≠ '%') (p : List Char) (va : VaList) {out : List Char}
    (items : List Item) (room : out.length + 1 < cap) :
    format_loop g host cap (c :: p) va out items =
      format_loop g host cap p va (out ++ [c]) items := by
  rw [format_loop, if_pos room, if_pos plain]

theorem loop_conv {p rest : List Char} {longs : Nat} {k : Char}
    (scanned : scan p = (longs, k :: rest)) (va : VaList) {out : List Char} (items : List Item)
    (room : out.length + 1 < cap) :
    format_loop g host cap ('%' :: p) va out items =
      let done := convert g va longs ('%' :: p.take (p.length - (rest.length + 1)) ++ [k]) k
      format_loop g host cap rest done.2
        (out ++ (item_text host done.1.call).take (cap - 1 - out.length)) (items ++ [done.1]) := by
  rw [format_loop, if_pos room, if_neg (fun other => other rfl)]
  split
  · rename_i none_
    rw [scanned] at none_
    cases none_
  · rename_i found
    rw [scanned] at found
    cases found
    rfl

/-- A conversion of a format. -/
theorem loop_text (v : Conv) (rest : List Char) (va : VaList) {out : List Char}
    (items : List Item) (room : out.length + 1 < cap) :
    format_loop g host cap (v.text ++ rest) va out items =
      let done := convert g va (v.len.text.count 'l') v.text v.kind.char
      format_loop g host cap rest done.2
        (out ++ (item_text host done.1.call).take (cap - 1 - out.length)) (items ++ [done.1]) := by
  have after : v.text ++ rest = '%' :: (v.front ++ ending v.len v.kind rest) := by
    rw [text_eq, ending, ending]
    simp
  have body : v.front ++ ending v.len v.kind rest =
      (v.front ++ v.len.text) ++ v.kind.char :: rest := by
    rw [ending, List.append_assoc]
  have raw : '%' :: (v.front ++ ending v.len v.kind rest).take
      ((v.front ++ ending v.len v.kind rest).length - (rest.length + 1)) ++ [v.kind.char] =
        v.text := by
    rw [body, List.length_append, List.length_cons, Nat.add_sub_cancel, List.take_left]
    rfl
  rw [after, loop_conv (scan_text v rest) va items room, raw]

/-- The conversions of a format, each with the places the call has left when it comes. -/
def passed : VaList → List Piece → List (VaList × Conv)
  | _, [] => []
  | va, .lit _ :: ps => passed va ps
  | va, .conv v :: ps => (va, v) :: passed (pass_all va v.types).2 ps

/-- Those the text has room for, `o` characters of it taken. -/
def reached (g : CpuState) (host : Call → List Char) (cap : Nat) :
    VaList → Nat → List Piece → List (VaList × Conv)
  | _, _, [] => []
  | va, o, .lit _ :: ps => if o + 1 < cap then reached g host cap va (o + 1) ps else []
  | va, o, .conv v :: ps =>
      if o + 1 < cap then
        let call := (convert g va (v.len.text.count 'l') v.text v.kind.char).1.call
        (va, v) :: reached g host cap (pass_all va v.types).2
          (o + min (cap - 1 - o) (item_text host call).length) ps
      else []

/-- Each conversion done is given what the call passed for it. -/
def AllRight (va : VaList) (ps : List Piece) (items : List Item) : Prop :=
  List.Forall₂ (fun at_ item => Right at_.1 at_.2 item) ((passed va ps).take items.length) items

theorem loop_iff {ps : List Piece} (plain : ∀ p ∈ ps, p.Plain) (va : VaList) (out : List Char)
    (items : List Item) : ∃ new,
      (format_loop g host cap (render ps) va out items).2 = items ++ new ∧
      (AllRight va ps new ↔ ∀ at_ ∈ reached g host cap va out.length ps, at_.2.Good at_.1) := by
  induction ps generalizing va out items with
  | nil =>
      refine ⟨[], ?_, ⟨fun _ at_ none_ => absurd none_ List.not_mem_nil, fun _ => .nil⟩⟩
      rw [render, List.flatMap_nil, format_loop, List.append_nil]
  | cons p ps ih =>
      have later : ∀ p ∈ ps, p.Plain := fun q member => plain q (List.mem_cons_of_mem _ member)
      rcases Nat.lt_or_ge (out.length + 1) cap with room | full
      · cases p with
        | lit c =>
            have step := @loop_lit g host cap c (plain _ List.mem_cons_self).1 (render ps) va out
              items room
            obtain ⟨new, made, iff⟩ := ih later va (out ++ [c]) items
            refine ⟨new, ?_, ?_⟩
            · exact (congrArg Prod.snd step).trans made
            · rw [reached, if_pos room]
              rw [List.length_append, List.length_singleton] at iff
              exact iff
        | conv v =>
            have step := @loop_text g host cap v (render ps) va out items room
            have done := @converted g va v
            dsimp only at step
            generalize one : convert g va (v.len.text.count 'l') v.text v.kind.char = d
              at step done
            obtain ⟨new, made, iff⟩ := ih later d.2
              (out ++ (item_text host d.1.call).take (cap - 1 - out.length)) (items ++ [d.1])
            refine ⟨d.1 :: new, ?_, ?_⟩
            · refine (congrArg Prod.snd step).trans (made.trans ?_)
              rw [List.append_assoc]
              rfl
            · rw [reached, if_pos room, one]
              dsimp only
              rw [List.forall_mem_cons, AllRight, passed, List.length_cons, List.take_succ_cons,
                List.forall₂_cons, done.right]
              rw [List.length_append, List.length_take] at iff
              constructor
              · intro both
                rw [done.left both.1] at iff
                exact ⟨both.1, iff.mp both.2⟩
              · intro both
                rw [done.left both.1] at iff
                exact ⟨both.1, iff.mpr both.2⟩
      · refine ⟨[], ?_, ?_⟩
        · rw [loop_full (Nat.not_lt.mpr full), List.append_nil]
        · have none_ : reached g host cap va out.length (p :: ps) = [] := by
            cases p <;> exact if_neg (Nat.not_lt.mpr full)
          rw [none_]
          exact ⟨fun _ at_ member => absurd member List.not_mem_nil, fun _ => .nil⟩

end Loop

/-! A format in the guest's memory. -/

section Memory

variable {g : CpuState}

/-- The text's bytes at `a`, and a NUL after them. -/
def Holds (g : CpuState) : BitVec 32 → List Char → Prop
  | a, [] => g.mem a = 0
  | a, c :: s => g.mem a = BitVec.ofNat 8 c.toNat ∧ Holds g (a + 1) s

/-- A character of one byte, no NUL. -/
def OneByte (c : Char) : Prop := c.toNat ≠ 0 ∧ c.toNat < 256

instance (c : Char) : Decidable (OneByte c) := inferInstanceAs (Decidable (_ ∧ _))

instance decHolds (g : CpuState) : ∀ (a : BitVec 32) (s : List Char), Decidable (Holds g a s)
  | a, [] => inferInstanceAs (Decidable (g.mem a = 0))
  | a, c :: s =>
      have := decHolds g (a + 1) s
      inferInstanceAs (Decidable (g.mem a = BitVec.ofNat 8 c.toNat ∧ Holds g (a + 1) s))

theorem chars_holds {a : BitVec 32} {s : List Char} (held : Holds g a s)
    (plain : ∀ c ∈ s, OneByte c) {n : Nat} (room : s.length ≤ n) : g.chars a n = s := by
  induction s generalizing a n with
  | nil =>
      cases n with
      | zero => rfl
      | succ n => exact if_pos held
  | cons c s ih =>
      cases n with
      | zero => cases room
      | succ n =>
          obtain ⟨some_, small⟩ := plain c List.mem_cons_self
          have byte : (g.mem_r8 a).toNat = c.toNat := by
            rw [CpuState.mem_r8, held.1, BitVec.toNat_ofNat]
            exact Nat.mod_eq_of_lt small
          have not_null : g.mem_r8 a ≠ 0 := by
            intro zero
            rw [zero] at byte
            exact some_ byte.symm
          rw [CpuState.chars, if_neg not_null, byte, Char.ofNat_toNat,
            ih held.2 (fun d member => plain d (List.mem_cons_of_mem _ member))
              (Nat.le_of_succ_le_succ room)]

theorem inner_one_byte {c : Char} (inner : Inner c) : OneByte c := by
  rcases inner with flag | digit | length | rfl | rfl
  · have each : ∀ c ∈ "-+ #0".toList, OneByte c := of_all (by decide)
    exact each c (List.contains_iff_mem.mp flag)
  · simp only [Char.isDigit, Bool.and_eq_true, decide_eq_true_eq] at digit
    have low : 48 ≤ c.toNat := digit.1
    have high : c.toNat ≤ 57 := digit.2
    exact ⟨by omega, by omega⟩
  · simp only [is_length, Bool.or_eq_true, decide_eq_true_eq] at length
    rcases length with (rfl | rfl) | rfl <;> decide
  · decide
  · decide

theorem render_one_byte {ps : List Piece} (plain : ∀ p ∈ ps, p.Plain) :
    ∀ c ∈ render ps, OneByte c := by
  intro c member
  obtain ⟨p, piece, inside⟩ := List.mem_flatMap.mp member
  cases p with
  | lit d =>
      rw [List.mem_singleton.mp inside]
      exact (plain _ piece).2
  | conv v =>
      rcases List.mem_append.mp inside with head | kind
      · rcases List.mem_cons.mp head with rfl | body
        · decide
        · exact inner_one_byte (front_inner v c body)
      · rw [List.mem_singleton.mp kind]
        cases v.kind <;> decide

theorem guest_string_holds {ps : List Piece} (plain : ∀ p ∈ ps, p.Plain)
    (short : (render ps).length ≤ 1023) (some_ : g.gpr 3 ≠ 0)
    (held : Holds g (g.gpr 3) (render ps)) : guest_string g (g.gpr 3) 1024 = render ps := by
  rw [guest_string, if_neg some_]
  exact chars_holds held (render_one_byte plain) short

end Memory

/-- The places of a call that passes its format in r3. -/
def call_start (g : CpuState) : VaList := ⟨4, 1, g.gpr 1 + 8⟩

/-- For every format and every call, each conversion done is given what the call passed for it,
and each host call what its specification takes, exactly when each conversion reached has no *,
is no 64-bit integer in registers, and hands the host its whole specification, of the type given. -/
theorem guest_format_right_iff (g : CpuState) (host : Call → List Char) (cap : Nat)
    (ps : List Piece) (plain : ∀ p ∈ ps, p.Plain) (short : (render ps).length ≤ 1023)
    (some_ : g.gpr 3 ≠ 0) (held : Holds g (g.gpr 3) (render ps)) :
    AllRight (call_start g) ps (guest_format g host 3 cap).2 ↔
      ∀ at_ ∈ reached g host cap (call_start g) 0 ps, at_.2.Good at_.1 := by
  obtain ⟨new, made, iff⟩ := @loop_iff g host cap ps plain (call_start g) [] []
  rw [guest_format, guest_string_holds plain short some_ held]
  change AllRight _ _ (format_loop g host cap (render ps) (call_start g) [] []).2 ↔ _
  rw [made, List.nil_append]
  exact iff

/-! %d in r4, and a 64-bit integer in r5:r6. -/

def decimal (len : Len) : Conv where
  flags := []
  width := .digits []
  precision := none
  len := len
  kind := .d
  flagged := by simp
  width_plain := by simp [Size.Plain]
  precision_plain := by simp

/-- A guest whose only memory is the format at 0x1000. -/
def format_at (s : List Char) : CpuState where
  gpr n := if n = 3 then 0x1000 else BitVec.ofNat 32 n
  fpr _ := 0
  mem a := if 0x1000 ≤ a.toNat then BitVec.ofNat 8 ((s[a.toNat - 0x1000]?).elim 0 Char.toNat) else 0

theorem decimal_right :
    AllRight (call_start (format_at "%d".toList)) [.conv (decimal .none)]
      (guest_format (format_at "%d".toList) (fun _ => []) 3 2048).2 := by
  refine (guest_format_right_iff _ _ 2048 [.conv (decimal .none)] (by simp [Piece.Plain])
    (by decide) (by decide) (by decide)).mpr ?_
  intro at_ member
  rw [List.mem_singleton.mp member]
  exact ⟨⟨⟨[], rfl⟩, fun s none_ => by cases none_⟩, .inl (by decide)⟩

/-- The first 64-bit integer is read from r4:r5. -/
theorem long_decimal_wrong :
    ¬ ∀ (g : CpuState) (host : Call → List Char) (cap : Nat) (ps : List Piece),
      (∀ p ∈ ps, p.Plain) → (render ps).length ≤ 1023 → g.gpr 3 ≠ 0 →
      Holds g (g.gpr 3) (render ps) →
      AllRight (call_start g) ps (guest_format g host 3 cap).2 := by
  intro right
  have plain : ∀ p ∈ [Piece.conv (decimal .ll)], p.Plain := by simp [Piece.Plain]
  have held : Holds (format_at "%lld".toList) 0x1000 (render [.conv (decimal .ll)]) := by
    decide
  generalize long : format_at "%lld".toList = g at held
  have r3 : g.gpr 3 = 0x1000 := by rw [← long]; rfl
  have some_ : g.gpr 3 ≠ 0 := by rw [r3]; decide
  rw [← r3] at held
  have all := right g (fun _ => []) 2048 _ plain (by decide) some_ held
  obtain ⟨new, made, iff⟩ := @loop_iff g (fun _ => []) 2048 _ plain (call_start g) [] []
  rw [guest_format, guest_string_holds plain (by decide) some_ held] at all
  change AllRight _ _ (format_loop g _ 2048 (render _) (call_start g) [] []).2 at all
  rw [made, List.nil_append] at all
  have good := iff.mp all (call_start g, decimal .ll) List.mem_cons_self
  have stacked : 10 ≤ 4 := good.2
  omega

end SoaPort.Guest.Stdio
