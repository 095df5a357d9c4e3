namespace SoaPort.Lib

/-! Text as C reads and writes it: numbers in decimal, and what stands before
the first character of a kind. -/

abbrev Text := List Char

/-- `%u` -/
def decimal (n : Nat) : Text := Nat.toDigits 10 n

def isspace (c : Char) : Bool := c = ' ' || ('\t' ≤ c && c ≤ '\r')

/-- Whether a minus sign stands first, and what follows a sign. -/
def signed : Text → Bool × Text
  | '-' :: rest => (true, rest)
  | '+' :: rest => (false, rest)
  | s => (false, s)

/-- `strtoul(s, &end, 10)`: the number and what follows it, or none when `end`
is `s`; `limit` is the largest number of its type. -/
def strtoul (limit : Nat) (s : Text) : Option (Nat × Text) :=
  let s := s.dropWhile isspace
  let (negative, s) := signed s
  let digits := s.takeWhile Char.isDigit
  if digits = [] then none
  else
    let value := Nat.ofDigitChars 10 digits 0
    let value := if value > limit then limit
      else if negative then (limit + 1 - value) % (limit + 1) else value
    some (value, s.dropWhile Char.isDigit)

theorem decimal_ne_nil (n : Nat) : decimal n ≠ [] := Nat.toDigits_ne_nil

theorem isDigit_of_mem_decimal {n : Nat} {c : Char} (member : c ∈ decimal n) : c.isDigit = true :=
  Nat.isDigit_of_mem_toDigits (by decide) (by decide) member

/-- What stands before a separator is what was written before it. -/
theorem span_append {β : Type} {p : β → Bool} {xs ys : List β} (all : ∀ x ∈ xs, p x = true)
    (stop : ∀ y ∈ ys.head?, p y = false) :
    (xs ++ ys).takeWhile p = xs ∧ (xs ++ ys).dropWhile p = ys := by
  induction xs with
  | nil =>
      cases ys with
      | nil => exact ⟨rfl, rfl⟩
      | cons y ys =>
          have here : p y = false := stop y rfl
          rw [List.nil_append, List.takeWhile_cons, List.dropWhile_cons, here]
          exact ⟨rfl, rfl⟩
  | cons x xs ih =>
      obtain ⟨taken, dropped⟩ := ih fun x member => all x (by simp [member])
      have here := all x (by simp)
      rw [List.cons_append, List.takeWhile_cons, List.dropWhile_cons, here, if_pos rfl, if_pos rfl,
        taken, dropped]
      exact ⟨rfl, rfl⟩

theorem decimal_head (n : Nat) : ∃ c rest, decimal n = c :: rest ∧ c.isDigit = true := by
  cases digits : decimal n with
  | nil => exact absurd digits (decimal_ne_nil n)
  | cons c rest => exact ⟨c, rest, rfl, isDigit_of_mem_decimal (digits ▸ List.mem_cons_self)⟩

theorem isDigit_bounds {c : Char} (digit : c.isDigit = true) : 48 ≤ c.toNat ∧ c.toNat ≤ 57 := by
  simp only [Char.isDigit, Bool.and_eq_true, decide_eq_true_eq] at digit
  exact digit

theorem isDigit_not_space {c : Char} (digit : c.isDigit = true) : isspace c = false := by
  obtain ⟨low, high⟩ := isDigit_bounds digit
  rw [isspace, Bool.or_eq_false_iff]
  constructor
  · rw [decide_eq_false_iff_not]
    rintro rfl
    exact absurd low (by decide)
  · rw [Bool.and_eq_false_iff]
    right
    rw [decide_eq_false_iff_not]
    intro below
    have : c.toNat ≤ 13 := below
    omega

/-- A number written is the number read. -/
theorem strtoul_decimal {limit n : Nat} (small : n ≤ limit) {rest : Text}
    (stop : ∀ c ∈ rest.head?, c.isDigit = false) :
    strtoul limit (decimal n ++ rest) = some (n, rest) := by
  have all : ∀ c ∈ decimal n, c.isDigit = true := fun _ member => isDigit_of_mem_decimal member
  obtain ⟨taken, dropped⟩ := span_append all stop
  obtain ⟨c, digits, written, digit⟩ := decimal_head n
  have value : Nat.ofDigitChars 10 (decimal n) 0 = n := Nat.ofDigitChars_ten_toDigits
  have kept : (decimal n ++ rest).dropWhile isspace = decimal n ++ rest := by
    rw [written, List.cons_append, List.dropWhile_cons, isDigit_not_space digit]
    rfl
  have unsigned : signed (decimal n ++ rest) = (false, decimal n ++ rest) := by
    rw [written, List.cons_append]
    unfold signed
    split
    · rename_i same
      cases same
      cases digit
    · rename_i same
      cases same
      cases digit
    · rfl
  rw [strtoul, kept]
  dsimp only
  rw [unsigned]
  dsimp only
  rw [taken, dropped, if_neg (decimal_ne_nil n), value, if_neg (by omega)]
  rfl

/-- The whole text as the integer `strtoul` would scan. -/
def integer (s : Text) : Option Int :=
  let (negative, digits) := signed (s.dropWhile isspace)
  if digits = [] ∨ digits.all Char.isDigit = false then none
  else
    let value := Nat.ofDigitChars 10 digits 0
    some (if negative then -value else value)

/-- What `strtoul` makes of an integer. -/
def wrapped (limit : Nat) (z : Int) : Nat :=
  if z.natAbs > limit then limit else if z < 0 then limit + 1 - z.natAbs else z.natAbs

theorem takeWhile_all {p : α → Bool} {s : List α} (all : s.all p = true) :
    s.takeWhile p = s ∧ s.dropWhile p = [] := by
  induction s with
  | nil => exact ⟨rfl, rfl⟩
  | cons c s ih =>
      obtain ⟨here, rest⟩ := (Bool.and_eq_true _ _).mp all
      obtain ⟨taken, dropped⟩ := ih rest
      rw [List.takeWhile_cons, List.dropWhile_cons, here]
      exact ⟨congrArg (c :: ·) taken, dropped⟩

theorem all_of_dropWhile_nil {p : α → Bool} {s : List α} (none_ : s.dropWhile p = []) :
    s.all p = true := by
  induction s with
  | nil => rfl
  | cons c s ih =>
      rw [List.dropWhile_cons] at none_
      split at none_
      next here => rw [List.all_cons, here, ih none_, Bool.and_self]
      · cases none_

theorem dropWhile_head {p : α → Bool} {s rest : List α} {c : α}
    (dropped : s.dropWhile p = c :: rest) : p c = false := by
  induction s with
  | nil => cases dropped
  | cons d s ih =>
      rw [List.dropWhile_cons] at dropped
      split at dropped
      · exact ih dropped
      next stop =>
        cases dropped
        exact Bool.eq_false_iff.mpr stop

theorem integer_some {limit : Nat} {s : Text} {z : Int} (whole : integer s = some z) :
    strtoul limit s = some (wrapped limit z, []) := by
  rw [integer] at whole
  rw [strtoul]
  dsimp only at whole ⊢
  generalize signed (s.dropWhile isspace) = scanned at whole ⊢
  obtain ⟨negative, digits⟩ := scanned
  dsimp only at whole ⊢
  split at whole
  · cases whole
  next goes =>
  rw [not_or] at goes
  obtain ⟨taken, dropped⟩ := takeWhile_all ((Bool.not_eq_false _).mp goes.2)
  rw [taken, dropped, if_neg goes.1]
  cases whole
  congr 2
  generalize Nat.ofDigitChars 10 digits 0 = value
  rw [wrapped]
  cases negative with
  | true =>
      simp only [if_true, Int.natAbs_neg, Int.natAbs_natCast]
      split
      · rfl
      · cases value with
        | zero =>
            simp
        | succ value =>
            rw [if_pos (by omega), Nat.mod_eq_of_lt (by omega)]
  | false =>
      simp only [Bool.false_eq_true, if_false, Int.natAbs_natCast]
      split
      · rfl
      · rw [if_neg (by omega)]

theorem integer_none {limit : Nat} {s : Text} (none_ : integer s = none) (v : Nat) :
    strtoul limit s ≠ some (v, []) := by
  rw [integer] at none_
  rw [strtoul]
  dsimp only at none_ ⊢
  generalize signed (s.dropWhile isspace) = scanned at none_ ⊢
  obtain ⟨negative, digits⟩ := scanned
  dsimp only at none_ ⊢
  split at none_
  next bad =>
    split
    · exact nofun
    next some_ =>
      intro read
      have rest := congrArg Prod.snd (Option.some.inj read)
      have all := all_of_dropWhile_nil rest
      rcases bad with empty | other
      · rw [empty] at some_
        exact some_ rfl
      · exact absurd (other.symm.trans all) Bool.noConfusion
  · cases none_

end SoaPort.Lib
