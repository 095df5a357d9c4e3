import SoaPort.Mods.OptionsCorrect

namespace SoaPort.Mods

/-! The values in effect are in their options' domains, in the one spelling. -/

section Spellings

variable {n : Nat} {i : Int} {v canon : Str} {o : ModOption}

theorem decimal_head_pos (pos : 0 < n) : (Lib.decimal n).head? ≠ some '0' := by
  induction n using Nat.strong_induction_on with
  | _ n ih =>
      rw [Lib.decimal, Nat.toDigits_eq_if (by decide)]
      split
      next digit => interval_cases n <;> decide
      next more =>
        have rest := ih (n / 10) (by omega) (by omega)
        have some_ : Nat.toDigits 10 (n / 10) ≠ [] := Nat.toDigits_ne_nil
        rw [List.head?_append_of_ne_nil _ some_]
        exact rest

theorem decimal_zero_iff : (Lib.decimal n).head? = some '0' ↔ n = 0 := by
  constructor
  · intro zero
    by_contra pos
    exact decimal_head_pos (Nat.pos_of_ne_zero pos) zero
  · rintro rfl
    rfl

theorem decimal_length_le (small : n < 10 ^ 10) : (Lib.decimal n).length ≤ 10 :=
  (Nat.length_toDigits_le_iff (by decide) (by decide)).mpr small

theorem decimal_all (n : Nat) : (Lib.decimal n).all Char.isDigit = true :=
  List.all_eq_true.mpr fun _ => Lib.isDigit_of_mem_decimal

theorem decimal_value (n : Nat) : Nat.ofDigitChars 10 (Lib.decimal n) 0 = n :=
  Nat.ofDigitChars_ten_toDigits

/-- Only zero is written with a zero first, and that in one digit. -/
theorem decimal_plain (n : Nat) :
    ¬ ((Lib.decimal n).head? = some '0' ∧ 1 < (Lib.decimal n).length) := by
  rintro ⟨zero, long⟩
  rw [decimal_zero_iff.mp zero] at long
  exact absurd long (by decide)

theorem parse_u32_decimal (small : n ≤ 0xFFFFFFFF) : parse_u32 (Lib.decimal n) = some n := by
  have length := decimal_length_le (n := n) (by omega)
  have some_ := List.length_pos_iff.mpr (Lib.decimal_ne_nil n)
  have plain : ¬ (2 < (Lib.decimal n).length ∧ (Lib.decimal n).take 2 = ['0', 'x']) := by
    rintro ⟨long, hex⟩
    apply decimal_plain n
    refine ⟨?_, by omega⟩
    have first := congrArg List.head? hex
    rwa [List.head?_take, if_neg (by decide)] at first
  have allowed : ¬ ((Lib.decimal n).length = 0 ∨ 10 < (Lib.decimal n).length ∨
      ((Lib.decimal n).head? = some '0' ∧ 1 < (Lib.decimal n).length)) := by
    rintro (zero | long | padded)
    · omega
    · omega
    · exact decimal_plain n padded
  rw [parse_u32, if_neg plain, if_neg allowed, if_pos (decimal_all n), decimal_value]
  exact if_neg (by omega)

theorem parse_int_signed (low : -2147483648 ≤ i) (high : i ≤ 2147483647) :
    parse_int (signed_decimal i) = some i := by
  have length := decimal_length_le (n := i.natAbs) (by omega)
  have some_ := List.length_pos_iff.mpr (Lib.decimal_ne_nil i.natAbs)
  have value := decimal_value i.natAbs
  rw [signed_decimal]
  split
  next negative =>
    have allowed : ¬ ((Lib.decimal i.natAbs).length = 0 ∨ 10 < (Lib.decimal i.natAbs).length ∨
        ((Lib.decimal i.natAbs).head? = some '0' ∧
          (1 < (Lib.decimal i.natAbs).length ∨ True))) := by
      rintro (zero | long | ⟨padded, -⟩)
      · omega
      · omega
      · have zero := decimal_zero_iff.mp padded
        omega
    simp only [parse_int, List.head?_cons, decide_true, if_true, List.tail_cons]
    rw [if_neg allowed, if_pos (decimal_all _), value, if_neg (by omega)]
    congr 1
    omega
  next positive =>
    have digit : (Lib.decimal i.natAbs).head? ≠ some '-' := by
      obtain ⟨c, rest, is, digit⟩ := Lib.decimal_head i.natAbs
      rw [is, List.head?_cons]
      rintro ⟨⟩
      exact absurd digit (by decide)
    have allowed : ¬ ((Lib.decimal i.natAbs).length = 0 ∨ 10 < (Lib.decimal i.natAbs).length ∨
        ((Lib.decimal i.natAbs).head? = some '0' ∧
          (1 < (Lib.decimal i.natAbs).length ∨ False))) := by
      rintro (zero | long | ⟨padded, more | minus⟩)
      · omega
      · omega
      · exact decimal_plain _ ⟨padded, more⟩
      · cases minus
    simp only [parse_int, digit, decide_false, Bool.false_eq_true, if_false]
    rw [if_neg allowed, if_pos (decimal_all _), value, if_neg (by omega)]
    congr 1
    omega

theorem hex_digit_le {c : Char} (hex : is_hex c = true) : hex_digit c ≤ 15 := by
  simp only [is_hex, Char.isDigit, Bool.or_eq_true, Bool.and_eq_true,
    decide_eq_true_eq] at hex
  rw [hex_digit]
  split
  next dec =>
    have high := (Lib.isDigit_bounds dec).2
    have zero : '0'.toNat = 48 := rfl
    omega
  next other =>
    split
    next lower =>
      have high : c.toNat ≤ 102 := by
        rcases hex with (dec | low) | up
        · exact absurd (by simpa [Char.isDigit] using dec) other
        · exact low.2
        · exact Nat.le_trans (show c.toNat ≤ 70 from up.2) (by decide)
      have base : 'a'.toNat = 97 := rfl
      omega
    next upper =>
      have high : c.toNat ≤ 70 := by
        rcases hex with (dec | low) | up
        · exact absurd (by simpa [Char.isDigit] using dec) other
        · exact absurd low.1 upper
        · exact up.2
      have base : 'A'.toNat = 65 := rfl
      omega

theorem hex_value_lt (t : Str) (all : t.all is_hex = true) (start : Nat) :
    t.foldl (fun v c => 16 * v + hex_digit c) start < (start + 1) * 16 ^ t.length := by
  induction t generalizing start with
  | nil => simp
  | cons c t ih =>
      rw [List.all_cons, Bool.and_eq_true] at all
      have digit := hex_digit_le all.1
      have later := ih all.2 (16 * start + hex_digit c)
      rw [List.foldl_cons, List.length_cons, Nat.pow_succ]
      calc _ < (16 * start + hex_digit c + 1) * 16 ^ t.length := later
        _ ≤ (16 * (start + 1)) * 16 ^ t.length := Nat.mul_le_mul_right _ (by omega)
        _ = (start + 1) * (16 ^ t.length * 16) := by ring

theorem parse_u32_le (is : parse_u32 v = some n) : n ≤ 0xFFFFFFFF := by
  rw [parse_u32] at is
  dsimp only at is
  split_ifs at is with hex long all _ _ big
  · have lt := hex_value_lt _ all 0
    rw [Option.some.inj is] at lt
    have length : (v.drop 2).length ≤ 8 := by
      rw [List.length_drop]
      omega
    have power : 16 ^ (v.drop 2).length ≤ 16 ^ 8 := Nat.pow_le_pow_right (by decide) length
    omega
  · rw [← Option.some.inj is]
    omega

theorem parse_int_bounds (is : parse_int v = some i) : -2147483648 ≤ i ∧ i ≤ 2147483647 := by
  rw [parse_int] at is
  dsimp only at is
  split_ifs at is <;> (rw [← Option.some.inj is]; omega)

/-- A value's one spelling is read as itself. -/
theorem canonical (choices : o.type = .enum → choices_ok o.choices = true)
    (is : option_value o v = some canon) : option_value o canon = some canon := by
  rw [option_value] at is ⊢
  cases type : o.type with
  | int =>
      rw [type] at is
      dsimp only at is ⊢
      cases read : parse_int v with
      | none =>
          rw [read] at is
          cases is
      | some i =>
          rw [read] at is
          dsimp only at is
          split_ifs at is with outside
          obtain ⟨low, high⟩ := parse_int_bounds read
          obtain rfl := Option.some.inj is
          rw [parse_int_signed low high]
          exact if_neg outside
  | bool =>
      rw [type] at is
      dsimp only at is ⊢
      split_ifs at is with either
      obtain rfl := Option.some.inj is
      rcases either with rfl | rfl <;> rfl
  | enum =>
      rw [type] at is
      dsimp only at is ⊢
      split_ifs at is with among
      have short : v.length ≤ 31 := by
        have parts := choices type
        simp only [choices_ok, Bool.and_eq_true, List.all_eq_true] at parts
        have word := parts.1.1.2 v (List.contains_iff_mem.mp among)
        simp only [word_ok, Bool.and_eq_true, decide_eq_true_eq] at word
        exact word.1.2
      have whole : v.take (VALUE_SIZE - 1) = v := List.take_of_length_le (by
        have size : VALUE_SIZE = 64 := rfl
        omega)
      rw [whole] at is
      obtain rfl := Option.some.inj is
      rw [if_pos among, whole]
  | string =>
      rw [type] at is
      dsimp only at is ⊢
      split_ifs at is with word
      have short : v.length ≤ 63 := by
        have parts := word
        simp only [word_ok, Bool.and_eq_true, decide_eq_true_eq] at parts
        exact parts.1.2
      have whole : v.take (VALUE_SIZE - 1) = v := List.take_of_length_le short
      rw [whole] at is
      obtain rfl := Option.some.inj is
      rw [if_pos word, whole]
  | seed =>
      rw [type] at is
      dsimp only at is ⊢
      obtain ⟨n, read, rfl⟩ := Option.map_eq_some_iff.mp is
      rw [parse_u32_decimal (parse_u32_le read)]
      rfl

end Spellings

/-- An option whose default and value pass its own check as they are spelt. -/
structure InDomain (o : ModOption) : Prop where
  choices : o.type = .enum → choices_ok o.choices = true
  default : option_value o o.default = some o.default
  value : option_value o o.value = some o.value

section Loading

variable {id env name : Str} {opts declared loaded : List ModOption} {o : ModOption}
  {e v canon : Str} {es vals tok : List Str} {type : OptionType}

theorem InDomain.give (fine : InDomain o) (is : option_value o v = some canon) :
    InDomain { o with value := canon, set := true } :=
  ⟨fine.choices, fine.default, canonical fine.choices is⟩

theorem read_domain_choices {lo hi : Int} {choices text : Str}
    (ok : read_domain name type tok = .ok (lo, hi, choices, text)) (enum : type = .enum) :
    choices_ok choices = true := by
  subst enum
  rw [read_domain.eq_def] at ok
  split at ok
  · contradiction
  next =>
    split_ifs at ok with fine
    cases ok
    exact fine
  all_goals cases ok

theorem read_option_in_domain (ok : read_option name type tok = .ok o) : InDomain o := by
  rw [read_option] at ok
  cases read : read_domain name type tok with
  | error r =>
      rw [read] at ok
      cases ok
  | ok domain =>
      obtain ⟨lo, hi, choices, text⟩ := domain
      rw [read] at ok
      dsimp only at ok
      cases spelt : option_value ⟨name, type, false, lo, hi, choices, [], []⟩ text with
      | none =>
          rw [spelt] at ok
          cases ok
      | some canon =>
          rw [spelt] at ok
          cases ok
          have fine := read_domain_choices read
          have again := canonical fine spelt
          exact ⟨fine, again, again⟩

theorem parse_option_in_domain (before : ∀ o ∈ opts, InDomain o)
    (ok : parse_option opts v = .ok declared) : ∀ o ∈ declared, InDomain o := by
  rw [parse_option] at ok
  split at ok
  next name type tok words =>
    split_ifs at ok
    split at ok
    · cases ok
    · split at ok
      · cases ok
      next p read =>
        cases ok
        intro o member
        rcases List.mem_append.mp member with old | last
        · exact before o old
        · rw [List.mem_singleton.mp last]
          exact read_option_in_domain read
  next => cases ok

theorem parse_options_in_domain (before : ∀ o ∈ opts, InDomain o)
    (ok : parse_options opts vals = .ok declared) : ∀ o ∈ declared, InDomain o := by
  induction vals generalizing opts with
  | nil =>
      cases ok
      exact before
  | cons val vals ih =>
      rw [parse_options] at ok
      cases first : parse_option opts val with
      | error r =>
          rw [first] at ok
          cases ok
      | ok mid =>
          rw [first] at ok
          exact ih (parse_option_in_domain before first) ok

theorem give_in_domain (before : ∀ o ∈ opts, InDomain o)
    (found : opts.find? (·.name = name) = some o) (is : option_value o v = some canon) :
    ∀ p ∈ give name canon opts, InDomain p := by
  induction opts with
  | nil => cases found
  | cons q rest ih =>
      have first := before q List.mem_cons_self
      have others := fun p member => before p (List.mem_cons_of_mem q member)
      rw [give]
      by_cases same : q.name = name
      · rw [List.find?_cons_of_pos (by simpa using same)] at found
        obtain rfl := Option.some.inj found
        rw [if_pos same]
        intro p member
        rcases List.mem_cons.mp member with rfl | later
        · exact first.give is
        · exact others p later
      · rw [List.find?_cons_of_neg (by simpa using same)] at found
        rw [if_neg same]
        intro p member
        rcases List.mem_cons.mp member with rfl | later
        · exact first
        · exact ih others found p later

theorem apply_entry_in_domain (before : ∀ o ∈ opts, InDomain o)
    (ok : apply_entry id opts e = .ok loaded) : ∀ o ∈ loaded, InDomain o := by
  rw [apply_entry] at ok
  split at ok
  · cases ok
    exact before
  next eid name value parted =>
    split_ifs at ok
    · cases ok
      exact before
    · split at ok
      · cases ok
      next o found =>
        split_ifs at ok
        split at ok
        · cases ok
        next canon is =>
          cases ok
          exact give_in_domain before found is

theorem apply_entries_in_domain (before : ∀ o ∈ opts, InDomain o)
    (ok : apply_entries id es opts = .ok loaded) : ∀ o ∈ loaded, InDomain o := by
  induction es generalizing opts with
  | nil =>
      cases ok
      exact before
  | cons e es ih =>
      rw [apply_entries] at ok
      cases first : apply_entry id opts e with
      | error r =>
          rw [first] at ok
          cases ok
      | ok mid =>
          rw [first] at ok
          exact ih (apply_entry_in_domain before first) ok

/-- Whatever a mod.ini declares and the text gives, every option of a loaded mod has
a default and a value in its domain, each in its one spelling. -/
theorem options_in_domain (parsed : parse_options [] vals = .ok opts)
    (ok : apply_options id env opts = .ok loaded) : ∀ o ∈ loaded, InDomain o := by
  refine apply_entries_in_domain (parse_options_in_domain ?_ parsed) ok
  rintro o ⟨⟩

end Loading

theorem options_in_domain_one : InDomain { bool_option with value := ['1'], set := true } := by
  have ok : apply_options ['m'] one_entry [bool_option] =
      .ok [{ bool_option with value := ['1'], set := true }] := rfl
  exact options_in_domain bool_parsed ok _ (List.mem_singleton.mpr rfl)

end SoaPort.Mods
