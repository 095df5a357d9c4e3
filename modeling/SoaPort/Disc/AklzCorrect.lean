import SoaPort.Lib.Bits
import SoaPort.Lib.Sliding
import SoaPort.Disc.Aklz
import Mathlib.Data.Nat.Find
import Mathlib.Tactic.IntervalCases

namespace SoaPort.Disc.Aklz

open SoaPort.Lib

/-! Tokens, what they expand to, and how they are packed. -/

inductive Token where
  | literal (byte : Byte)
  | back (offset length : Nat) (offset_lt : offset < RING_SIZE) (past : THRESHOLD < length)
      (most : length ≤ MAX_MATCH)

def Token.is_literal : Token → Bool
  | .literal _ => true
  | .back .. => false

/-- A byte, or an offset's low eight bits, then its high four over the length less three. -/
def Token.bytes : Token → List Byte
  | .literal byte => [byte]
  | .back offset length _ _ _ =>
      [BitVec.ofNat 8 offset, BitVec.ofNat 8 (offset / 256 * 16 + (length - (THRESHOLD + 1)))]

theorem Token.bytes_pos (t : Token) : 0 < t.bytes.length := by
  cases t with
  | literal => exact Nat.one_pos
  | back => exact Nat.two_pos

/-- The values written after one more token, newest first. -/
def emit (written : List Byte) : Token → List Byte
  | .literal byte => byte :: written
  | .back offset length _ _ _ => copied RING_SIZE RING_START 0#8 offset length 0 written

def expand (tokens : List Token) : List Byte := (tokens.foldl emit []).reverse

/-- A flag for each token, the first lowest, and then what fills the rest. -/
def flag_bits (pad : Nat) : List Token → Nat
  | [] => pad
  | t :: rest => t.is_literal.toNat + 2 * flag_bits pad rest

/-- The tokens' bytes, with `left` of the flags of the last flag byte not yet used. -/
def pack_from (pad : Nat) : Nat → List Token → List Byte
  | _, [] => []
  | 0, t :: rest =>
      BitVec.ofNat 8 (flag_bits pad ((t :: rest).take 8)) :: (t.bytes ++ pack_from pad 7 rest)
  | left + 1, t :: rest => t.bytes ++ pack_from pad left rest

def pack (pad : Nat) (tokens : List Token) : List Byte := pack_from pad 0 tokens

/-- The tokens wholly present in the first `n` bytes of their packing. -/
def present (pad n : Nat) (tokens : List Token) : List Token :=
  tokens.take (Nat.findGreatest (fun k => (pack pad (tokens.take k)).length ≤ n) tokens.length)

def container (ratio declared : BitVec 32) (stream : List Byte) : List Byte :=
  MAGIC ++ to_be 4 ratio.toNat ++ to_be 4 declared.toNat ++ stream

/-! The flag bits not yet used, as the flag word's own high byte counts them. -/

/-- The low bits of the flag word are the next tokens' flags, and `left` of its high bits
are set. -/
structure Flags (word left : Nat) (tokens : List Token) : Prop where
  counted : ∀ j < left, word.testBit (8 + j) = true
  ended : word.testBit (8 + left) = false
  kinds : ∀ j < left, ∀ t, tokens[j]? = some t → word.testBit j = t.is_literal

theorem flag_bits_kind {pad j : Nat} {tokens : List Token} {t : Token}
    (at_j : tokens[j]? = some t) : (flag_bits pad tokens).testBit j = t.is_literal := by
  induction tokens generalizing j with
  | nil => cases at_j
  | cons first rest ih =>
      cases j with
      | zero =>
          cases at_j
          rw [flag_bits, Nat.testBit_zero]
          cases t.is_literal with
          | false => simp
          | true => simp
      | succ j =>
          have half :
              (first.is_literal.toNat + 2 * flag_bits pad rest) / 2 = flag_bits pad rest := by
            have := Bool.toNat_lt first.is_literal
            omega
          rw [flag_bits, Nat.testBit_succ, half]
          exact ih at_j

theorem Flags.none (word : Nat) (tokens : List Token) (small : word < 256) :
    Flags word 0 tokens where
  counted j j_lt := absurd j_lt (Nat.not_lt_zero j)
  ended := Nat.testBit_lt_two_pow small
  kinds j j_lt := absurd j_lt (Nat.not_lt_zero j)

/-- A flag byte just read. -/
theorem Flags.read (pad : Nat) (tokens : List Token) :
    Flags ((BitVec.ofNat 8 (flag_bits pad (tokens.take 8))).toNat ||| 0xFF00) 8 tokens where
  counted j j_lt := by
    have high : (0xFF00 : Nat).testBit (8 + j) = true := by interval_cases j <;> rfl
    rw [Nat.testBit_or, high, Bool.or_true]
  ended := by
    rw [Nat.testBit_or, BitVec.toNat_ofNat, Nat.testBit_mod_two_pow]
    rfl
  kinds j j_lt t at_j := by
    have taken : (tokens.take 8)[j]? = some t := by rw [List.getElem?_take_of_lt j_lt, at_j]
    have high : (0xFF00 : Nat).testBit j = false := by interval_cases j <;> rfl
    rw [Nat.testBit_or, BitVec.toNat_ofNat, Nat.testBit_mod_two_pow, flag_bits_kind taken, high,
      decide_eq_true j_lt, Bool.true_and, Bool.or_false]

theorem Flags.next {word left : Nat} {t : Token} {rest : List Token}
    (flags : Flags word (left + 1) (t :: rest)) : Flags (word >>> 1) left rest where
  counted j j_lt := by
    rw [Nat.testBit_shiftRight, Nat.add_left_comm, Nat.add_comm 1 j]
    exact flags.counted (j + 1) (Nat.succ_lt_succ j_lt)
  ended := by
    rw [Nat.testBit_shiftRight, Nat.add_left_comm, Nat.add_comm 1 left]
    exact flags.ended
  kinds j j_lt t at_j := by
    rw [Nat.testBit_shiftRight, Nat.add_comm 1 j]
    exact flags.kinds (j + 1) (Nat.succ_lt_succ j_lt) t at_j

theorem and_bit_eq_zero {word i : Nat} : word &&& 2 ^ i = 0 ↔ word.testBit i = false := by
  rw [Nat.and_two_pow]
  cases word.testBit i with
  | false => simp
  | true => simp

theorem Flags.kind {word left : Nat} {t : Token} {rest : List Token}
    (flags : Flags word (left + 1) (t :: rest)) : word &&& 1 ≠ 0 ↔ t.is_literal = true := by
  have bit := flags.kinds 0 (Nat.succ_pos left) t rfl
  rw [ne_eq, show (1 : Nat) = 2 ^ 0 from rfl, and_bit_eq_zero, bit, Bool.not_eq_false]

/-! The window's ring holds what was written. -/

/-- The output is what was written as far as it is wanted, and the ring holds it until then. -/
structure Kept (want : Nat) (s : Window) (written : List Byte) : Prop where
  out : s.out = written.reverse.take want
  ring : written.length < want → Mirrors RING_SIZE RING_START 0#8 s.ring s.r written

variable {want : Nat} {s : Window} {written : List Byte}

theorem kept_start : Kept want ⟨fun _ => 0#8, RING_START, []⟩ [] where
  out := by rw [List.reverse_nil, List.take_nil]
  ring _ := mirrors_blank (by decide)

theorem Kept.length (kept : Kept want s written) : s.out.length = min want written.length := by
  rw [kept.out, List.length_take, List.length_reverse]

theorem masked (n : Nat) : n &&& (RING_SIZE - 1) = n % RING_SIZE :=
  Nat.and_two_pow_sub_one_eq_mod n 12

theorem Kept.put (kept : Kept want s written) (less : written.length < want) (byte : Byte) :
    Kept want (s.put byte) (byte :: written) where
  out := by
    have whole : written.reverse.take want = written.reverse :=
      List.take_of_length_le (by rw [List.length_reverse]; omega)
    have still : (byte :: written).reverse.take want = (byte :: written).reverse :=
      List.take_of_length_le (by rw [List.length_reverse, List.length_cons]; omega)
    rw [Window.put, kept.out, whole, still, List.reverse_cons]
  ring _ := by
    rw [Window.put, masked]
    exact (kept.ring less).put byte

/-- What is wanted of the values is written already. -/
theorem Kept.enough (kept : Kept want s written) {later : List Byte}
    (suffix : written <:+ later) (full : want ≤ written.length) : Kept want s later where
  out := by rw [kept.out, take_reverse_suffix suffix full]
  ring less := by
    have := suffix.length_le
    omega

theorem Kept.copy_match {offset left k : Nat} (kept : Kept want s written)
    (less : written.length < want) :
    Kept want (Aklz.copy_match want offset left k s)
      (copied RING_SIZE RING_START 0#8 offset left k written) := by
  induction left generalizing s written k with
  | zero => exact kept
  | succ left ih =>
      have cell : s.ring ((offset + k) &&& (RING_SIZE - 1)) =
          held RING_SIZE RING_START 0#8 written ((offset + k) % RING_SIZE) := by
        rw [masked]
        exact (kept.ring less).cells _ (Nat.mod_lt _ (by decide))
      rw [Aklz.copy_match, copied, cell]
      generalize held RING_SIZE RING_START 0#8 written ((offset + k) % RING_SIZE) = byte
      have after := kept.put less byte
      split
      next full =>
        rw [after.length] at full
        exact after.enough (copied_suffix ..) (by omega)
      next more =>
        rw [after.length] at more
        exact ih after (by omega)

theorem emit_suffix (written : List Byte) (t : Token) : written <:+ emit written t := by
  cases t with
  | literal byte => exact List.suffix_cons byte written
  | back offset length => exact copied_suffix offset length 0

theorem foldl_emit_suffix (written : List Byte) (tokens : List Token) :
    written <:+ tokens.foldl emit written := by
  induction tokens generalizing written with
  | nil => exact List.suffix_rfl
  | cons t rest ih => exact (emit_suffix written t).trans (ih _)

/-! A token read back from its bytes. -/

theorem high_nibble (hi : Byte) : hi.toNat &&& 0xF0 = hi.toNat / 16 * 16 := by
  revert hi
  decide

theorem low_nibble (hi : Byte) : hi.toNat &&& 0x0F = hi.toNat % 16 :=
  Nat.and_two_pow_sub_one_eq_mod hi.toNat 4

theorem offset_read {offset length : Nat} (offset_lt : offset < RING_SIZE)
    (past : THRESHOLD < length) (most : length ≤ MAX_MATCH) :
    let lo := BitVec.ofNat 8 offset
    let hi := BitVec.ofNat 8 (offset / 256 * 16 + (length - (THRESHOLD + 1)))
    lo.toNat ||| ((hi.toNat &&& 0xF0) <<< 4) = offset ∧
      (hi.toNat &&& 0x0F) + THRESHOLD + 1 = length := by
  intro lo hi
  have offset_lt : offset < 4096 := offset_lt
  have past : 2 < length := past
  have most : length ≤ 18 := most
  have hi_eq : hi.toNat = offset / 256 * 16 + (length - 3) := by
    change (BitVec.ofNat 8 _).toNat = _
    rw [BitVec.toNat_ofNat]
    exact Nat.mod_eq_of_lt (by change offset / 256 * 16 + (length - 3) < 256; omega)
  have lo_eq : lo.toNat = offset % 256 := BitVec.toNat_ofNat offset 8
  have shifted : (hi.toNat / 16 * 16) <<< 4 = 2 ^ 8 * (offset / 256) := by
    rw [Nat.shiftLeft_eq, hi_eq]
    omega
  constructor
  · rw [high_nibble, shifted, lo_eq, Nat.or_comm, ← Nat.two_pow_add_eq_or_of_lt (by omega)]
    omega
  · rw [low_nibble, hi_eq]
    change _ + 2 + 1 = length
    omega

theorem read_at {data : List Byte} {pos : Nat} {a : Byte} {rest : List Byte}
    (here : data.drop pos = a :: rest) :
    pos < data.length ∧ data.getD pos 0#8 = a ∧ data.drop (pos + 1) = rest := by
  have pos_lt : pos < data.length := by
    have := congrArg List.length here
    rw [List.length_drop, List.length_cons] at this
    omega
  rw [List.drop_eq_getElem_cons pos_lt] at here
  injection here with first others
  rw [List.getD_eq_getElem _ _ pos_lt]
  exact ⟨pos_lt, first, others⟩

theorem read_end {data : List Byte} {pos : Nat} (here : data.drop pos = []) :
    data.length ≤ pos :=
  List.drop_eq_nil_iff.mp here

variable {data : List Byte} {pos word : Nat} {t : Token}

theorem decode_token_whole {rest : List Byte} (kept : Kept want s written)
    (less : written.length < want) (kind : word &&& 1 ≠ 0 ↔ t.is_literal = true)
    (here : data.drop pos = t.bytes ++ rest) :
    ∃ s', decode_token data want pos word s = some (pos + t.bytes.length, s') ∧
      Kept want s' (emit written t) ∧ data.drop (pos + t.bytes.length) = rest := by
  rw [decode_token]
  cases t with
  | literal byte =>
      obtain ⟨pos_lt, byte_eq, next⟩ := read_at here
      rw [if_pos (kind.mpr rfl), if_neg (Nat.not_le.mpr pos_lt), byte_eq]
      exact ⟨_, rfl, kept.put less byte, next⟩
  | back offset length offset_lt past most =>
      obtain ⟨-, lo_eq, next⟩ := read_at here
      obtain ⟨pos_lt, hi_eq, next⟩ := read_at next
      obtain ⟨offset_eq, length_eq⟩ := offset_read offset_lt past most
      have other : ¬ (word &&& 1 ≠ 0) := fun flag => Bool.false_ne_true (kind.mp flag)
      rw [if_neg other, if_neg (Nat.not_le.mpr pos_lt), lo_eq, hi_eq]
      dsimp only at offset_eq length_eq ⊢
      rw [offset_eq, length_eq]
      exact ⟨_, rfl, kept.copy_match less, next⟩

theorem decode_token_cut {rest : List Byte} {n : Nat}
    (kind : word &&& 1 ≠ 0 ↔ t.is_literal = true) (cut : n < t.bytes.length)
    (here : data.drop pos = (t.bytes ++ rest).take n) :
    decode_token data want pos word s = none := by
  have short := congrArg List.length here
  rw [List.length_drop, List.length_take, List.length_append] at short
  rw [decode_token]
  cases t with
  | literal byte =>
      change n < 1 at cut
      rw [if_pos (kind.mpr rfl), if_pos (by omega)]
  | back offset length offset_lt past most =>
      change n < 2 at cut
      have other : ¬ (word &&& 1 ≠ 0) := fun flag => Bool.false_ne_true (kind.mp flag)
      rw [if_neg other, if_pos (by omega)]

/-! The stream read, token by token. -/

/-- The tokens wholly present in `n` bytes, with `left` flags not yet used. -/
def whole : Nat → Nat → List Token → List Token
  | _, _, [] => []
  | left, n, t :: rest =>
      let need := (if left = 0 then 1 else 0) + t.bytes.length
      if need ≤ n then t :: whole (if left = 0 then 7 else left - 1) (n - need) rest else []

theorem decode_eq (flags : Nat) :
    decode data want pos flags s =
      if s.out.length < want ∧ pos < data.length then
        if data.length < (next_flag data pos flags).1 then s
        else
          match decode_token data want (next_flag data pos flags).1
              (next_flag data pos flags).2 s with
          | none => s
          | some (next, s') => decode data want next (next_flag data pos flags).2 s'
      else s := by
  rw [decode]
  split
  · dsimp only
    split
    · rfl
    · split
      next none_ => rw [none_]
      next some_ => rw [some_]
  · rfl

theorem next_flag_left {flags left : Nat} {tokens : List Token}
    (unused : Flags (flags >>> 1) (left + 1) tokens) :
    next_flag data pos flags = (pos, flags >>> 1) := by
  have set_ : ¬ (flags >>> 1 &&& 2 ^ 8 = 0) := by
    rw [and_bit_eq_zero, unused.counted 0 (Nat.succ_pos left)]
    exact Bool.true_eq_false_eq_False
  rw [next_flag]
  exact if_neg set_

theorem next_flag_none {flags : Nat} {tokens : List Token} (used : Flags (flags >>> 1) 0 tokens) :
    next_flag data pos flags = (pos + 1, (data.getD pos 0#8).toNat ||| 0xFF00) := by
  have clear : flags >>> 1 &&& 2 ^ 8 = 0 := and_bit_eq_zero.mpr used.ended
  rw [next_flag]
  exact if_pos clear

theorem decode_full {flags : Nat} {tokens : List Token} (kept : Kept want s written)
    (full : want ≤ written.length) :
    Kept want (decode data want pos flags s) (tokens.foldl emit written) := by
  have done : ¬ (s.out.length < want ∧ pos < data.length) := by
    rw [kept.length]
    omega
  rw [decode_eq, if_neg done]
  exact kept.enough (foldl_emit_suffix written tokens) full

theorem decode_end {flags : Nat} (kept : Kept want s written) (ended : data.drop pos = []) :
    Kept want (decode data want pos flags s) written := by
  have done : ¬ (s.out.length < want ∧ pos < data.length) := by
    have := read_end ended
    omega
  rw [decode_eq, if_neg done]
  exact kept

/-- A token at the front of what is left, its flag brought down already. -/
theorem decode_front {flags pos' left n : Nat} {stream : List Byte} {later : List Token}
    (kept : Kept want s written) (less : written.length < want) (pos_lt : pos < data.length)
    (fetched : next_flag data pos flags = (pos', word)) (inside : pos' ≤ data.length)
    (unused : Flags word (left + 1) (t :: later))
    (here : data.drop pos' = (t.bytes ++ stream).take n)
    (rest : ∀ s' pos'', Kept want s' (emit written t) →
      data.drop pos'' = stream.take (n - t.bytes.length) →
      Kept want (decode data want pos'' word s')
        ((whole left (n - t.bytes.length) later).foldl emit (emit written t))) :
    Kept want (decode data want pos flags s)
      ((if t.bytes.length ≤ n then t :: whole left (n - t.bytes.length) later else []).foldl emit
        written) := by
  have more : s.out.length < want ∧ pos < data.length := by
    rw [kept.length]
    exact ⟨by omega, pos_lt⟩
  rw [decode_eq, if_pos more, fetched, if_neg (Nat.not_lt.mpr inside)]
  by_cases all : t.bytes.length ≤ n
  · rw [List.take_append, List.take_of_length_le all] at here
    obtain ⟨s', token, kept', next⟩ := decode_token_whole kept less unused.kind here
    rw [if_pos all]
    dsimp only
    rw [token]
    exact rest s' _ kept' next
  · rw [if_neg all]
    dsimp only
    rw [decode_token_cut unused.kind (Nat.not_le.mp all) here]
    exact kept

/-- The stream cut after `n` of its bytes gives what the tokens wholly present write. -/
theorem decode_packed {pad left flags n : Nat} {tokens : List Token}
    (kept : Kept want s written) (unused : Flags (flags >>> 1) left tokens)
    (here : data.drop pos = (pack_from pad left tokens).take n) :
    Kept want (decode data want pos flags s) ((whole left n tokens).foldl emit written) := by
  induction tokens generalizing left flags n pos s written with
  | nil =>
      rw [pack_from, List.take_nil] at here
      exact decode_end kept here
  | cons t later ih =>
      rcases Nat.lt_or_ge written.length want with less | full
      case inr => exact decode_full kept full
      cases n with
      | zero =>
          have absent : whole left 0 (t :: later) = [] := by
            rw [whole]
            have size := t.bytes_pos
            exact if_neg (by omega)
          rw [absent]
          exact decode_end kept here
      | succ n =>
          cases left with
          | succ left =>
              rw [pack_from] at here
              have pos_lt : pos < data.length := by
                have size := t.bytes_pos
                have some_ := congrArg List.length here
                rw [List.length_drop, List.length_take, List.length_append] at some_
                omega
              have front := decode_front kept less pos_lt (next_flag_left unused)
                (Nat.le_of_lt pos_lt) unused here fun s' pos'' kept' next =>
                  ih kept' unused.next next
              have unread := Nat.succ_ne_zero left
              rw [whole, if_neg unread, if_neg unread, Nat.zero_add]
              exact front
          | zero =>
              rw [pack_from, List.take_succ_cons] at here
              obtain ⟨pos_lt, byte_eq, next⟩ := read_at here
              have fetched : next_flag data pos flags = _ := next_flag_none unused
              rw [byte_eq] at fetched
              have front := decode_front kept less pos_lt fetched pos_lt (Flags.read pad _) next
                fun s' pos'' kept' next => ih kept' (Flags.read pad _).next next
              have fits : 1 + t.bytes.length ≤ n + 1 ↔ t.bytes.length ≤ n := by omega
              have left_over : n + 1 - (1 + t.bytes.length) = n - t.bytes.length := by omega
              rw [whole, if_pos rfl, if_pos rfl, left_over]
              simp only [fits]
              exact front

/-! The tokens wholly present. -/

theorem pack_from_length_take (pad left n : Nat) (tokens : List Token) :
    ∃ m ≤ tokens.length, whole left n tokens = tokens.take m ∧
      (pack_from pad left (tokens.take m)).length ≤ n ∧
      ∀ k, m < k → k ≤ tokens.length → n < (pack_from pad left (tokens.take k)).length := by
  induction tokens generalizing left n with
  | nil =>
      refine ⟨0, Nat.le_refl 0, rfl, Nat.zero_le n, ?_⟩
      intro k past upto
      rw [List.length_nil] at upto
      omega
  | cons t later ih =>
      -- the first token with its flag byte, and what is left for the others
      have grown : ∀ k, (pack_from pad left (t :: later.take k)).length =
          (if left = 0 then 1 else 0) + t.bytes.length +
            (pack_from pad (if left = 0 then 7 else left - 1) (later.take k)).length := by
        intro k
        cases left with
        | zero =>
            rw [pack_from, List.length_cons, List.length_append]
            simp only [if_pos]
            omega
        | succ left =>
            rw [pack_from, List.length_append, if_neg (Nat.succ_ne_zero left),
              if_neg (Nat.succ_ne_zero left), Nat.zero_add]
            rfl
      rw [whole]
      generalize (if left = 0 then 7 else left - 1) = next at *
      generalize (if left = 0 then 1 else 0) + t.bytes.length = need at *
      by_cases fits : need ≤ n
      · obtain ⟨m, m_le, same, packed, beyond⟩ := ih next (n - need)
        refine ⟨m + 1, Nat.succ_le_succ m_le, ?_, ?_, ?_⟩
        · rw [if_pos fits, same, List.take_succ_cons]
        · rw [List.take_succ_cons, grown]
          omega
        · intro k past upto
          cases k with
          | zero => omega
          | succ k =>
              have more := beyond k (by omega) (Nat.le_of_succ_le_succ upto)
              rw [List.take_succ_cons, grown]
              omega
      · refine ⟨0, Nat.zero_le _, ?_, ?_, ?_⟩
        · rw [if_neg fits, List.take_zero]
        · rw [List.take_zero, pack_from]
          exact Nat.zero_le n
        · intro k past upto
          cases k with
          | zero => omega
          | succ k =>
              rw [List.take_succ_cons, grown]
              omega

theorem whole_eq_present (pad n : Nat) (tokens : List Token) :
    whole 0 n tokens = present pad n tokens := by
  obtain ⟨m, m_le, same, packed, beyond⟩ := pack_from_length_take pad 0 n tokens
  have greatest : Nat.findGreatest (fun k => (pack pad (tokens.take k)).length ≤ n)
      tokens.length = m := by
    rw [Nat.findGreatest_eq_iff]
    refine ⟨m_le, fun _ => packed, ?_⟩
    intro k past upto fits
    exact Nat.not_le.mpr (beyond k past upto) fits
  rw [same, present, greatest]

/-- All of them, when all of the packing is there. -/
theorem present_all (pad : Nat) (tokens : List Token) :
    present pad (pack pad tokens).length tokens = tokens := by
  have greatest : Nat.findGreatest
      (fun k => (pack pad (tokens.take k)).length ≤ (pack pad tokens).length) tokens.length =
      tokens.length := by
    apply Nat.findGreatest_eq
    rw [List.take_length]
  rw [present, greatest, List.take_length]

/-! Containers. -/

theorem container_length (ratio declared : BitVec 32) (stream : List Byte) :
    (container ratio declared stream).length = HEADER_SIZE + stream.length := by
  rw [container, List.length_append, List.length_append, List.length_append, to_be_length,
    to_be_length]
  rfl

theorem container_drop (ratio declared : BitVec 32) (stream : List Byte) :
    (container ratio declared stream).drop HEADER_SIZE = stream := by
  rw [container]
  apply List.drop_left'
  rw [List.length_append, List.length_append, to_be_length, to_be_length]
  rfl

theorem container_header (ratio declared : BitVec 32) (stream : List Byte) :
    parse_header (container ratio declared stream) =
      .ok ⟨declared.toNat, to_be 4 ratio.toNat⟩ := by
  have magic : is_aklz (container ratio declared stream) = true := by
    apply decide_eq_true
    rw [container, List.append_assoc, List.append_assoc]
    exact List.take_left' rfl
  have long : ¬ (container ratio declared stream).length < HEADER_SIZE := by
    rw [container_length]
    omega
  have size : ((container ratio declared stream).drop 12).take 4 = to_be 4 declared.toNat := by
    have first : (MAGIC ++ to_be 4 ratio.toNat).length = 12 := by
      rw [List.length_append, to_be_length]
      rfl
    rw [container, List.append_assoc, List.drop_left' first]
    exact List.take_left' (to_be_length ..)
  have magic_length : MAGIC.length = 8 := rfl
  have ratio_ : ((container ratio declared stream).drop 8).take 4 = to_be 4 ratio.toNat := by
    rw [container, List.append_assoc, List.append_assoc, List.drop_left' magic_length]
    exact List.take_left' (to_be_length ..)
  rw [parse_header, magic, if_neg long, size, ratio_, of_be_to_be declared.isLt]
  rfl

/-- What a container of a packing, cut or whole, decompresses to. -/
theorem decompress_cut (pad n : Nat) (tokens : List Token) (ratio declared : BitVec 32)
    (strict : Bool) :
    let out := (expand (present pad n tokens)).take declared.toNat
    decompress (container ratio declared ((pack pad tokens).take n)) strict =
      if strict && out.length ≠ declared.toNat then .error (.decoded out.length declared.toNat)
      else .ok out := by
  intro out
  have kept : Kept declared.toNat
      (decode (container ratio declared ((pack pad tokens).take n)) declared.toNat HEADER_SIZE 0
        ⟨fun _ => 0#8, RING_START, []⟩)
      ((whole 0 n tokens).foldl emit []) :=
    decode_packed kept_start (Flags.none _ tokens (by decide)) (container_drop ..)
  have out_eq := kept.out
  rw [whole_eq_present pad] at out_eq
  rw [decompress, container_header]
  dsimp only
  rw [out_eq]
  rfl

theorem decompress_packed (pad : Nat) (tokens : List Token) (ratio declared : BitVec 32) :
    (∀ strict, decompress (container ratio declared (pack pad tokens)) strict =
      if declared.toNat ≤ (expand tokens).length then .ok ((expand tokens).take declared.toNat)
      else if strict then .error (.decoded (expand tokens).length declared.toNat)
      else .ok (expand tokens)) ∧
    ∀ n, decompress (container ratio declared ((pack pad tokens).take n)) false =
      .ok ((expand (present pad n tokens)).take declared.toNat) := by
  constructor
  · intro strict
    have cut := decompress_cut pad (pack pad tokens).length tokens ratio declared strict
    rw [List.take_length, present_all] at cut
    rw [cut]
    by_cases long : declared.toNat ≤ (expand tokens).length
    · have exact_ : ((expand tokens).take declared.toNat).length = declared.toNat := by
        rw [List.length_take, Nat.min_eq_left long]
      rw [if_pos long, exact_]
      simp
    · have short : (expand tokens).take declared.toNat = expand tokens :=
        List.take_of_length_le (by omega)
      have differ : (expand tokens).length ≠ declared.toNat := by omega
      rw [if_neg long, short]
      simp [differ]
  · intro n
    exact decompress_cut pad n tokens ratio declared false

end SoaPort.Disc.Aklz
