import SoaPort.Msl.Strings
import SoaPort.Recomp.Memory

namespace SoaPort.Msl

open SoaPort.Lib SoaPort.Recomp

/-! What a word says of its bytes, in either order. -/

section Words

variable (o : WordOrder) (mem : Memory) (p q : Nat)

theorem load_test : (load o mem p - 0x01010101#32) &&& 0x80808080#32 = 0#32 ↔
    ∀ k < 4, 0 < (mem (p + k)).toNat ∧ (mem (p + k)).toNat ≤ 0x80 :=
  o.test_iff _

/-- The other spelling of the test. -/
theorem add_test (w : BitVec 32) : w + 0xFEFEFEFF#32 = w - 0x01010101#32 := by
  have minus : (0xFEFEFEFF#32) = -0x01010101#32 := by decide
  rw [minus, BitVec.sub_eq_add_neg]

theorem load_inj : load o mem p = load o mem q ↔ ∀ k < 4, mem (p + k) = mem (q + k) :=
  o.word_inj _ _

theorem in_string_order : IN_STRING_ORDER o (load o mem p) = load .big mem p := by
  cases o with
  | big => rfl
  | little => exact WordOrder.turn_round ..

end Words

/-! Comparing. -/

section Compare

variable {mem : Memory} {p1 p2 k : Nat}

/-- The strings part, or both end, at byte `k`. -/
structure Ends (mem : Memory) (p1 p2 k : Nat) : Prop where
  agree : ∀ i < k, mem (p1 + i) = mem (p2 + i) ∧ mem (p1 + i) ≠ 0
  ends : mem (p1 + k) ≠ mem (p2 + k) ∨ mem (p1 + k) = 0

/-- The sign of the bytes at `k`, as unsigned numbers. -/
def byte_sign (mem : Memory) (p1 p2 k : Nat) : Int :=
  (((mem (p1 + k)).toNat : Int) - (mem (p2 + k)).toNat).sign

theorem Ends.shift (e : Ends mem p1 p2 (k + 1)) : Ends mem (p1 + 1) (p2 + 1) k := by
  have next (p i : Nat) : p + 1 + i = p + (i + 1) := by omega
  constructor
  · intro i low
    rw [next, next]
    exact e.agree (i + 1) (by omega)
  · rw [next, next]
    exact e.ends

theorem Ends.shifts (n : Nat) (e : Ends mem p1 p2 (k + n)) : Ends mem (p1 + n) (p2 + n) k := by
  induction n generalizing p1 p2 with
  | zero => exact e
  | succ n ih =>
      have shifted : Ends mem (p1 + 1 + n) (p2 + 1 + n) k := ih (Ends.shift e)
      rw [Nat.add_right_comm p1 1 n, Nat.add_right_comm p2 1 n] at shifted
      exact shifted

theorem byte_sign_shift (n : Nat) : byte_sign mem (p1 + n) (p2 + n) k = byte_sign mem p1 p2 (k + n) := by
  rw [byte_sign, byte_sign, Nat.add_assoc, Nat.add_assoc, Nat.add_comm n k]

theorem difference_toInt (c1 c2 : BitVec 8) :
    (difference c1 c2).toInt = (c1.toNat : Int) - c2.toNat := by
  have h1 := c1.isLt
  have h2 := c2.isLt
  rw [difference, BitVec.toInt_sub, BitVec.toInt_eq_toNat_of_lt, BitVec.toInt_eq_toNat_of_lt]
  · rw [BitVec.toNat_setWidth, BitVec.toNat_setWidth, Int.bmod_eq_of_le]
    all_goals omega
  all_goals
    rw [BitVec.toNat_setWidth]
    omega

theorem difference_eq_zero {c1 c2 : BitVec 8} : difference c1 c2 = 0#32 ↔ c1 = c2 := by
  constructor
  · intro none_
    have same := difference_toInt c1 c2
    rw [none_] at same
    apply BitVec.eq_of_toNat_eq
    have zero : (0#32).toInt = 0 := rfl
    omega
  · rintro rfl
    exact BitVec.sub_self _

/-- The byte loop ends with the difference where the strings do. -/
theorem byte_loop_ends (e : Ends mem p1 p2 (k + 1)) {fuel : Nat} (enough : k < fuel) :
    byte_loop mem fuel p1 p2 = some (difference (mem (p1 + (k + 1))) (mem (p2 + (k + 1)))) := by
  induction k generalizing p1 p2 fuel with
  | zero =>
      obtain ⟨fuel, rfl⟩ : ∃ n, fuel = n + 1 := ⟨fuel - 1, by omega⟩
      rw [byte_loop]
      split
      · rfl
      · next same =>
          rw [not_not] at same
          have bytes := difference_eq_zero.mp same
          rw [if_pos (e.ends.resolve_left (not_not.mpr bytes))]
          exact congrArg some same.symm
  | succ k ih =>
      obtain ⟨fuel, rfl⟩ : ∃ n, fuel = n + 1 := ⟨fuel - 1, by omega⟩
      obtain ⟨same, some_⟩ := e.agree 1 (by omega)
      have zero : difference (mem (p1 + 1)) (mem (p2 + 1)) = 0 := difference_eq_zero.mpr same
      rw [byte_loop, if_neg (fun differ => differ zero), if_neg some_]
      have next (p : Nat) : p + 1 + (k + 1) = p + (k + 1 + 1) := by omega
      rw [ih e.shift (by omega), next, next]

theorem bytewise_ends (e : Ends mem p1 p2 k) (same : mem p1 = mem p2) {fuel : Nat}
    (enough : k < fuel) :
    bytewise mem fuel p1 p2 = some (difference (mem (p1 + k)) (mem (p2 + k))) := by
  rw [bytewise]
  cases k with
  | zero =>
      have zero : mem p1 = 0 := e.ends.resolve_left (not_not.mpr same)
      rw [if_pos zero]
      exact congrArg some (difference_eq_zero.mpr same).symm
  | succ k =>
      have some_ : mem p1 ≠ 0 := (e.agree 0 (by omega)).2
      rw [if_neg some_]
      exact byte_loop_ends e (by omega)

theorem tail_ends (e : Ends mem p1 p2 k) {fuel : Nat} (enough : k < fuel) :
    tail mem fuel p1 p2 = some (difference (mem (p1 + k)) (mem (p2 + k))) := by
  rw [tail]
  split
  · next differ =>
      cases k with
      | zero => rfl
      | succ k => exact (differ (difference_eq_zero.mpr (e.agree 0 (by omega)).1)).elim
  · next same => exact bytewise_ends e (difference_eq_zero.mp (not_not.mp same)) enough

theorem sign_difference : (difference (mem (p1 + k)) (mem (p2 + k))).toInt.sign =
    byte_sign mem p1 p2 k := by
  rw [difference_toInt]
  rfl

/-- Words that differ differ where the strings part, and compare as the bytes there. -/
theorem words_part (e : Ends mem p1 p2 k)
    (plain : ∀ i < 4, 0 < (mem (p1 + i)).toNat ∧ (mem (p1 + i)).toNat ≤ 0x80)
    (differ : ¬ ∀ i < 4, mem (p1 + i) = mem (p2 + i)) :
    (if load .big mem p1 > load .big mem p2 then 1 else -1 : BitVec 32).toInt.sign =
      byte_sign mem p1 p2 k := by
  have low : k < 4 := by
    by_contra high
    exact differ fun i below => (e.agree i (by omega)).1
  have parts : mem (p1 + k) ≠ mem (p2 + k) := by
    rcases e.ends with parts | zero
    · exact parts
    · have positive := (plain k low).1
      rw [zero] at positive
      exact absurd positive (by decide)
  have apart : (mem (p1 + k)).toNat ≠ (mem (p2 + k)).toNat :=
    fun is => parts (BitVec.eq_of_toNat_eq is)
  have order := WordOrder.big_lt low (fun i below => (e.agree i below).1) parts
  rw [byte_sign]
  split
  · next above =>
      have bytes := order.mp above
      have positive : (((mem (p1 + k)).toNat : Int) - (mem (p2 + k)).toNat).sign = 1 :=
        Int.sign_eq_one_of_pos (by omega)
      rw [positive]
      rfl
  · next below =>
      have bytes : ¬ (mem (p2 + k)).toNat < (mem (p1 + k)).toNat :=
        fun above => below (order.mpr above)
      have negative : (((mem (p1 + k)).toNat : Int) - (mem (p2 + k)).toNat).sign = -1 :=
        Int.sign_eq_neg_one_of_neg (by omega)
      rw [negative]
      rfl

/-- The word loop ends with the strings' order, the same in either byte order. -/
theorem word_loop_ends (e : Ends mem p1 p2 k) : ∃ d, d.toInt.sign = byte_sign mem p1 p2 k ∧
    ∀ o fuel, k + 1 < fuel → word_loop o mem fuel p1 p2 = some d := by
  induction k using Nat.strong_induction_on generalizing p1 p2 with
  | h k ih =>
      by_cases plain : ∀ i < 4, 0 < (mem (p1 + i)).toNat ∧ (mem (p1 + i)).toNat ≤ 0x80
      · by_cases same : ∀ i < 4, mem (p1 + i) = mem (p2 + i)
        · have far : 4 ≤ k := by
            by_contra near
            rcases e.ends with parts | zero
            · exact parts (same k (by omega))
            · have positive := (plain k (by omega)).1
              rw [zero] at positive
              exact absurd positive (by decide)
          obtain ⟨n, rfl⟩ : ∃ n, k = n + 4 := ⟨k - 4, by omega⟩
          obtain ⟨d, sign, ends⟩ := ih n (by omega) (e.shifts 4)
          refine ⟨d, sign.trans (byte_sign_shift 4), fun o fuel enough => ?_⟩
          obtain ⟨fuel, rfl⟩ : ∃ m, fuel = m + 1 := ⟨fuel - 1, by omega⟩
          rw [word_loop, if_neg (not_not.mpr ((load_test o mem p1).mpr plain)),
            if_pos ((load_inj o mem p1 p2).mpr same)]
          exact ends o fuel (by omega)
        · refine ⟨_, words_part e plain same, fun o fuel enough => ?_⟩
          obtain ⟨fuel, rfl⟩ : ∃ m, fuel = m + 1 := ⟨fuel - 1, by omega⟩
          rw [word_loop, if_neg (not_not.mpr ((load_test o mem p1).mpr plain)),
            if_neg (fun is => same ((load_inj o mem p1 p2).mp is)), in_string_order,
            in_string_order]
      · refine ⟨_, sign_difference, fun o fuel enough => ?_⟩
        obtain ⟨fuel, rfl⟩ : ∃ m, fuel = m + 1 := ⟨fuel - 1, by omega⟩
        rw [word_loop, if_pos (fun is => plain ((load_test o mem p1).mp is))]
        exact tail_ends e (by omega)

/-- The steps up to a word boundary find the end on the way, or go on to the words. -/
theorem align_loop_ends {n : Nat} (e : Ends mem p1 p2 (k + 1)) :
    ∃ d, d.toInt.sign = byte_sign mem p1 p2 (k + 1) ∧
      ∀ o fuel, k + 1 < fuel → align_loop o mem fuel n p1 p2 = some d := by
  induction n generalizing p1 p2 k with
  | zero =>
      obtain ⟨d, sign, ends⟩ := word_loop_ends e.shift
      exact ⟨d, sign.trans (byte_sign_shift 1), ends⟩
  | succ n ih =>
      by_cases same : mem (p1 + 1) = mem (p2 + 1)
      · have zero : difference (mem (p1 + 1)) (mem (p2 + 1)) = 0 := difference_eq_zero.mpr same
        cases k with
        | zero =>
            have last : mem (p1 + 1) = 0 := e.ends.resolve_left (not_not.mpr same)
            refine ⟨_, sign_difference, fun o fuel _ => ?_⟩
            rw [align_loop, if_neg (fun differ => differ zero), if_pos last]
            exact congrArg some zero.symm
        | succ k =>
            have some_ : mem (p1 + 1) ≠ 0 := (e.agree 1 (by omega)).2
            obtain ⟨d, sign, ends⟩ := ih e.shift
            refine ⟨d, sign.trans (byte_sign_shift 1), fun o fuel enough => ?_⟩
            rw [align_loop, if_neg (fun differ => differ zero), if_neg some_]
            exact ends o fuel (by omega)
      · have first : k = 0 := by
          by_contra later
          exact same (e.agree 1 (by omega)).1
        subst first
        refine ⟨_, sign_difference, fun o fuel _ => ?_⟩
        have differ : difference (mem (p1 + 1)) (mem (p2 + 1)) ≠ 0 :=
          fun is => same (difference_eq_zero.mp is)
        rw [align_loop, if_pos differ]

/-- The comparison of two strings, in either byte order. -/
theorem strcmp_ends (e : Ends mem p1 p2 k) : ∃ d, d.toInt.sign = byte_sign mem p1 p2 k ∧
    ∀ o fuel, k + 1 < fuel → strcmp o mem fuel p1 p2 = some d := by
  by_cases same : mem p1 = mem p2
  · have zero : difference (mem p1) (mem p2) = 0 := difference_eq_zero.mpr same
    have start (o : WordOrder) (fuel : Nat) : strcmp o mem fuel p1 p2 =
        if p1 % 4 = p2 % 4 then
          if p1 % 4 ≠ 0 then
            if mem p1 = 0 then some 0 else align_loop o mem fuel (3 - p1 % 4) p1 p2
          else word_loop o mem fuel p1 p2
        else bytewise mem fuel p1 p2 := by
      rw [strcmp, if_neg (fun differ => differ zero)]
    by_cases aligned : p1 % 4 = p2 % 4
    · by_cases odd : p1 % 4 ≠ 0
      · cases k with
        | zero =>
            have last : mem p1 = 0 := e.ends.resolve_left (not_not.mpr same)
            refine ⟨_, sign_difference, fun o fuel _ => ?_⟩
            rw [start, if_pos aligned, if_pos odd, if_pos last]
            exact congrArg some zero.symm
        | succ k =>
            have some_ : mem p1 ≠ 0 := (e.agree 0 (by omega)).2
            obtain ⟨d, sign, ends⟩ := align_loop_ends e
            refine ⟨d, sign, fun o fuel enough => ?_⟩
            rw [start, if_pos aligned, if_pos odd, if_neg some_]
            exact ends o fuel (by omega)
      · obtain ⟨d, sign, ends⟩ := word_loop_ends e
        refine ⟨d, sign, fun o fuel enough => ?_⟩
        rw [start, if_pos aligned, if_neg odd]
        exact ends o fuel enough
    · refine ⟨_, sign_difference, fun o fuel enough => ?_⟩
      rw [start, if_neg aligned]
      exact bytewise_ends e same (by omega)
  · have first : k = 0 := by
      by_contra later
      exact same (e.agree 0 (by omega)).1
    subst first
    refine ⟨_, sign_difference, fun o fuel _ => ?_⟩
    have differ : difference (mem p1) (mem p2) ≠ 0 := fun is => same (difference_eq_zero.mp is)
    rw [strcmp, if_pos differ]
    rfl

end Compare

/-! Copying. -/

section Copy

variable {mem : Memory} {dst src L : Nat}

/-- A string of `L` bytes and its terminator. -/
structure StringAt (mem : Memory) (p L : Nat) : Prop where
  some_ : ∀ i < L, mem (p + i) ≠ 0
  ends : mem (p + L) = 0

/-- `j` bytes copied, and nothing else written. -/
def copied (mem : Memory) (dst src j : Nat) : Memory := fun a =>
  if dst ≤ a ∧ a < dst + j then mem (src + (a - dst)) else mem a

/-- The source keeps its bytes. -/
theorem copied_src (apart : src + L < dst ∨ dst + L < src) {i j : Nat} (low : i ≤ L)
    (above : j ≤ L + 1) : copied mem dst src j (src + i) = mem (src + i) := by
  rw [copied, if_neg]
  omega

theorem copied_byte (apart : src + L < dst ∨ dst + L < src) {j : Nat} (low : j ≤ L) :
    Function.update (copied mem dst src j) (dst + j) (copied mem dst src j (src + j)) =
      copied mem dst src (j + 1) := by
  rw [copied_src apart low (by omega)]
  funext a
  by_cases here : a = dst + j
  · rw [here, Function.update_self, copied, if_pos (by omega), Nat.add_sub_cancel_left]
  · rw [Function.update_of_ne here, copied, copied]
    by_cases inside : dst ≤ a ∧ a < dst + j
    · rw [if_pos inside, if_pos (by omega)]
    · rw [if_neg inside, if_neg (by omega)]

theorem copied_word (o : WordOrder) (apart : src + L < dst ∨ dst + L < src) {j : Nat}
    (low : j + 3 ≤ L) :
    store o (copied mem dst src j) (dst + j) (load o (copied mem dst src j) (src + j)) =
      copied mem dst src (j + 4) := by
  funext a
  rw [store]
  by_cases here : dst + j ≤ a ∧ a < dst + j + 4
  · rw [if_pos here, load, WordOrder.byte_word o _ (by omega)]
    obtain ⟨k, rfl⟩ : ∃ k, a = dst + j + k := ⟨a - (dst + j), by omega⟩
    rw [Nat.add_sub_cancel_left, Nat.add_assoc src, copied_src apart (by omega) (by omega), copied,
      if_pos (by omega), Nat.add_assoc dst, Nat.add_sub_cancel_left]
  · rw [if_neg here, copied, copied]
    by_cases inside : dst ≤ a ∧ a < dst + j
    · rw [if_pos inside, if_pos (by omega)]
    · rw [if_neg inside, if_neg (by omega)]

section Runs

variable (string : StringAt mem src L) (apart : src + L < dst ∨ dst + L < src)

include string apart

theorem copied_ends {j : Nat} (low : j ≤ L) :
    copied mem dst src j (src + j) = 0 ↔ j = L := by
  rw [copied_src apart low (by omega)]
  constructor
  · intro zero
    by_contra other
    exact string.some_ j (by omega) zero
  · rintro rfl
    exact string.ends

/-- The byte loop, byte `j` copied and not the terminator. -/
theorem copy_loop_copied {j fuel : Nat} (low : j < L) (enough : L - j ≤ fuel) :
    copy_loop fuel (copied mem dst src (j + 1)) (dst + j) (src + j) =
      some (copied mem dst src (L + 1)) := by
  induction fuel generalizing j with
  | zero => omega
  | succ fuel ih =>
      rw [copy_loop, Nat.add_assoc, Nat.add_assoc, copied_byte apart low]
      by_cases last : j + 1 = L
      · rw [if_pos ((copied_ends string apart low).mpr last)]
        exact congrArg (fun n => some (copied mem dst src (n + 1))) last
      · rw [if_neg (fun is => last ((copied_ends string apart low).mp is))]
        exact ih (by omega) (by omega)

theorem copy_tail_copied {j fuel : Nat} (low : j ≤ L) (enough : L - j ≤ fuel) :
    copy_tail fuel (copied mem dst src j) (dst + j) (src + j) =
      some (copied mem dst src (L + 1)) := by
  rw [copy_tail, copied_byte apart low]
  by_cases last : j = L
  · rw [if_pos ((copied_ends string apart low).mpr last), last]
  · rw [if_neg (fun is => last ((copied_ends string apart low).mp is))]
    exact copy_loop_copied string apart (by omega) enough

/-- A word without the terminator's byte is copied whole. -/
theorem word_copy_copied (o : WordOrder) {j fuel : Nat} (low : j ≤ L) (enough : L - j < fuel) :
    word_copy o fuel (copied mem dst src j) (dst + j) (src + j) =
      some (copied mem dst src (L + 1)) := by
  induction fuel generalizing j with
  | zero => omega
  | succ fuel ih =>
      rw [word_copy, add_test]
      by_cases plain : ∀ k < 4, 0 < (copied mem dst src j (src + j + k)).toNat ∧
          (copied mem dst src j (src + j + k)).toNat ≤ 0x80
      · have far : j + 3 < L := by
          by_contra near
          have last := (plain (L - j) (by omega)).1
          rw [Nat.add_assoc, Nat.add_sub_cancel' low, copied_src apart (le_refl L) (by omega),
            string.ends] at last
          exact absurd last (by decide)
        rw [if_pos ((load_test o _ _).mpr plain), copied_word o apart (by omega)]
        exact ih (by omega) (by omega)
      · rw [if_neg (fun is => plain ((load_test o _ _).mp is))]
        exact copy_tail_copied string apart low (by omega)

theorem copy_align_copied (o : WordOrder) {n j fuel : Nat} (low : j < L) (enough : L < fuel) :
    copy_align o fuel n (copied mem dst src (j + 1)) (dst + j) (src + j) =
      some (copied mem dst src (L + 1)) := by
  induction n generalizing j with
  | zero => exact word_copy_copied string apart o (j := j + 1) (by omega) (by omega)
  | succ n ih =>
      rw [copy_align, Nat.add_assoc, Nat.add_assoc, copied_byte apart low]
      by_cases last : j + 1 = L
      · rw [if_pos ((copied_ends string apart low).mpr last)]
        exact congrArg (fun n => some (copied mem dst src (n + 1))) last
      · rw [if_neg (fun is => last ((copied_ends string apart low).mp is))]
        exact ih (by omega)

/-- A string's bytes are copied, in either byte order, and no others written. -/
theorem strcpy_copied (o : WordOrder) {fuel : Nat} (enough : L < fuel) :
    strcpy o mem fuel dst src = some (copied mem dst src (L + 1)) := by
  have start : mem = copied mem dst src 0 := by
    funext a
    rw [copied, if_neg (by omega)]
  have first : Function.update mem dst (mem src) = copied mem dst src 1 := by
    have byte : Function.update (copied mem dst src 0) (dst + 0) (copied mem dst src 0 (src + 0)) =
        copied mem dst src (0 + 1) := copied_byte apart (Nat.zero_le L)
    rw [← start] at byte
    exact byte
  have none_ : mem src = 0 ↔ 0 = L := by
    have ends := copied_ends string apart (Nat.zero_le L)
    rw [← start] at ends
    exact ends
  rw [strcpy]
  by_cases aligned : dst % 4 = src % 4
  · rw [if_pos aligned]
    by_cases odd : src % 4 ≠ 0
    · rw [if_pos odd]
      dsimp only
      rw [first]
      by_cases last : 0 = L
      · rw [if_pos (none_.mpr last), ← last]
      · rw [if_neg (fun is => last (none_.mp is))]
        exact copy_align_copied string apart o (j := 0) (by omega) enough
    · rw [if_neg odd]
      have some_fuel : L - 0 < fuel := by omega
      have run := word_copy_copied string apart o (Nat.zero_le L) some_fuel
      rw [← start] at run
      exact run
  · rw [if_neg aligned]
    have some_fuel : L - 0 ≤ fuel := by omega
    have run := copy_tail_copied string apart (Nat.zero_le L) some_fuel
    rw [← start] at run
    exact run

end Runs

end Copy

/-! Filling. -/

section Fill

variable {mem : Memory} {dst : Nat} {v : BitVec 8}

/-- `j` bytes filled, and nothing else written. -/
def filled (mem : Memory) (dst : Nat) (v : BitVec 8) (j : Nat) : Memory := fun a =>
  if dst ≤ a ∧ a < dst + j then v else mem a

theorem filled_byte (j : Nat) :
    Function.update (filled mem dst v j) (dst + j) v = filled mem dst v (j + 1) := by
  funext a
  by_cases here : a = dst + j
  · rw [here, Function.update_self, filled, if_pos (by omega)]
  · rw [Function.update_of_ne here, filled, filled]
    by_cases inside : dst ≤ a ∧ a < dst + j
    · rw [if_pos inside, if_pos (by omega)]
    · rw [if_neg inside, if_neg (by omega)]

theorem filled_word (o : WordOrder) {w : BitVec 32} (bytes : ∀ k < 4, o.byte w k = v) (j : Nat) :
    store o (filled mem dst v j) (dst + j) w = filled mem dst v (j + 4) := by
  funext a
  rw [store]
  by_cases here : dst + j ≤ a ∧ a < dst + j + 4
  · rw [if_pos here, bytes _ (by omega), filled, if_pos (by omega)]
  · rw [if_neg here, filled, filled]
    by_cases inside : dst ≤ a ∧ a < dst + j
    · rw [if_pos inside, if_pos (by omega)]
    · rw [if_neg inside, if_neg (by omega)]

/-- The pointer is one byte before the next. -/
theorem fill_bytes_filled (mem : Memory) (dst : Nat) (v : BitVec 8) (i j : Nat) :
    fill_bytes v i (filled mem dst v j) ((dst + j : Nat) - 1 : Int) =
      (filled mem dst v (j + i), ((dst + (j + i) : Nat) - 1 : Int)) := by
  induction i generalizing j with
  | zero => rfl
  | succ i ih =>
      have next : ((dst + j : Nat) - 1 + 1 : Int) = (dst + j : Nat) := by omega
      have on : ((dst + j : Nat) : Int) = ((dst + (j + 1) : Nat) - 1 : Int) := by omega
      rw [fill_bytes, next, Int.toNat_natCast, filled_byte, on, ih, Nat.add_assoc j 1 i,
        Nat.add_comm 1 i]

/-- And one word before it. -/
theorem fill_words_filled (mem : Memory) (dst : Nat) (o : WordOrder) {w : BitVec 32}
    (bytes : ∀ k < 4, o.byte w k = v) (i j : Nat) :
    fill_words o w i (filled mem dst v j) ((dst + j : Nat) - 4 : Int) =
      (filled mem dst v (j + 4 * i), ((dst + (j + 4 * i) : Nat) - 4 : Int)) := by
  induction i generalizing j with
  | zero => rfl
  | succ i ih =>
      have next : ((dst + j : Nat) - 4 + 4 : Int) = (dst + j : Nat) := by omega
      have on : ((dst + j : Nat) : Int) = ((dst + (j + 4) : Nat) - 4 : Int) := by omega
      have count : j + 4 + 4 * i = j + 4 * (i + 1) := by omega
      rw [fill_words, next, Int.toNat_natCast, filled_word o bytes, on, ih, count]

/-- The value spread over a word. -/
theorem spread (v : BitVec 8) :
    (if v.setWidth 32 ≠ 0 then
        v.setWidth 32 ||| (v.setWidth 32 <<< 24 ||| v.setWidth 32 <<< 16 ||| v.setWidth 32 <<< 8)
      else v.setWidth 32) = (v ++ v ++ v ++ v : BitVec 32) := by
  revert v
  decide

theorem spread_byte (o : WordOrder) (v : BitVec 8) {k : Nat} (low : k < 4) :
    o.byte (v ++ v ++ v ++ v : BitVec 32) k = v := by
  have word : (v ++ v ++ v ++ v : BitVec 32) = o.word fun _ => v := by
    cases o
    all_goals rfl
  rw [word, WordOrder.byte_word o _ low]

theorem spread_low (v : BitVec 8) : (v ++ v ++ v ++ v : BitVec 32).setWidth 8 = v := by
  revert v
  decide

/-- Exactly `n` bytes are filled, in either byte order. -/
theorem fill_mem_filled (o : WordOrder) (val : BitVec 32) {n : Nat} (short : n < 2 ^ 32) :
    fill_mem o mem dst val n = filled mem dst (val.setWidth 8) n := by
  rw [fill_mem]
  generalize val.setWidth 8 = v
  have low : (v.setWidth 32).setWidth 8 = v := BitVec.setWidth_setWidth_of_le _ (by decide)
  have head (i : Nat) : fill_bytes v i mem ((dst : Int) - 1) =
      (filled mem dst v i, ((dst + i : Nat) - 1 : Int)) := by
    have run := fill_bytes_filled mem dst v i 0
    have start : filled mem dst v 0 = mem := by
      funext a
      rw [filled, if_neg (by omega)]
    rw [start, Nat.zero_add] at run
    exact run
  dsimp only
  rw [low]
  by_cases long : n ≥ 32
  · rw [if_pos long, spread, spread_low, head]
    generalize off : ((-((dst : Int) - 1) - 1) % 4).toNat = i
    have few : i < 4 := by omega
    have back : ((dst + i : Nat) - 1 - 3 : Int) = ((dst + i : Nat) - 4 : Int) := by omega
    have on (j : Nat) : ((dst + j : Nat) - 4 + 3 : Int) = ((dst + j : Nat) - 1 : Int) := by omega
    have words := fun i j =>
      fill_words_filled mem dst o (fun k low => spread_byte o v low) i j
    have turns : (n - i) / 32 % 2 ^ 32 = (n - i) / 32 := Nat.mod_eq_of_lt (by omega)
    dsimp only
    rw [back, turns, words]
    dsimp only
    rw [words]
    dsimp only
    rw [on, fill_bytes_filled]
    have count : i + 4 * (8 * ((n - i) / 32)) + 4 * ((n - i) % 32 / 4) + (n - i) % 4 = n := by omega
    rw [count]
  · rw [if_neg long, head]

end Fill

/-! The adapters against the target, which runs the same source big-endian and leaves its
pointers as they were passed. -/

section Adapters

variable {ρ : Type} (s : CpuState ρ)

/-- r3 and r4, as the memory they point to. -/
def first : Nat := mem_ptr (s.gpr 3)

def second : Nat := mem_ptr (s.gpr 4)

/-- The two strings part, or end, at byte `k`: both machines answer alike, with the sign of
the bytes there, and memory is as it was. -/
def StrcmpAgrees (k : Nat) : Prop :=
  ∃ d after enough, d.toInt.sign = byte_sign s.mem (first s) (second s) k ∧
    after.mem = s.mem ∧ after.gpr 3 = d ∧
    ∀ fuel, enough < fuel → fn_8025EF88 fuel s = some after ∧
      strcmp .big s.mem fuel (first s) (second s) = some d

/-- Both machines copy exactly the string of `L` bytes and its terminator, and return the
destination. -/
def StrcpyAgrees (L : Nat) : Prop :=
  ∃ after enough, after.mem = copied s.mem (first s) (second s) (L + 1) ∧
    after.gpr 3 = s.gpr 3 ∧
    ∀ fuel, enough < fuel → fn_8025F120 fuel s = some after ∧
      strcpy .big s.mem fuel (first s) (second s) = some after.mem

/-- Both machines fill exactly r5 bytes, and return the destination. -/
def MemsetAgrees : Prop :=
  (fn_80005434 s).mem = filled s.mem (first s) ((s.gpr 4).setWidth 8) (s.gpr 5).toNat ∧
    fill_mem .big s.mem (first s) (s.gpr 4) (s.gpr 5).toNat = (fn_80005434 s).mem ∧
    (fn_80005434 s).gpr 3 = s.gpr 3

/-- The destination is a cached address: from 0x80000000, within the window of `mem_ptr`. -/
def Cached : Prop := (s.gpr 3).toNat / 2 ^ 25 = 0x40

instance : Decidable (Cached s) := inferInstanceAs (Decidable (_ = _))

theorem guest_eq : guest (mem_ptr (s.gpr 3)) = s.gpr 3 ↔ Cached s := by
  rw [Cached, guest, mem_ptr_eq, Arch.physical]
  generalize s.gpr 3 = ea
  have low := ea.isLt
  have small : ea.toNat % 2 ^ 25 < 2 ^ 25 := Nat.mod_lt _ (by decide)
  constructor
  · intro same
    have nat := congrArg BitVec.toNat same
    rw [BitVec.toNat_add, BitVec.toNat_ofNat, BitVec.toNat_ofNat] at nat
    omega
  · intro cached
    apply BitVec.eq_of_toNat_eq
    rw [BitVec.toNat_add, BitVec.toNat_ofNat, BitVec.toNat_ofNat]
    omega

variable {s}

/-- Two strings part or end somewhere. -/
theorem exists_ends {mem : Memory} {p1 p2 L : Nat} (string : StringAt mem p1 L) :
    ∃ k, Ends mem p1 p2 k := by
  have some_ : ∃ k, mem (p1 + k) ≠ mem (p2 + k) ∨ mem (p1 + k) = 0 := ⟨L, .inr string.ends⟩
  refine ⟨Nat.find some_, fun i low => ?_, Nat.find_spec some_⟩
  have before := Nat.find_min some_ low
  exact ⟨not_not.mp fun differ => before (.inl differ), fun zero => before (.inr zero)⟩

theorem strcmp_agrees {k : Nat} (ends : Ends s.mem (first s) (second s) k) : StrcmpAgrees s k := by
  obtain ⟨d, sign, run⟩ := strcmp_ends ends
  refine ⟨d, { s with pc := 0x8025EF88#32, gpr := Function.update s.gpr 3 d }, k + 1, sign, rfl,
    Function.update_self (3 : Int) d s.gpr, fun fuel enough => ⟨?_, run .big fuel enough⟩⟩
  have native : strcmp .little s.mem fuel (mem_ptr (s.gpr 3)) (mem_ptr (s.gpr 4)) = some d :=
    run .little fuel enough
  rw [fn_8025EF88, native]
  rfl

theorem strcpy_agrees {L : Nat} (string : StringAt s.mem (second s) L)
    (apart : second s + L < first s ∨ first s + L < second s) :
    StrcpyAgrees s L ↔ Cached s := by
  have run (o : WordOrder) {fuel : Nat} (enough : L < fuel) :
      strcpy o s.mem fuel (first s) (second s) =
        some (copied s.mem (first s) (second s) (L + 1)) :=
    strcpy_copied string apart o enough
  have native {fuel : Nat} (enough : L < fuel) : fn_8025F120 fuel s = some { s with
      pc := 0x8025F120#32
      mem := copied s.mem (first s) (second s) (L + 1)
      gpr := Function.update s.gpr 3 (guest (mem_ptr (s.gpr 3))) } := by
    have copies : strcpy .little s.mem fuel (mem_ptr (s.gpr 3)) (mem_ptr (s.gpr 4)) =
        some (copied s.mem (first s) (second s) (L + 1)) := run .little enough
    rw [fn_8025F120, copies]
    rfl
  have result := Function.update_self (3 : Int) (guest (mem_ptr (s.gpr 3))) s.gpr
  rw [← guest_eq]
  constructor
  · rintro ⟨after, enough, -, r3, runs⟩
    have both := (runs (max enough L + 1) (by omega)).1
    rw [native (by omega)] at both
    cases both
    exact result.symm.trans r3
  · intro cached
    exact ⟨_, L, rfl, result.trans cached, fun fuel enough => ⟨native enough, run .big enough⟩⟩

theorem memset_agrees : MemsetAgrees s ↔ Cached s := by
  have fills (o : WordOrder) : fill_mem o s.mem (first s) (s.gpr 4) (s.gpr 5).toNat =
      filled s.mem (first s) ((s.gpr 4).setWidth 8) (s.gpr 5).toNat :=
    fill_mem_filled o (s.gpr 4) (s.gpr 5).isLt
  have r3 : (fn_80005434 s).gpr 3 = guest (mem_ptr (s.gpr 3)) :=
    Function.update_self (3 : Int) _ s.gpr
  rw [← guest_eq, MemsetAgrees, r3]
  constructor
  · exact fun agrees => agrees.2.2
  · exact fun cached => ⟨fills .little, (fills .big).trans (fills .little).symm, cached⟩

/-- Native strcmp answers as on the target and as a byte loop does; native strcpy and memset
write the target's bytes, and return what it does just when the destination is cached. -/
theorem msl_agrees (s : CpuState ρ) (L : Nat) :
    (StringAt s.mem (first s) L → ∃ k, Ends s.mem (first s) (second s) k ∧ StrcmpAgrees s k) ∧
      (StringAt s.mem (second s) L → (second s + L < first s ∨ first s + L < second s) →
        (StrcpyAgrees s L ↔ Cached s)) ∧
      (MemsetAgrees s ↔ Cached s) := by
  refine ⟨fun string => ?_, fun string apart => strcpy_agrees string apart, memset_agrees⟩
  obtain ⟨k, ends⟩ : ∃ k, Ends s.mem (first s) (second s) k := exists_ends string
  exact ⟨k, ends, strcmp_agrees ends⟩

end Adapters

/-- "A" at 0x80002000, to be copied to the uncached 0xC0001000. -/
def uncached : CpuState Unit where
  gpr := fun r => if r = 3 then 0xC0001000#32 else if r = 4 then 0x80002000#32 else 0
  fpr := fun _ => (0, 0)
  cr := 0
  xer := 0
  lr := 0
  ctr := 0
  fpscr := 0
  msr := 0
  pc := 0
  gqr := fun _ => 0
  hid2 := 0
  wpar := 0
  spr := fun _ => 0
  sr := fun _ => 0
  mem := fun a => if a = 0x2000 then 0x41#8 else 0
  user := ()

/-- The copy is made, and 0x80001000 returned for it. -/
theorem uncached_strcpy : ¬ StrcpyAgrees uncached 1 := by
  have string : StringAt uncached.mem (second uncached) 1 := by
    constructor
    · intro i low
      obtain rfl : i = 0 := by omega
      decide
    · decide
  rw [strcpy_agrees string (.inr (by decide))]
  decide

end SoaPort.Msl
