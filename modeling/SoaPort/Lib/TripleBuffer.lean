import Mathlib.Data.List.Basic
import Mathlib.Tactic.IntervalCases
import Mathlib.Logic.Function.Basic
import Mathlib.Logic.Relation

namespace SoaPort.Lib

/-! A triple buffer: one side fills the back slot and puts it in the middle, the
other takes the middle one when it is fresh. Either gets the slot it put its own
in place of. -/

section TripleBuffer

variable {β : Type}

structure TripleBuffer (β : Type) where
  back : Nat
  mid : Nat
  front : Nat
  fresh : Bool
  /-- what a slot holds whole -/
  holds : Nat → Option β
  published : List β
  /-- the places, in `published`, of what was taken -/
  taken : List Nat
  missed : Nat

namespace TripleBuffer

def start : TripleBuffer β where
  back := 0
  mid := 1
  front := 2
  fresh := false
  holds := fun _ => none
  published := []
  taken := []
  missed := 0

/-- The back slot is being filled. -/
def begin_ (t : TripleBuffer β) : TripleBuffer β :=
  { t with holds := Function.update t.holds t.back none }

/-- The back slot, filled with `b`, goes to the middle. -/
def publish (t : TripleBuffer β) (b : β) : TripleBuffer β :=
  { t with
    back := t.mid
    mid := t.back
    fresh := true
    holds := Function.update t.holds t.back (some b)
    published := t.published ++ [b]
    missed := if t.fresh then t.missed + 1 else t.missed }

def take (t : TripleBuffer β) : TripleBuffer β :=
  { t with
    front := t.mid
    mid := t.front
    fresh := false
    taken := t.taken ++ [t.published.length - 1] }

inductive Step : TripleBuffer β → TripleBuffer β → Prop
  | begin_ (t) : Step t t.begin_
  | publish (t b) : Step t (t.publish b)
  | take (t) (fresh : t.fresh = true) : Step t t.take

/-- The slots are three, the middle one holds the latest when it is fresh, the
front one what was taken last, and nothing is taken twice or counted twice. -/
structure Valid (t : TripleBuffer β) : Prop where
  back_lt : t.back < 3
  mid_lt : t.mid < 3
  front_lt : t.front < 3
  back_mid : t.back ≠ t.mid
  mid_front : t.mid ≠ t.front
  back_front : t.back ≠ t.front
  latest : t.fresh = true → ∃ b, t.published.getLast? = some b ∧ t.holds t.mid = some b
  held : ∀ i, t.taken.getLast? = some i →
    ∃ b, t.published[i]? = some b ∧ t.holds t.front = some b
  increasing : t.taken.Pairwise (· < ·)
  below : ∀ i ∈ t.taken, i + t.fresh.toNat < t.published.length
  balance : t.published.length = t.taken.length + t.missed + t.fresh.toNat

theorem start_valid : (start : TripleBuffer β).Valid where
  back_lt := by simp [start]
  mid_lt := by simp [start]
  front_lt := by simp [start]
  back_mid := by simp [start]
  mid_front := by simp [start]
  back_front := by simp [start]
  latest fresh := by simp [start] at fresh
  held i last := by simp [start] at last
  increasing := .nil
  below i member := by simp [start] at member
  balance := rfl

variable {t : TripleBuffer β}

theorem Valid.begin_ (valid : t.Valid) : t.begin_.Valid :=
  { valid with
    latest := fun fresh => by
      obtain ⟨b, last, holds⟩ := valid.latest fresh
      exact ⟨b, last, (Function.update_of_ne valid.back_mid.symm _ _).trans holds⟩
    held := fun i last => by
      obtain ⟨b, at_, holds⟩ := valid.held i last
      exact ⟨b, at_, (Function.update_of_ne valid.back_front.symm _ _).trans holds⟩ }

theorem Valid.publish (valid : t.Valid) (b : β) : (t.publish b).Valid where
  back_lt := valid.mid_lt
  mid_lt := valid.back_lt
  front_lt := valid.front_lt
  back_mid := valid.back_mid.symm
  mid_front := valid.back_front
  back_front := valid.mid_front
  latest _ := ⟨b, List.getLast?_concat, Function.update_self _ _ _⟩
  held i last := by
    obtain ⟨c, at_, holds⟩ := valid.held i last
    have inside := (List.getElem?_eq_some_iff.mp at_).1
    refine ⟨c, ?_, (Function.update_of_ne valid.back_front.symm _ _).trans holds⟩
    simpa only [TripleBuffer.publish, List.getElem?_append_left inside] using at_
  increasing := valid.increasing
  below i member := by
    have below := valid.below i member
    simp only [TripleBuffer.publish, List.length_append, List.length_singleton, Bool.toNat_true]
    omega
  balance := by
    have balance := valid.balance
    simp only [TripleBuffer.publish, List.length_append, List.length_singleton, Bool.toNat_true]
    cases fresh : t.fresh with
    | false => simp [fresh] at balance ⊢; omega
    | true => simp [fresh] at balance ⊢; omega

theorem Valid.take (valid : t.Valid) (fresh : t.fresh = true) : t.take.Valid where
  back_lt := valid.back_lt
  mid_lt := valid.front_lt
  front_lt := valid.mid_lt
  back_mid := valid.back_front
  mid_front := valid.mid_front.symm
  back_front := valid.back_mid
  latest fresh := absurd fresh (by simp [TripleBuffer.take])
  held i last := by
    obtain ⟨b, newest, holds⟩ := valid.latest fresh
    rw [TripleBuffer.take, List.getLast?_concat, Option.some_inj] at last
    rw [List.getLast?_eq_getElem?] at newest
    exact ⟨b, last ▸ newest, holds⟩
  increasing := by
    refine List.pairwise_append.mpr ⟨valid.increasing, List.pairwise_singleton _ _, ?_⟩
    intro i earlier j now
    have below := valid.below i earlier
    rw [List.mem_singleton.mp now]
    rw [fresh, Bool.toNat_true] at below
    omega
  below i member := by
    have balance := valid.balance
    rw [fresh, Bool.toNat_true] at balance
    simp only [TripleBuffer.take, Bool.toNat_false]
    rcases List.mem_append.mp member with earlier | now
    · have below := valid.below i earlier
      omega
    · rw [List.mem_singleton.mp now]
      omega
  balance := by
    have balance := valid.balance
    rw [fresh, Bool.toNat_true] at balance
    simp only [TripleBuffer.take, List.length_append, List.length_singleton, Bool.toNat_false]
    omega

theorem Step.valid {t' : TripleBuffer β} (step : Step t t') (valid : t.Valid) : t'.Valid := by
  cases step with
  | begin_ => exact valid.begin_
  | publish b => exact valid.publish b
  | take fresh => exact valid.take fresh

theorem run_valid {t' : TripleBuffer β} (run : Relation.ReflTransGen Step t t')
    (valid : t.Valid) : t'.Valid := by
  induction run with
  | refl => exact valid
  | tail _ step ih => exact step.valid ih

/-- With nothing fresh in the middle, the latest published is the one taken last. -/
def Settled (t : TripleBuffer β) : Prop :=
  t.fresh = false → t.published ≠ [] → t.taken.getLast? = some (t.published.length - 1)

theorem Step.settled {t' : TripleBuffer β} (step : Step t t') (settled : t.Settled) :
    t'.Settled := by
  cases step with
  | begin_ => exact settled
  | publish b => exact fun stale => absurd stale Bool.noConfusion
  | take fresh => exact fun _ _ => List.getLast?_concat

theorem run_settled {t' : TripleBuffer β} (run : Relation.ReflTransGen Step t t')
    (settled : t.Settled) : t'.Settled := by
  induction run with
  | refl => exact settled
  | tail _ step ih => exact step.settled ih

theorem Settled.front (settled : t.Settled) (valid : t.Valid) (stale : t.fresh = false) {b : β}
    (latest : t.published.getLast? = some b) : t.holds t.front = some b := by
  have some_ : t.published ≠ [] := by
    intro none_
    rw [none_] at latest
    cases latest
  obtain ⟨c, at_, holds⟩ := valid.held _ (settled stale some_)
  rw [List.getLast?_eq_getElem?] at latest
  rw [holds, ← at_, latest]

/-! The two sides' one word: the middle slot, and 4 when it is fresh. -/

def word (t : TripleBuffer β) : Nat := t.mid + if t.fresh then 4 else 0

theorem word_fresh (fresh : t.fresh = true) : t.word = t.mid + 4 := by
  simp [word, fresh]

theorem word_stale (stale : t.fresh = false) : t.word = t.mid := by
  simp [word, stale]

theorem word_slot (valid : t.Valid) : t.word &&& 3 = t.mid := by
  have small := valid.mid_lt
  generalize mid : t.mid = m at small
  cases fresh : t.fresh with
  | false =>
      rw [word_stale fresh, mid]
      interval_cases m <;> rfl
  | true =>
      rw [word_fresh fresh, mid]
      interval_cases m <;> rfl

theorem word_bit (valid : t.Valid) : t.word &&& 4 ≠ 0 ↔ t.fresh = true := by
  have small := valid.mid_lt
  generalize mid : t.mid = m at small
  cases fresh : t.fresh with
  | false =>
      rw [word_stale fresh, mid]
      interval_cases m <;> decide
  | true =>
      rw [word_fresh fresh, mid]
      interval_cases m <;> decide

theorem publish_word (valid : t.Valid) (b : β) : t.back ||| 4 = (t.publish b).word := by
  have small := valid.back_lt
  rw [word_fresh rfl]
  change t.back ||| 4 = t.back + 4
  generalize t.back = m at small
  interval_cases m <;> rfl

theorem take_word (t : TripleBuffer β) : t.front = t.take.word := by
  rw [word_stale rfl]
  rfl

end TripleBuffer

end TripleBuffer

end SoaPort.Lib
