import SoaPort.Lib.Window
import SoaPort.Picture.Budget
import Mathlib.Data.List.GetD
import Mathlib.Tactic.IntervalCases
import Mathlib.Tactic.Linarith
import Mathlib.Tactic.NormNum

namespace SoaPort.Picture

open SoaPort.Lib

/-! ### The middle of the ring -/

/-- The middle of an odd number of frame times. -/
def median (times : List ℚ) : ℚ :=
  (times.insertionSort (· ≤ ·)).getD (times.length / 2) 0

theorem insert_times (times : List ℚ) :
    times.foldl insert_time [] = times.reverse.insertionSort (· ≥ ·) := by
  rw [List.insertionSort, List.foldr_reverse]
  rfl

theorem median_perm {a b : List ℚ} (same : a.Perm b) : median a = median b := by
  have sorted : a.insertionSort (· ≤ ·) = b.insertionSort (· ≤ ·) :=
    ((List.perm_insertionSort _ a).trans (same.trans (List.perm_insertionSort _ b).symm)).eq_of_pairwise'
      (List.pairwise_insertionSort _ a) (List.pairwise_insertionSort _ b)
  rw [median, median, sorted, same.length_eq]

theorem descending_eq (times : List ℚ) :
    times.insertionSort (· ≥ ·) = (times.insertionSort (· ≤ ·)).reverse := by
  refine List.Perm.eq_of_pairwise' (r := (· ≥ ·)) ?_ ?_ ?_
  · exact List.pairwise_insertionSort _ times
  · exact List.pairwise_reverse.mpr (List.pairwise_insertionSort (· ≤ ·) times)
  · exact (List.perm_insertionSort _ times).trans
      ((List.reverse_perm _).trans (List.perm_insertionSort _ times)).symm

theorem middle_eq {times : List ℚ} (full : times.length = INTERP_BUDGET_N) :
    middle times = median times := by
  have reversed : median times = median times.reverse := median_perm (List.reverse_perm _).symm
  rw [middle, insert_times, reversed, median, descending_eq, List.length_reverse, full]
  simp [INTERP_BUDGET_N, List.getD_eq_getElem?_getD, full]

theorem median_mem {times : List ℚ} (some_ : times ≠ []) : median times ∈ times := by
  have inside : times.length / 2 < (times.insertionSort (· ≤ ·)).length := by
    have := List.length_pos_of_ne_nil some_
    rw [List.length_insertionSort]
    omega
  rw [median, List.getD_eq_getElem _ _ inside]
  exact (List.mem_insertionSort _).mp (List.getElem_mem inside)

theorem median_le {times : List ℚ} {most : ℚ} (some_ : times ≠ [])
    (low : ∀ ms ∈ times, ms ≤ most) : median times ≤ most := low _ (median_mem some_)

/-! ### One frame -/

local instance ring_nonempty : NeZero 31 := ⟨by decide⟩

/-- The frame times the ring holds, the latest first. -/
def InterpBudget.window (b : InterpBudget) : List ℚ := Lib.window b.last b.at_ b.n

theorem push_window {b : InterpBudget} (few : b.n ≤ INTERP_BUDGET_N) (ms : ℚ) :
    (interp_budget_push b ms).1.window = (ms :: b.window).take INTERP_BUDGET_N := by
  simp only [interp_budget_push, InterpBudget.window]
  split
  case isTrue room =>
    rw [window_update b.last b.at_ ms room, List.take_of_length_le]
    simpa using Nat.succ_le_of_lt room
  case isFalse full =>
    have all : b.n = 30 + 1 := Nat.le_antisymm few (Nat.not_lt.mp full)
    rw [INTERP_BUDGET_N, List.take_succ_cons, window_take b.last b.at_ (by omega), all]
    exact window_update b.last b.at_ ms (by decide)

theorem push_median {b : InterpBudget} (few : b.n ≤ INTERP_BUDGET_N) (ms : ℚ) :
    (interp_budget_push b ms).2 =
      if (interp_budget_push b ms).1.window.length < INTERP_BUDGET_N then -1
      else median (interp_budget_push b ms).1.window := by
  simp only [interp_budget_push, InterpBudget.window, Lib.window_length]
  refine ite_congr rfl (fun _ => rfl) fun many => ?_
  have all : (if b.n < INTERP_BUDGET_N then b.n + 1 else b.n) = INTERP_BUDGET_N := by
    revert many
    split <;> omega
  rw [all, middle_eq (by simp [INTERP_BUDGET_N])]
  exact median_perm (window_full _ _).symm

/-- A frame's median is slow only when a full ring's is. -/
theorem push_slow {b : InterpBudget} (few : b.n ≤ INTERP_BUDGET_N) {ms : ℚ}
    (slow : (interp_budget_push b ms).2 > INTERP_BUDGET_SLOW) :
    (interp_budget_push b ms).1.window.length = INTERP_BUDGET_N ∧
      median (interp_budget_push b ms).1.window > INTERP_BUDGET_SLOW := by
  rw [push_median few] at slow
  split at slow
  case isTrue => norm_num [INTERP_BUDGET_SLOW] at slow
  case isFalse many =>
    refine ⟨?_, slow⟩
    have most : (interp_budget_push b ms).1.window.length ≤ INTERP_BUDGET_N := by
      rw [push_window few]
      exact List.length_take_le _ _
    omega

def counted_cut (b : InterpBudget) : InterpBudget := { b with frames_cut := b.frames_cut + 1 }

def counted_off (b : InterpBudget) : InterpBudget := { b with frames_off := b.frames_off + 1 }

/-- The four things a frame does. -/
theorem frame_cases (b : InterpBudget) (ms : ℚ) :
    let p := interp_budget_push b ms
    (b.cut < b.top ∧ p.2 > INTERP_BUDGET_SLOW ∧ interp_budget_frame b ms = step_down p.1) ∨
    (b.cut < b.top ∧ b.cut = 0 ∧ interp_budget_frame b ms = hold p.1) ∨
    (b.cut < b.top ∧ b.cut ≠ 0 ∧
      interp_budget_frame b ms = count_back (counted_cut p.1) ms) ∨
    (b.top ≤ b.cut ∧ interp_budget_frame b ms = count_back (counted_off b) ms) := by
  have same : (interp_budget_push b ms).1.cut = b.cut := rfl
  simp only [interp_budget_frame]
  by_cases given : b.cut < b.top
  · rw [if_pos given]
    by_cases slow : (interp_budget_push b ms).2 > INTERP_BUDGET_SLOW
    · exact .inl ⟨given, slow, if_pos slow⟩
    · rw [if_neg slow, same]
      by_cases none : b.cut = 0
      · exact .inr (.inl ⟨given, none, if_pos none⟩)
      · exact .inr (.inr (.inl ⟨given, none, if_neg none⟩))
  · exact .inr (.inr (.inr ⟨Nat.not_lt.mp given, if_neg given⟩))

/-- The images taken away once one is given back. -/
def give_back (b : InterpBudget) : InterpBudget :=
  { b with
    cut := sub32 b.cut 1
    held := 0
    down := false
    n := 0
    at_ := 0
    wait := 30 <<< b.tries }

theorem count_back_cases (b : InterpBudget) (ms : ℚ) :
    (ms > INTERP_BUDGET_ON_TIME ∧
      ∃ wait ≤ 2 * (30 <<< b.tries), count_back b ms = { b with wait }) ∨
    (ms ≤ INTERP_BUDGET_ON_TIME ∧ 0 < b.wait ∧
      count_back b ms = { b with wait := b.wait - 1 }) ∨
    (ms ≤ INTERP_BUDGET_ON_TIME ∧ b.wait = 0 ∧ count_back b ms = give_back b) := by
  simp only [count_back]
  by_cases late : ms > INTERP_BUDGET_ON_TIME
  · refine .inl ⟨late, _, ?_, if_pos late⟩
    split <;> omega
  · rw [if_neg late]
    by_cases waits : b.wait > 0
    · exact .inr (.inl ⟨not_lt.mp late, waits, if_pos waits⟩)
    · exact .inr (.inr ⟨not_lt.mp late, Nat.eq_zero_of_not_pos waits, if_neg waits⟩)

/-! ### What holds after any frames -/

structure InterpBudget.Sound (b : InterpBudget) : Prop where
  cut_le : b.cut ≤ b.top
  top_le : b.top ≤ 8
  tries_le : b.tries ≤ INTERP_BUDGET_TRIES
  wait_le : b.wait ≤ 1920
  few : b.n ≤ INTERP_BUDGET_N
  off : b.cut = b.top → b.n = 0

theorem sub32_eq {a b : Nat} (less : b ≤ a) (small : a < 2 ^ 32) : sub32 a b = a - b := by
  simp only [sub32]
  omega

theorem count_le {tries : Nat} (few : tries ≤ INTERP_BUDGET_TRIES) : 30 <<< tries ≤ 960 := by
  have doubled : 2 ^ tries ≤ 2 ^ 5 := Nat.pow_le_pow_right (by decide) few
  rw [Nat.shiftLeft_eq]
  omega

theorem InterpBudget.zero_sound : InterpBudget.zero.Sound where
  cut_le := Nat.le_refl 0
  top_le := by decide
  tries_le := by decide
  wait_le := by decide
  few := by decide
  off _ := rfl

variable {b : InterpBudget}

/-- What was given stays given, as far as the new rate has it. -/
theorem InterpBudget.Sound.retop_cut (sound : b.Sound) {top : Nat} (most : top ≤ 8) :
    (retop b top).cut =
      if b.top ≠ 0 ∧ top ≠ b.top ∧ b.cut ≠ 0 then top - min (b.top - b.cut) top else b.cut := by
  have cut_le := sound.cut_le
  have top_le := sound.top_le
  simp only [retop]
  refine ite_congr rfl (fun _ => ?_) fun _ => rfl
  have given : (if b.cut < b.top then sub32 b.top b.cut else 0) = b.top - b.cut := by
    split
    case isTrue less => exact sub32_eq cut_le (by omega)
    case isFalse => omega
  have least : (if b.top - b.cut < top then b.top - b.cut else top) =
      min (b.top - b.cut) top := by
    split <;> omega
  rw [given, least]
  exact sub32_eq (Nat.min_le_right _ _) (by omega)

theorem InterpBudget.Sound.retop (sound : b.Sound) {top : Nat} (least : 1 ≤ top)
    (most : top ≤ 8) : (retop b top).Sound where
  cut_le := by
    have cut_le := sound.cut_le
    rw [sound.retop_cut most]
    show _ ≤ top
    split <;> omega
  top_le := most
  tries_le := sound.tries_le
  wait_le := sound.wait_le
  few := sound.few
  off same := by
    have cut_le := sound.cut_le
    rw [sound.retop_cut most] at same
    change _ = top at same
    refine sound.off ?_
    split at same <;> omega

theorem step_down_sound (sound : b.Sound) (given : b.cut < b.top) : (step_down b).Sound where
  cut_le := given
  top_le := sound.top_le
  tries_le := by
    have tries_le := sound.tries_le
    simp only [step_down]
    split
    case isTrue more =>
      simp only [Bool.and_eq_true, decide_eq_true_eq] at more
      exact more.2
    case isFalse => exact tries_le
  wait_le := (count_le sound.tries_le).trans (by decide)
  few := Nat.zero_le _
  off _ := rfl

/-- What else a step changes is not looked at. -/
theorem InterpBudget.Sound.with_counts (sound : b.Sound) {b' : InterpBudget}
    (cut : b'.cut = b.cut) (top : b'.top = b.top) (n : b'.n = b.n)
    (tries_le : b'.tries ≤ INTERP_BUDGET_TRIES) (wait_le : b'.wait ≤ 1920) : b'.Sound where
  cut_le := by
    rw [cut, top]
    exact sound.cut_le
  top_le := top ▸ sound.top_le
  tries_le := tries_le
  wait_le := wait_le
  few := n ▸ sound.few
  off same := by
    rw [n]
    exact sound.off (by rw [← cut, ← top, same])

theorem InterpBudget.Sound.counted_cut (sound : b.Sound) : (counted_cut b).Sound :=
  sound.with_counts rfl rfl rfl sound.tries_le sound.wait_le

theorem InterpBudget.Sound.counted_off (sound : b.Sound) : (counted_off b).Sound :=
  sound.with_counts rfl rfl rfl sound.tries_le sound.wait_le

theorem hold_sound (sound : b.Sound) : (hold b).Sound := by
  refine sound.with_counts rfl rfl rfl ?_ sound.wait_le
  simp only [hold]
  split
  · exact Nat.zero_le _
  · exact sound.tries_le

theorem give_back_sound (sound : b.Sound) (taken : b.cut ≠ 0) : (give_back b).Sound where
  cut_le := by
    have cut_le := sound.cut_le
    have top_le := sound.top_le
    simp only [give_back, sub32]
    omega
  top_le := sound.top_le
  tries_le := sound.tries_le
  wait_le := (count_le sound.tries_le).trans (by decide)
  few := Nat.zero_le _
  off _ := rfl

theorem count_back_sound (sound : b.Sound) (taken : b.cut ≠ 0) (ms : ℚ) :
    (count_back b ms).Sound := by
  have wait_le := sound.wait_le
  rcases count_back_cases b ms with ⟨_, wait, most, back⟩ | ⟨_, _, back⟩ | ⟨_, _, back⟩
  · have count := count_le sound.tries_le
    have least : wait ≤ 1920 := by omega
    rw [back]
    exact sound.with_counts rfl rfl rfl sound.tries_le least
  · have least : b.wait - 1 ≤ 1920 := by omega
    rw [back]
    exact sound.with_counts rfl rfl rfl sound.tries_le least
  · rw [back]
    exact give_back_sound sound taken

theorem push_sound (sound : b.Sound) (given : b.cut < b.top) (ms : ℚ) :
    (interp_budget_push b ms).1.Sound where
  cut_le := sound.cut_le
  top_le := sound.top_le
  tries_le := sound.tries_le
  wait_le := sound.wait_le
  few := by
    have few := sound.few
    simp only [interp_budget_push]
    split <;> omega
  off same := absurd same (Nat.ne_of_lt given)

theorem frame_sound (sound : b.Sound) (some_ : 1 ≤ b.top) (ms : ℚ) :
    (interp_budget_frame b ms).Sound := by
  rcases frame_cases b ms with ⟨given, _, frame⟩ | ⟨given, _, frame⟩ | ⟨given, taken, frame⟩ |
    ⟨off, frame⟩
  · rw [frame]
    exact step_down_sound (push_sound sound given ms) given
  · rw [frame]
    exact hold_sound (push_sound sound given ms)
  · have pushed := push_sound sound given ms
    rw [frame]
    exact count_back_sound pushed.counted_cut taken ms
  · have counted : (counted_off b).Sound := sound.counted_off
    rw [frame]
    exact count_back_sound counted (Nat.ne_of_gt (some_.trans off)) ms

theorem frame_top (b : InterpBudget) (ms : ℚ) : (interp_budget_frame b ms).top = b.top := by
  have back (c : InterpBudget) : (count_back c ms).top = c.top := by
    rcases count_back_cases c ms with ⟨_, wait, _, same⟩ | ⟨_, _, same⟩ | ⟨_, _, same⟩
    · rw [same]
    · rw [same]
    · rw [same]
      rfl
  rcases frame_cases b ms with ⟨_, _, frame⟩ | ⟨_, _, frame⟩ | ⟨_, _, frame⟩ | ⟨_, frame⟩
  · rw [frame]; rfl
  · rw [frame]; rfl
  · rw [frame, back]; rfl
  · rw [frame, back]; rfl

/-- A display's rate between one and eight images a frame. -/
def Asked (top : Nat) : Prop := 1 ≤ top ∧ top ≤ 8

theorem Asked.some_ {top : Nat} (asked : Asked top) : (if top = 0 then 1 else top) = top :=
  if_neg (Nat.ne_of_gt asked.1)

theorem step_eq {top : Nat} (asked : Asked top) (ms : ℚ) :
    (interp_budget_step b ms top).1 = interp_budget_frame (retop b top) ms := by
  rw [interp_budget_step, asked.some_]

theorem InterpBudget.Sound.step (sound : b.Sound) {top : Nat} (asked : Asked top) (ms : ℚ) :
    (interp_budget_step b ms top).1.Sound := by
  rw [step_eq asked]
  exact frame_sound (sound.retop asked.1 asked.2) asked.1 ms

theorem step_top {top : Nat} (asked : Asked top) (ms : ℚ) :
    (interp_budget_step b ms top).1.top = top := by
  rw [step_eq asked, frame_top]
  rfl

theorem InterpBudget.Sound.given (sound : b.Sound) {top : Nat} (asked : Asked top) (ms : ℚ) :
    (interp_budget_step b ms top).2 = top - (interp_budget_step b ms top).1.cut := by
  have after := sound.step asked ms
  have cut_le := after.cut_le
  have top_le := after.top_le
  have value : (interp_budget_step b ms top).2 =
      int32 (sub32 (interp_budget_step b ms top).1.top (interp_budget_step b ms top).1.cut) := rfl
  rw [value, sub32_eq cut_le (by omega), int32, if_pos (by omega), Nat.cast_sub cut_le,
    step_top asked]

theorem InterpBudget.Sound.run (sound : b.Sound) {frames : List (ℚ × Nat)}
    (asked : ∀ f ∈ frames, Asked f.2) : (budget_run b frames).Sound := by
  induction frames generalizing b with
  | nil => exact sound
  | cons f frames ih =>
      exact ih (sound.step (asked f (by simp)) f.1) fun g member => asked g (by simp [member])

/-! ### Every image given back -/

/-- The latest `m` of what the ring holds were on time. -/
def InterpBudget.Recent (b : InterpBudget) (m : Nat) : Prop :=
  ∀ ms ∈ b.window.take m, ms ≤ INTERP_BUDGET_ON_TIME

theorem recent_empty (empty : b.n = 0) (m : Nat) : b.Recent m := by
  intro ms member
  simp [InterpBudget.window, empty] at member

theorem push_recent (few : b.n ≤ INTERP_BUDGET_N) {m : Nat} (recent : b.Recent m) {ms : ℚ}
    (fast : ms ≤ INTERP_BUDGET_ON_TIME) : (interp_budget_push b ms).1.Recent (m + 1) := by
  intro t member
  rw [push_window few, List.take_take] at member
  have early : t ∈ (ms :: b.window).take (m + 1) :=
    (List.take_sublist_take_left (Nat.min_le_left _ _)).subset member
  rw [List.take_succ_cons] at early
  rcases List.mem_cons.mp early with rfl | before
  · exact fast
  · exact recent t before

theorem count_back_recent {m : Nat} (recent : b.Recent m) (ms : ℚ) :
    (count_back b ms).Recent m := by
  rcases count_back_cases b ms with ⟨_, wait, _, back⟩ | ⟨_, _, back⟩ | ⟨_, _, back⟩
  · rw [back]
    exact recent
  · rw [back]
    exact recent
  · rw [back]
    exact recent_empty rfl m

/-- A frame on time goes on in front of the others on time, or the ring is empty. -/
theorem frame_recent (sound : b.Sound) {m : Nat} (recent : b.Recent m)
    {ms : ℚ} (fast : ms ≤ INTERP_BUDGET_ON_TIME) :
    (interp_budget_frame b ms).Recent (m + 1) := by
  have pushed := push_recent sound.few recent fast
  rcases frame_cases b ms with ⟨_, _, frame⟩ | ⟨_, _, frame⟩ | ⟨_, _, frame⟩ | ⟨off, frame⟩
  · rw [frame]
    exact recent_empty rfl _
  · rw [frame]
    exact pushed
  · have counted : (counted_cut (interp_budget_push b ms).1).Recent (m + 1) := pushed
    rw [frame]
    exact count_back_recent counted ms
  · have empty : b.n = 0 := sound.off (Nat.le_antisymm sound.cut_le off)
    have recent : (counted_off b).Recent (m + 1) := recent_empty empty _
    rw [frame]
    exact count_back_recent recent ms

/-- The frames on time that give every image back. -/
def InterpBudget.due (b : InterpBudget) : Nat :=
  if b.cut = 0 then 0 else b.wait + 1 + 961 * (b.cut - 1)

theorem InterpBudget.Sound.due_le (sound : b.Sound) : b.due ≤ 8648 := by
  have cut_le := sound.cut_le
  have top_le := sound.top_le
  have wait_le := sound.wait_le
  simp only [InterpBudget.due]
  split <;> omega

theorem count_back_due (sound : b.Sound) (taken : b.cut ≠ 0) {ms : ℚ}
    (fast : ms ≤ INTERP_BUDGET_ON_TIME) : (count_back b ms).due ≤ b.due - 1 := by
  have cut_le := sound.cut_le
  have top_le := sound.top_le
  rcases count_back_cases b ms with ⟨late, _⟩ | ⟨_, waits, back⟩ | ⟨_, none, back⟩
  · exact absurd fast (not_le.mpr late)
  · rw [back]
    simp only [InterpBudget.due, if_neg taken]
    omega
  · have count := count_le sound.tries_le
    have less : sub32 b.cut 1 = b.cut - 1 := by
      refine sub32_eq (Nat.one_le_iff_ne_zero.mpr taken) ?_
      omega
    rw [back]
    simp only [InterpBudget.due, give_back, if_neg taken, none, less]
    split <;> omega

/-- With all the ring on time no image is taken, and the count goes on. -/
theorem frame_due (sound : b.Sound) (some_ : 1 ≤ b.top)
    (recent : b.Recent INTERP_BUDGET_N) {ms : ℚ} (fast : ms ≤ INTERP_BUDGET_ON_TIME) :
    (interp_budget_frame b ms).due ≤ b.due - 1 := by
  rcases frame_cases b ms with ⟨given, slow, frame⟩ | ⟨_, none, frame⟩ | ⟨given, taken, frame⟩ |
    ⟨off, frame⟩
  · obtain ⟨full, late⟩ := push_slow sound.few slow
    have all := push_recent sound.few recent fast
    have low : median (interp_budget_push b ms).1.window ≤ INTERP_BUDGET_ON_TIME := by
      refine median_le (List.ne_nil_of_length_eq_add_one full) fun t member => all t ?_
      rwa [List.take_of_length_le (full.le.trans (Nat.le_succ _))]
    norm_num [INTERP_BUDGET_ON_TIME, INTERP_BUDGET_SLOW] at low late
    linarith
  · have zero : (hold (interp_budget_push b ms).1).due = 0 := if_pos none
    rw [frame, zero]
    exact Nat.zero_le _
  · have pushed := push_sound sound given ms
    rw [frame]
    exact count_back_due pushed.counted_cut taken fast
  · have counted : (counted_off b).Sound := sound.counted_off
    rw [frame]
    exact count_back_due counted (Nat.ne_of_gt (some_.trans off)) fast

theorem InterpBudget.Recent.fewer {n m : Nat} (recent : b.Recent m) (less : n ≤ m) :
    b.Recent n := fun t member =>
  recent t ((List.take_sublist_take_left less).subset member)

theorem frames_sound (sound : b.Sound) (some_ : 1 ≤ b.top) (times : List ℚ) :
    (times.foldl interp_budget_frame b).Sound ∧
      (times.foldl interp_budget_frame b).top = b.top := by
  induction times generalizing b with
  | nil => exact ⟨sound, rfl⟩
  | cons ms times ih =>
      have top := frame_top b ms
      have rest := ih (frame_sound sound some_ ms) (top ▸ some_)
      rw [top] at rest
      exact rest

theorem frames_recent (sound : b.Sound) (some_ : 1 ≤ b.top) {m : Nat} (recent : b.Recent m)
    {times : List ℚ} (fast : ∀ ms ∈ times, ms ≤ INTERP_BUDGET_ON_TIME) :
    (times.foldl interp_budget_frame b).Recent (m + times.length) := by
  induction times generalizing b m with
  | nil => exact recent
  | cons ms times ih =>
      have more := frame_recent sound recent (fast ms (by simp))
      have rest := ih (frame_sound sound some_ ms) (frame_top b ms ▸ some_) more
        fun t member => fast t (by simp [member])
      exact rest.fewer (by rw [List.length_cons]; omega)

theorem frames_due (sound : b.Sound) (some_ : 1 ≤ b.top) (recent : b.Recent INTERP_BUDGET_N)
    {times : List ℚ} (fast : ∀ ms ∈ times, ms ≤ INTERP_BUDGET_ON_TIME) :
    (times.foldl interp_budget_frame b).due ≤ b.due - times.length := by
  induction times generalizing b with
  | nil => exact Nat.le_refl _
  | cons ms times ih =>
      have now := frame_due sound some_ recent (fast ms (by simp))
      have more := (frame_recent sound recent (fast ms (by simp))).fewer (Nat.le_succ _)
      have rest := ih (frame_sound sound some_ ms) (frame_top b ms ▸ some_) more
        fun t member => fast t (by simp [member])
      rw [List.length_cons, List.foldl_cons]
      omega

/-- A ring's frames on time, then those that count the images back. -/
theorem frames_recover (sound : b.Sound) (some_ : 1 ≤ b.top) {times : List ℚ}
    (many : 8679 ≤ times.length) (fast : ∀ ms ∈ times, ms ≤ INTERP_BUDGET_ON_TIME) :
    (times.foldl interp_budget_frame b).cut = 0 := by
  have filled : ∀ ms ∈ times.take INTERP_BUDGET_N, ms ≤ INTERP_BUDGET_ON_TIME :=
    fun ms member => fast ms (List.mem_of_mem_take member)
  have counted : ∀ ms ∈ times.drop INTERP_BUDGET_N, ms ≤ INTERP_BUDGET_ON_TIME :=
    fun ms member => fast ms (List.mem_of_mem_drop member)
  have ring : (times.take INTERP_BUDGET_N).length = INTERP_BUDGET_N :=
    List.length_take_of_le (Nat.le_trans (by decide) many)
  have none : b.Recent 0 := fun ms member => by simp at member
  have recent := frames_recent sound some_ none filled
  obtain ⟨sound', top⟩ := frames_sound sound some_ (times.take INTERP_BUDGET_N)
  have due := frames_due sound' (top ▸ some_) (recent.fewer (by omega)) counted
  have most := sound'.due_le
  rw [← List.foldl_append, List.take_append_drop, List.length_drop] at due
  have zero : (times.foldl interp_budget_frame b).due = 0 := by
    rw [INTERP_BUDGET_N] at due most
    omega
  simp only [InterpBudget.due] at zero
  split at zero
  case isTrue given => exact given
  case isFalse => omega

theorem retop_same (b : InterpBudget) : retop b b.top = b := by
  simp [retop]

theorem step_again {top : Nat} (asked : Asked top) (same : b.top = top) (ms : ℚ) :
    (interp_budget_step b ms top).1 = interp_budget_frame b ms := by
  subst same
  rw [step_eq asked, retop_same]

theorem run_again {top : Nat} (asked : Asked top) (same : b.top = top) (times : List ℚ) :
    budget_run b (times.map (·, top)) = times.foldl interp_budget_frame b := by
  induction times generalizing b with
  | nil => rfl
  | cons ms times ih =>
      have here := step_again asked same ms
      have rest := ih ((frame_top b ms).trans same)
      rw [← here] at rest
      rw [List.foldl_cons, ← here]
      exact rest

/-- The display's rate is one from the first of the frames on. -/
theorem run_retop {top : Nat} (asked : Asked top) {times : List ℚ} (some_ : times ≠ []) :
    budget_run b (times.map (·, top)) = times.foldl interp_budget_frame (retop b top) := by
  cases times with
  | nil => exact absurd rfl some_
  | cons ms times =>
      have here := step_eq (b := b) asked ms
      have rest := run_again asked (step_top (b := b) asked ms) times
      rw [List.foldl_cons, ← here]
      exact rest

/-! ### No image lost -/

/-- Every 31 frames one after another have a median of at most `most`. -/
def EveryMedian (most : ℚ) (times : List ℚ) : Prop :=
  ∀ w, w <:+: times → w.length = INTERP_BUDGET_N → median w ≤ most

theorem frame_kept (few : b.n ≤ INTERP_BUDGET_N) (some_ : 1 ≤ b.top) (kept : b.cut = 0) {ms : ℚ}
    (pace : ((ms :: b.window).take INTERP_BUDGET_N).length = INTERP_BUDGET_N →
      median ((ms :: b.window).take INTERP_BUDGET_N) ≤ INTERP_BUDGET_SLOW) :
    (interp_budget_frame b ms).cut = 0 ∧
      (interp_budget_frame b ms).window = (ms :: b.window).take INTERP_BUDGET_N := by
  have pushed := push_window few ms
  rcases frame_cases b ms with ⟨_, slow, _⟩ | ⟨_, _, frame⟩ | ⟨_, taken, _⟩ | ⟨off, _⟩
  · obtain ⟨full, late⟩ := push_slow few slow
    rw [pushed] at full late
    exact absurd (pace full) (not_le.mpr late)
  · rw [frame]
    exact ⟨kept, pushed⟩
  · exact absurd kept taken
  · omega

theorem latest_isInfix (times : List ℚ) (n : Nat) : (times.reverse.take n).reverse <:+: times := by
  rw [List.take_reverse, List.reverse_reverse]
  exact (List.drop_suffix _ _).isInfix

theorem frames_kept {frames : List (ℚ × Nat)} (asked : ∀ f ∈ frames, Asked f.2)
    (pace : EveryMedian INTERP_BUDGET_SLOW (frames.map Prod.fst)) :
    (budget_run .zero frames).cut = 0 ∧
      (budget_run .zero frames).window =
        ((frames.map Prod.fst).reverse).take INTERP_BUDGET_N := by
  induction frames using List.reverseRecOn with
  | nil => exact ⟨rfl, rfl⟩
  | append_singleton frames f ih =>
      have asked' : ∀ g ∈ frames, Asked g.2 := fun g member => asked g (by simp [member])
      have now : Asked f.2 := asked f (by simp)
      have pace' : EveryMedian INTERP_BUDGET_SLOW (frames.map Prod.fst) :=
        fun w part => pace w (part.trans (by
          rw [List.map_append]
          exact (List.prefix_append _ _).isInfix))
      obtain ⟨kept, ring⟩ := ih asked' pace'
      have sound := InterpBudget.zero_sound.run asked'
      have given : (retop (budget_run .zero frames) f.2).cut = 0 := by
        rw [sound.retop_cut now.2, if_neg (by simp [kept]), kept]
      have same : (retop (budget_run .zero frames) f.2).window =
          ((frames.map Prod.fst).reverse).take INTERP_BUDGET_N := ring
      have latest : (f.1 :: (retop (budget_run .zero frames) f.2).window).take INTERP_BUDGET_N =
          (((frames ++ [f]).map Prod.fst).reverse).take INTERP_BUDGET_N := by
        rw [same]
        simp [INTERP_BUDGET_N, List.take_take]
      have in_pace : ((f.1 :: (retop (budget_run .zero frames) f.2).window).take
            INTERP_BUDGET_N).length = INTERP_BUDGET_N →
          median ((f.1 :: (retop (budget_run .zero frames) f.2).window).take INTERP_BUDGET_N) ≤
            INTERP_BUDGET_SLOW := by
        intro full
        rw [latest] at full ⊢
        rw [median_perm (List.reverse_perm _).symm]
        exact pace _ (latest_isInfix _ _) (by rw [List.length_reverse, full])
      have after := frame_kept (sound.retop now.1 now.2).few now.1 given in_pace
      rw [latest] at after
      rw [budget_run, List.foldl_append, List.foldl_cons, List.foldl_nil, step_eq now]
      exact after

/-- After any frames from the start: what is taken away is no more than the
most asked for, a step gives the rest of it, 10,000 frames on time give every
image back, and with no median slow none was ever taken. -/
theorem interp_budget_correct (frames : List (ℚ × Nat)) (asked : ∀ f ∈ frames, Asked f.2) :
    let b := budget_run .zero frames
    b.cut ≤ b.top ∧
    (∀ ms top, Asked top →
      (interp_budget_step b ms top).1.cut ≤ top ∧
      (interp_budget_step b ms top).2 = top - (interp_budget_step b ms top).1.cut) ∧
    (∀ top, Asked top → ∀ times : List ℚ, 10000 ≤ times.length →
      (∀ ms ∈ times, ms ≤ INTERP_BUDGET_ON_TIME) →
      (budget_run b (times.map (·, top))).cut = 0) ∧
    (EveryMedian INTERP_BUDGET_SLOW (frames.map Prod.fst) → b.cut = 0) := by
  have sound := InterpBudget.zero_sound.run asked
  refine ⟨sound.cut_le, fun ms top now => ⟨?_, sound.given now ms⟩,
    fun top now times many fast => ?_, fun pace => (frames_kept asked pace).1⟩
  · have cut_le := (sound.step now ms).cut_le
    rwa [step_top now] at cut_le
  · have some_ : times ≠ [] := List.ne_nil_of_length_pos (by omega)
    rw [run_retop now some_]
    exact frames_recover (sound.retop now.1 now.2) now.1 (by omega) fast

/-- One image taken from four after 31 frames of 40 ms, and given back. -/
theorem interp_budget_correct_four :
    (budget_run .zero (List.replicate 31 (40, 4))).cut = 1 ∧
    (budget_run (budget_run .zero (List.replicate 31 (40, 4)))
      ((List.replicate 10000 30).map (·, 4))).cut = 0 := by
  have asked : ∀ f ∈ List.replicate 31 ((40 : ℚ), 4), Asked f.2 := by
    intro f member
    rw [List.eq_of_mem_replicate member]
    exact ⟨by decide, by decide⟩
  refine ⟨by decide +kernel, (interp_budget_correct _ asked).2.2.1 4 ⟨by decide, by decide⟩ _
    (by rw [List.length_replicate]) fun ms member => ?_⟩
  rw [List.eq_of_mem_replicate member]
  norm_num [INTERP_BUDGET_ON_TIME]

end SoaPort.Picture
