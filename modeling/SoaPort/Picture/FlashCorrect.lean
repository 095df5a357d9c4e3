import SoaPort.Picture.Flash

namespace SoaPort.Picture

/-! The flashes of a luminance history, newest luminance first: what
`half_flash` and the pending half make of it, kept whole. -/

namespace Turn

/-- Before the first turn. -/
def start (l : ℚ) : Turn where
  ext := l
  hi := l
  pend_t := LONG_AGO
  trend := 0
  pend := 0

/-- Whether luminance `l` at `t` ends a flash: the half it makes answers the
one pending. -/
def completes (u : Turn) (l t : ℚ) : Bool :=
  let d := half_flash u l
  d ≠ 0 && (u.pend = -d && t - u.pend_t < FLASH_WINDOW)

/-- The turn after luminance `l` at `t`. -/
def take (u : Turn) (l t : ℚ) : Turn :=
  let d := half_flash u l
  if d ≠ 0 then
    if u.completes l t then { u with pend := 0, trend := d, ext := l }
    else { u with pend := d, pend_t := t, trend := d, ext := l }
  else if u.trend > 0 then { u with ext := max u.ext l }
  else if u.trend < 0 then { u with ext := min u.ext l }
  else { u with ext := min u.ext l, hi := max u.hi l }

end Turn

/-- A pixel's shown luminances with their times, newest first. -/
abbrev History := List (ℚ × ℚ)

def turn_after : History → Turn
  | [] => Turn.start 0
  | [(_, l)] => Turn.start l
  | (t, l) :: older => (turn_after older).take l t

/-- When each flash of a history ended, newest first. -/
def flash_ends : History → List ℚ
  | [] => []
  | [_] => []
  | (t, l) :: older =>
      if (turn_after older).completes l t then t :: flash_ends older else flash_ends older

/-- Within the last window before `t` some flash was a fourth: it and three
before it ended within one window. -/
def Completed (h : History) (t : ℚ) : Prop :=
  ∃ newer τ older, flash_ends h = newer ++ τ :: older ∧ t - τ < FLASH_WINDOW ∧
    3 ≤ older.countP fun e => τ - e < FLASH_WINDOW

theorem turn_after_cons {h : History} (shown : h ≠ []) (t l : ℚ) :
    turn_after ((t, l) :: h) = (turn_after h).take l t := by
  cases h with
  | nil => exact absurd rfl shown
  | cons first older => rfl

theorem flash_ends_cons {h : History} (shown : h ≠ []) (t l : ℚ) :
    flash_ends ((t, l) :: h) =
      if (turn_after h).completes l t then t :: flash_ends h else flash_ends h := by
  cases h with
  | nil => exact absurd rfl shown
  | cons first older => rfl

/-! A pixel's record is enough of its history. -/

theorem window_pos : 0 < FLASH_WINDOW := by
  norm_num [FLASH_WINDOW]

theorem half_flash_eq_zero {u : Turn} {l : ℚ} :
    half_flash u l = 0 ↔
      ¬ (u.trend ≥ 0 ∧ (if u.trend ≠ 0 then u.ext else u.hi) - l ≥ 1 / 10 ∧ l < 8 / 10) ∧
        ¬ (u.trend ≤ 0 ∧ l - u.ext ≥ 1 / 10 ∧ u.ext < 8 / 10) := by
  unfold half_flash
  dsimp only
  generalize (if u.trend ≠ 0 then u.ext else u.hi) = top
  by_cases falls : u.trend ≥ 0 ∧ top - l ≥ 1 / 10 ∧ l < 8 / 10
  · rw [if_pos falls]
    exact iff_of_false (by decide) fun still => still.1 falls
  · rw [if_neg falls]
    by_cases rises : u.trend ≤ 0 ∧ l - u.ext ≥ 1 / 10 ∧ u.ext < 8 / 10
    · rw [if_pos rises]
      exact iff_of_false (by decide) fun still => still.2 rises
    · rw [if_neg rises]
      exact iff_of_true rfl ⟨falls, rises⟩

/-- The half flash a turn just made is not made again. -/
theorem half_flash_turned {u : Turn} {l : ℚ} (turned : u.ext = l) (going : u.trend ≠ 0) :
    half_flash u l = 0 := by
  rw [half_flash_eq_zero, if_pos going, turned, sub_self]
  constructor
  · rintro ⟨_, far, _⟩
    norm_num at far
  · rintro ⟨_, far, _⟩
    norm_num at far

/-- After luminance `l` is shown, `l` again makes no half flash. -/
theorem half_flash_take (u : Turn) (l t : ℚ) : half_flash (u.take l t) l = 0 := by
  unfold Turn.take
  dsimp only
  split
  next moved =>
    split
    next => exact half_flash_turned rfl moved
    next => exact half_flash_turned rfl moved
  next still =>
    obtain ⟨level, calm⟩ := half_flash_eq_zero.mp (not_not.mp still)
    split
    next rising =>
      rw [half_flash_eq_zero]
      have going : u.trend ≠ 0 := ne_of_gt rising
      rw [if_pos going] at level
      dsimp only
      rw [if_pos going]
      refine ⟨?_, fun other => absurd other.1 (not_le.mpr rising)⟩
      rintro ⟨up, far, dark⟩
      rcases le_total u.ext l with higher | lower
      · rw [max_eq_right higher, sub_self] at far
        norm_num at far
      · rw [max_eq_left lower] at far
        exact level ⟨up, far, dark⟩
    next notRising =>
      split
      next falling =>
        rw [half_flash_eq_zero]
        dsimp only
        refine ⟨fun other => absurd other.1 (not_le.mpr falling), ?_⟩
        rintro ⟨down, far, dark⟩
        rcases le_total u.ext l with higher | lower
        · rw [min_eq_left higher] at far dark
          exact calm ⟨down, far, dark⟩
        · rw [min_eq_right lower, sub_self] at far
          norm_num at far
      next flat =>
        have zero : u.trend = 0 := le_antisymm (not_lt.mp notRising) (not_lt.mp flat)
        rw [half_flash_eq_zero]
        rw [if_neg (not_not.mpr zero)] at level
        dsimp only
        rw [if_neg (not_not.mpr zero)]
        constructor
        · rintro ⟨up, far, dark⟩
          rcases le_total u.hi l with higher | lower
          · rw [max_eq_right higher, sub_self] at far
            norm_num at far
          · rw [max_eq_left lower] at far
            exact level ⟨up, far, dark⟩
        · rintro ⟨down, far, dark⟩
          rcases le_total u.ext l with higher | lower
          · rw [min_eq_left higher] at far dark
            exact calm ⟨down, far, dark⟩
          · rw [min_eq_right lower, sub_self] at far
            norm_num at far

theorem commit_turn (q : FlashPixel) (l t : ℚ) :
    (commit_pixel q l t).toTurn = q.toTurn.take l t := by
  unfold commit_pixel Turn.take Turn.completes
  dsimp only
  split
  next moved =>
    split
    next answered => 
      simp [moved, answered]
    next fresh =>
      have : ¬ (decide (half_flash q.toTurn l ≠ 0) && (decide (q.pend = -half_flash q.toTurn l) && decide (t - q.pend_t < FLASH_WINDOW))) = true := by
        simpa [moved] using fresh
      rw [if_neg this]
  next still =>
    split
    next rising =>
      split
      next higher => rw [max_eq_right (le_of_lt higher)]
      next lower => rw [max_eq_left (not_lt.mp lower)]
    next level =>
      split
      next falling =>
        split
        next lower => rw [min_eq_right (le_of_lt lower)]
        next higher => rw [min_eq_left (not_lt.mp higher)]
      next flat =>
        have low : (if l < q.ext then l else q.ext) = min q.ext l := by
          split
          next lower => rw [min_eq_right (le_of_lt lower)]
          next higher => rw [min_eq_left (not_lt.mp higher)]
        have high : (if l > q.hi then l else q.hi) = max q.hi l := by
          split
          next higher => rw [max_eq_right (le_of_lt higher)]
          next lower => rw [max_eq_left (not_lt.mp lower)]
        rw [low, high]

/-! The three ends a pixel keeps are its last three flashes'. -/

section Ends

variable {f : Fin 3 → ℚ}

theorem oldest_le (f : Fin 3 → ℚ) (k : Fin 3) : f (oldest f) ≤ f k := by
  unfold oldest
  fin_cases k <;> dsimp <;> split_ifs <;> grind

/-- Updating one of three values, as a list. -/
theorem ofFn_update_perm (f : Fin 3 → ℚ) (o : Fin 3) (t : ℚ) : ∃ rest,
    (List.ofFn f).Perm (f o :: rest) ∧ (List.ofFn (Function.update f o t)).Perm (t :: rest) := by
  have three : ∀ g : Fin 3 → ℚ, List.ofFn g = [g 0, g 1, g 2] := fun g => by
    simp [List.ofFn_succ]
  rw [three, three]
  match o with
  | 0 => exact ⟨[f 1, f 2], .refl _, .refl _⟩
  | 1 => exact ⟨[f 0, f 2], .swap _ _ _, .swap _ _ _⟩
  | 2 =>
      exact ⟨[f 0, f 1], (List.perm_append_comm : ([f 0, f 1] ++ [f 2]).Perm _),
        (List.perm_append_comm : ([f 0, f 1] ++ [t]).Perm _)⟩

/-- The new end takes the place of the least of three. -/
theorem update_oldest {a b c t : ℚ} (kept : (List.ofFn f).Perm [a, b, c]) (ab : b ≤ a) (bc : c ≤ b) :
    (List.ofFn (Function.update f (oldest f) t)).Perm [t, a, b] := by
  have least := oldest_le f
  have member : ∀ k, f k ∈ [a, b, c] := fun k => kept.subset (List.mem_ofFn.mpr ⟨k, rfl⟩)
  obtain ⟨k, value⟩ : ∃ k, f k = c :=
    List.mem_ofFn.mp (kept.symm.subset (by simp))
  have same : f (oldest f) = c := by
    apply le_antisymm
    · rw [← value]
      exact least k
    · have among := member (oldest f)
      simp only [List.mem_cons, List.not_mem_nil, or_false] at among
      rcases among with x | x | x <;> rw [x] <;> linarith
  obtain ⟨rest, before, after⟩ := ofFn_update_perm f (oldest f) t
  have last : ([a, b] ++ [c]).Perm ([c] ++ [a, b]) := List.perm_append_comm
  rw [same] at before
  have others : rest.Perm [a, b] := (before.symm.trans (kept.trans last)).cons_inv
  exact after.trans (others.cons t)

end Ends

/-- A flash's end is the time of a luminance shown. -/
theorem flash_ends_sublist (h : History) : (flash_ends h).Sublist (h.map Prod.fst) := by
  induction h with
  | nil => exact .slnil
  | cons last older ih =>
      obtain ⟨t, l⟩ := last
      cases older with
      | nil => exact List.nil_sublist _
      | cons first rest =>
          rw [flash_ends_cons (List.cons_ne_nil first rest)]
          split
          · exact ih.cons_cons t
          · exact ih.cons t

/-- The times of a history: from the first frame's zero on, never going back. -/
structure Ordered (h : History) : Prop where
  sorted : (h.map Prod.fst).Pairwise (· ≥ ·)
  positive : ∀ x ∈ h, 0 ≤ x.1

theorem Ordered.tail {x : ℚ × ℚ} {h : History} (ordered : Ordered (x :: h)) : Ordered h :=
  ⟨(List.pairwise_cons.mp ordered.sorted).2, fun y mem => ordered.positive y (.tail _ mem)⟩

theorem Ordered.head_le {t l : ℚ} {h : History} (ordered : Ordered ((t, l) :: h)) :
    ∀ x ∈ h, x.1 ≤ t := fun x mem =>
  (List.pairwise_cons.mp ordered.sorted).1 x.1 (List.mem_map.mpr ⟨x, mem, rfl⟩)

/-- The last three ends, filled up from the time before all. -/
def last_three (ends : List ℚ) : List ℚ :=
  (ends ++ [LONG_AGO, LONG_AGO, LONG_AGO]).take 3

/-- Three ends in the window are the last three. -/
theorem three_recent {ends : List ℚ} {t : ℚ} (sorted : ends.Pairwise (· ≥ ·)) (positive : 0 ≤ t) :
    3 ≤ (last_three ends).countP (fun e => t - e < FLASH_WINDOW) ↔
      3 ≤ ends.countP (fun e => t - e < FLASH_WINDOW) := by
  have never : ¬ t - LONG_AGO < FLASH_WINDOW := by
    unfold LONG_AGO FLASH_WINDOW
    intro recent
    linarith
  match ends with
  | [] => simp [last_three, never]
  | [a] => simp [last_three, List.countP_cons, never]
  | [a, b] => simp [last_three, List.countP_cons, never]
  | a :: b :: c :: rest =>
      simp only [last_three, List.cons_append, List.take_succ_cons, List.take_zero,
        List.countP_cons, List.countP_nil]
      by_cases recent : t - c < FLASH_WINDOW
      · have ab := (List.pairwise_cons.mp sorted).1 b (by simp)
        have bc := (List.pairwise_cons.mp (List.pairwise_cons.mp sorted).2).1 c (by simp)
        have second : t - b < FLASH_WINDOW := by linarith
        have first : t - a < FLASH_WINDOW := by linarith
        simp [first, second, recent]
      · have older : rest.countP (fun e => t - e < FLASH_WINDOW) = 0 := by
          rw [List.countP_eq_zero]
          intro e mem
          have ce := (List.pairwise_cons.mp
            (List.pairwise_cons.mp (List.pairwise_cons.mp sorted).2).2).1 e mem
          simp only [decide_eq_true_eq]
          linarith
        simp [older, recent]

/-- A pixel's record keeps what its history says. -/
structure Keeps (q : FlashPixel) (h : History) : Prop where
  shown : h ≠ []
  ordered : Ordered h
  turn : q.toTurn = turn_after h
  ends : (List.ofFn q.ends).Perm (last_three (flash_ends h))
  counted : ∀ t, (∀ x ∈ h, x.1 ≤ t) → (over_ q t = true ↔ Completed h t)

theorem fourth_eq (q : FlashPixel) (l t : ℚ) :
    fourth q (half_flash q.toTurn l) t =
      (q.toTurn.completes l t &&
        (3 ≤ (List.ofFn q.ends).countP fun e => t - e < FLASH_WINDOW : Bool)) := by
  unfold fourth Turn.completes
  dsimp only
  by_cases answered : half_flash q.toTurn l = 0 ∨ q.pend ≠ -half_flash q.toTurn l ∨
      t - q.pend_t ≥ FLASH_WINDOW
  · rw [if_pos answered]
    rcases answered with still | other | late
    · simp [still]
    · simp [other]
    · simp [not_lt.mpr late]
  · rw [if_neg answered]
    obtain ⟨moved, rest⟩ := not_or.mp answered
    obtain ⟨opposite, recent⟩ := not_or.mp rest
    simp [moved, not_not.mp opposite, not_le.mp recent]

theorem completes_iff {u : Turn} {l t : ℚ} : u.completes l t = true ↔
    half_flash u l ≠ 0 ∧ u.pend = -half_flash u l ∧ t - u.pend_t < FLASH_WINDOW := by
  simp [Turn.completes]

theorem commit_ends (q : FlashPixel) (l t : ℚ) :
    (commit_pixel q l t).ends =
      if q.toTurn.completes l t then Function.update q.ends (oldest q.ends) t else q.ends := by
  unfold commit_pixel
  dsimp only
  split
  next moved =>
    split
    next answered => rw [if_pos (completes_iff.mpr ⟨moved, answered⟩)]
    next fresh => rw [if_neg fun done => fresh (completes_iff.mp done).2]
  next still =>
    rw [if_neg fun done => still (completes_iff.mp done).1]
    repeat' split
    all_goals rfl

theorem commit_over (q : FlashPixel) (l t : ℚ) :
    (commit_pixel q l t).over_ = if fourth q (half_flash q.toTurn l) t then t else q.over_ := by
  have done : fourth q (half_flash q.toTurn l) t = true → q.toTurn.completes l t = true := by
    rw [fourth_eq, Bool.and_eq_true]
    exact And.left
  unfold commit_pixel
  dsimp only
  split
  next moved =>
    split
    next answered => rfl
    next fresh => rw [if_neg fun last => fresh (completes_iff.mp (done last)).2]
  next still =>
    rw [if_neg fun last => still (completes_iff.mp (done last)).1]
    repeat' split
    all_goals rfl

theorem last_three_cons (t : ℚ) (ends : List ℚ) :
    ∃ a b c, last_three ends = [a, b, c] ∧ last_three (t :: ends) = [t, a, b] := by
  match ends with
  | [] => exact ⟨_, _, _, rfl, rfl⟩
  | [a] => exact ⟨_, _, _, rfl, rfl⟩
  | [a, b] => exact ⟨_, _, _, rfl, rfl⟩
  | a :: b :: c :: rest => exact ⟨_, _, _, rfl, rfl⟩

theorem last_three_sorted {ends : List ℚ} (sorted : ends.Pairwise (· ≥ ·))
    (positive : ∀ e ∈ ends, 0 ≤ e) : (last_three ends).Pairwise (· ≥ ·) := by
  apply List.Pairwise.take
  refine List.pairwise_append.mpr ⟨sorted, by simp, ?_⟩
  intro e mem s filler
  have never : s = LONG_AGO := by simpa using filler
  have late := positive e mem
  rw [never, LONG_AGO]
  linarith

section Step

variable {q : FlashPixel} {h : History} {l t : ℚ} (keeps : Keeps q h)
  (ordered : Ordered ((t, l) :: h))

include keeps in
theorem Keeps.sorted : (flash_ends h).Pairwise (· ≥ ·) :=
  keeps.ordered.sorted.sublist (flash_ends_sublist h)

include keeps in
theorem Keeps.positive : ∀ e ∈ flash_ends h, 0 ≤ e := by
  intro e mem
  obtain ⟨x, shown, rfl⟩ := List.mem_map.mp ((flash_ends_sublist h).subset mem)
  exact keeps.ordered.positive x shown

include keeps ordered in
/-- The half at `t` ends a fourth flash in a second exactly when three flashes
of the history ended in the window before it. -/
theorem Keeps.fourth_iff : fourth q (half_flash q.toTurn l) t = true ↔
    (turn_after h).completes l t = true ∧
      3 ≤ (flash_ends h).countP fun e => t - e < FLASH_WINDOW := by
  rw [fourth_eq, Bool.and_eq_true, decide_eq_true_eq, keeps.turn, keeps.ends.countP_eq,
    three_recent keeps.sorted (ordered.positive (t, l) (.head _))]

include keeps in
theorem Keeps.commit_ends_perm :
    (List.ofFn (commit_pixel q l t).ends).Perm (last_three (flash_ends ((t, l) :: h))) := by
  rw [commit_ends, keeps.turn, flash_ends_cons keeps.shown]
  split
  next done =>
    obtain ⟨a, b, c, before, after⟩ := last_three_cons t (flash_ends h)
    have sorted := last_three_sorted keeps.sorted keeps.positive
    rw [before] at sorted
    rw [after]
    have kept := keeps.ends
    rw [before] at kept
    have ab := (List.pairwise_cons.mp sorted).1 b (by simp)
    have bc := (List.pairwise_cons.mp (List.pairwise_cons.mp sorted).2).1 c (by simp)
    exact update_oldest kept ab bc
  next => exact keeps.ends

include keeps ordered in
theorem Keeps.commit_over_iff {t' : ℚ} (later : t ≤ t') :
    Picture.over_ (commit_pixel q l t) t' = true ↔ Completed ((t, l) :: h) t' := by
  have before : ∀ e ∈ flash_ends h, e ≤ t := by
    intro e mem
    obtain ⟨x, shown, rfl⟩ := List.mem_map.mp ((flash_ends_sublist h).subset mem)
    exact ordered.head_le x shown
  have value := commit_over q l t
  by_cases last : fourth q (half_flash q.toTurn l) t = true
  · -- a fourth flash ends now
    obtain ⟨done, three⟩ := (keeps.fourth_iff ordered).mp last
    have ends : flash_ends ((t, l) :: h) = t :: flash_ends h := by
      rw [flash_ends_cons keeps.shown, if_pos done]
    rw [if_pos last] at value
    rw [Picture.over_, value, decide_eq_true_eq]
    constructor
    · intro recent
      exact ⟨[], t, flash_ends h, ends, recent, three⟩
    · rintro ⟨newer, τ, older, split, recent, _⟩
      have among : τ ∈ t :: flash_ends h := by
        rw [← ends, split]
        simp
      have le : τ ≤ t := by
        rcases List.mem_cons.mp among with rfl | mem
        · exact le_refl τ
        · exact before τ mem
      linarith
  · rw [if_neg last] at value
    have kept : Picture.over_ (commit_pixel q l t) t' = Picture.over_ q t' := by
      rw [Picture.over_, Picture.over_, value]
    rw [kept, keeps.counted t' fun x mem => (ordered.head_le x mem).trans later]
    by_cases done : (turn_after h).completes l t = true
    · -- a flash ends now, but not the fourth
      have few : ¬ 3 ≤ (flash_ends h).countP fun e => t - e < FLASH_WINDOW :=
        fun three => last ((keeps.fourth_iff ordered).mpr ⟨done, three⟩)
      have ends : flash_ends ((t, l) :: h) = t :: flash_ends h := by
        rw [flash_ends_cons keeps.shown, if_pos done]
      constructor
      · rintro ⟨newer, τ, older, split, recent, three⟩
        exact ⟨t :: newer, τ, older, by rw [ends, split]; rfl, recent, three⟩
      · rintro ⟨newer, τ, older, split, recent, three⟩
        rw [ends] at split
        cases newer with
        | nil =>
            obtain ⟨rfl, rfl⟩ := List.cons.inj split
            exact absurd three few
        | cons first newer =>
            exact ⟨newer, τ, older, (List.cons.inj split).2, recent, three⟩
    · have ends : flash_ends ((t, l) :: h) = flash_ends h := by
        rw [flash_ends_cons keeps.shown, if_neg done]
      unfold Completed
      rw [ends]

include keeps ordered in
/-- Showing a luminance keeps the record. -/
theorem Keeps.commit : Keeps (commit_pixel q l t) ((t, l) :: h) where
  shown := List.cons_ne_nil _ _
  ordered := ordered
  turn := by rw [commit_turn, keeps.turn, turn_after_cons keeps.shown]
  ends := keeps.commit_ends_perm
  counted := fun _ later => keeps.commit_over_iff ordered (later (t, l) (.head _))

end Step

theorem keeps_first {l t : ℚ} (positive : 0 ≤ t) : Keeps (first_pixel l) [(t, l)] where
  shown := List.cons_ne_nil _ _
  ordered := ⟨by simp, by simpa using positive⟩
  turn := rfl
  ends := .refl _
  counted := by
    intro t' later
    have after : t ≤ t' := later (t, l) (.head _)
    apply iff_of_false
    · intro recent
      have near := of_decide_eq_true recent
      simp only [first_pixel, LONG_AGO, FLASH_WINDOW] at near
      linarith
    · rintro ⟨newer, τ, older, ends, _⟩
      exact absurd ends (by simp [flash_ends])

/-! Whole frames. -/

theorem bisect_eq (bad : ℚ → Bool) (steps : Nat) (lo hi : ℚ) :
    bisect bad steps lo hi = lo ∨ bad (bisect bad steps lo hi) = false := by
  induction steps generalizing lo hi with
  | zero => exact .inl rfl
  | succ steps ih =>
      unfold bisect
      dsimp only
      by_cases fails : bad ((lo + hi) / 2) = true
      · rw [if_pos fails]
        exact ih lo ((lo + hi) / 2)
      · rw [if_neg fails]
        rcases ih ((lo + hi) / 2) hi with same | holds
        · right
          rw [same]
          exact Bool.eq_false_iff.mpr fails
        · exact .inr holds

section Frames

variable {n : Nat}

theorem weight_zero : weight 0 = 0 := by
  norm_num [weight]

theorem blend_byte_zero (before now : BitVec 8) : blend_byte 0 before now = before := by
  unfold blend_byte
  dsimp only
  rw [mul_zero, if_pos (le_refl 0)]
  change BitVec.ofInt 8 ((before.toNat : Int) + 0) = before
  rw [add_zero, BitVec.ofInt_natCast, BitVec.ofNat_toNat, BitVec.setWidth_eq]

/-- No blend at all is the frame before. -/
theorem blend_zero (before now : Image n) : blend before now 0 = before := by
  funext i
  simp only [blend, weight_zero, blend_pixel, blend_byte_zero]

theorem countP_add_countP_not {α : Type} (a c : α → Bool) (xs : List α) :
    xs.countP (fun x => !a x && c x) + xs.countP a = xs.countP fun x => a x || c x := by
  induction xs with
  | nil => rfl
  | cons x xs ih =>
      simp only [List.countP_cons, ← ih]
      cases a x <;> cases c x <;> simp <;> omega

theorem over_commit (q : FlashPixel) (l t : ℚ) :
    over_ (commit_pixel q l t) t =
      (over_ q t || (q.pend ≠ 0 && fourth q (half_flash q.toTurn l) t)) := by
  have value := commit_over q l t
  by_cases last : fourth q (half_flash q.toTurn l) t = true
  · have done := (Bool.and_eq_true_iff.mp ((fourth_eq q l t).symm.trans last)).1
    obtain ⟨moved, opposite, _⟩ := completes_iff.mp done
    have waits : q.pend ≠ 0 := by
      rw [opposite]
      exact neg_ne_zero.mpr moved
    rw [if_pos last] at value
    rw [over_, value, sub_self, decide_eq_true window_pos, last, decide_eq_true waits]
    simp
  · rw [if_neg last] at value
    rw [over_, over_, value, Bool.eq_false_iff.mpr last]
    simp

/-- Over the limit after a frame are those over it before and those that end a
fourth flash in it. -/
theorem lately_commit (px : Fin n → FlashPixel) (l : Fin n → ℚ) (t : ℚ) :
    lately (fun i => commit_pixel (px i) (l i) t) t =
      (candidates px l t).length + lately px t := by
  unfold lately candidates
  simp only [over_commit]
  rw [← List.countP_eq_length_filter, countP_add_countP_not]

theorem lately_mono (px : Fin n → FlashPixel) {t t' : ℚ} (le : t ≤ t') :
    lately px t' ≤ lately px t := by
  apply List.countP_mono_left
  intro i _ still
  have near : t' - (px i).over_ < FLASH_WINDOW := of_decide_eq_true still
  exact decide_eq_true (by linarith)

/-- A frame that makes no half flash breaks nothing. -/
theorem breaks_settled {px : Fin n → FlashPixel} {l : Fin n → ℚ} {t : ℚ}
    (settled : ∀ i, half_flash (px i).toTurn (l i) = 0) : breaks px l t = false := by
  have none_now : candidates px l t = [] := by
    apply List.filter_eq_nil_iff.mpr
    intro i _
    simp [fourth, settled i]
  rw [breaks, none_now]
  rfl

/-- The frame the search settles on does not break the rule. -/
theorem breaks_strength (f : PicFilters) {prev p : Image n} {px : Fin n → FlashPixel} {t : ℚ}
    (settled : ∀ i, half_flash (px i).toTurn (frame_luminance f prev i) = 0) :
    breaks px (frame_luminance f (blend prev p (strength f prev p px t))) t = false := by
  unfold strength
  dsimp only
  split
  next =>
    rcases bisect_eq (fun mid => breaks px (frame_luminance f (blend prev p mid)) t) 8 0 1 with
      same | holds
    · rw [same, blend_zero]
      exact breaks_settled settled
    · exact holds
  next holds => exact Bool.eq_false_iff.mpr holds

/-- A frame that does not break the rule leaves fewer than a quarter over the
limit. -/
theorem below_of_not_breaks {px : Fin n → FlashPixel} {l : Fin n → ℚ} {t t' : ℚ} (le : t' ≤ t)
    (below : lately px t' * 4 < n) (holds : breaks px l t = false) :
    lately (fun i => commit_pixel (px i) (l i) t) t * 4 < n := by
  rw [lately_commit]
  have fewer := lately_mono px le
  simp only [breaks, too_much, Bool.and_eq_false_iff, decide_eq_false_iff_not, not_not] at holds
  omega

/-- When the first of some frames, newest first, was shown. -/
def first_time (shown : List (ℚ × Image n)) : ℚ := ((shown.getLast?).map Prod.fst).getD 0

variable (f : PicFilters)

/-- The luminances pixel `i` has shown, at seconds after the first frame. -/
def history (shown : List (ℚ × Image n)) (i : Fin n) : History :=
  shown.map fun x => (x.1 - first_time shown, luminance f.lin (x.2 i))

/-- What the limiter's state is after some frames. -/
structure Limited (s : PicFilterState n) (shown : List (ℚ × Image n)) : Prop where
  have_prev : s.have_prev = true
  t0 : s.t0 = first_time shown
  prev : ∃ t older, shown = (t, s.prev) :: older
  keeps : ∀ i, Keeps (s.px i) (history f shown i)
  settled : ∀ i, half_flash (s.px i).toTurn (frame_luminance f s.prev i) = 0
  below : ∀ t older, shown = (t, s.prev) :: older → lately s.px (t - s.t0) * 4 < n

variable {f}

theorem first_time_cons {shown : List (ℚ × Image n)} (some_ : shown ≠ []) (x : ℚ × Image n) :
    first_time (x :: shown) = first_time shown := by
  cases shown with
  | nil => exact absurd rfl some_
  | cons y older => rfl

/-- The first frame is shown as it is. -/
theorem limited_first (positive : 0 < n) {s : PicFilterState n} (fresh : s.have_prev = false)
    (p : Image n) (t : ℚ) :
    Limited f (limit_flashes f s p t).1 [(t, (limit_flashes f s p t).2.1)] := by
  unfold limit_flashes
  rw [if_pos fresh]
  refine ⟨rfl, rfl, ⟨t, [], rfl⟩, ?_, ?_, ?_⟩
  · intro i
    have zero : t - first_time [(t, p)] = 0 := sub_self t
    simp only [history, List.map_cons, List.map_nil, zero]
    exact keeps_first (le_refl 0)
  · intro i
    rw [half_flash_eq_zero]
    simp only [first_pixel, sub_self]
    norm_num
  · intro t' older same
    obtain ⟨rfl, rfl⟩ : t = t' ∧ [] = older := by
      simpa using same
    have none_over : lately (fun i => first_pixel (frame_luminance f p i)) (t - t) = 0 := by
      apply List.countP_eq_zero.mpr
      intro i _ near
      have recent := of_decide_eq_true near
      simp only [first_pixel, LONG_AGO, FLASH_WINDOW] at recent
      linarith
    dsimp only
    rw [none_over]
    omega

/-- The frame shown after one was shown before. -/
def next_frame (f : PicFilters) (s : PicFilterState n) (p : Image n) (t : ℚ) : Image n :=
  if breaks s.px (frame_luminance f p) t then blend s.prev p (strength f s.prev p s.px t) else p

section Next

variable {s : PicFilterState n} {shown : List (ℚ × Image n)} (limited : Limited f s shown)
  (p : Image n) (t : ℚ)

include limited

theorem Limited.next_shown :
    (limit_flashes f s p t).2.1 = next_frame f s p (t - s.t0) := by
  unfold limit_flashes next_frame
  rw [limited.have_prev, if_neg (by decide)]
  dsimp only
  split
  · rfl
  · rfl

theorem Limited.next_prev :
    (limit_flashes f s p t).1.prev = next_frame f s p (t - s.t0) := by
  unfold limit_flashes next_frame
  rw [limited.have_prev, if_neg (by decide)]
  dsimp only
  split
  · rfl
  · rfl

theorem Limited.next_px : (limit_flashes f s p t).1.px = fun i =>
    commit_pixel (s.px i) (frame_luminance f (next_frame f s p (t - s.t0)) i) (t - s.t0) := by
  unfold limit_flashes next_frame
  rw [limited.have_prev, if_neg (by decide)]
  dsimp only
  split
  · rfl
  · rfl

theorem Limited.next_t0 : (limit_flashes f s p t).1.t0 = s.t0 := by
  unfold limit_flashes
  rw [limited.have_prev, if_neg (by decide)]

theorem Limited.next_have_prev : (limit_flashes f s p t).1.have_prev = true := by
  unfold limit_flashes
  rw [limited.have_prev, if_neg (by decide)]

/-- Whichever frame is shown, it breaks nothing. -/
theorem Limited.next_holds :
    breaks s.px (frame_luminance f (next_frame f s p t)) t = false := by
  unfold next_frame
  split
  next => exact breaks_strength f limited.settled
  next holds => exact Bool.eq_false_iff.mpr holds

theorem Limited.some_shown : shown ≠ [] := by
  obtain ⟨t, older, rfl⟩ := limited.prev
  exact List.cons_ne_nil _ _

omit p in
/-- Whatever image comes next, its luminances extend every pixel's record. -/
theorem Limited.keeps_next (later : ∀ x ∈ shown, x.1 ≤ t) (image : Image n) (i : Fin n) :
    Keeps (commit_pixel (s.px i) (frame_luminance f image i) (t - s.t0))
      (history f ((t, image) :: shown) i) := by
  have keeps := limited.keeps i
  have first : first_time ((t, image) :: shown) = first_time shown :=
    first_time_cons limited.some_shown _
  have before : ∀ x ∈ history f shown i, x.1 ≤ t - s.t0 := by
    intro x mem
    obtain ⟨y, member, rfl⟩ := List.mem_map.mp mem
    rw [limited.t0]
    exact sub_le_sub_right (later y member) _
  have ordered : Ordered ((t - s.t0, frame_luminance f image i) :: history f shown i) := by
    constructor
    · rw [List.map_cons]
      refine List.pairwise_cons.mpr ⟨?_, keeps.ordered.sorted⟩
      intro e mem
      obtain ⟨x, member, rfl⟩ := List.mem_map.mp mem
      exact before x member
    · intro x mem
      rcases List.mem_cons.mp mem with rfl | member
      · obtain ⟨x, member⟩ := List.exists_mem_of_ne_nil _ keeps.shown
        exact (keeps.ordered.positive x member).trans (before x member)
      · exact keeps.ordered.positive x member
  have committed := keeps.commit ordered
  unfold history
  rw [first, List.map_cons, ← limited.t0]
  unfold history at committed
  rw [← limited.t0] at committed
  exact committed

/-- A further frame keeps the state what it should be. -/
theorem Limited.next (later : ∀ x ∈ shown, x.1 ≤ t) :
    Limited f (limit_flashes f s p t).1 ((t, (limit_flashes f s p t).2.1) :: shown) := by
  refine ⟨limited.next_have_prev p t, ?_, ?_, ?_, ?_, ?_⟩
  · rw [limited.next_t0, limited.t0, first_time_cons limited.some_shown]
  · exact ⟨t, shown, by rw [limited.next_prev, limited.next_shown]⟩
  · intro i
    rw [limited.next_px, limited.next_shown]
    exact limited.keeps_next t later _ i
  · intro i
    rw [limited.next_px, limited.next_prev]
    dsimp only
    rw [commit_turn]
    exact half_flash_take _ _ _
  · intro t' older split
    obtain rfl : t = t' := by
      simpa using congrArg (fun xs => xs.head?.map Prod.fst) split
    obtain ⟨last, before, same_last⟩ := limited.prev
    have le : last ≤ t := later (last, s.prev) (by rw [same_last]; exact .head _)
    rw [limited.next_px, limited.next_t0]
    exact below_of_not_breaks (sub_le_sub_right le s.t0) (limited.below last before same_last)
      (limited.next_holds p (t - s.t0))

end Next

/-- The frames shown have the times of the frames given. -/
theorem filter_frames_times (frames : List (ℚ × Image n)) :
    (filter_frames f frames).2.map Prod.fst = frames.map Prod.fst := by
  induction frames with
  | nil => rfl
  | cons x older ih => exact congrArg (x.1 :: ·) ih

theorem limited_frames (positive : 0 < n) {frames : List (ℚ × Image n)} (some_ : frames ≠ [])
    (times : (frames.map Prod.fst).Pairwise (· ≥ ·)) :
    Limited f (filter_frames f frames).1 (filter_frames f frames).2 := by
  induction frames with
  | nil => exact absurd rfl some_
  | cons x older ih =>
      obtain ⟨t, p⟩ := x
      rw [List.map_cons, List.pairwise_cons] at times
      cases older with
      | nil =>
          have fresh : (picture_filters_new n).have_prev = false := rfl
          exact limited_first positive fresh (adjust f p) t
      | cons y rest =>
          refine (ih (List.cons_ne_nil y rest) times.2).next (adjust f p) t ?_
          intro z mem
          apply times.1
          rw [← filter_frames_times]
          exact List.mem_map.mpr ⟨z, mem, rfl⟩

theorem lately_card (px : Fin n → FlashPixel) (t : ℚ) :
    lately px t = (Finset.univ.filter fun i => over_ (px i) t = true).card := by
  have nodup := (List.nodup_finRange n).filter fun i => over_ (px i) t
  rw [lately, List.countP_eq_length_filter, ← List.toFinset_card_of_nodup nodup]
  congr 1
  ext i
  simp

open Classical in
/-- The pixels over the limit are those whose history completed a fourth flash
within the last window. -/
theorem card_completed {px : Fin n → FlashPixel} {shown : List (ℚ × Image n)} {t : ℚ}
    (keeps : ∀ i, Keeps (px i) (history f shown i)) (later : ∀ x ∈ shown, x.1 ≤ t) :
    (Finset.univ.filter fun i => Completed (history f shown i) (t - first_time shown)).card =
      lately px (t - first_time shown) := by
  rw [lately_card]
  congr 1
  ext i
  have counted := (keeps i).counted (t - first_time shown) ?_
  · simp [counted]
  · intro x mem
    obtain ⟨y, member, rfl⟩ := List.mem_map.mp mem
    exact sub_le_sub_right (later y member) _

/-- A frame that would leave fewer than a quarter over the limit does not break
the rule. -/
theorem not_breaks_of_below {px : Fin n → FlashPixel} {l : Fin n → ℚ} {t : ℚ}
    (below : lately (fun i => commit_pixel (px i) (l i) t) t * 4 < n) : breaks px l t = false := by
  rw [lately_commit] at below
  simp only [breaks, too_much, Bool.and_eq_false_iff, decide_eq_false_iff_not, not_not]
  omega

open Classical in
/-- After every frame fewer than a quarter of the pixels completed a fourth flash
within the last window; a frame that would keep this as it is is shown as it is;
and the frame kept as the one before is the frame shown. -/
theorem flash_limit_kept (f : PicFilters) (positive : 0 < n) (t : ℚ) (p : Image n)
    (older : List (ℚ × Image n)) (times : (((t, p) :: older).map Prod.fst).Pairwise (· ≥ ·)) :
    let before := filter_frames f older
    let after := picture_filter f before.1 p t
    let flashed (image : Image n) := Finset.univ.filter fun i : Fin n =>
      Completed (history f ((t, image) :: before.2) i) (t - first_time ((t, image) :: before.2))
    (flashed after.2.1).card * 4 < n ∧
      ((flashed (adjust f p)).card * 4 < n → after.2.1 = adjust f p) ∧
        after.1.prev = after.2.1 := by
  intro before after flashed
  have limited : Limited f after.1 ((t, after.2.1) :: before.2) :=
    limited_frames positive (List.cons_ne_nil (t, p) older) times
  have shown_times : ∀ x ∈ before.2, x.1 ≤ t := by
    intro x mem
    apply (List.pairwise_cons.mp times).1
    rw [← filter_frames_times]
    exact List.mem_map.mpr ⟨x, mem, rfl⟩
  have later : ∀ image, ∀ x ∈ (t, image) :: before.2, x.1 ≤ t := by
    intro image x mem
    rcases List.mem_cons.mp mem with rfl | member
    · exact le_refl t
    · exact shown_times x member
  have kept : after.1.prev = after.2.1 := by
    obtain ⟨_, _, same⟩ := limited.prev
    exact (congrArg Prod.snd (List.cons.inj same).1).symm
  refine ⟨?_, ?_, kept⟩
  · have few := limited.below t before.2 (by rw [kept])
    rw [limited.t0] at few
    rwa [← card_completed limited.keeps (later _)] at few
  · intro few
    by_cases first : older = []
    · subst first
      rfl
    · have earlier : Limited f before.1 before.2 :=
        limited_frames positive first (List.pairwise_cons.mp times).2
      have keeps := earlier.keeps_next t shown_times (adjust f p)
      have times_same : first_time ((t, adjust f p) :: before.2) = before.1.t0 :=
        (first_time_cons earlier.some_shown _).trans earlier.t0.symm
      have count := card_completed keeps (later _)
      have holds : breaks before.1.px (frame_luminance f (adjust f p)) (t - before.1.t0) = false := by
        apply not_breaks_of_below
        have total : (flashed (adjust f p)).card = _ := count
        rw [total, times_same] at few
        exact few
      change (limit_flashes f before.1 (adjust f p) t).2.1 = adjust f p
      rw [earlier.next_shown, next_frame, holds, if_neg (by decide)]

end Frames

/-- Two frames of one pixel at one time. -/
theorem flash_limit_kept_twice :
    let f : PicFilters := ⟨id, id, fun x => x.toNat / 255⟩
    let dark : Image 1 := fun _ => ⟨0, 0, 0, 0⟩
    let bright : Image 1 := fun _ => ⟨255, 255, 255, 0⟩
    let before := filter_frames f [(0, dark)]
    (picture_filter f before.1 bright 0).1.prev = (picture_filter f before.1 bright 0).2.1 :=
  (flash_limit_kept ⟨id, id, fun x => x.toNat / 255⟩ (by decide) 0
    (fun _ => ⟨255, 255, 255, 0⟩) [(0, fun _ => ⟨0, 0, 0, 0⟩)] (by simp)).2.2

end SoaPort.Picture
