import Mathlib.Algebra.Order.Field.Rat
import Mathlib.Data.List.Induction
import Mathlib.Tactic.Linarith
import Mathlib.Tactic.FieldSimp
import Mathlib.Tactic.NormNum

namespace SoaPort.Picture

/-! The in-between images a game frame gets on a display of `hz` refreshes a
second, the game at 30 frames. Weights are rationals. -/

def INTERP_RATE_MIN : Nat := 30
def INTERP_RATE_MAX : Nat := 240

/-- The rate held to what the accumulator takes. -/
def rate_held (hz : Nat) : Nat := min (max hz INTERP_RATE_MIN) INTERP_RATE_MAX

/-- A frame's weights, and the next frame's remainder. -/
def interp_rate_weights (hz r : Nat) : List ℚ × Nat :=
  let hz := rate_held hz
  let n := (r + hz) / 30
  ((List.range n).map fun j => ((30 * (j + 1) - r : Nat) : ℚ) / hz, (r + hz) % 30)

/-- The rate of the frame before's weights, and the remainder it left. -/
structure Rate where
  last : Nat
  r : Nat
  deriving DecidableEq

def Rate.zero : Rate := ⟨0, 0⟩

/-- The display's rate, held while the budget has taken images away: `cap + 1`
is an unsigned 32-bit product's factor. -/
def capped (hz cap : Nat) : Nat :=
  let most := 30 * (cap + 1) % 2 ^ 32
  if cap ≠ 0 ∧ hz > most then most else hz

/-- A change of rate starts the accumulator again. -/
def Rate.at_ (s : Rate) (hz : Nat) : Nat := if hz ≠ s.last then 0 else s.r

def interp_rate_frame (s : Rate) (hz cap : Nat) : List ℚ × Rate :=
  let hz := capped hz cap
  let (w, r) := interp_rate_weights hz (s.at_ hz)
  (w, ⟨hz, r⟩)

/-- Frames one after another, each of a measured rate and a cap: their weights. -/
def rate_run (s : Rate) : List (Nat × Nat) → List (List ℚ) × Rate
  | [] => ([], s)
  | f :: frames =>
      let (w, s) := interp_rate_frame s f.1 f.2
      let (ws, s) := rate_run s frames
      (w :: ws, s)

/-! ### One frame's weights -/

theorem rate_held_le (hz : Nat) : rate_held hz ≤ 240 := Nat.min_le_right _ _

theorem le_rate_held (hz : Nat) : 30 ≤ rate_held hz := by
  simp only [rate_held, INTERP_RATE_MIN, INTERP_RATE_MAX]
  omega

/-- Two rates that are held to one are that one, or both past the same end. -/
theorem rate_held_eq {a b : Nat} (same : rate_held a = rate_held b) (ne : a ≠ b) :
    30 ∣ rate_held a := by
  simp only [rate_held, INTERP_RATE_MIN, INTERP_RATE_MAX] at same ⊢
  omega

theorem weights_length (hz r : Nat) :
    (interp_rate_weights hz r).1.length = (r + rate_held hz) / 30 := by
  simp [interp_rate_weights]

theorem weights_length_le {hz r : Nat} (low : r < 30) :
    (interp_rate_weights hz r).1.length ≤ 8 := by
  have most := rate_held_le hz
  rw [weights_length]
  omega

theorem rate_held_pos (hz : Nat) : (0 : ℚ) < (rate_held hz : ℚ) := by
  have least := le_rate_held hz
  exact_mod_cast (by omega : 0 < rate_held hz)

theorem weights_ascending {hz r : Nat} (low : r < 30) :
    (interp_rate_weights hz r).1.Pairwise (· < ·) := by
  rw [interp_rate_weights, List.pairwise_map]
  refine List.pairwise_lt_range.imp fun {i j} before => ?_
  refine div_lt_div_of_pos_right ?_ (rate_held_pos hz)
  exact_mod_cast (by omega : 30 * (i + 1) - r < 30 * (j + 1) - r)

theorem weights_inside {hz r : Nat} (low : r < 30) :
    ∀ w ∈ (interp_rate_weights hz r).1, 0 < w ∧ w ≤ 1 := by
  intro w member
  simp only [interp_rate_weights, List.mem_map, List.mem_range] at member
  obtain ⟨j, small, rfl⟩ := member
  have positive := rate_held_pos hz
  constructor
  · refine div_pos ?_ positive
    exact_mod_cast (by omega : 0 < 30 * (j + 1) - r)
  · rw [div_le_one₀ positive]
    exact_mod_cast (by omega : 30 * (j + 1) - r ≤ rate_held hz)

/-- The last image is the frame's own exactly when the frame ends on a refresh. -/
theorem weights_last {hz r : Nat} (low : r < 30) :
    (interp_rate_weights hz r).1.getLast? = some 1 ↔ 30 ∣ r + rate_held hz := by
  have least := le_rate_held hz
  have positive := rate_held_pos hz
  obtain ⟨n, count⟩ : ∃ n, (r + rate_held hz) / 30 = n + 1 :=
    ⟨(r + rate_held hz) / 30 - 1, by omega⟩
  have last : (interp_rate_weights hz r).1.getLast? =
      some (((30 * (n + 1) - r : Nat) : ℚ) / rate_held hz) := by
    simp [interp_rate_weights, count, List.range_succ]
  rw [last, Option.some_inj, div_eq_one_iff_eq positive.ne']
  norm_cast
  omega

/-! ### The accumulator over a run -/

theorem frame_weights (s : Rate) (hz cap : Nat) :
    (interp_rate_frame s hz cap).1 =
      (interp_rate_weights (capped hz cap) (s.at_ (capped hz cap))).1 := rfl

theorem rate_run_cons (s : Rate) (f : Nat × Nat) (frames : List (Nat × Nat)) :
    (rate_run s (f :: frames)).1 =
      (interp_rate_frame s f.1 f.2).1 ::
        (rate_run (interp_rate_frame s f.1 f.2).2 frames).1 := rfl

theorem frame_left (s : Rate) (hz cap : Nat) :
    (interp_rate_frame s hz cap).2 =
      ⟨capped hz cap, (s.at_ (capped hz cap) + rate_held (capped hz cap)) % 30⟩ := rfl

/-- A remainder below 30, and none at a rate of whole images a frame. -/
structure Rate.Settled (s : Rate) : Prop where
  low : s.r < 30
  whole : 30 ∣ rate_held s.last → s.r = 0

theorem Rate.zero_settled : Rate.zero.Settled where
  low := by decide
  whole _ := rfl

theorem Rate.Settled.at_low {s : Rate} (settled : s.Settled) (hz : Nat) :
    s.at_ hz < 30 := by
  have low := settled.low
  simp only [Rate.at_]
  split <;> omega

/-- A frame's rate is the one before's, or the accumulator starts at 0. -/
theorem Rate.Settled.at_whole {s : Rate} (settled : s.Settled) {hz : Nat}
    (whole : 30 ∣ rate_held hz) : s.at_ hz = 0 := by
  simp only [Rate.at_]
  split
  case isTrue => rfl
  case isFalse same =>
    rw [not_not] at same
    exact settled.whole (same ▸ whole)

theorem Rate.Settled.frame {s : Rate} (settled : s.Settled) (hz cap : Nat) :
    (interp_rate_frame s hz cap).2.Settled where
  low := Nat.mod_lt _ (by decide)
  whole whole := by
    have start : s.at_ (capped hz cap) = 0 := settled.at_whole whole
    rw [frame_left] at whole ⊢
    rw [start, Nat.zero_add]
    exact Nat.dvd_iff_mod_eq_zero.mp whole

theorem Rate.Settled.run {s : Rate} (settled : s.Settled) (frames : List (Nat × Nat)) :
    (rate_run s frames).2.Settled := by
  induction frames generalizing s with
  | nil => exact settled
  | cons f frames ih => exact ih (settled.frame f.1 f.2)

/-- The weights of a frame, as the renderer takes them. -/
structure Weights (w : List ℚ) : Prop where
  few : w.length ≤ 8
  ascending : w.Pairwise (· < ·)
  inside : ∀ x ∈ w, 0 < x ∧ x ≤ 1

theorem Rate.Settled.weights {s : Rate} (settled : s.Settled) (hz cap : Nat) :
    Weights (interp_rate_frame s hz cap).1 where
  few := weights_length_le (settled.at_low _)
  ascending := weights_ascending (settled.at_low _)
  inside := weights_inside (settled.at_low _)

theorem Rate.Settled.run_weights {s : Rate} (settled : s.Settled)
    (frames : List (Nat × Nat)) : ∀ w ∈ (rate_run s frames).1, Weights w := by
  induction frames generalizing s with
  | nil => simp [rate_run]
  | cons f frames ih =>
      intro w member
      rcases List.mem_cons.mp member with rfl | later
      · exact settled.weights f.1 f.2
      · exact ih (settled.frame f.1 f.2) w later

/-! ### A stretch at one rate -/

/-- Inside a stretch no change of the measured rate is seen: it is one that is
held to the same rate, and there the remainder is 0 already. -/
theorem Rate.Settled.at_same {s : Rate} (settled : s.Settled) {hz : Nat}
    (same : rate_held hz = rate_held s.last) : s.at_ hz = s.r := by
  by_cases changed : hz = s.last
  · simp [Rate.at_, changed]
  · have whole := rate_held_eq same changed
    rw [settled.at_whole whole, settled.whole (same ▸ whole)]

/-- `k` frames at the effective rate `h` from the remainder `r`. -/
structure Paced (h r : Nat) (ws : List (List ℚ)) : Prop where
  images : (ws.map List.length).sum = (r + ws.length * h) / 30
  ends : ∀ i (inside : i < ws.length),
    ws[i].getLast? = some 1 ↔ 30 ∣ r + (i + 1) * h

theorem Paced.cons {h r : Nat} {w : List ℚ} {ws : List (List ℚ)}
    (count : w.length = (r + h) / 30) (last : w.getLast? = some 1 ↔ 30 ∣ r + h)
    (rest : Paced h ((r + h) % 30) ws) : Paced h r (w :: ws) where
  images := by
    have more := rest.images
    simp only [List.map_cons, List.sum_cons, List.length_cons, count, more, Nat.succ_mul]
    omega
  ends i inside := by
    cases i with
    | zero => simpa using last
    | succ i =>
        have later := rest.ends i (by simpa using inside)
        rw [List.getElem_cons_succ, later, Nat.succ_mul (i + 1)]
        omega

theorem Rate.Settled.stretch {s : Rate} (settled : s.Settled) {h : Nat}
    (held : rate_held s.last = h) (frames : List (Nat × Nat))
    (same : ∀ f ∈ frames, rate_held (capped f.1 f.2) = h) :
    Paced h s.r (rate_run s frames).1 := by
  induction frames generalizing s with
  | nil =>
      have none : s.r / 30 = 0 := Nat.div_eq_of_lt settled.low
      exact ⟨by simp [rate_run, none], by simp [rate_run]⟩
  | cons f frames ih =>
      have now : rate_held (capped f.1 f.2) = h := same f (by simp)
      have kept : s.at_ (capped f.1 f.2) = s.r := settled.at_same (now.trans held.symm)
      have rest := ih (settled.frame f.1 f.2) now fun g member => same g (by simp [member])
      rw [rate_run_cons]
      refine Paced.cons ?_ ?_ ?_
      · rw [frame_weights, weights_length, kept, now]
      · rw [frame_weights, kept, weights_last settled.low, now]
      · rw [frame_left, kept, now] at rest
        rwa [frame_left, kept, now]

/-- A frame after a change of rate is one of the state that change leaves. -/
theorem rate_run_at (s : Rate) (f : Nat × Nat) (frames : List (Nat × Nat)) :
    rate_run s (f :: frames) =
      rate_run ⟨capped f.1 f.2, s.at_ (capped f.1 f.2)⟩ (f :: frames) := by
  simp [rate_run, interp_rate_frame, Rate.at_]

theorem Rate.Settled.at_state {s : Rate} (settled : s.Settled) (hz : Nat) :
    Rate.Settled ⟨hz, s.at_ hz⟩ where
  low := settled.at_low hz
  whole whole := settled.at_whole whole

/-- After any frames, and over every stretch of frames at one effective rate:
the images a stretch gets, from the remainder its first frame goes in with, and
the frames of it that end on a refresh. -/
theorem interp_rate_paced (frames : List (Nat × Nat)) :
    (∀ w ∈ (rate_run Rate.zero frames).1, Weights w) ∧
    ∀ (f : Nat × Nat) (rest : List (Nat × Nat)),
      (∀ g ∈ rest, rate_held (capped g.1 g.2) = rate_held (capped f.1 f.2)) →
      let s := (rate_run Rate.zero frames).2
      Paced (rate_held (capped f.1 f.2)) (s.at_ (capped f.1 f.2))
        (rate_run s (f :: rest)).1 := by
  refine ⟨Rate.zero_settled.run_weights frames, fun f rest same => ?_⟩
  have settled := Rate.zero_settled.run frames
  simp only
  rw [rate_run_at]
  refine (settled.at_state _).stretch rfl (f :: rest) fun g member => ?_
  rcases List.mem_cons.mp member with rfl | later
  · rfl
  · exact same g later

/-- 85 Hz: 17 images every 6 frames, the last of them on the sixth frame's end. -/
theorem interp_rate_paced_85 :
    Paced 85 0 (rate_run Rate.zero (List.replicate 6 (85, 0))).1 :=
  (interp_rate_paced []).2 (85, 0) (List.replicate 5 (85, 0)) (by decide)

end SoaPort.Picture
