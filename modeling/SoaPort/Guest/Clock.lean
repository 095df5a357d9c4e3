import Mathlib.Data.BitVec
import Mathlib.Data.List.Chain
import Mathlib.Order.Basic

namespace SoaPort.Guest

/-! The guest's clock: guest time accumulates speed times the host's time
between reads. -/

def wrap64 (n : Nat) : Nat := n % 2 ^ 64

def wrap32 (n : Nat) : Nat := n % 2 ^ 32

def CLOCK_PAUSE_FOCUS : BitVec 32 := 1

def CLOCK_PAUSE_MENU : BitVec 32 := 2

structure Clock where
  g_started : Bool
  g_last_host_ns : Nat
  g_guest_ns : Nat
  g_origin_host_ns : Nat
  g_speed : Nat
  g_gap_ns : Nat
  g_epoch : Nat
  g_gaps : Nat
  g_excluded_ns : Nat
  g_pause_req : BitVec 32
  g_paused : Bool

def clock_reset : Clock where
  g_started := false
  g_last_host_ns := 0
  g_guest_ns := 0
  g_origin_host_ns := 0
  g_speed := 1
  g_gap_ns := 2000000000
  g_epoch := 0
  g_gaps := 0
  g_excluded_ns := 0
  g_pause_req := 0
  g_paused := false

def clock_configure (c : Clock) (speed : BitVec 32) (gap_ms : Int) : Clock :=
  { c with
    g_speed := if speed = 0 then 1 else speed.toNat
    g_gap_ns := if gap_ms ≥ 0 then wrap64 (gap_ms.toNat * 1000000) else c.g_gap_ns }

/-- Guest time and the host's since the last read, advancing to `host_ns`. -/
def clock_advance_at (c : Clock) (host_ns : Nat) : Clock :=
  if !c.g_started then
    { c with g_started := true, g_last_host_ns := host_ns, g_origin_host_ns := host_ns }
  else if decide (c.g_pause_req ≠ 0) ≠ c.g_paused then
    if !c.g_paused then
      -- up to the pause, then nothing until it ends
      { c with
        g_guest_ns :=
          if host_ns > c.g_last_host_ns then
            wrap64 (c.g_guest_ns + (host_ns - c.g_last_host_ns) * c.g_speed)
          else c.g_guest_ns
        g_last_host_ns := host_ns
        g_paused := true }
    else
      { c with
        g_excluded_ns :=
          if host_ns > c.g_last_host_ns then
            wrap64 (c.g_excluded_ns + (host_ns - c.g_last_host_ns))
          else c.g_excluded_ns
        g_last_host_ns := host_ns
        g_paused := false
        g_epoch := wrap32 (c.g_epoch + 1) }
  else if c.g_paused then c
  else if host_ns ≤ c.g_last_host_ns then c
  else
    let d := host_ns - c.g_last_host_ns
    if c.g_gap_ns ≠ 0 ∧ d > c.g_gap_ns then
      { c with
        g_last_host_ns := host_ns
        g_gaps := wrap64 (c.g_gaps + 1)
        g_excluded_ns := wrap64 (c.g_excluded_ns + d)
        g_epoch := wrap32 (c.g_epoch + 1) }
    else { c with g_last_host_ns := host_ns, g_guest_ns := wrap64 (c.g_guest_ns + d * c.g_speed) }

def clock_peek_at (c : Clock) (host_ns : Nat) : Nat :=
  if !c.g_started || c.g_paused || host_ns ≤ c.g_last_host_ns then c.g_guest_ns
  else
    let d := host_ns - c.g_last_host_ns
    if c.g_gap_ns ≠ 0 ∧ d > c.g_gap_ns then c.g_guest_ns else wrap64 (c.g_guest_ns + d * c.g_speed)

def clock_set_speed_at (c : Clock) (speed : BitVec 32) (host_ns : Nat) : Clock :=
  let c := clock_advance_at c host_ns
  { c with g_speed := if speed = 0 then 1 else speed.toNat, g_epoch := wrap32 (c.g_epoch + 1) }

/-- One reason to hold the game set or cleared, the others left as they are. -/
def clock_pause_for (c : Clock) (reason : BitVec 32) (on : Bool) : Clock :=
  { c with g_pause_req := if on then c.g_pause_req ||| reason else c.g_pause_req &&& ~~~reason }

/-- What is done to the clock: the guest thread's reads and speed changes, and
any thread's requests between them. -/
inductive Event where
  | advance (host_ns : Nat)
  | set_speed (speed : BitVec 32) (host_ns : Nat)
  | pause_for (reason : BitVec 32) (on : Bool)

def Clock.event (c : Clock) : Event → Clock
  | .advance host_ns => clock_advance_at c host_ns
  | .set_speed speed host_ns => clock_set_speed_at c speed host_ns
  | .pause_for reason on => clock_pause_for c reason on

/-! What a read is to add. -/

section Reads

variable {c : Clock} {host_ns : Nat}

/-- The host time since the last one read, none when it stepped back. -/
def Clock.elapsed (c : Clock) (host_ns : Nat) : Nat :=
  if c.g_started then host_ns - c.g_last_host_ns else 0

/-- A gap: longer than the threshold, where there is one. -/
def Clock.Gap (c : Clock) (host_ns : Nat) : Prop :=
  c.g_gap_ns ≠ 0 ∧ c.g_gap_ns < c.elapsed host_ns

instance (c : Clock) (host_ns : Nat) : Decidable (c.Gap host_ns) :=
  inferInstanceAs (Decidable (_ ∧ _))

/-- What a read adds to guest time. -/
def Clock.adds (c : Clock) (host_ns : Nat) : Nat :=
  if c.g_paused ∨ c.Gap host_ns then 0 else c.g_speed * c.elapsed host_ns

/-- A read that first sees a pause request, a gap after the last. -/
def Clock.Missed (c : Clock) (host_ns : Nat) : Prop :=
  c.g_paused = false ∧ c.g_pause_req ≠ 0 ∧ c.Gap host_ns

/-- A read adds what it is to. -/
def Clock.Exact (c : Clock) (host_ns : Nat) : Prop :=
  (clock_advance_at c host_ns).g_guest_ns = c.g_guest_ns + c.adds host_ns

/-- No read first sees a pause request a gap after the last, whose time counts,
and guest time fits its counter. -/
structure Clock.Met (c : Clock) (host_ns : Nat) : Prop where
  heard : c.Missed host_ns → wrap64 (c.g_speed * c.elapsed host_ns) = 0
  fits : c.g_guest_ns + c.adds host_ns < 2 ^ 64

/-- What a read makes of guest time. -/
theorem advance_guest :
    (clock_advance_at c host_ns).g_guest_ns =
      if c.g_paused = true ∨ c.elapsed host_ns = 0 ∨ (c.g_pause_req = 0 ∧ c.Gap host_ns) then
        c.g_guest_ns
      else wrap64 (c.g_guest_ns + c.g_speed * c.elapsed host_ns) := by
  simp only [clock_advance_at, Clock.Gap, Clock.elapsed, Nat.mul_comm c.g_speed]
  cases started : c.g_started with
  | false => simp
  | true =>
      cases paused : c.g_paused with
      | true =>
          by_cases asked : c.g_pause_req = 0#32
          · simp [asked]
          · simp [asked]
      | false =>
          by_cases later : host_ns > c.g_last_host_ns
          · have past : ¬ host_ns ≤ c.g_last_host_ns := Nat.not_le.mpr later
            have some : ¬ host_ns - c.g_last_host_ns = 0 := by omega
            by_cases asked : c.g_pause_req = 0#32
            · by_cases gap : c.g_gap_ns ≠ 0 ∧ host_ns - c.g_last_host_ns > c.g_gap_ns
              · simp [asked, past, gap]
              · simp [asked, past, gap, some]
            · simp [asked, later, some]
          · have none : host_ns - c.g_last_host_ns = 0 := by omega
            by_cases asked : c.g_pause_req = 0#32
            · simp [asked, Nat.not_lt.mp later, none]
            · simp [asked, later, none]

theorem wrap64_add_eq {n d : Nat} (room : n < 2 ^ 64) : wrap64 (n + d) = n ↔ wrap64 d = 0 := by
  rw [wrap64, wrap64]
  omega

theorem wrap64_eq {n : Nat} : wrap64 n = n ↔ n < 2 ^ 64 := by
  rw [wrap64]
  omega

/-- A read adds what it is to exactly when no gap was missed and it fits. -/
theorem exact_iff (room : c.g_guest_ns < 2 ^ 64) : c.Exact host_ns ↔ c.Met host_ns := by
  rw [Clock.Exact, advance_guest]
  by_cases idle : c.g_paused = true ∨ c.elapsed host_ns = 0
  · have nothing : c.adds host_ns = 0 := by
      rw [Clock.adds]
      split
      · rfl
      · rename_i runs
        rw [idle.resolve_left fun paused => runs (.inl paused), Nat.mul_zero]
    have heard : ¬ c.Missed host_ns := by
      rintro ⟨running, _, gap⟩
      rcases idle with paused | none
      · exact Bool.false_ne_true (running.symm.trans paused)
      · exact absurd gap.2 (by omega)
    rw [if_pos (idle.imp_right .inl), nothing]
    exact ⟨fun _ => ⟨fun missed => absurd missed heard, by rwa [nothing]⟩, fun _ => rfl⟩
  · obtain ⟨running, some⟩ := not_or.mp idle
    have paused : c.g_paused = false := Bool.eq_false_iff.mpr running
    by_cases gap : c.Gap host_ns
    · have nothing : c.adds host_ns = 0 := by
        rw [Clock.adds, if_pos (.inr gap)]
      rw [nothing, Nat.add_zero]
      by_cases asked : c.g_pause_req = 0#32
      · rw [if_pos (.inr (.inr ⟨asked, gap⟩))]
        have heard : ¬ c.Missed host_ns := fun missed => missed.2.1 asked
        exact ⟨fun _ => ⟨fun missed => absurd missed heard, by rwa [nothing]⟩, fun _ => rfl⟩
      · have missed : c.Missed host_ns := ⟨paused, asked, gap⟩
        have counted : ¬ (c.g_paused = true ∨ c.elapsed host_ns = 0 ∨
            c.g_pause_req = 0 ∧ c.Gap host_ns) := by
          rintro (held | none | ⟨free, _⟩)
          · exact running held
          · exact some none
          · exact asked free
        rw [if_neg counted, wrap64_add_eq room]
        exact ⟨fun none => ⟨fun _ => none, by rwa [nothing]⟩, fun met => met.heard missed⟩
    · have all : c.adds host_ns = c.g_speed * c.elapsed host_ns := by
        rw [Clock.adds, if_neg (not_or.mpr ⟨running, gap⟩)]
      have counted : ¬ (c.g_paused = true ∨ c.elapsed host_ns = 0 ∨
          c.g_pause_req = 0 ∧ c.Gap host_ns) := by
        rintro (held | none | ⟨_, long⟩)
        · exact running held
        · exact some none
        · exact gap long
      rw [if_neg counted, ← all, wrap64_eq]
      exact ⟨fun fits => ⟨fun missed => absurd missed.2.2 gap, fits⟩, fun met => met.fits⟩

theorem advance_room (room : c.g_guest_ns < 2 ^ 64) :
    (clock_advance_at c host_ns).g_guest_ns < 2 ^ 64 := by
  rw [advance_guest]
  split
  · exact room
  · exact Nat.mod_lt _ (by decide)

/-- The host time last read: a running clock's is the latest of its reads', and
a pause's two ends each start it again. -/
theorem advance_last (started : c.g_started = true) :
    (clock_advance_at c host_ns).g_last_host_ns =
      if decide (c.g_pause_req ≠ 0) ≠ c.g_paused then host_ns
      else if c.g_paused then c.g_last_host_ns
      else max c.g_last_host_ns host_ns := by
  rw [clock_advance_at, started, Bool.not_true, if_neg Bool.false_ne_true]
  by_cases turns : decide (c.g_pause_req ≠ 0) ≠ c.g_paused
  · rw [if_pos turns, if_pos turns]
    split
    · rfl
    · rfl
  · rw [if_neg turns, if_neg turns]
    split
    · rfl
    · split
      · rename_i past
        exact (max_eq_left past).symm
      · rename_i past
        have later : c.g_last_host_ns ≤ host_ns := by omega
        rw [max_eq_right later]
        dsimp only
        split
        · rfl
        · rfl

/-- A peek sees what a read would make of guest time, while no request to
pause or go on waits to be heard. -/
theorem peek_eq_advance (heard : decide (c.g_pause_req ≠ 0) = c.g_paused) :
    clock_peek_at c host_ns = (clock_advance_at c host_ns).g_guest_ns := by
  have calm : ¬ decide (c.g_pause_req ≠ 0) ≠ c.g_paused := fun other => other heard
  rw [clock_peek_at, clock_advance_at, if_neg calm]
  cases started : c.g_started with
  | false => rfl
  | true =>
      cases paused : c.g_paused with
      | true => rfl
      | false =>
          by_cases past : host_ns ≤ c.g_last_host_ns
          · rw [if_pos past]
            simp [past]
          · rw [if_neg past, decide_eq_false past]
            simp only [Bool.not_true, Bool.or_false, Bool.false_eq_true, if_false]
            split
            · rfl
            · rfl

end Reads

/-! Runs of reads, requests and speed changes. -/

section Runs

/-- The host time of an event that reads the clock. -/
def Event.read : Event → Option Nat
  | .advance host_ns => some host_ns
  | .set_speed _ host_ns => some host_ns
  | .pause_for _ _ => none

/-- Guest time after each event of a run. -/
def guest_times (c : Clock) : List Event → List Nat
  | [] => []
  | e :: es => (c.event e).g_guest_ns :: guest_times (c.event e) es

/-- Every read of a run adds what it is to. -/
def AllExact (c : Clock) : List Event → Prop
  | [] => True
  | e :: es => (∀ host_ns ∈ e.read, c.Exact host_ns) ∧ AllExact (c.event e) es

def AllMet (c : Clock) : List Event → Prop
  | [] => True
  | e :: es => (∀ host_ns ∈ e.read, c.Met host_ns) ∧ AllMet (c.event e) es

variable {c : Clock}

theorem event_guest (e : Event) :
    (c.event e).g_guest_ns =
      match e.read with
      | some host_ns => (clock_advance_at c host_ns).g_guest_ns
      | none => c.g_guest_ns := by
  cases e with
  | advance host_ns => rfl
  | set_speed speed host_ns => rfl
  | pause_for reason on => rfl

theorem event_room (room : c.g_guest_ns < 2 ^ 64) (e : Event) : (c.event e).g_guest_ns < 2 ^ 64 := by
  rw [event_guest]
  cases e.read with
  | none => exact room
  | some host_ns => exact advance_room room

theorem all_exact_iff (room : c.g_guest_ns < 2 ^ 64) (es : List Event) :
    AllExact c es ↔ AllMet c es := by
  induction es generalizing c with
  | nil => exact Iff.rfl
  | cons e es ih =>
      have here : (∀ host_ns ∈ e.read, c.Exact host_ns) ↔ ∀ host_ns ∈ e.read, c.Met host_ns :=
        forall₂_congr fun host_ns _ => exact_iff room
      exact and_congr here (ih (event_room room e))

/-- Reads that add what they are to never take guest time back. -/
theorem AllExact.sorted {es : List Event} (exact_ : AllExact c es) :
    (c.g_guest_ns :: guest_times c es).IsChain (· ≤ ·) := by
  induction es generalizing c with
  | nil => exact .singleton _
  | cons e es ih =>
      refine .cons_cons ?_ (ih exact_.2)
      rw [event_guest]
      cases read : e.read with
      | none => exact Nat.le_refl _
      | some host_ns =>
          have adds : c.Exact host_ns := exact_.1 host_ns read
          rw [Clock.Exact] at adds
          dsimp only
          rw [adds]
          exact Nat.le_add_right _ _

/-- Guest time never decreases, and every read adds speed times the host time
since the last, but nothing for a gap or while paused. -/
def Faithful (c : Clock) (es : List Event) : Prop :=
  (c.g_guest_ns :: guest_times c es).Pairwise (· ≤ ·) ∧ AllExact c es

/-- The clock is faithful exactly while no read first sees a pause request a
gap after the last, and guest time fits its counter. -/
theorem clock_faithful_iff (speed : BitVec 32) (gap_ms : Int) (es : List Event) :
    Faithful (clock_configure clock_reset speed gap_ms) es ↔
      AllMet (clock_configure clock_reset speed gap_ms) es := by
  have start : (clock_configure clock_reset speed gap_ms).g_guest_ns < 2 ^ 64 := by
    change 0 < 2 ^ 64
    decide
  rw [← all_exact_iff start]
  exact ⟨And.right, fun all => ⟨List.isChain_iff_pairwise.mp all.sorted, all⟩⟩

/-- Ten seconds asleep, the focus lost with it: all ten count. -/
theorem gap_counted_at_pause :
    ¬ Faithful (clock_configure clock_reset 1 (-1))
      [.advance 5000000000, .pause_for CLOCK_PAUSE_FOCUS true, .advance 15000000000] := by
  rintro ⟨_, _, _, late, _⟩
  have added : 10000000000 = 0 := late 15000000000 rfl
  exact absurd added (by decide)

end Runs

end SoaPort.Guest
