import Mathlib.Algebra.Ring.Nat
import SoaPort.Aram.ArqRuns

namespace SoaPort.Aram

/-! What callers may count on. -/

variable {F : Type} {w : World F} {a : Agenda F} {s : Step F}

/-- No request of the queue is waiting or under way. -/
def Arq.Idle (q : Arq F) : Queue → Prop
  | .hi => q.ARQRequestPendingHi = NULL ∧ q.ARQRequestQueueHi = NULL
  | .lo => q.ARQRequestPendingLo = NULL ∧ q.ARQRequestQueueLo = NULL

theorem Refines.idle_line {q : Arq F} (r : Refines q a) (k : Queue) : q.Idle k ↔ a.line k = [] := by
  cases k with
  | hi =>
      rw [Arq.Idle, ← r.high_idle, r.hi_empty, Agenda.line]
      cases a.high <;> simp
  | lo =>
      rw [Arq.Idle, ← r.low_idle, r.lo_empty, Agenda.line]
      cases a.low <;> simp

/-! ### Order -/

/-- Each queue's callbacks are its requests', each once and in the order posted. -/
theorem callbacks_in_order (reach : w.Reach) (k : Queue) :
    ∃ left, (w.posts.filter (·.queue = k)).map Post.made =
        w.called.filter (·.queue = k) ++ left ∧ (left = [] ↔ w.q.Idle k) := by
  obtain ⟨a, sound⟩ := reach.sound
  refine ⟨(a.line k).map Post.made, sound.books.order k, ?_⟩
  rw [List.map_eq_nil_iff, sound.refines.idle_line]

/-- Two requests, the second posted while the first's only piece is under way. -/
def low_post : Post Unit := ⟨0x80001000, 0, 0, 0, 0x100, 0x4000, 0x60, none⟩

def high_post : Post Unit := ⟨0x80002000, 0, 1, 1, 0x5000, 0x200, 0x40, some ()⟩

/-- The statics before the library is set up. -/
def unset : Arq Unit :=
  ⟨fun _ => ⟨NULL, 0, 0, 0, 0, 0, none⟩, NULL, NULL, NULL, NULL, NULL, NULL, none, none, 0, false⟩

def two_posted : World Unit :=
  ((World.initial unset).step (.call (.post low_post))).step (.call (.post high_post))

theorem low_allowed : (World.initial unset).Allows (.call (.post low_post)) := by
  refine ⟨?_, trivial⟩
  rintro p ⟨⟩
  exact ⟨⟨by decide, rfl⟩, .inl rfl⟩

theorem high_allowed :
    ((World.initial unset).step (.call (.post low_post))).Allows (.call (.post high_post)) := by
  refine ⟨?_, trivial⟩
  rintro p ⟨⟩
  exact ⟨⟨by decide, by decide⟩, .inr rfl⟩

theorem two_posted_reach : two_posted.Reach :=
  .step (.step (.initial rfl) low_allowed) high_allowed

theorem callbacks_in_order_two : ∃ left, (two_posted.posts.filter (·.queue = .hi)).map Post.made =
    two_posted.called.filter (·.queue = .hi) ++ left ∧ (left = [] ↔ two_posted.q.Idle .hi) :=
  callbacks_in_order two_posted_reach .hi

/-! ### Transfers -/

theorem Books.called_length {posts : List (Post F)} {called : List (Called F)}
    {started : List Dma} (books : Books posts called started a) (k : Queue) :
    (posts.filter (·.queue = k)).length =
      (called.filter (·.queue = k)).length + (a.line k).length := by
  have order := congrArg List.length (books.order k)
  rwa [List.length_map, List.length_append, List.length_map] at order

/-- A high request's bytes go in one transfer and a low one's in pieces that lead
from one to the next, all of them by its callback. -/
theorem transfers_cover (reach : w.Reach) :
    w.started.filter (·.queue = .hi) =
        ((w.posts.filter (·.queue = .hi)).take ((w.called.filter (·.queue = .hi)).length +
          if w.q.ARQRequestPendingHi = NULL then 0 else 1)).map Post.whole ∧
      ∃ pieces current, w.started.filter (·.queue = .lo) = pieces.flatten ++ current ∧
        List.Forall₂ (fun p ds => p.Covers 0 ds p.length.toNat)
          ((w.posts.filter (·.queue = .lo)).take (w.called.filter (·.queue = .lo)).length)
          pieces ∧
        (current = [] ∨ ∃ p stop,
          (w.posts.filter (·.queue = .lo))[(w.called.filter (·.queue = .lo)).length]? = some p ∧
            p.Covers 0 current stop) := by
  obtain ⟨a, sound⟩ := reach.sound
  obtain ⟨⟨begun, hi_posts, hi_sent⟩, ended, pieces, current, lo_posts, lo_sent, all, here,
    none_⟩ :=
    sound.books.sent
  constructor
  · have length := sound.books.called_length .hi
    have count : (begun ++ a.high.toList).length = (w.called.filter (·.queue = .hi)).length +
        if w.q.ARQRequestPendingHi = NULL then 0 else 1 := by
      rw [hi_posts, List.length_append] at length
      have under : a.high.toList.length = if w.q.ARQRequestPendingHi = NULL then 0 else 1 := by
        cases high : a.high with
        | none => rw [if_pos (sound.refines.high_idle.mp high)]; rfl
        | some p =>
            rw [if_neg]
            · rfl
            · rw [← sound.refines.high_idle, high]
              exact Option.some_ne_none p
      rw [List.length_append]
      omega
    rw [hi_sent, hi_posts, ← count, Agenda.line, ← List.append_assoc, List.take_left]
  · have length := sound.books.called_length .lo
    rw [lo_posts, List.length_append] at length
    have count : (w.called.filter (·.queue = .lo)).length = ended.length := by omega
    refine ⟨pieces, current, lo_sent, ?_, ?_⟩
    · rw [lo_posts, count, List.take_left]
      exact all
    · cases low : a.low with
      | none => exact .inl (none_ low)
      | some d =>
          refine .inr ⟨d.post, d.reach, ?_, here d low⟩
          rw [lo_posts, count, List.getElem?_append_right (Nat.le_refl _), Nat.sub_self,
            Agenda.line, low]
          rfl

theorem transfers_cover_two :
    two_posted.started.filter (·.queue = .hi) =
        ((two_posted.posts.filter (·.queue = .hi)).take
          ((two_posted.called.filter (·.queue = .hi)).length +
            if two_posted.q.ARQRequestPendingHi = NULL then 0 else 1)).map Post.whole :=
  (transfers_cover two_posted_reach).1

/-! ### One transfer at a time -/

theorem World.Reach.flight_le (reach : w.Reach) : w.flight.length ≤ 1 := by
  obtain ⟨a, sound⟩ := reach.sound
  have length := sound.flight
  split at length <;> omega

/-- The engine has one transfer at most. It has none only when every request
posted has had its callback, and a low piece starts only when no high request waits. -/
theorem one_transfer (reach : w.Reach) :
    w.flight.length ≤ 1 ∧
      (w.flight = [] ↔ ∀ k, (w.posts.filter (·.queue = k)).map Post.made =
        w.called.filter (·.queue = k)) ∧
      ∀ s, w.Allows s → ∀ x ∈ (w.step s).started.drop w.started.length, x.queue = .lo →
        (w.step s).q.Idle .hi := by
  obtain ⟨a, sound⟩ := reach.sound
  refine ⟨reach.flight_le, ?_, ?_⟩
  · rw [sound.rest_iff]
    refine forall_congr' fun k => ?_
    rw [sound.books.order k, List.append_right_eq_self, List.map_eq_nil_iff]
  · intro s allows x new lo
    rw [step_started, List.drop_left] at new
    obtain ⟨b, next, -, starts⟩ := sound.since sound.books allows
    obtain ⟨hi, none_high⟩ := (starts x new).2 lo
    rw [next.refines.idle_line, Agenda.line, none_high, hi]
    rfl

theorem one_transfer_two : two_posted.flight.length ≤ 1 := (one_transfer two_posted_reach).1

/-! ### Every request is served -/

section Drain

/-- The pieces of `n` bytes; one, where there are none. -/
def pieces_of (chunk n : Nat) : Nat := (n - 1) / chunk + 1

theorem pieces_last {chunk n : Nat} (some_ : 0 < chunk) (le : n ≤ chunk) :
    pieces_of chunk n = 1 := by
  rw [pieces_of, Nat.div_eq_of_lt (by omega)]

theorem pieces_more {chunk n : Nat} (some_ : 0 < chunk) (more : chunk < n) :
    pieces_of chunk n = pieces_of chunk (n - chunk) + 1 := by
  rw [pieces_of, pieces_of, Nat.div_eq_sub_div some_ (by omega)]
  congr 2
  congr 1
  omega

theorem pieces_mono (chunk : Nat) {n m : Nat} (le : n ≤ m) :
    pieces_of chunk n ≤ pieces_of chunk m :=
  Nat.succ_le_succ (Nat.div_le_div_right (by omega))

namespace Agenda

def part_owed (a : Agenda F) (d : Part F) : Nat :=
  pieces_of a.chunk.toNat (d.post.length.toNat - d.done)

/-- The transfers of the two lines. -/
def lines_owed (a : Agenda F) : Nat :=
  a.hi.length + (a.lo.map fun p => pieces_of a.chunk.toNat p.length.toNat).sum

/-- The transfers not started, when none runs. -/
def owed (a : Agenda F) : Nat := a.lines_owed + a.low.elim 0 a.part_owed

/-- The interrupts until every request is done. -/
def remaining (a : Agenda F) : Nat :=
  a.lines_owed +
    match a.high, a.low with
    | some _, low => 1 + low.elim 0 a.part_owed
    | none, some d => if d.last then 1 else 1 + a.part_owed d
    | none, none => 0

theorem serve_part_remaining (a : Agenda F) (d : Part F) (free : a.high = none)
    (going : d.last = false) (some_ : 0 < a.chunk.toNat) :
    (a.serve_part d).1.remaining = a.lines_owed + a.part_owed d := by
  rw [serve_part]
  split
  next last =>
    rw [remaining, free, part_owed, pieces_last some_ last]
    rfl
  next tight =>
    rw [remaining, free, part_owed, pieces_more some_ (by omega)]
    simp only [going, part_owed, lines_owed, Bool.false_eq_true, if_false]
    rw [Nat.sub_sub]
    omega

theorem start_remaining (a : Agenda F) (free : a.high = none)
    (between : ∀ d, a.low = some d → d.last = false) (some_ : 0 < a.chunk.toNat) :
    a.start.1.remaining = a.owed := by
  rcases a.start_cases with ⟨p, rest, hi, is⟩ | ⟨d, -, low, is⟩ | ⟨p, rest, hi, low, lo, is⟩ |
    ⟨-, low, -, is⟩
  · rw [is, owed, lines_owed, hi, List.length_cons]
    dsimp only [remaining, lines_owed]
    have same : part_owed { a with hi := rest, high := some p } = a.part_owed := rfl
    rw [same]
    omega
  · rw [is, serve_part_remaining a d free (between d low) some_, owed, low]
    rfl
  · rw [is, serve_part_remaining { a with lo := rest } ⟨p, 0, false⟩ free rfl some_, owed, low,
      lines_owed, lines_owed, lo, part_owed]
    simp only [List.map_cons, List.sum_cons, Option.elim_none, Nat.sub_zero]
    omega
  · rw [is, owed, remaining, free, low]
    rfl

theorem drop_owed (a : Agenda F) (busy : a.idle = false) :
    a.remaining = a.drop.owed + 1 := by
  cases high : a.high with
  | some p =>
      rw [drop_high high, remaining, high, owed]
      dsimp only [lines_owed]
      have same : part_owed { a with high := none } = a.part_owed := rfl
      rw [same]
      omega
  | none =>
      cases low : a.low with
      | none =>
          rw [idle, high, low] at busy
          cases busy
      | some d =>
          cases last : d.last with
          | true =>
              rw [drop_last high low last, remaining, high, low]
              simp [last, owed, lines_owed]
          | false =>
              rw [drop_none high, remaining, high, low, owed, low]
              · simp only [last, Option.elim_some, Bool.false_eq_true, if_false]
                omega
              · rw [low]
                rintro e ⟨⟩
                exact last

theorem start_chunk (a : Agenda F) : a.start.1.chunk = a.chunk := by
  have part : ∀ (b : Agenda F) (d : Part F), (b.serve_part d).1.chunk = b.chunk := by
    intro b d
    rw [serve_part]
    split <;> rfl
  rcases a.start_cases with ⟨p, rest, -, is⟩ | ⟨d, -, -, is⟩ | ⟨p, rest, -, -, -, is⟩ |
    ⟨-, -, -, is⟩
  · rw [is]
  · rw [is, part]
  · rw [is, part]
  · rw [is]

theorem drop_chunk (a : Agenda F) : a.drop.chunk = a.chunk := by
  rw [drop]
  split <;> rfl

end Agenda

/-- The engine's interrupts, and callbacks that call nothing. -/
def quiet (n : Nat) : List (Step F) := List.replicate n (.interrupt [])

theorem Sound.drained {n : Nat} (sound : Sound w a) (some_ : 0 < a.chunk.toNat)
    (count : a.remaining = n) :
    w.AllowsAll (quiet n) ∧ (w.run (quiet n)).flight = [] ∧ (w.run (quiet n)).posts = w.posts ∧
      ∃ b, Sound (w.run (quiet n)) b := by
  induction n generalizing w a with
  | zero =>
      have idle : a.idle = true := by
        by_contra busy
        rw [a.drop_owed (Bool.eq_false_iff.mpr busy)] at count
        omega
      have length := sound.flight
      rw [if_pos idle] at length
      exact ⟨trivial, List.length_eq_zero_iff.mp length, rfl, a, sound⟩
  | succ n ih =>
      have busy : a.idle = false := by
        by_contra idle
        obtain ⟨high, low⟩ := a.idle_iff.mp (by simpa using idle)
        obtain ⟨hi, lo⟩ := sound.rest (by simpa using idle)
        rw [Agenda.remaining, Agenda.lines_owed, high, low, hi, lo] at count
        cases count
      have ran : w.q.ran [] = [] := by rw [sound.refines.ran, ran_nil]
      have allows : w.Allows (.interrupt []) := by
        refine ⟨?_, ?_⟩
        · have length := sound.flight
          rw [busy, if_neg Bool.false_ne_true] at length
          intro none_
          rw [none_] at length
          cases length
        · rw [ran]
          trivial
      have next := sound.interrupt allows
      have owed := a.drop_owed busy
      have takes : a.drop.TakesAll (a.ran []) := by
        rw [ran_nil]
        trivial
      have ready := (complete_ready sound.refines takes).2.2
      rw [ran_nil] at ready
      have after : (a.interrupt []).1 = a.drop.start.1 := by
        rw [Agenda.interrupt, ran_nil]
        rfl
      have fewer : (a.interrupt []).1.remaining = n := by
        rw [after, a.drop.start_remaining ready.high ready.between (by rw [a.drop_chunk]; exact some_)]
        omega
      have chunk : 0 < (a.interrupt []).1.chunk.toNat := by
        rw [after, Agenda.start_chunk, a.drop_chunk]
        exact some_
      obtain ⟨all, ends, posts, sound'⟩ := ih next chunk fewer
      refine ⟨⟨allows, all⟩, ends, posts.trans ?_, sound'⟩
      change w.posts ++ (w.q.ran []).flatMap Call.posts = w.posts
      rw [ran]
      exact List.append_nil _

theorem Sound.remaining_le (sound : Sound w a) :
    a.remaining ≤ (w.posts.filter (·.queue = .hi)).length - (w.called.filter (·.queue = .hi)).length +
      (((w.posts.filter (·.queue = .lo)).drop (w.called.filter (·.queue = .lo)).length).map
        fun p => pieces_of w.q.ARQChunkSize.toNat p.length.toNat).sum + 1 := by
  have length := sound.books.called_length .hi
  obtain ⟨-, ended, pieces, current, lo_posts, -⟩ := sound.books.sent
  have length_lo := sound.books.called_length .lo
  rw [lo_posts, List.length_append] at length_lo
  have count : (w.called.filter (·.queue = .lo)).length = ended.length := by omega
  rw [length, Nat.add_sub_cancel_left, lo_posts, count, List.drop_left, sound.refines.chunk,
    Agenda.remaining, Agenda.lines_owed, Agenda.line, Agenda.line, List.length_append,
    List.map_append, List.sum_append]
  have part : a.low.elim 0 a.part_owed ≤
      ((a.low.toList.map (·.post)).map fun p =>
        pieces_of a.chunk.toNat p.length.toNat).sum := by
    cases a.low with
    | none => exact Nat.le_refl _
    | some d => simpa [Agenda.part_owed] using pieces_mono _ (Nat.sub_le _ _)
  cases high : a.high with
  | some p =>
      dsimp only [Option.toList_some, List.length_cons, List.length_nil]
      omega
  | none =>
      cases low : a.low with
      | none =>
          dsimp only
          omega
      | some d =>
          rw [low] at part
          dsimp only [Option.elim_some] at part ⊢
          split <;> omega

/-- With a chunk size, no more posts and callbacks that call nothing, so many
interrupts and every request posted has had its callback. -/
theorem drains (reach : w.Reach) (some_ : w.q.ARQChunkSize ≠ 0) :
    ∃ n ≤ (w.posts.filter (·.queue = .hi)).length - (w.called.filter (·.queue = .hi)).length +
        (((w.posts.filter (·.queue = .lo)).drop (w.called.filter (·.queue = .lo)).length).map
          fun p => pieces_of w.q.ARQChunkSize.toNat p.length.toNat).sum + 1,
      w.AllowsAll (quiet n) ∧ (w.run (quiet n)).flight = [] ∧
        ∀ k, (w.posts.filter (·.queue = k)).map Post.made =
          (w.run (quiet n)).called.filter (·.queue = k) := by
  obtain ⟨a, sound⟩ := reach.sound
  have chunk : 0 < a.chunk.toNat := by
    rw [← sound.refines.chunk]
    exact Nat.pos_of_ne_zero fun zero => some_ (BitVec.eq_of_toNat_eq zero)
  obtain ⟨all, ends, posts, b, sound'⟩ := sound.drained chunk rfl
  refine ⟨a.remaining, sound.remaining_le, all, ends, fun k => ?_⟩
  have order := sound'.books.order k
  have line := sound'.rest_iff.mp ends k
  rw [posts, line, List.map_nil, List.append_nil] at order
  exact order

theorem drains_two :
    ∃ n ≤ 3, two_posted.AllowsAll (quiet n) ∧ (two_posted.run (quiet n)).flight = [] := by
  obtain ⟨n, le, all, ends, -⟩ := drains two_posted_reach (by decide)
  exact ⟨n, le, all, ends⟩

end Drain

/-! ### A high request waits for one piece at most -/

section Waits

def Step.interrupts : Step F → Bool
  | .call _ => false
  | .interrupt _ => true

/-- The callbacks made for high requests. -/
def World.high_done (w : World F) : Nat := (w.called.filter (·.queue = .hi)).length

def World.high_posted (w : World F) : Nat := (w.posts.filter (·.queue = .hi)).length

theorem step_high_done (w : World F) (s : Step F) : w.high_done ≤ (w.step s).high_done := by
  cases s with
  | call c => exact Nat.le_refl _
  | interrupt calls =>
      have more : (w.step (.interrupt calls)).high_done =
          w.high_done + ((ARQInterruptServiceRoutine w.q calls).2.2.filter
            (·.queue = .hi)).length := by
        rw [World.high_done, World.high_done, ← List.length_append, ← List.filter_append]
        rfl
      omega

theorem run_high_done (w : World F) (steps : List (Step F)) :
    w.high_done ≤ (w.run steps).high_done := by
  induction steps generalizing w with
  | nil => exact Nat.le_refl _
  | cons s steps ih => exact Nat.le_trans (step_high_done w s) (ih (w.step s))

theorem step_high_posted (w : World F) (s : Step F) : w.high_posted ≤ (w.step s).high_posted := by
  have more : ∀ new : List (Post F), w.high_posted ≤
      ((w.posts ++ new).filter (·.queue = .hi)).length := by
    intro new
    rw [List.filter_append, List.length_append]
    exact Nat.le_add_right _ _
  cases s with
  | call c => exact more _
  | interrupt calls => exact more _

/-- After an interrupt a high request is under way, or none is left. -/
theorem Sound.interrupted {calls : List (Call F)} (sound : Sound w a)
    (allows : w.Allows (.interrupt calls)) :
    (w.step (.interrupt calls)).high_done = w.high_done + a.high.toList.length ∧
      ((a.interrupt calls).1.high.isSome ∨
        (w.step (.interrupt calls)).high_posted = (w.step (.interrupt calls)).high_done) := by
  obtain ⟨takes, ready⟩ := sound.served allows
  obtain ⟨out, -⟩ := interrupt_refines sound.refines takes
  constructor
  · change ((w.called ++ (ARQInterruptServiceRoutine w.q calls).2.2).filter
      (·.queue = .hi)).length = _
    rw [out, List.filter_append, List.length_append]
    congr 1
    rw [Agenda.interrupt, Agenda.finished]
    cases high : a.high with
    | some p => rfl
    | none =>
        cases low : a.low with
        | none => rfl
        | some d => cases last : d.last <;> simp [last, Agenda.made]
  · have next := sound.interrupt allows
    have length := next.books.called_length .hi
    rcases Agenda.start_cases ((a.ran calls).foldl Agenda.note a.drop) with
      ⟨p, rest, -, is⟩ | ⟨d, hi, -, is⟩ | ⟨p, rest, hi, -, -, is⟩ | ⟨hi, -, -, is⟩
    · left
      rw [Agenda.interrupt, is]
      rfl
    all_goals
      right
      have line : (a.interrupt calls).1.line .hi = [] := by
        rw [Agenda.interrupt, Agenda.line]
        dsimp only
        rw [is]
        first
          | rw [(Agenda.serve_part_hi _ _).1, (Agenda.serve_part_hi _ _).2, ready.high, hi]
          | rw [ready.high, hi]
        rfl
      rw [line] at length
      exact length

theorem call_high {c : Call F} (high : a.high.isSome) : (a.call c).1.high.isSome := by
  rcases a.call_cases c with ⟨quiet, -⟩ | ⟨free, -⟩
  · rw [quiet, (note_low a c).2]
    exact high
  · rw [(a.idle_iff.mp free).1] at high
    cases high

theorem Sound.high_waits (sound : Sound w a) {steps : List (Step F)} (allows : w.AllowsAll steps)
    {n : Nat} (posted : n ≤ w.high_posted) :
    min n (w.high_done + steps.countP Step.interrupts - if a.high.isSome then 0 else 1) ≤
      (w.run steps).high_done := by
  induction steps generalizing w a with
  | nil =>
      change min n (w.high_done + 0 - _) ≤ w.high_done
      omega
  | cons s steps ih =>
      obtain ⟨here, others⟩ := allows
      have more := Nat.le_trans posted (step_high_posted w s)
      cases s with
      | call c =>
          have later := ih (sound.call here) others more
          have fewer : (if (a.call c).1.high.isSome then 0 else 1) ≤
              if a.high.isSome then 0 else 1 := by
            by_cases now : a.high.isSome
            · exact Nat.le_of_eq (by rw [if_pos now, if_pos (call_high now)])
            · rw [if_neg now]
              split <;> omega
          have same : (w.step (.call c)).high_done = w.high_done := rfl
          rw [same] at later
          rw [List.countP_cons_of_neg (by simp [Step.interrupts])]
          refine Nat.le_trans ?_ later
          omega
      | interrupt calls =>
          obtain ⟨done, under⟩ := sound.interrupted here
          have later := ih (sound.interrupt here) others more
          rw [List.countP_cons_of_pos (by simp [Step.interrupts])]
          rcases under with high | all
          · rw [done, if_pos high] at later
            refine Nat.le_trans ?_ later
            cases a.high with
            | none => simp
            | some p =>
                simp
                omega
          · have after := run_high_done (w.step (.interrupt calls)) steps
            rw [all] at more
            exact Nat.le_trans (Nat.min_le_left _ _) (Nat.le_trans more after)

/-- Whatever is posted meanwhile, each interrupt but one completes a high request
until those posted by now are done. -/
theorem high_waits_for_one (reach : w.Reach) {steps : List (Step F)}
    (allows : w.AllowsAll steps) :
    min (w.posts.filter (·.queue = .hi)).length
        ((w.called.filter (·.queue = .hi)).length + steps.countP Step.interrupts - 1) ≤
      ((w.run steps).called.filter (·.queue = .hi)).length := by
  obtain ⟨a, sound⟩ := reach.sound
  have waits := sound.high_waits allows (Nat.le_refl w.high_posted)
  refine Nat.le_trans ?_ waits
  change min w.high_posted (w.high_done + _ - 1) ≤ _
  split <;> omega

theorem high_waits_for_one_two :
    1 ≤ ((two_posted.run (quiet 2)).called.filter (·.queue = .hi)).length := by
  have allows : two_posted.AllowsAll (quiet 2) :=
    ⟨⟨by decide, trivial⟩, ⟨by decide, trivial⟩, trivial⟩
  exact high_waits_for_one two_posted_reach allows

end Waits

end SoaPort.Aram
