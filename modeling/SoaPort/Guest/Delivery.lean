import SoaPort.Guest.Threads

namespace SoaPort.Guest

/-! What holds of the interrupt deliveries in every run. -/

/-- The deliveries whose frames a stack holds, the newest first. -/
def deliveries_of (frames : List Frame) : List Nat := frames.filterMap Frame.delivery

/-- Deliveries on the current fiber that no thread switch has abandoned. -/
def Machine.fresh (m : Machine) : List Nat := (deliveries_of m.frames).filter (m.abandoned ≤ ·)

/-- Deliveries begin in order on every fiber. -/
structure Ordered (m : Machine) : Prop where
  sorted : ∀ f, (deliveries_of (m.stack f)).Pairwise (· > ·)
  begun : ∀ f, ∀ d ∈ deliveries_of (m.stack f), d < m.deliveries
  known : m.abandoned ≤ m.deliveries

/-- The depth counts the deliveries not abandoned, all on the current fiber,
and the jump goes to the newest. -/
structure Counted (m : Machine) : Prop extends Ordered m where
  depth : m.g_in_handler = m.fresh.length
  parked : ∀ f, f ≠ m.fiber → ∀ d ∈ deliveries_of (m.stack f), d < m.abandoned
  jump : m.g_irq_ctx ≠ 0 →
    ∃ d rest, deliveries_of m.frames = d :: rest ∧ m.g_irq_jmp = some d ∧ m.abandoned ≤ d

variable {m : Machine}

theorem with_frames_stack (m : Machine) (frames : List Frame) (f : Nat) :
    (m.with_frames frames).stack f = if f = m.fiber then frames else m.stack f := by
  rw [Machine.with_frames]
  exact Function.update_apply _ _ _ _

theorem with_frames_frames (m : Machine) (frames : List Frame) :
    (m.with_frames frames).frames = frames := by
  rw [Machine.frames, with_frames_stack]
  exact if_pos rfl

section Frames

/-- The current fiber's stack shortened, or only other frames pushed on it. -/
theorem Ordered.with_frames (ordered : Ordered m) {frames : List Frame}
    (sub : (deliveries_of frames).Sublist (deliveries_of m.frames)) :
    Ordered (m.with_frames frames) := by
  constructor
  · intro f
    rw [with_frames_stack]
    split
    · exact (ordered.sorted m.fiber).sublist sub
    · exact ordered.sorted f
  · intro f d member
    rw [with_frames_stack] at member
    split at member
    · exact ordered.begun m.fiber d (sub.subset member)
    · exact ordered.begun f d member
  · exact ordered.known

/-- Frames that are no delivery's pushed or popped. -/
theorem Counted.with_frames (counted : Counted m) {frames : List Frame}
    (same : deliveries_of frames = deliveries_of m.frames) : Counted (m.with_frames frames) := by
  refine ⟨counted.toOrdered.with_frames (same ▸ List.Sublist.refl _), ?_, ?_, ?_⟩
  · rw [Machine.fresh, with_frames_frames, same]
    exact counted.depth
  · intro f (other : f ≠ m.fiber) d member
    rw [with_frames_stack, if_neg other] at member
    exact counted.parked f other d member
  · intro some
    rw [with_frames_frames, same]
    exact counted.jump some

/-- A switch abandons every delivery. -/
theorem Ordered.abandon (ordered : Ordered m) : Counted (irq_abandon_delivery m) := by
  refine ⟨⟨ordered.sorted, ordered.begun, Nat.le_refl _⟩, ?_, ?_, fun some => absurd rfl some⟩
  · have none : (irq_abandon_delivery m).fresh = [] := by
      refine List.filter_eq_nil_iff.mpr fun d member => ?_
      have before := ordered.begun m.fiber d member
      rw [decide_eq_true_eq, Nat.not_le]
      exact before
    rw [none]
    rfl
  · exact fun f _ d member => ordered.begun f d member

theorem dropWhile_delivery {frames : List Frame} {d : Nat} {rest : List Nat}
    (newest : deliveries_of frames = d :: rest) :
    ∃ saved after, frames.dropWhile (fun f => decide (f.delivery ≠ some d)) =
      .handler d saved :: after ∧ deliveries_of after = rest := by
  induction frames with
  | nil => cases newest
  | cons frame frames ih =>
      cases frame with
      | savepoint k =>
          obtain ⟨saved, after, found, same⟩ := ih newest
          exact ⟨saved, after, found, same⟩
      | pass =>
          obtain ⟨saved, after, found, same⟩ := ih newest
          exact ⟨saved, after, found, same⟩
      | handler e saved =>
          obtain ⟨rfl, rfl⟩ := List.cons.inj newest
          refine ⟨saved, frames, ?_, rfl⟩
          rw [List.dropWhile_cons_of_neg]
          simp [Frame.delivery]

theorem dropWhile_sublist (p : Frame → Bool) (frames : List Frame) :
    (deliveries_of (frames.dropWhile p)).Sublist (deliveries_of frames) :=
  (List.dropWhile_sublist p).filterMap _

/-- The end of the newest delivery, not abandoned. -/
theorem Counted.end_delivery (counted : Counted m) {d : Nat} {rest : List Frame}
    (newest : deliveries_of m.frames = d :: deliveries_of rest) (live : m.abandoned ≤ d)
    (saved : Regs) : Counted (end_delivery m saved rest) := by
  have sub : (deliveries_of rest).Sublist (deliveries_of m.frames) := by
    rw [newest]
    exact List.sublist_cons_self _ _
  obtain ⟨sorted, begun, known⟩ := counted.toOrdered.with_frames sub
  refine ⟨⟨sorted, begun, known⟩, ?_, ?_, fun some => absurd rfl some⟩
  · have depth := counted.depth
    have fresh : m.fresh = d :: (Guest.end_delivery m saved rest).fresh := by
      have frames : (Guest.end_delivery m saved rest).frames = rest := with_frames_frames m rest
      rw [Machine.fresh, newest, Machine.fresh, frames]
      exact List.filter_cons_of_pos (decide_eq_true live)
    rw [fresh, List.length_cons] at depth
    change m.g_in_handler - 1 = _
    omega
  · intro f (other : f ≠ m.fiber) d member
    have stack : (m.with_frames rest).stack f = m.stack f := by
      rw [with_frames_stack, if_neg other]
    exact counted.parked f other d (stack ▸ member)

/-- The end of an abandoned delivery takes the depth below zero. -/
theorem Counted.stale (counted : Counted m) {d : Nat} {saved : Regs} {rest : List Frame}
    (newest : m.frames = .handler d saved :: rest) (stale : d < m.abandoned) :
    m.g_in_handler = 0 := by
  have sorted := counted.sorted m.fiber
  have ids : deliveries_of (m.stack m.fiber) = d :: deliveries_of rest := by
    change deliveries_of m.frames = _
    rw [newest]
    rfl
  rw [ids] at sorted
  have none : m.fresh = [] := by
    refine List.filter_eq_nil_iff.mpr fun e member => ?_
    have below : e ≤ d := by
      change e ∈ deliveries_of (m.stack m.fiber) at member
      rw [ids] at member
      rcases List.mem_cons.mp member with rfl | later
      · exact Nat.le_refl _
      · exact Nat.le_of_lt ((List.pairwise_cons.mp sorted).1 e later)
    rw [decide_eq_true_eq, Nat.not_le]
    exact Nat.lt_of_le_of_lt below stale
  rw [counted.depth, none]
  rfl

end Frames

/-! What each step does to the deliveries. -/

section Steps

variable {m' : Machine}

/-- What of a machine the deliveries are in. -/
structure Deliveries where
  stack : Nat → List Frame
  fiber : Nat
  begun : Nat
  abandoned : Nat
  depth : Int
  ctx : Word
  jmp : Option Nat

def Machine.view (m : Machine) : Deliveries where
  stack := m.stack
  fiber := m.fiber
  begun := m.deliveries
  abandoned := m.abandoned
  depth := m.g_in_handler
  ctx := m.g_irq_ctx
  jmp := m.g_irq_jmp

theorem Counted.of_view (same : m'.view = m.view) (counted : Counted m) : Counted m' := by
  have stack : m'.stack = m.stack := congrArg Deliveries.stack same
  have fiber : m'.fiber = m.fiber := congrArg Deliveries.fiber same
  have begun : m'.deliveries = m.deliveries := congrArg Deliveries.begun same
  have abandoned : m'.abandoned = m.abandoned := congrArg Deliveries.abandoned same
  have depth : m'.g_in_handler = m.g_in_handler := congrArg Deliveries.depth same
  have ctx : m'.g_irq_ctx = m.g_irq_ctx := congrArg Deliveries.ctx same
  have jmp : m'.g_irq_jmp = m.g_irq_jmp := congrArg Deliveries.jmp same
  have frames : m'.frames = m.frames := by rw [Machine.frames, Machine.frames, stack, fiber]
  obtain ⟨⟨sorted, known_ids, known⟩, count, parked, jump⟩ := counted
  refine ⟨⟨?_, ?_, ?_⟩, ?_, ?_, ?_⟩
  · rwa [stack]
  · rwa [stack, begun]
  · rwa [abandoned, begun]
  · rwa [depth, Machine.fresh, frames, abandoned]
  · rwa [stack, fiber, abandoned]
  · rwa [ctx, frames, jmp, abandoned]

theorem alloc_view {ctx : Word} {i : Fin MAX_THREADS} (found : alloc m ctx = some (i, m')) :
    m'.view = m.view := by
  rw [alloc] at found
  split at found
  · cases found
    rfl
  · cases found

theorem find_or_alloc_view {ctx : Word} {i : Fin MAX_THREADS}
    (found : find_or_alloc m ctx = some (i, m')) : m'.view = m.view := by
  rw [find_or_alloc] at found
  split at found
  · cases found
    rfl
  · exact alloc_view found

theorem saving_thread_view {ctx : Word} {i : Fin MAX_THREADS}
    (found : saving_thread m ctx = some (i, m')) : m'.view = m.view := by
  rw [saving_thread] at found
  split at found
  · cases found
    rfl
  · obtain ⟨⟨j, other⟩, made, same⟩ := Option.map_eq_some_iff.mp found
    cases same
    have view := alloc_view made
    exact view

theorem fn_80233544_view (saved : fn_80233544 m = some m') : m'.view = m.view := by
  rw [fn_80233544] at saved
  dsimp only at saved
  split at saved
  · cases saved
  · rename_i found
    cases saved
    have view := saving_thread_view found
    exact view

theorem Counted.save (counted : Counted m) (saved : save_call m = some m') : Counted m' := by
  obtain ⟨middle, point, rest⟩ := Option.bind_eq_some_iff.mp saved
  refine Counted.of_view (fn_80233544_view rest) ?_
  rw [guest_savepoint] at point
  split at point
  · cases point
  · rename_i i n found
    cases point
    have same := counted.of_view (find_or_alloc_view found)
    have pushed : Counted (n.with_frames (.savepoint n.saves :: n.frames)) := same.with_frames rfl
    exact Counted.of_view (m := n.with_frames (.savepoint n.saves :: n.frames)) rfl pushed

theorem Ordered.guest_resumed (ordered : Ordered m) {i : Fin MAX_THREADS}
    (resumed : guest_resumed m i = some m') : Counted m' := by
  rw [Guest.guest_resumed] at resumed
  split at resumed
  · split at resumed
    · cases resumed
    · cases resumed
      obtain ⟨sorted, begun, known⟩ := ordered.with_frames (dropWhile_sublist _ m.frames)
      exact Ordered.abandon ⟨sorted, begun, known⟩
  · cases resumed

theorem Ordered.load_new (ordered : Ordered m) {ctx : Word}
    (loaded : load_new m ctx = some m') : Counted m' := by
  rw [Guest.load_new] at loaded
  split at loaded
  · cases loaded
  · split at loaded
    · cases loaded
    · rename_i i n found
      cases loaded
      have view := find_or_alloc_view found
      have stack : n.stack = m.stack := congrArg Deliveries.stack view
      have begun : n.deliveries = m.deliveries := congrArg Deliveries.begun view
      have abandoned : n.abandoned = m.abandoned := congrArg Deliveries.abandoned view
      refine Ordered.abandon ⟨?_, ?_, ?_⟩
      · exact stack ▸ ordered.sorted
      · exact stack ▸ begun ▸ ordered.begun
      · exact begun ▸ abandoned ▸ ordered.known

theorem Counted.irq_return (counted : Counted m) (some_ : m.g_irq_ctx ≠ 0)
    (returned : irq_return_from_handler m = some m') : Counted m' := by
  obtain ⟨d, rest, newest, jump, live⟩ := counted.jump some_
  obtain ⟨saved, after, found, same⟩ := dropWhile_delivery newest
  simp only [irq_return_from_handler, jump, found] at returned
  cases returned
  exact counted.end_delivery (same ▸ newest) live saved

theorem Counted.load (counted : Counted m) (loaded : fn_802335C4 m = some m') : Counted m' := by
  have ordered := counted.toOrdered
  rw [fn_802335C4] at loaded
  split at loaded
  · rename_i interrupted
    exact counted.irq_return (interrupted.2 ▸ interrupted.1) loaded
  · split at loaded
    · exact ordered.load_new loaded
    · split at loaded
      · split at loaded
        · exact ordered.guest_resumed loaded
        · split at loaded
          · cases loaded
          · rw [resume_self] at loaded
            split at loaded
            · cases loaded
            · refine Ordered.guest_resumed ?_ loaded
              exact ⟨ordered.sorted, ordered.begun, ordered.known⟩
      · exact ordered.load_new loaded

theorem Counted.deliver (counted : Counted m) {number ctx : Word}
    (called : call_guest_handler m number ctx = some m') : Counted m' := by
  rw [call_guest_handler] at called
  split at called
  · cases called
    have frames : ∀ f, (Function.update m.stack m.fiber
        (.handler m.deliveries m.s :: m.frames)) f =
          if f = m.fiber then .handler m.deliveries m.s :: m.frames else m.stack f :=
      fun f => Function.update_apply _ _ _ _
    have here := (frames m.fiber).trans (if_pos rfl)
    refine ⟨⟨fun f => ?_, fun f d member => ?_, ?_⟩, ?_, ?_, fun _ => ?_⟩
    · dsimp only
      rw [frames]
      split
      · exact List.pairwise_cons.mpr ⟨counted.begun m.fiber, counted.sorted m.fiber⟩
      · exact counted.sorted f
    · dsimp only at member ⊢
      rw [frames] at member
      split at member
      · rcases List.mem_cons.mp member with rfl | before
        · exact Nat.lt_succ_self _
        · exact Nat.lt_succ_of_lt (counted.begun m.fiber d before)
      · exact Nat.lt_succ_of_lt (counted.begun f d member)
    · exact Nat.le_succ_of_le counted.known
    · change m.g_in_handler + 1 = ((deliveries_of (Function.update m.stack m.fiber
        (.handler m.deliveries m.s :: m.frames) m.fiber)).filter fun d => m.abandoned ≤ d).length
      have first : deliveries_of (.handler m.deliveries m.s :: m.frames) =
          m.deliveries :: deliveries_of m.frames := rfl
      have counts : decide (m.abandoned ≤ m.deliveries) = true := decide_eq_true counted.known
      have one : ((m.deliveries :: deliveries_of m.frames).filter fun d => m.abandoned ≤ d) =
          m.deliveries :: m.fresh := List.filter_cons_of_pos counts
      rw [here, first, one, List.length_cons, counted.depth]
      rfl
    · intro f (other : f ≠ m.fiber) d member
      dsimp only at member
      rw [frames, if_neg other] at member
      exact counted.parked f other d member
    · refine ⟨m.deliveries, deliveries_of m.frames, ?_, rfl, counted.known⟩
      change deliveries_of (Function.update m.stack m.fiber
        (.handler m.deliveries m.s :: m.frames) m.fiber) = _
      rw [here]
      rfl
  · cases called

/-- A handler returns whose delivery a thread switch has abandoned. -/
def Stale (m : Machine) : Step → Prop
  | .handler_returns =>
      ∃ d saved rest, m.frames = .handler d saved :: rest ∧ d < m.abandoned
  | _ => False

theorem Counted.handler_returns (counted : Counted m) (fresh : ¬ Stale m .handler_returns)
    (returned : handler_returns m = some m') : Counted m' := by
  rw [Guest.handler_returns] at returned
  split at returned
  · rename_i d saved rest newest
    cases returned
    have live : m.abandoned ≤ d := Nat.not_lt.mp fun stale =>
      fresh ⟨d, saved, rest, newest, stale⟩
    exact counted.end_delivery (by rw [newest]; rfl) live saved
  · cases returned

theorem Counted.stale_return (counted : Counted m) (stale : Stale m .handler_returns) :
    ∃ m', m.step .handler_returns = some m' ∧ m'.g_in_handler < 0 := by
  obtain ⟨d, saved, rest, newest, before⟩ := stale
  refine ⟨Guest.end_delivery m saved rest, ?_, ?_⟩
  · rw [Machine.step, Guest.handler_returns, newest]
  · change m.g_in_handler - 1 < 0
    rw [counted.stale newest before]
    decide

/-- One step, no abandoned handler returning. -/
theorem Counted.step (counted : Counted m) {e : Step} (fresh : ¬ Stale m e)
    (stepped : m.step e = some m') : Counted m' := by
  cases e with
  | guest f =>
      cases stepped
      exact Counted.of_view (m := m) rfl counted
  | create ctx c =>
      cases stepped
      exact Counted.of_view (m := m) rfl counted
  | save => exact counted.save stepped
  | select_returns =>
      rw [Machine.step, Guest.select_returns] at stepped
      split at stepped
      · rename_i frames
        cases stepped
        exact counted.with_frames (by rw [frames]; rfl)
      · cases stepped
  | load => exact counted.load stepped
  | deliver_pending =>
      cases stepped
      rw [Guest.deliver_pending]
      split
      · exact counted
      · exact counted.with_frames rfl
  | call_guest_handler number ctx => exact counted.deliver stepped
  | handler_returns => exact counted.handler_returns fresh stepped
  | pass_ends =>
      rw [Machine.step, Guest.pass_ends] at stepped
      split at stepped
      · rename_i frames
        cases stepped
        exact counted.with_frames (by rw [frames]; rfl)
      · cases stepped

end Steps

/-! Whole runs. -/

section Runs

/-- The depth is never negative, and zero while the current thread runs no
handler; and the jump goes to the delivery it runs. -/
structure Delivers (m : Machine) : Prop where
  depth : 0 ≤ m.g_in_handler
  idle : (∀ f ∈ m.frames, f.delivery = none) → m.g_in_handler = 0
  jump : m.g_irq_ctx ≠ 0 → m.g_irq_jmp ≠ none ∧ m.g_irq_jmp = (deliveries_of m.frames).head?

/-- In every state of a run. -/
def AllDeliver : Machine → List Step → Prop
  | m, [] => Delivers m
  | m, e :: es => Delivers m ∧ ∀ m', m.step e = some m' → AllDeliver m' es

/-- No step of a run returns from a handler whose delivery was abandoned. -/
def NoneStale : Machine → List Step → Prop
  | _, [] => True
  | m, e :: es => ¬ Stale m e ∧ ∀ m', m.step e = some m' → NoneStale m' es

theorem Counted.delivers (counted : Counted m) : Delivers m := by
  refine ⟨?_, fun none => ?_, fun some => ?_⟩
  · rw [counted.depth]
    exact Int.natCast_nonneg _
  · have nothing : deliveries_of m.frames = [] := List.filterMap_eq_nil_iff.mpr none
    rw [counted.depth, Machine.fresh, nothing]
    rfl
  · obtain ⟨d, rest, newest, jump, _⟩ := counted.jump some
    rw [jump, newest]
    exact ⟨Option.some_ne_none d, rfl⟩

theorem AllDeliver.now {es : List Step} (all : AllDeliver m es) : Delivers m := by
  cases es with
  | nil => exact all
  | cons e es => exact all.1

theorem Counted.run_iff (counted : Counted m) (es : List Step) :
    AllDeliver m es ↔ NoneStale m es := by
  induction es generalizing m with
  | nil => exact iff_of_true counted.delivers trivial
  | cons e es ih =>
      constructor
      · rintro ⟨_, later⟩
        have fresh : ¬ Stale m e := by
          intro stale
          cases e with
          | handler_returns =>
              obtain ⟨m', stepped, below⟩ := counted.stale_return stale
              exact absurd (later m' stepped).now.depth (Int.not_le.mpr below)
          | _ => exact stale
        exact ⟨fresh, fun m' stepped => (ih (counted.step fresh stepped)).mp (later m' stepped)⟩
      · rintro ⟨fresh, later⟩
        exact ⟨counted.delivers,
          fun m' stepped => (ih (counted.step fresh stepped)).mpr (later m' stepped)⟩

theorem init_counted (s : Regs) (contexts : Word → OSContext) : Counted (.init s contexts) := by
  refine ⟨⟨fun _ => .nil, fun _ _ none => (nomatch none), Nat.le_refl _⟩, rfl,
    fun _ _ _ none => (nomatch none), fun some => absurd rfl some⟩

/-- The deliveries are as they should be in every state of a run exactly when
no handler returns whose delivery a thread switch has abandoned. -/
theorem deliveries_iff (s : Regs) (contexts : Word → OSContext) (es : List Step) :
    AllDeliver (.init s contexts) es ↔ NoneStale (.init s contexts) es :=
  (init_counted s contexts).run_iff es

/-- The state a run ends in. -/
theorem AllDeliver.last {m' : Machine} {es : List Step} (all : AllDeliver m es)
    (ran : m.run es = some m') : Delivers m' := by
  induction es generalizing m with
  | nil =>
      cases ran
      exact all
  | cons e es ih =>
      obtain ⟨next, stepped, rest⟩ := Option.bind_eq_some_iff.mp ran
      exact ih (all.2 next stepped) rest

/-- A handler wakes a thread, which switches back; the handler then returns. -/
def woken : List Step :=
  [.create 0x80002000 { no_context with srr0 := 0x80003000 }, .deliver_pending,
    .call_guest_handler 24 0x80004000, with_r3 0x80001000, .save, with_r3 0x80002000, .load,
    with_r3 0x80001000, .load, .select_returns, .handler_returns]

theorem depth_below_zero : ¬ AllDeliver (.init zeros fun _ => no_context) woken := by
  intro all
  obtain ⟨m', ran, depth⟩ : ∃ m', (Machine.init zeros fun _ => no_context).run woken = some m' ∧
      m'.g_in_handler = -1 := ⟨_, rfl, rfl⟩
  have below := (all.last ran).depth
  rw [depth] at below
  exact absurd below (by decide)

end Runs

end SoaPort.Guest
