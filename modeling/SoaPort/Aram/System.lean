import SoaPort.Aram.EngineCorrect

namespace SoaPort.Aram

/-! The queue and the engine together. -/

variable {F : Type}

def System.Allows (s : System F) : Move F → Prop
  | .call _ c => s.w.Allows (.call c)
  | .poll _ => True
  | .interrupt _ calls =>
      s.e.aram_irq_pending = true ∧ Fits s.w.posts (s.w.called ++ s.w.q.due) (s.w.q.ran calls)
  | .store _ _ => True

/-- The engine with nothing under way, its registers zero or as a transfer leaves
them. -/
structure Engine.Rests (e : Engine) : Prop where
  idle : e.g_ar_busy = false
  quiet : e.g_csr &&& CSR_ARINT = 0
  clean : e.Clean

/-- The library set up, with nothing posted. -/
inductive System.Reach : System F → Prop
  | initial {q : Arq F} {e : Engine} (new : q.ARQInitFlag = false) (rests : e.Rests) :
      Reach ⟨.initial q, e⟩
  | move {s : System F} {m : Move F} (reach : Reach s) (allows : s.Allows m) : Reach (s.move m)

section Agrees

variable {e : Engine} {now : Nat} {s : System F} {m : Move F}

theorem start_busy (idle : e.g_ar_busy = false) (now : Nat) (x : Dma) :
    (e.start now x).g_ar_busy = true ∧ (e.start now x).g_csr = e.g_csr := by
  rw [Engine.start_eq idle, Engine.dma]
  dsimp only
  refine ⟨rfl, ?_⟩
  split
  · rfl
  · split <;> rfl

/-- The queue's interrupt is cleared, and of the others only the processor
interface's; no mask changes. -/
theorem acknowledge_csr (idle : e.g_ar_busy = false) (now : Nat) :
    (e.acknowledge now).g_csr &&& CSR_ARINT = 0 ∧
      (e.acknowledge now).g_csr &&& (CSR_AIDINT ||| CSR_DSPINT ||| CSR_STORED) =
        e.g_csr &&& (CSR_AIDINT ||| CSR_DSPINT ||| CSR_STORED) := by
  have csr : (e.acknowledge now).g_csr =
      (e.g_csr &&& CSR_W1C &&&
          ~~~(((e.g_csr &&& ~~~(0x0080 ||| 0x0008)) ||| 0x0020) &&& CSR_W1C)) |||
        (((e.g_csr &&& ~~~(0x0080 ||| 0x0008)) ||| 0x0020) &&& CSR_STORED) := by
    have value : (e.aram_read now .CSR).2 = e.g_csr := by
      rw [Engine.aram_read, Engine.poll_idle idle, Engine.value, idle, if_neg Bool.false_ne_true]
      exact BitVec.or_zero
    have same : (e.aram_read now .CSR).1 = e := Engine.poll_idle idle now
    rw [Engine.acknowledge]
    rw [value, same, Engine.aram_write]
    refine if_neg ?_
    rintro ⟨was, now_⟩
    apply was
    rw [← now_]
    apply BitVec.eq_of_getLsbD_eq
    intro i lt
    interval_cases i <;> simp [CSR_DSPINIT]
  rw [csr]
  constructor
  · apply BitVec.eq_of_getLsbD_eq
    intro i lt
    interval_cases i <;>
      simp [CSR_W1C, CSR_PIINT, CSR_AIDINT, CSR_ARINT, CSR_DSPINT, CSR_STORED, CSR_HALT,
        CSR_AIDINTMSK, CSR_ARINTMSK, CSR_DSPINTMSK, CSR_DSPINITCODE, CSR_DSPINIT]
  · apply BitVec.eq_of_getLsbD_eq
    intro i lt
    interval_cases i <;>
      simp [CSR_W1C, CSR_PIINT, CSR_AIDINT, CSR_ARINT, CSR_DSPINT, CSR_STORED, CSR_HALT,
        CSR_AIDINTMSK, CSR_ARINTMSK, CSR_DSPINTMSK, CSR_DSPINITCODE, CSR_DSPINIT]

/-- The engine has work or an interrupt not served just when the queue waits for one. -/
structure Agrees (s : System F) : Prop where
  reach : s.w.Reach
  flight : s.w.flight ≠ [] ↔ s.e.g_ar_busy = true ∨ s.e.g_csr &&& CSR_ARINT ≠ 0
  once : s.e.g_ar_busy = true → s.e.g_csr &&& CSR_ARINT = 0

theorem Agrees.idle (agrees : Agrees s) (none_ : s.w.flight = []) :
    s.e.g_ar_busy = false ∧ s.e.g_csr &&& CSR_ARINT = 0 := by
  have neither := fun either => agrees.flight.mpr either none_
  constructor
  · exact Bool.eq_false_iff.mpr fun busy => neither (.inl busy)
  · by_contra raised
    exact neither (.inr raised)

/-- What the queue starts is started on an engine at rest. -/
theorem agrees_start {w : World F} {old out : List Dma} (reach : w.Reach)
    (flight : w.flight = old ++ out) (idle : out ≠ [] → e.g_ar_busy = false)
    (agrees : old ≠ [] ↔ e.g_ar_busy = true ∨ e.g_csr &&& CSR_ARINT ≠ 0)
    (once : e.g_ar_busy = true → e.g_csr &&& CSR_ARINT = 0) (now : Nat) :
    Agrees ⟨w, out.foldl (fun e x => e.start now x) e⟩ := by
  cases out with
  | nil =>
      rw [List.append_nil] at flight
      refine ⟨reach, ?_, once⟩
      rw [flight]
      exact agrees
  | cons x rest =>
      have length := reach.flight_le
      rw [flight, List.length_append, List.length_cons] at length
      have alone : old = [] ∧ rest = [] := by
        constructor
        · exact List.length_eq_zero_iff.mp (by omega)
        · exact List.length_eq_zero_iff.mp (by omega)
      obtain ⟨rfl, rfl⟩ := alone
      obtain ⟨busy, csr⟩ := start_busy (idle (List.cons_ne_nil x [])) now x
      have quiet : e.g_csr &&& CSR_ARINT = 0 := by
        by_contra raised
        exact agrees.mpr (.inr raised) rfl
      refine ⟨reach, ?_, ?_⟩
      · rw [flight]
        exact iff_of_true (List.cons_ne_nil x []) (.inl busy)
      · intro _
        change (e.start now x).g_csr &&& CSR_ARINT = 0
        rw [csr]
        exact quiet

/-- The transfers that a step leaves with the engine. -/
def World.kept (w : World F) : Step F → List Dma
  | .call _ => w.flight
  | .interrupt _ => w.flight.tail

theorem step_flight (w : World F) (t : Step F) : (w.step t).flight = w.kept t ++ w.out t := by
  cases t <;> rfl

/-- A call starts nothing while a transfer runs. -/
theorem starts_alone {w : World F} {c : Call F} (reach : w.Reach) (allows : w.Allows (.call c))
    (starts : w.out (.call c) ≠ []) : w.flight = [] := by
  have length := (World.Reach.step reach allows).flight_le
  have some_ := List.length_pos_iff.mpr starts
  rw [step_flight, World.kept, List.length_append] at length
  exact List.length_eq_zero_iff.mp (by omega)

theorem Agrees.interrupts (agrees : Agrees s) {calls : List (Call F)}
    (allows : s.Allows (.interrupt now calls)) :
    s.w.Allows (.interrupt calls) ∧ s.e.g_ar_busy = false := by
  obtain ⟨pending, fits⟩ := allows
  have raised : s.e.g_csr &&& CSR_ARINT ≠ 0 := by
    rw [Engine.aram_irq_pending, Bool.and_eq_true] at pending
    exact of_decide_eq_true pending.1
  exact ⟨⟨agrees.flight.mpr (.inr raised), fits⟩,
    Bool.eq_false_iff.mpr fun busy => raised (agrees.once busy)⟩

theorem Agrees.move (agrees : Agrees s) (allows : s.Allows m) : Agrees (s.move m) := by
  cases m with
  | store at_ b => exact ⟨agrees.reach, agrees.flight, agrees.once⟩
  | poll now =>
      rw [System.move, Engine.aram_poll]
      split
      next due =>
        have raised : (s.e.g_csr ||| CSR_ARINT) &&& CSR_ARINT ≠ 0 := by
          intro zero
          have bit := congrArg (fun x : Half => x.getLsbD 5) zero
          simp [CSR_ARINT] at bit
        refine ⟨agrees.reach, ?_, by rintro ⟨⟩⟩
        exact iff_of_true (agrees.flight.mpr (.inl due.1)) (.inr raised)
      next early => exact ⟨agrees.reach, agrees.flight, agrees.once⟩
  | call now c =>
      have flight := step_flight s.w (.call c)
      have next : (s.w.step (.call c)).Reach := .step agrees.reach allows
      refine agrees_start next flight ?_ agrees.flight agrees.once now
      exact fun starts => (agrees.idle (starts_alone agrees.reach allows starts)).1
  | interrupt now calls =>
      obtain ⟨allowed, idle⟩ := agrees.interrupts allows
      have flight := step_flight s.w (.interrupt calls)
      have one := agrees.reach.flight_le
      have none_ : s.w.flight.tail = [] := by
        refine List.length_eq_zero_iff.mp ?_
        rw [List.length_tail]
        omega
      have idle' : (s.e.acknowledge now).g_ar_busy = false := by
        rw [Engine.acknowledge, Engine.aram_read, Engine.poll_idle idle]
        exact idle
      have quiet := (acknowledge_csr idle now).1
      refine agrees_start (.step agrees.reach allowed) flight (fun _ => idle') ?_ (fun _ => quiet)
        now
      refine iff_of_false (fun some_ => some_ none_) ?_
      rintro (busy | raised)
      · rw [idle'] at busy
        cases busy
      · exact raised quiet

theorem System.Reach.agrees (reach : s.Reach) : Agrees s := by
  induction reach with
  | initial new rests =>
      refine ⟨.initial new, ?_, fun _ => rests.quiet⟩
      refine iff_of_false (fun some_ => some_ rfl) ?_
      rintro (busy | raised)
      · rw [rests.idle] at busy
        cases busy
      · exact raised rests.quiet
  | move _ allows ih => exact ih.move allows

/-- The engine raises one interrupt for each transfer: it is busy or has one not
served just when the queue waits, never both, and is started at rest. -/
theorem one_interrupt_each (reach : s.Reach) :
    s.w.Reach ∧
      (s.w.flight ≠ [] ↔ s.e.g_ar_busy = true ∨ s.e.g_csr &&& CSR_ARINT ≠ 0) ∧
      ¬ (s.e.g_ar_busy = true ∧ s.e.g_csr &&& CSR_ARINT ≠ 0) ∧
      ∀ now c, s.Allows (.call now c) → s.w.out (.call c) ≠ [] →
        s.e.g_ar_busy = false ∧ s.e.g_csr &&& CSR_ARINT = 0 := by
  have agrees := reach.agrees
  refine ⟨agrees.reach, agrees.flight, fun both => both.2 (agrees.once both.1), ?_⟩
  intro now c allows starts
  exact agrees.idle (starts_alone agrees.reach allows starts)

end Agrees

/-- The engine before its first transfer, its interrupt let through. -/
def at_rest : Engine := ⟨fun _ => 0, fun _ => 0, 0, 0, 0, CSR_ARINTMSK, false, 0⟩

theorem at_rest_rests : at_rest.Rests := ⟨rfl, by decide, ⟨rfl, rfl, rfl⟩⟩

def two_started : System Unit :=
  ((⟨.initial unset, at_rest⟩ : System Unit).move (.call 0 (.post low_post))).move
    (.call 0 (.post high_post))

theorem two_started_reach : two_started.Reach :=
  .move (.move (.initial rfl at_rest_rests) low_allowed) high_allowed

theorem one_interrupt_each_two :
    ¬ (two_started.e.g_ar_busy = true ∧ two_started.e.g_csr &&& CSR_ARINT ≠ 0) :=
  (one_interrupt_each two_started_reach).2.2.1

end SoaPort.Aram
