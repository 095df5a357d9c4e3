import SoaPort.Lib.TripleBuffer
import SoaPort.Picture.Ring
import Mathlib.Data.List.Nodup
import Mathlib.Data.List.Perm.Subperm
import Mathlib.Data.List.Range
import Mathlib.Tactic.IntervalCases

namespace SoaPort.Picture

open SoaPort.Lib

/-! ### A slot filled -/

/-- A slot has this part of the frame. -/
def Fill.Has (f : Fill) (S : RingSlot) : Write → Prop
  | .real y => ∀ i < f.w * 4, S.real y i = f.g_screen y i
  | .has_mid => S.has_mid = f.has_mid
  | .cut => S.cut = f.cut
  | .mid y => ∀ i < f.w * 4, S.mid y i = f.g_screen_mid y i
  | .w => S.w = f.w
  | .h => S.h = f.h

/-- The whole frame is in a slot. -/
structure Fill.Shows (f : Fill) (S : RingSlot) : Prop where
  w : S.w = f.w
  h : S.h = f.h
  has_mid : S.has_mid = f.has_mid
  cut : S.cut = f.cut
  real : ∀ y < f.h, ∀ i < f.w * 4, S.real y i = f.g_screen y i
  mid : f.has_mid = true → ∀ y < f.h, ∀ i < f.w * 4, S.mid y i = f.g_screen_mid y i

variable {f : Fill} {S : RingSlot}

theorem copy_row_row (rows screen : Nat → Nat → UInt8) (y n : Nat) {i : Nat} (inside : i < n) :
    copy_row rows screen y n y i = screen y i := by
  simp [copy_row, inside]

theorem copy_row_keeps {rows screen : Nat → Nat → UInt8} {x i : Nat} (y n : Nat)
    (same : rows x i = screen x i) : copy_row rows screen y n x i = screen x i := by
  by_cases here : x = y
  · subst here
    simp only [copy_row, Function.update_self]
    split
    · rfl
    · exact same
  · rw [copy_row, Function.update_of_ne here]
    exact same

theorem write_has (f : Fill) (S : RingSlot) (part : Write) : f.Has (f.write S part) part := by
  cases part with
  | real y => exact fun i inside => copy_row_row _ _ y _ inside
  | mid y => exact fun i inside => copy_row_row _ _ y _ inside
  | has_mid => rfl
  | cut => rfl
  | w => rfl
  | h => rfl

theorem write_keeps {other : Write} (has : f.Has S other) (part : Write) :
    f.Has (f.write S part) other := by
  cases part with
  | real y =>
      cases other with
      | real x => exact fun i inside => copy_row_keeps y _ (has i inside)
      | _ => exact has
  | mid y =>
      cases other with
      | mid x => exact fun i inside => copy_row_keeps y _ (has i inside)
      | _ => exact has
  | has_mid =>
      cases other with
      | has_mid => rfl
      | _ => exact has
  | cut =>
      cases other with
      | cut => rfl
      | _ => exact has
  | w =>
      cases other with
      | w => rfl
      | _ => exact has
  | h =>
      cases other with
      | h => rfl
      | _ => exact has

theorem shows_of_writes (has : ∀ part ∈ f.writes, f.Has S part) : f.Shows S where
  w := has .w (by simp [Fill.writes])
  h := has .h (by simp [Fill.writes])
  has_mid := has .has_mid (by simp [Fill.writes])
  cut := has .cut (by simp [Fill.writes])
  real y inside := has (.real y) (by simp [Fill.writes, inside])
  mid given y inside := has (.mid y) (by simp [Fill.writes, inside, given])

/-! ### The words the two sides exchange -/

/-- The state word: the middle slot, and whether it is fresh. -/
def state_word (t : TripleBuffer Fill) : Nat := t.mid + if t.fresh then 4 else 0

variable {t : TripleBuffer Fill}

theorem state_word_slot (valid : t.Valid) : state_word t &&& 3 = t.mid :=
  t.word_slot valid

theorem state_word_bit (valid : t.Valid) :
    state_word t &&& RING_FRESH ≠ 0 ↔ t.fresh = true :=
  t.word_bit valid

theorem back_word (valid : t.Valid) (f : Fill) :
    t.back ||| RING_FRESH = state_word (t.publish f) :=
  t.publish_word valid f

theorem front_word (t : TripleBuffer Fill) : t.front = state_word t.take :=
  t.take_word

/-! ### The workers of a frame -/

/-- The increments so far: whole frames, and the workers through with this one. -/
structure Crew (need n : Nat) (r : Ring) : Prop where
  done : r.g_ring_done = n
  frames : ∃ k, n = k * need + r.through.length
  once : r.through.Nodup
  inside : ∀ worker ∈ r.through, worker < need

variable {g_workers : Int} {need n : Nat} {r r' : Ring}

theorem crew_le {workers : List Nat} (once : workers.Nodup)
    (inside : ∀ worker ∈ workers, worker < need) : workers.length ≤ need := by
  have part : workers.Subperm (List.range need) :=
    List.subperm_of_subset once fun worker member => List.mem_range.mpr (inside worker member)
  simpa using part.length_le

theorem plat_inc32_eq (few : n + 1 < 2 ^ 31) : plat_inc32 n = (n + 1 : Nat) := by
  simp only [plat_inc32]
  push_cast
  refine Int.bmod_eq_of_le ?_ ?_ <;> omega

theorem Crew.room (crew : Crew need n r) {worker : Nat} (low : worker < need)
    (new : worker ∉ r.through) : r.through.length + 1 ≤ need := by
  refine crew_le (List.nodup_cons.mpr ⟨new, crew.once⟩) ?_
  intro other member
  rcases List.mem_cons.mp member with rfl | before
  · exact low
  · exact crew.inside other before

/-- A multiple of the workers is reached by the last of a frame. -/
theorem Crew.last_iff (crew : Crew need n r) {worker : Nat} (low : worker < need)
    (new : worker ∉ r.through) :
    ((n + 1 : Nat) : Int).tmod need = 0 ↔ r.through.length + 1 = need := by
  obtain ⟨k, total⟩ := crew.frames
  have room := crew.room low new
  rw [← Int.ofNat_tmod, Int.natCast_eq_zero, total, Nat.add_assoc, Nat.mul_comm,
    Nat.mul_add_mod]
  constructor
  · intro whole
    by_contra less
    rw [Nat.mod_eq_of_lt (by omega)] at whole
    omega
  · intro all
    rw [all, Nat.mod_self]

theorem Crew.finished (crew : Crew need n r) {worker : Nat} (low : worker < need)
    (new : worker ∉ r.through) (few : n + 1 < 2 ^ 31)
    (done : r'.g_ring_done = plat_inc32 r.g_ring_done)
    (through : r'.through = worker :: r.through) : Crew need (n + 1) r' where
  done := by rw [done, crew.done, plat_inc32_eq few]
  frames := by
    obtain ⟨k, total⟩ := crew.frames
    exact ⟨k, by rw [through, List.length_cons, total]; omega⟩
  once := by
    rw [through]
    exact List.nodup_cons.mpr ⟨new, crew.once⟩
  inside := by
    intro other member
    rw [through] at member
    rcases List.mem_cons.mp member with rfl | before
    · exact low
    · exact crew.inside other before

/-! ### The ring as a triple buffer -/

/-- The slot a worker past its exchange has in hand for the next frame. -/
def Filling.hand : Filling → Option Nat
  | .miss old => some (old &&& 3)
  | .pub old => some (old &&& 3)
  | .back old => some (old &&& 3)
  | _ => none

/-- The fillers' slot: what the exchange gave, until it is `g_ring_back`. -/
def Ring.Backs (r : Ring) (slot : Nat) : Prop :=
  (∃ worker, (r.filling worker).hand = some slot) ∨
    (∀ worker, (r.filling worker).hand = none) ∧ slot = r.g_ring_back

/-- The presenter's slot: what its exchange gave, until it is `g_ring_front`. -/
def Ring.front_slot (r : Ring) : Nat :=
  match r.taking with
  | .front old => old &&& 3
  | _ => r.g_ring_front

/-- The counters are behind by a frame while a worker counts it, and frames to
come are owed to the increments. -/
structure Counted (n : Nat) (g_ring_pub g_ring_miss : Int) (published missed : Nat)
    (owed pub miss : Nat) : Prop where
  few : published + owed ≤ n
  pub : g_ring_pub + pub = published
  miss : g_ring_miss + miss = missed

/-- A worker at each place in `ring_fill`. -/
def At (n : Nat) (r : Ring) (t : TripleBuffer Fill) : Filling → Prop
  | .out => t.back = r.g_ring_back ∧
      Counted n r.g_ring_pub r.g_ring_miss t.published.length t.missed 0 0 0
  | .write todo => t.back = r.g_ring_back ∧
      Counted n r.g_ring_pub r.g_ring_miss t.published.length t.missed 1 0 0 ∧
      ∃ past, r.frame.writes = past ++ todo ∧
        ∀ part ∈ past, r.frame.Has (r.g_ring r.g_ring_back) part
  | .load => t.back = r.g_ring_back ∧
      Counted n r.g_ring_pub r.g_ring_miss t.published.length t.missed 1 0 0 ∧
      r.frame.Shows (r.g_ring r.g_ring_back)
  | .cas _ => t.back = r.g_ring_back ∧
      Counted n r.g_ring_pub r.g_ring_miss t.published.length t.missed 1 0 0 ∧
      r.frame.Shows (r.g_ring r.g_ring_back)
  | .miss old => old &&& 3 = t.back ∧
      Counted n r.g_ring_pub r.g_ring_miss t.published.length t.missed 0 1
        (if old &&& RING_FRESH ≠ 0 then 1 else 0)
  | .pub old => old &&& 3 = t.back ∧
      Counted n r.g_ring_pub r.g_ring_miss t.published.length t.missed 0 1 0
  | .back old => old &&& 3 = t.back ∧
      Counted n r.g_ring_pub r.g_ring_miss t.published.length t.missed 0 0 0

/-- At most one worker fills, after all are through with the frame. -/
structure Filler (need n : Nat) (r : Ring) (t : TripleBuffer Fill) (worker : Nat) (pc : Filling) :
    Prop where
  only : r.filling = Function.update (fun _ => .out) worker pc
  last : pc ≠ .out → r.through.length = need ∧ worker < need
  at_ : At n r t pc

/-- The presenter between a take and its next exchange. -/
def Taking.holds : Taking → Bool
  | .out => true
  | .load => true
  | .cas _ => true
  | _ => false

/-- The presenter's slot and what it handed out. -/
structure Presenter (r : Ring) (h : RingLog) (t : TripleBuffer Fill) : Prop where
  front : r.front_slot = t.front
  seen : (r.taking matches .load | .cas _) = true → t.fresh = true
  handed : h.shown.length + (if r.taking.holds then 0 else 1) = t.taken.length
  order : ∀ (j : Nat) (S : RingSlot), h.shown[j]? = some S →
    ∃ (i : Nat) (f : Fill), t.taken[j]? = some i ∧ t.published[i]? = some f ∧ f.Shows S
  kept : r.taking.holds = true → ∀ s, r.shown = some s →
    h.shown.getLast? = some (r.g_ring r.g_ring_front) ∧
      s = shown_of r.g_ring_front (r.g_ring r.g_ring_front)

structure Sim (need n : Nat) (r : Ring) (h : RingLog) (t : TripleBuffer Fill) : Prop where
  run : Relation.ReflTransGen TripleBuffer.Step .start t
  crew : Crew need n r
  state : r.g_ring_state = state_word t
  shows : ∀ i f, t.holds i = some f → f.Shows (r.g_ring i)
  published : h.published = t.published
  taken : h.taken = t.taken.length
  missed : h.missed = t.missed
  presenter : Presenter r h t
  filler : ∃ worker pc, Filler need n r t worker pc

theorem Sim.valid {h : RingLog} (sim : Sim need n r h t) : t.Valid :=
  TripleBuffer.run_valid sim.run TripleBuffer.start_valid

theorem start_sim (need : Nat) (frame : Fill) : Sim need 0 (Ring.start frame) .start .start where
  run := .refl
  crew := ⟨rfl, ⟨0, by simp [Ring.start]⟩, .nil, by simp [Ring.start]⟩
  state := rfl
  shows i f holds := by simp [TripleBuffer.start] at holds
  published := rfl
  taken := rfl
  missed := rfl
  presenter :=
    { front := rfl
      seen := by simp [Ring.start]
      handed := rfl
      order := by simp [RingLog.start]
      kept := by simp [Ring.start] }
  filler :=
    ⟨0, .out, by simp [Ring.start], fun pc => absurd rfl pc, rfl, Nat.le_refl _, rfl, rfl⟩

/-! ### A step of a worker -/

variable {h : RingLog} {worker : Nat} {pc : Filling}

theorem Filler.same (filler : Filler need n r t worker pc) {other : Nat}
    (fills : r.filling other ≠ .out) : other = worker ∧ r.filling other = pc := by
  have here : other = worker := by
    by_contra away
    rw [filler.only, Function.update_of_ne away] at fills
    exact fills rfl
  exact ⟨here, by rw [filler.only, here, Function.update_self]⟩

/-- The worker that fills goes on, with what else it changes. -/
theorem Filler.goes {t' : TripleBuffer Fill} (filler : Filler need n r t worker pc)
    (fills : pc ≠ .out) {pc' : Filling} (through : r'.through = r.through)
    (filling : r'.filling = Function.update r.filling worker pc') (at_ : At n r' t' pc') :
    Filler need n r' t' worker pc' where
  only := by rw [filling, filler.only, Function.update_idem]
  last _ := by
    have last := filler.last fills
    rwa [← through] at last
  at_ := at_

/-- What the presenter sees of a worker's step. -/
theorem Presenter.aside {t' : TripleBuffer Fill} (presenter : Presenter r h t)
    (front : r'.g_ring_front = r.g_ring_front) (taking : r'.taking = r.taking)
    (shown : r'.shown = r.shown) (slot : r'.g_ring r.g_ring_front = r.g_ring r.g_ring_front)
    (same_front : t'.front = t.front) (same_taken : t'.taken = t.taken)
    (fresh : t.fresh = true → t'.fresh = true)
    (published : ∀ (i : Nat) (f : Fill), t.published[i]? = some f → t'.published[i]? = some f)
    {h' : RingLog} (handed : h'.shown = h.shown) : Presenter r' h' t' where
  front := by
    have same := presenter.front
    simp only [Ring.front_slot] at same ⊢
    rw [taking, front, same_front]
    exact same
  seen loads := fresh (presenter.seen (taking ▸ loads))
  handed := by rw [handed, taking, same_taken, presenter.handed]
  order j S place := by
    rw [handed] at place
    obtain ⟨i, f, taken, at_, shows⟩ := presenter.order j S place
    exact ⟨i, f, same_taken ▸ taken, published i f at_, shows⟩
  kept holds s out := by
    rw [taking] at holds
    rw [shown] at out
    have kept := presenter.kept holds s out
    rwa [handed, front, slot]

theorem Presenter.quiet (presenter : Presenter r h t)
    (front : r'.g_ring_front = r.g_ring_front) (taking : r'.taking = r.taking)
    (shown : r'.shown = r.shown) (slot : r'.g_ring r.g_ring_front = r.g_ring r.g_ring_front) :
    Presenter r' h t :=
  presenter.aside front taking shown slot rfl rfl id (fun _ _ => id) rfl

theorem Crew.quiet (crew : Crew need n r) (done : r'.g_ring_done = r.g_ring_done)
    (through : r'.through = r.through) : Crew need n r' where
  done := by rw [done, crew.done]
  frames := by rw [through]; exact crew.frames
  once := by rw [through]; exact crew.once
  inside := by rw [through]; exact crew.inside

theorem front_slot_held (holds : r.taking.holds = true) : r.front_slot = r.g_ring_front := by
  cases taking : r.taking with
  | front old => simp [taking, Taking.holds] at holds
  | _ => simp only [Ring.front_slot, taking]

/-- The presenter's slot between its exchanges is not the fillers'. -/
theorem Sim.apart (sim : Sim need n r h t) (back : t.back = r.g_ring_back)
    (holds : r.taking.holds = true) : r.g_ring_front ≠ r.g_ring_back := by
  rw [← front_slot_held holds, sim.presenter.front, ← back]
  exact sim.valid.back_front.symm

/-- The presenter goes on with the state seen fresh. -/
theorem Presenter.loads (presenter : Presenter r h t) (holds : r.taking.holds = true)
    (fresh : t.fresh = true) {taking : Taking} (holds' : taking.holds = true) :
    Presenter { r with taking } h t where
  front := by
    have front := presenter.front
    rw [front_slot_held holds] at front
    rw [front_slot_held holds']
    exact front
  seen _ := fresh
  handed := by
    have handed := presenter.handed
    rw [holds] at handed
    rw [holds']
    exact handed
  order := presenter.order
  kept _ := presenter.kept holds

/-- A worker's step that leaves the ring's words and slots as they are. -/
theorem Sim.goes (sim : Sim need n r h t) (filler : Filler need n r t worker pc)
    (fills : pc ≠ .out) {pc' : Filling} (at_ : At n (r.goes worker pc') t pc') :
    Sim need n (r.goes worker pc') h t where
  run := sim.run
  crew := by apply sim.crew.quiet <;> rfl
  state := sim.state
  shows := sim.shows
  published := sim.published
  taken := sim.taken
  missed := sim.missed
  presenter := by apply sim.presenter.quiet <;> rfl
  filler := ⟨worker, pc', filler.goes fills rfl rfl at_⟩

theorem fill_write (sim : Sim need n r h t) {part : Write} {todo : List Write}
    (filler : Filler need n r t worker (.write (part :: todo))) :
    Sim need n
      ({ r with
        g_ring := Function.update r.g_ring r.g_ring_back
          (r.frame.write (r.g_ring r.g_ring_back) part) }.goes worker (.write todo))
      h t.begin_ := by
  obtain ⟨back, counted, past, all, has⟩ := filler.at_
  have slot {i : Nat} (other : i ≠ r.g_ring_back) :
      Function.update r.g_ring r.g_ring_back (r.frame.write (r.g_ring r.g_ring_back) part) i =
        r.g_ring i := Function.update_of_ne other _ _
  exact
    { run := sim.run.tail (.begin_ t)
      crew := by apply sim.crew.quiet <;> rfl
      state := sim.state
      shows := by
        intro i f holds
        have other : i ≠ t.back := by
          intro same
          simp [TripleBuffer.begin_, same] at holds
        rw [TripleBuffer.begin_] at holds
        simp only [Function.update_of_ne other] at holds
        simp only [Ring.goes, slot (back ▸ other)]
        exact sim.shows i f holds
      published := sim.published
      taken := sim.taken
      missed := sim.missed
      presenter := by
        cases held : r.taking.holds with
        | true =>
            apply sim.presenter.aside
            case slot => exact slot (sim.apart back held)
            case fresh => exact id
            case published => exact fun _ _ => id
            all_goals rfl
        | false =>
            exact
              { front := sim.presenter.front
                seen := sim.presenter.seen
                handed := sim.presenter.handed
                order := sim.presenter.order
                kept := fun holds => by simp [Ring.goes, held] at holds }
      filler := by
        refine ⟨worker, .write todo, ?_⟩
        apply filler.goes (by simp)
        case through => rfl
        case filling => rfl
        refine ⟨back, ⟨counted.few, counted.pub, counted.miss⟩, past ++ [part], ?_, ?_⟩
        · rw [List.append_assoc]
          exact all
        · intro other member
          simp only [Ring.goes, Function.update_self]
          rcases List.mem_append.mp member with before | now
          · exact write_keeps (has other before) part
          · rw [List.mem_singleton.mp now]
            exact write_has _ _ _ }

theorem fill_exchange (sim : Sim need n r h t) {o : Nat}
    (filler : Filler need n r t worker (.cas o)) (same : r.g_ring_state = o) :
    Sim need n ({ r with g_ring_state := r.g_ring_back ||| RING_FRESH }.goes worker (.miss o))
      { h with
        published := h.published ++ [r.frame]
        missed := if o &&& RING_FRESH ≠ 0 then h.missed + 1 else h.missed }
      (t.publish r.frame) := by
  obtain ⟨back, counted, whole⟩ := filler.at_
  have valid := sim.valid
  have word : o = state_word t := same.symm.trans sim.state
  have missed : (if o &&& RING_FRESH ≠ 0 then h.missed + 1 else h.missed) =
      (t.publish r.frame).missed := by
    rw [word, sim.missed, TripleBuffer.publish]
    exact if_congr (state_word_bit valid) rfl rfl
  exact
    { run := sim.run.tail (.publish t r.frame)
      crew := by apply sim.crew.quiet <;> rfl
      state := by
        have next := back_word valid r.frame
        rwa [back] at next
      shows := by
        intro i f holds
        simp only [TripleBuffer.publish] at holds
        by_cases here : i = t.back
        · rw [here, Function.update_self, Option.some_inj] at holds
          rw [here, back, ← holds]
          exact whole
        · rw [Function.update_of_ne here] at holds
          exact sim.shows i f holds
      published := by simp [TripleBuffer.publish, sim.published]
      taken := sim.taken
      missed := missed
      presenter := by
        apply sim.presenter.aside
        case fresh => exact fun _ => rfl
        case published =>
          intro i f at_
          have inside := (List.getElem?_eq_some_iff.mp at_).1
          simpa only [TripleBuffer.publish, List.getElem?_append_left inside] using at_
        all_goals rfl
      filler := by
        refine ⟨worker, .miss o, ?_⟩
        apply filler.goes (by simp)
        case through => rfl
        case filling => rfl
        refine ⟨?_, ?_, ?_, ?_⟩
        · rw [word]
          exact state_word_slot valid
        · simpa [TripleBuffer.publish] using counted.few
        · have pub := counted.pub
          simp only [TripleBuffer.publish, Ring.goes, List.length_append, List.length_singleton]
          omega
        · have miss := counted.miss
          rw [← missed, sim.missed]
          simp only [Ring.goes]
          split <;> omega }

theorem At.goes (at_ : At n r t pc) : At n (r.goes worker pc) t pc := by
  cases pc <;> exact at_

/-- A worker's step on its counters or its own index. -/
theorem Sim.counts (sim : Sim need n r h t) (filler : Filler need n r t worker pc)
    (fills : pc ≠ .out) {back : Nat} {pub miss : Int} {pc' : Filling}
    (at_ : At n { r with g_ring_back := back, g_ring_pub := pub, g_ring_miss := miss } t pc') :
    Sim need n ({ r with g_ring_back := back, g_ring_pub := pub, g_ring_miss := miss }.goes
      worker pc') h t where
  run := sim.run
  crew := by apply sim.crew.quiet <;> rfl
  state := sim.state
  shows := sim.shows
  published := sim.published
  taken := sim.taken
  missed := sim.missed
  presenter := by apply sim.presenter.quiet <;> rfl
  filler := by
    refine ⟨worker, pc', ?_⟩
    apply filler.goes fills
    case through => rfl
    case filling => rfl
    case at_ => exact at_.goes

theorem inc32_counts {g_ring_pub : Int} {m : Nat} (behind : g_ring_pub + 1 = m)
    (few : m < 2 ^ 31) : plat_inc32 g_ring_pub = m := by
  simp only [plat_inc32, behind]
  refine Int.bmod_eq_of_le ?_ ?_ <;> omega

/-- Every step of a worker in `ring_fill`. -/
theorem Sim.fill (sim : Sim need n r h t) (small : n < 2 ^ 31) {other : Nat}
    (step : ring_fill r other = some r') :
    ∃ t', Sim need n r' (h.after r (.fill other)) t' := by
  obtain ⟨worker, pc, filler⟩ := sim.filler
  have fills : r.filling other ≠ .out := by
    intro out
    simp [ring_fill, out] at step
  obtain ⟨rfl, here⟩ := filler.same fills
  rw [here] at fills
  simp only [ring_fill, here] at step
  simp only [RingLog.after, here]
  have valid := sim.valid
  cases pc with
  | out => exact absurd rfl fills
  | write todo =>
      cases todo with
      | cons part todo =>
          obtain rfl := Option.some_inj.mp step
          exact ⟨_, fill_write sim filler⟩
      | nil =>
          obtain rfl := Option.some_inj.mp step
          obtain ⟨back, counted, past, all, has⟩ := filler.at_
          rw [List.append_nil] at all
          have whole : r.frame.Shows (r.g_ring r.g_ring_back) :=
            shows_of_writes (all ▸ has)
          exact ⟨t, sim.goes filler fills ⟨back, counted, whole⟩⟩
  | load =>
      obtain rfl := Option.some_inj.mp step
      exact ⟨t, sim.goes filler fills filler.at_⟩
  | cas o =>
      by_cases same : r.g_ring_state = o
      · simp only [if_pos same] at step ⊢
        obtain rfl := Option.some_inj.mp step
        exact ⟨_, fill_exchange sim filler same⟩
      · simp only [if_neg same] at step ⊢
        obtain rfl := Option.some_inj.mp step
        exact ⟨t, sim.goes filler fills filler.at_⟩
  | miss old =>
      obtain rfl := Option.some_inj.mp step
      obtain ⟨back, counted⟩ := filler.at_
      refine ⟨t, sim.counts filler fills ⟨back, counted.few, counted.pub, ?_⟩⟩
      have miss := counted.miss
      have balance := valid.balance
      have few := counted.few
      split at miss
      case isTrue fresh =>
        rw [if_pos fresh, inc32_counts miss (by omega)]
        simp
      case isFalse stale =>
        rw [if_neg stale]
        exact miss
  | pub old =>
      obtain rfl := Option.some_inj.mp step
      obtain ⟨back, counted⟩ := filler.at_
      refine ⟨t, sim.counts filler fills ⟨back, counted.few, ?_, counted.miss⟩⟩
      have few := counted.few
      rw [inc32_counts counted.pub (by omega)]
      simp
  | back old =>
      obtain rfl := Option.some_inj.mp step
      obtain ⟨back, counted⟩ := filler.at_
      exact ⟨t, sim.counts filler fills ⟨back.symm, counted⟩⟩

/-! ### The workers and the fence -/

theorem only_out {worker : Nat} (other : Nat) (pc : Filling) :
    Function.update (Function.update (fun _ => Filling.out) worker .out) other pc =
      Function.update (fun _ => .out) other pc := by
  rw [Function.update_eq_self worker]

/-- While a worker is to come, none fills. -/
theorem Filler.waits (filler : Filler need n r t worker pc) (crew : Crew need n r)
    {other : Nat} (low : other < need) (new : other ∉ r.through) : pc = .out := by
  by_contra fills
  have room := crew.room low new
  have all := (filler.last fills).1
  omega

theorem Sim.done (sim : Sim need n r h t) (few : n + 1 < 2 ^ 31) {other : Nat}
    (low : other < need) (new : other ∉ r.through) :
    Sim need (n + 1) (ring_done need r other) h t := by
  obtain ⟨worker, pc, filler⟩ := sim.filler
  obtain rfl := filler.waits sim.crew low new
  obtain ⟨back, counted⟩ := filler.at_
  have last := sim.crew.last_iff low new
  have value : plat_inc32 r.g_ring_done = (n + 1 : Nat) := by
    rw [sim.crew.done, plat_inc32_eq few]
  simp only [ring_done, value]
  split
  case isTrue =>
    exact
      { run := sim.run
        crew := by
          apply sim.crew.finished low new few
          case done => exact value.symm
          case through => rfl
        state := sim.state
        shows := sim.shows
        published := sim.published
        taken := sim.taken
        missed := sim.missed
        presenter := by apply sim.presenter.quiet <;> rfl
        filler := ⟨worker, .out, filler.only, fun fills => absurd rfl fills, back,
          Nat.le_succ_of_le counted.few, counted.pub, counted.miss⟩ }
  case isFalse whole =>
    rw [not_not] at whole
    exact
      { run := sim.run
        crew := by
          apply sim.crew.finished low new few
          case done => exact value.symm
          case through => rfl
        state := sim.state
        shows := sim.shows
        published := sim.published
        taken := sim.taken
        missed := sim.missed
        presenter := by apply sim.presenter.quiet <;> rfl
        filler := by
          refine ⟨other, .write r.frame.writes, ?_, fun _ => ⟨last.mp whole, low⟩, back,
            ⟨Nat.succ_le_succ counted.few, counted.pub, counted.miss⟩, [], rfl, by simp⟩
          simp only [Ring.goes, filler.only, only_out] }

theorem Sim.next (sim : Sim need n r h t) (frame : Fill)
    (over_ : ∀ worker < need, worker ∈ r.through ∧ (r.filling worker matches .out) = true) :
    Sim need n { r with frame, through := [] } h t := by
  obtain ⟨worker, pc, filler⟩ := sim.filler
  have out : pc = .out := by
    by_contra fills
    have here := (over_ worker (filler.last fills).2).2
    rw [filler.only, Function.update_self] at here
    cases pc with
    | out => exact fills rfl
    | _ => simp at here
  subst out
  have all : r.through.length = need := by
    have part : (List.range need).Subperm r.through :=
      List.nodup_range.subperm fun worker member => (over_ worker (List.mem_range.mp member)).1
    have least := part.length_le
    rw [List.length_range] at least
    exact Nat.le_antisymm (crew_le sim.crew.once sim.crew.inside) least
  exact
    { run := sim.run
      crew :=
        { done := sim.crew.done
          frames := by
            obtain ⟨k, total⟩ := sim.crew.frames
            exact ⟨k + 1, by simp [total, all, Nat.succ_mul]⟩
          once := .nil
          inside := by simp }
      state := sim.state
      shows := sim.shows
      published := sim.published
      taken := sim.taken
      missed := sim.missed
      presenter := by apply sim.presenter.quiet <;> rfl
      filler := ⟨worker, .out, filler.only, fun fills => absurd rfl fills, filler.at_⟩ }

/-! ### A step of the presenter -/

theorem At.take (at_ : At n r t pc) {state front : Nat} {taking : Taking}
    {shown : Option GxrShown} :
    At n { r with g_ring_state := state, g_ring_front := front, taking, shown } t pc := by
  cases pc <;> exact at_

theorem Sim.take_with (sim : Sim need n r h t) {front : Nat} {taking : Taking}
    {shown : Option GxrShown} {seen : List RingSlot}
    (presenter : Presenter { r with g_ring_front := front, taking, shown }
      { h with shown := seen } t) :
    Sim need n { r with g_ring_front := front, taking, shown } { h with shown := seen } t where
  run := sim.run
  crew := by apply sim.crew.quiet <;> rfl
  state := sim.state
  shows := sim.shows
  published := sim.published
  taken := sim.taken
  missed := sim.missed
  presenter := presenter
  filler := by
    obtain ⟨worker, pc, filler⟩ := sim.filler
    exact ⟨worker, pc, filler.only, filler.last, filler.at_.take⟩

theorem take_exchange (sim : Sim need n r h t) {o : Nat} (loads : r.taking = .cas o)
    (same : r.g_ring_state = o) :
    Sim need n { r with g_ring_state := r.g_ring_front, taking := .front o }
      { h with taken := h.taken + 1 } t.take := by
  have presenter := sim.presenter
  have valid := sim.valid
  have word : o = state_word t := same.symm.trans sim.state
  have slot : r.g_ring_front = t.front := by
    have front := presenter.front
    simpa only [Ring.front_slot, loads] using front
  have handed := presenter.handed
  simp only [loads, Taking.holds, if_true, Nat.add_zero] at handed
  exact
    { run := sim.run.tail (.take t (presenter.seen (by simp [loads])))
      crew := by apply sim.crew.quiet <;> rfl
      state := slot.trans (front_word t)
      shows := sim.shows
      published := sim.published
      taken := by simp [TripleBuffer.take, sim.taken]
      missed := sim.missed
      presenter :=
        { front := by
            simp only [Ring.front_slot, word]
            exact state_word_slot valid
          seen := by simp
          handed := by simp [Taking.holds, TripleBuffer.take, handed]
          order := by
            intro j S place
            obtain ⟨i, f, taken, published, shows⟩ := presenter.order j S place
            have inside := (List.getElem?_eq_some_iff.mp taken).1
            refine ⟨i, f, ?_, published, shows⟩
            simpa only [TripleBuffer.take, List.getElem?_append_left inside] using taken
          kept := by simp [Taking.holds] }
      filler := by
        obtain ⟨worker, pc, filler⟩ := sim.filler
        refine ⟨worker, pc, filler.only, filler.last, ?_⟩
        cases pc <;> exact filler.at_ }

theorem take_read (sim : Sim need n r h t) (reads : r.taking = .read) :
    Presenter
      { r with
        shown := some (shown_of r.g_ring_front (r.g_ring r.g_ring_front)), taking := .out }
      { h with shown := h.shown ++ [r.g_ring r.g_ring_front] } t := by
  have presenter := sim.presenter
  have slot : r.g_ring_front = t.front := by
    have front := presenter.front
    simpa only [Ring.front_slot, reads] using front
  have handed := presenter.handed
  simp only [reads, Taking.holds, Bool.false_eq_true, if_false] at handed
  exact
    { front := slot
      seen := by simp
      handed := by simp [Taking.holds, handed]
      order := by
        intro j S place
        rcases Nat.lt_trichotomy j h.shown.length with before | now | after
        · rw [List.getElem?_append_left before] at place
          exact presenter.order j S place
        · have last : t.taken[j]? = t.taken.getLast? := by
            rw [List.getLast?_eq_getElem?, ← handed, now, Nat.add_sub_cancel]
          have inside : j < t.taken.length := by omega
          obtain ⟨i, taken⟩ : ∃ i, t.taken[j]? = some i :=
            ⟨_, List.getElem?_eq_getElem inside⟩
          obtain ⟨f, published, holds⟩ := sim.valid.held i (last ▸ taken)
          have shows := sim.shows _ _ holds
          rw [now, List.getElem?_concat_length, Option.some_inj] at place
          rw [← slot, place] at shows
          exact ⟨i, f, taken, published, shows⟩
        · rw [List.getElem?_eq_none (by simp; omega)] at place
          exact absurd place (by simp)
      kept := by
        intro _ s out
        rw [← Option.some_inj.mp out]
        simp }

/-- Every step of the presenter in `gxr_ring_take`. -/
theorem Sim.take (sim : Sim need n r h t) :
    ∃ t', Sim need n (gxr_ring_take r) (h.after r .take) t' := by
  have presenter := sim.presenter
  have front := presenter.front
  cases taking : r.taking with
  | out =>
      simp only [gxr_ring_take, RingLog.after, taking]
      split
      case isTrue => exact ⟨t, sim⟩
      case isFalse fresh =>
        have bit : t.fresh = true := by
          rw [sim.state] at fresh
          exact (state_word_bit sim.valid).mp fresh
        exact ⟨t, sim.take_with (presenter.loads (by simp [taking, Taking.holds]) bit rfl)⟩
  | load =>
      simp only [gxr_ring_take, RingLog.after, taking]
      have bit := presenter.seen (by simp [taking])
      exact ⟨t, sim.take_with (presenter.loads (by simp [taking, Taking.holds]) bit rfl)⟩
  | cas o =>
      simp only [gxr_ring_take, RingLog.after, taking]
      by_cases same : r.g_ring_state = o
      · simp only [if_pos same]
        exact ⟨_, take_exchange sim taking same⟩
      · simp only [if_neg same]
        have bit := presenter.seen (by simp [taking])
        exact ⟨t, sim.take_with (presenter.loads (by simp [taking, Taking.holds]) bit rfl)⟩
  | front old =>
      simp only [gxr_ring_take, RingLog.after, taking]
      refine ⟨t, sim.take_with ⟨?_, by simp, ?_, presenter.order, by simp [Taking.holds]⟩⟩
      · simpa only [Ring.front_slot, taking] using front
      · have handed := presenter.handed
        rwa [taking] at handed
  | read =>
      simp only [gxr_ring_take, RingLog.after, taking]
      exact ⟨t, sim.take_with (take_read sim taking)⟩

/-! ### Every run -/

theorem Sim.step (sim : Sim (ring_need g_workers) n r h t) {step : RingStep}
    (few : n + increments [step] < 2 ^ 31) (stepped : ring_step g_workers r step = some r') :
    ∃ t', Sim (ring_need g_workers) (n + increments [step]) r' (h.after r step) t' := by
  cases step with
  | done worker =>
      simp only [ring_step] at stepped
      split at stepped
      case isTrue here =>
        obtain rfl := Option.some_inj.mp stepped
        exact ⟨t, sim.done few here.1 here.2⟩
      case isFalse => simp at stepped
  | fill worker => exact sim.fill few stepped
  | next frame =>
      simp only [ring_step] at stepped
      split at stepped
      case isTrue over_ =>
        obtain rfl := Option.some_inj.mp stepped
        exact ⟨t, sim.next frame over_⟩
      case isFalse => simp at stepped
  | take =>
      obtain rfl := Option.some_inj.mp stepped
      exact sim.take

theorem increments_cons (step : RingStep) (steps : List RingStep) :
    increments (step :: steps) = increments [step] + increments steps := by
  simp only [increments, List.countP_cons, List.countP_nil]
  omega

theorem Sim.run_steps {steps : List RingStep} (sim : Sim (ring_need g_workers) n r h t)
    (few : n + increments steps < 2 ^ 31) {h' : RingLog}
    (run : ring_run g_workers r h steps = some (r', h')) :
    ∃ t', Sim (ring_need g_workers) (n + increments steps) r' h' t' := by
  induction steps generalizing n r h t with
  | nil =>
      obtain ⟨rfl, rfl⟩ := Prod.mk.inj (Option.some_inj.mp run)
      exact ⟨t, sim⟩
  | cons step steps ih =>
      rw [increments_cons] at few ⊢
      obtain ⟨next, stepped, rest⟩ := Option.bind_eq_some_iff.mp run
      obtain ⟨t', sim'⟩ := sim.step (by omega) stepped
      rw [← Nat.add_assoc] at few ⊢
      exact ih sim' few rest

/-- After any steps: each side's slot, the one an exchange gave it from then on,
and the middle one are three different slots. -/
structure Ring.Kept (need : Nat) (r : Ring) (h : RingLog) : Prop where
  slots : ∀ back, r.Backs back →
    [back, r.g_ring_state &&& 3, r.front_slot].Nodup ∧
      ∀ slot ∈ [back, r.g_ring_state &&& 3, r.front_slot], slot < 3
  /-- what a fill writes is neither the presenter's slot nor one it can take -/
  writes : ∀ worker part todo, r.filling worker = .write (part :: todo) →
    r.g_ring_back ≠ r.front_slot ∧ r.g_ring_back ≠ r.g_ring_state &&& 3
  /-- one worker fills, after all are through with the frame -/
  last : ∀ worker, r.filling worker ≠ .out → (∀ other < need, other ∈ r.through) ∧
    ∀ other, r.filling other ≠ .out → other = worker
  /-- what the takes got: whole frames, none twice, in the order of publication -/
  order : ∃ places : List Nat, places.length = h.taken ∧ places.Pairwise (· < ·) ∧
    (∀ i ∈ places, i < h.published.length) ∧
    ∀ (j : Nat) (S : RingSlot), h.shown[j]? = some S →
      ∃ (i : Nat) (f : Fill), places[j]? = some i ∧ h.published[i]? = some f ∧ f.Shows S
  /-- what was handed out last stays as it was until the next exchange -/
  held : r.taking.holds = true → ∀ s, r.shown = some s →
    h.shown.getLast? = some (r.g_ring s.real) ∧ s = shown_of r.front_slot (r.g_ring s.real)
  balance : h.published.length =
    h.taken + h.missed + if r.g_ring_state &&& RING_FRESH ≠ 0 then 1 else 0
  counters : (∀ worker, r.filling worker = .out) →
    r.g_ring_pub = h.published.length ∧ r.g_ring_miss = h.missed

theorem Filler.backs (filler : Filler need n r t worker pc) {back : Nat} (backs : r.Backs back) :
    back = t.back := by
  have at_ := filler.at_
  have here : r.filling worker = pc := by
    rw [filler.only, Function.update_self]
  have hand {other : Nat} {slot : Nat} (held : (r.filling other).hand = some slot) :
      pc.hand = some slot := by
    have fills : r.filling other ≠ .out := by
      intro out
      simp [out, Filling.hand] at held
    rwa [(filler.same fills).2] at held
  rcases backs with ⟨other, held⟩ | ⟨none, rfl⟩
  · have held := hand held
    cases pc with
    | miss old => exact (Option.some_inj.mp held).symm.trans at_.1
    | pub old => exact (Option.some_inj.mp held).symm.trans at_.1
    | back old => exact (Option.some_inj.mp held).symm.trans at_.1
    | _ => simp [Filling.hand] at held
  · have none := none worker
    rw [here] at none
    cases pc with
    | miss old => simp [Filling.hand] at none
    | pub old => simp [Filling.hand] at none
    | back old => simp [Filling.hand] at none
    | _ => exact at_.1.symm

theorem Crew.all_through (crew : Crew need n r) (all : r.through.length = need) {other : Nat}
    (low : other < need) : other ∈ r.through := by
  by_contra new
  have room := crew.room low new
  omega

theorem Sim.kept (sim : Sim need n r h t) : r.Kept need h := by
  have valid := sim.valid
  have presenter := sim.presenter
  have mid : r.g_ring_state &&& 3 = t.mid := by
    rw [sim.state]
    exact state_word_slot valid
  obtain ⟨worker, pc, filler⟩ := sim.filler
  exact
    { slots := by
        intro back backs
        rw [filler.backs backs, mid, presenter.front]
        refine ⟨?_, ?_⟩
        · simp [valid.back_mid, valid.back_front, valid.mid_front]
        · simp [valid.back_lt, valid.mid_lt, valid.front_lt]
      writes := by
        intro other part todo writing
        have fills : r.filling other ≠ .out := by simp [writing]
        obtain ⟨rfl, here⟩ := filler.same fills
        have back : t.back = r.g_ring_back := by
          have at_ := filler.at_
          rw [← here, writing] at at_
          exact at_.1
        rw [mid, presenter.front, ← back]
        exact ⟨valid.back_front, valid.back_mid⟩
      last := by
        intro other fills
        obtain ⟨rfl, here⟩ := filler.same fills
        rw [here] at fills
        exact ⟨fun _ => sim.crew.all_through (filler.last fills).1,
          fun _ fills => (filler.same fills).1⟩
      order := by
        refine ⟨t.taken, sim.taken.symm, valid.increasing, ?_, ?_⟩
        · intro i member
          have below := valid.below i member
          rw [sim.published]
          omega
        · rw [sim.published]
          exact presenter.order
      held := by
        intro holds s out
        obtain ⟨last, same⟩ := presenter.kept holds s out
        have place : s.real = r.g_ring_front := by rw [same]; rfl
        rw [place, front_slot_held holds]
        exact ⟨last, same⟩
      balance := by
        have balance := valid.balance
        rw [sim.published, sim.taken, sim.missed, balance, sim.state]
        cases fresh : t.fresh with
        | true => rw [if_pos ((state_word_bit valid).mpr fresh)]; rfl
        | false =>
            have stale : ¬ (state_word t &&& RING_FRESH ≠ 0) := by
              rw [state_word_bit valid, fresh]
              simp
            rw [if_neg stale]
            rfl
      counters := by
        intro out
        have here := out worker
        rw [filler.only, Function.update_self] at here
        subst here
        obtain ⟨_, counted⟩ := filler.at_
        have pub := counted.pub
        have miss := counted.miss
        rw [sim.published, sim.missed]
        exact ⟨by simpa using pub, by simpa using miss⟩ }

theorem ring_correct (g_workers : Int) (frame : Fill) (steps : List RingStep) (r : Ring)
    (h : RingLog) (few : increments steps < 2 ^ 31)
    (run : ring_run g_workers (.start frame) .start steps = some (r, h)) :
    r.Kept (ring_need g_workers) h := by
  have start := start_sim (ring_need g_workers) frame
  obtain ⟨t, sim⟩ := start.run_steps (by simpa using few) run
  exact sim.kept

/-! A frame of one pixel by one worker. -/

def one_pixel : Fill where
  cp_wh := 0
  cp_ring := 0
  g_screen := fun _ _ => 255
  g_screen_mid := fun _ _ => 0

/-- The frame filled, published and taken. -/
def one_shown : List RingStep :=
  .done 0 :: List.replicate 11 (.fill 0) ++ List.replicate 5 .take

theorem ring_correct_one : ∃ r h,
    ring_run 1 (.start one_pixel) .start one_shown = some (r, h) ∧ r.Kept 1 h ∧
      r.g_ring_state &&& 3 = 2 ∧ r.front_slot = 0 ∧ h.taken = 1 :=
  ⟨_, _, rfl, ring_correct 1 one_pixel one_shown _ _ (by decide) rfl, rfl, rfl, rfl⟩

/-- After a fill's exchange `g_ring_back` still names the slot it published. -/
theorem back_behind : ¬ ∀ (g_workers : Int) (frame : Fill) (steps : List RingStep) (r : Ring)
    (h : RingLog), increments steps < 2 ^ 31 →
    ring_run g_workers (.start frame) .start steps = some (r, h) →
    [r.g_ring_back, r.g_ring_state &&& 3, r.g_ring_front].Nodup := by
  intro always
  have run : ∃ r h, ring_run 1 (.start one_pixel) .start
      (.done 0 :: List.replicate 8 (.fill 0)) = some (r, h) ∧
      r.g_ring_back = 0 ∧ r.g_ring_state = 4 := ⟨_, _, rfl, rfl, rfl⟩
  obtain ⟨r, h, run, back, state⟩ := run
  have different := always 1 one_pixel _ r h (by decide) run
  rw [back, state] at different
  exact absurd different (by simp)

end SoaPort.Picture
