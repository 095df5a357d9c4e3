import SoaPort.Gxv.Held
import SoaPort.Gxv.Commands

namespace SoaPort.Gxv

open SoaPort.Lib

/-! What holds of the backend between any two of the host's steps. -/

def Backend.works (s : Backend) : Bool → Work := fun t => (s.slot t).toWork

def Config.size (c : Config) : Region → Nat
  | .dest => DEST_BYTES
  | .image => IMAGE_BYTES / 4
  | .pool => c.pool

/-- The write is outside the region of every slot then in flight. -/
def HostWrite.clear (c : Config) (w : HostWrite) : Prop :=
  ∀ t, w.busy t = true →
    w.at_ + w.n ≤ half (c.size w.region) t ∨ half_end (c.size w.region) t ≤ w.at_

/-- The slot being recorded is not in flight, and no slot but it and the one in
flight holds anything. -/
structure Ready (c : Config) (s : Backend) : Prop where
  one_slot : c.two_slots = false → s.cur = false
  rests : s.current.inflight = false
  other_empty : ∀ t, t ≠ s.cur → (s.slot t).inflight = false → (s.slot t).land = []
  fresh : s.recording = false → s.current.land = [] ∧ s.dest_used = half DEST_BYTES s.cur
  dest_low : half DEST_BYTES s.cur ≤ s.dest_used
  dest_after : ∀ L ∈ s.current.land, L.dest_at + L.copy.extent ≤ s.dest_used
  pool_low : half c.pool s.cur ≤ s.pool_used

structure Inv (c : Config) (ram0 : Nat → UInt8) (s : Backend) : Prop where
  held : Held c ram0 s.works s.toLanding
  ready : Ready c s
  clear : ∀ w ∈ s.writes, w.clear c

/-- Time has gone on: some copies may have landed, and none was taken. -/
structure After (s s' : Backend) : Prop where
  accepted : s'.accepted = s.accepted
  seq_cur : s'.seq_cur = s.seq_cur
  mine : s'.mine = s.mine
  lands : ∀ L ∈ pending s'.works, L ∈ pending s.works

theorem After.refl (s : Backend) : After s s := ⟨rfl, rfl, rfl, fun _ => id⟩

theorem After.trans {s t u : Backend} (first : After s t) (second : After t u) : After s u :=
  ⟨second.accepted.trans first.accepted, second.seq_cur.trans first.seq_cur,
    second.mine.trans first.mine, fun L member => first.lands L (second.lands L member)⟩

variable {c : Config} {ram0 : Nat → UInt8} {timing : Timing} {s s' : Backend}

/-! Changes of what the copies do not depend on. -/

structure Aside (c : Config) (s s' : Backend) : Prop where
  works : s'.works = s.works
  landing : s'.toLanding = s.toLanding
  cur : s'.cur = s.cur
  recording : s'.recording = false → s.recording = false
  dest_used : s'.dest_used = s.dest_used
  pool_used : s.pool_used ≤ s'.pool_used
  mine : s'.mine = s.mine
  writes : ∀ w ∈ s'.writes, w ∈ s.writes ∨ w.clear c

theorem Aside.refl (s : Backend) : Aside c s s :=
  ⟨rfl, rfl, rfl, id, rfl, Nat.le_refl _, rfl, fun _ => .inl⟩

theorem Aside.after (aside : Aside c s s') : After s s' :=
  ⟨congrArg Landing.accepted aside.landing, congrArg Landing.seq_cur aside.landing, aside.mine,
    fun L member => by rwa [aside.works] at member⟩

theorem Ready.same (ready : Ready c s)
    (work : ∀ t, (s'.slot t).inflight = (s.slot t).inflight ∧ (s'.slot t).land = (s.slot t).land)
    (cur : s'.cur = s.cur) (recording : s'.recording = false → s.recording = false)
    (dest_used : s'.dest_used = s.dest_used) (pool_used : s.pool_used ≤ s'.pool_used) :
    Ready c s' := by
  have current : s'.current.land = s.current.land := by
    rw [Backend.current, (work _).2, cur]
    rfl
  constructor
  · rw [cur]
    exact ready.one_slot
  · rw [Backend.current, (work _).1, cur]
    exact ready.rests
  · intro t different idle
    rw [cur] at different
    rw [(work t).1] at idle
    rw [(work t).2]
    exact ready.other_empty t different idle
  · intro idle
    rw [current, dest_used, cur]
    exact ready.fresh (recording idle)
  · rw [cur, dest_used]
    exact ready.dest_low
  · rw [current, dest_used]
    exact ready.dest_after
  · rw [cur]
    exact Nat.le_trans ready.pool_low pool_used

theorem Aside.inv (aside : Aside c s s') (inv : Inv c ram0 s) : Inv c ram0 s' := by
  constructor
  · rw [aside.works, aside.landing]
    exact inv.held
  · apply inv.ready.same _ aside.cur aside.recording aside.dest_used aside.pool_used
    intro t
    have same := congrFun aside.works t
    exact ⟨congrArg Work.inflight same, congrArg Work.land same⟩
  · intro w member
    rcases aside.writes w member with old | new
    · exact inv.clear w old
    · exact new

theorem works_set_slot (s : Backend) (t : Bool) (S : Slot) :
    (s.set_slot t S).works = Function.update s.works t S.toWork := by
  funext u
  cases t <;> cases u <;> rfl

/-- A slot changed but for its work. -/
theorem works_set_slot_same (s : Backend) (t : Bool) {S : Slot} (same : S.toWork = s.works t) :
    (s.set_slot t S).works = s.works := by
  rw [works_set_slot, same, Function.update_eq_self]

theorem begin_cb_aside (s : Backend) : Aside c s (begin_cb s) := by
  unfold begin_cb
  split
  · exact .refl s
  · exact ⟨rfl, rfl, rfl, nofun, rfl, Nat.le_refl _, rfl, fun _ => .inl⟩

/-! The GPU. -/

theorem gpu_run_idle {t : Bool} {n : Nat} (idle : (s.slot t).inflight = false) :
    gpu_run t n s = s := by
  rw [gpu_run, if_neg (by simp [idle])]

theorem gpu_run_busy {t : Bool} {n : Nat} (busy : (s.slot t).inflight = true) :
    (gpu_run t n s).works = Function.update s.works t ((s.works t).run_more n) ∧
      (gpu_run t n s).toLanding = { s.toLanding with
        dest := run_ops Pass.run (((s.works t).passes.drop (s.works t).ran).take n) s.dest } := by
  rw [gpu_run, if_pos busy]
  exact ⟨works_set_slot .., rfl⟩

theorem gpu_run_held (t : Bool) (n : Nat) (held : Held c ram0 s.works s.toLanding) :
    Held c ram0 (gpu_run t n s).works (gpu_run t n s).toLanding := by
  cases flight : (s.slot t).inflight with
  | false =>
      rw [gpu_run_idle flight]
      exact held
  | true =>
      obtain ⟨works, landing⟩ := gpu_run_busy (n := n) flight
      rw [works, landing]
      exact held.gpu_run flight n

/-- What neither the GPU nor a slot's finish changes. -/
structure Kept (s s' : Backend) : Prop where
  cur : s'.cur = s.cur
  recording : s'.recording = s.recording
  dest_used : s'.dest_used = s.dest_used
  pool_used : s'.pool_used = s.pool_used
  mine : s'.mine = s.mine
  measure : s'.measure = s.measure
  writes : s'.writes = s.writes
  accepted : s'.accepted = s.accepted
  seq_cur : s'.seq_cur = s.seq_cur

theorem Kept.refl (s : Backend) : Kept s s := ⟨rfl, rfl, rfl, rfl, rfl, rfl, rfl, rfl, rfl⟩

theorem Kept.trans {t u : Backend} (first : Kept s t) (second : Kept t u) : Kept s u :=
  ⟨second.cur.trans first.cur, second.recording.trans first.recording,
    second.dest_used.trans first.dest_used, second.pool_used.trans first.pool_used,
    second.mine.trans first.mine, second.measure.trans first.measure,
    second.writes.trans first.writes, second.accepted.trans first.accepted,
    second.seq_cur.trans first.seq_cur⟩

theorem Kept.other {s s' : Backend} (kept : Kept s s') (c : Config) : s'.other c = s.other c := by
  rw [Backend.other, Backend.other, kept.cur]

theorem Kept.after (kept : Kept s s') (lands : ∀ t, ∀ L ∈ (s'.slot t).land, L ∈ (s.slot t).land) :
    After s s' := by
  refine ⟨kept.accepted, kept.seq_cur, kept.mine, ?_⟩
  intro L member
  obtain ⟨t, here⟩ := mem_pending.mp member
  exact mem_pending.mpr ⟨t, lands t L here⟩

theorem gpu_run_kept (t : Bool) (n : Nat) (s : Backend) : Kept s (gpu_run t n s) := by
  unfold gpu_run
  dsimp only
  split
  · exact ⟨rfl, rfl, rfl, rfl, rfl, rfl, rfl, rfl, rfl⟩
  · exact .refl s

theorem gpu_run_work (t : Bool) (n : Nat) (s : Backend) (u : Bool) :
    ((gpu_run t n s).slot u).inflight = (s.slot u).inflight ∧
      ((gpu_run t n s).slot u).land = (s.slot u).land := by
  cases flight : (s.slot t).inflight with
  | false =>
      rw [gpu_run_idle flight]
      exact ⟨rfl, rfl⟩
  | true =>
      rw [gpu_run, if_pos flight]
      cases t <;> cases u <;> exact ⟨rfl, rfl⟩

theorem gpu_run_inv (t : Bool) (n : Nat) (inv : Inv c ram0 s) :
    Inv c ram0 (gpu_run t n s) ∧ After s (gpu_run t n s) := by
  have kept := gpu_run_kept t n s
  have work := gpu_run_work t n s
  refine ⟨⟨gpu_run_held t n inv.held, ?_, ?_⟩, ?_⟩
  · exact inv.ready.same work kept.cur kept.recording.symm.trans kept.dest_used (Nat.le_of_eq kept.pool_used.symm)
  · rw [kept.writes]
    exact inv.clear
  · apply kept.after
    intro u L member
    rw [(work u).2] at member
    exact member

theorem tick_inv (timing : Timing) (inv : Inv c ram0 s) : Inv c ram0 (tick timing s) ∧ After s (tick timing s) := by
  obtain ⟨first, after⟩ := gpu_run_inv false (timing s.clock false) inv
  obtain ⟨second, later⟩ := gpu_run_inv true (timing s.clock true) first
  have clock : Aside c (gpu_run true (timing s.clock true) (gpu_run false (timing s.clock false) s))
      (tick timing s) := ⟨rfl, rfl, rfl, id, rfl, Nat.le_refl _, rfl, fun _ => .inl⟩
  exact ⟨clock.inv second, (after.trans later).trans clock.after⟩

/-! A slot finished. -/

theorem slot_close_kept (c : Config) (t : Bool) (s : Backend) : Kept s (slot_close c t s) := by
  unfold slot_close land_slot carries_run
  split <;> exact ⟨rfl, rfl, rfl, rfl, rfl, rfl, rfl, rfl, rfl⟩

theorem slot_close_works (c : Config) (t : Bool) (s : Backend) :
    (slot_close c t s).works = Function.update s.works t (s.works t).finished := by
  unfold slot_close carries_run
  split
  · funext u
    cases t <;> cases u <;> rfl
  · funext u
    cases t <;> cases u <;> rfl

theorem slot_close_landing (c : Config) (t : Bool) (s : Backend) :
    (slot_close c t s).toLanding = { s.toLanding with
      ram := run_ops (Land.land s.dest) (s.works t).land s.ram } := by
  unfold slot_close carries_run
  split
  · cases t <;> rfl
  · cases t <;> rfl

theorem through_slot_le (S : Slot) (n : Nat) : through_slot S n ≤ n := by
  unfold through_slot
  split
  · rename_i below
    simp only [Bool.and_eq_true, decide_eq_true_iff] at below
    exact Nat.le_of_lt below.2
  · exact Nat.le_refl n

theorem through_slot_low {S : Slot} {n : Nat} {L : Land} (member : L ∈ S.land)
    (first : S.land_first ≤ L.copy.seq) : through_slot S n ≤ L.copy.seq := by
  have some_ : S.land.isEmpty = false := by
    rw [List.isEmpty_eq_false_iff]
    exact List.ne_nil_of_mem member
  unfold through_slot
  rw [some_]
  split
  · exact first
  · rename_i above
    simp only [Bool.not_false, Bool.true_and, decide_eq_true_iff] at above
    omega

theorem through_le (c : Config) (s : Backend) : through c s ≤ s.seq_cur := by
  unfold through
  split
  · exact Nat.le_trans (through_slot_le ..) (through_slot_le ..)
  · exact through_slot_le ..

/-- No copy still to land is numbered below what is told. -/
theorem through_low (held : Held c ram0 s.works s.toLanding) {L : Land}
    (member : L ∈ pending s.works) : through c s ≤ L.copy.seq := by
  obtain ⟨t, here⟩ := mem_pending.mp member
  have first := (held.regions t).first L here
  unfold through
  cases two : c.two_slots with
  | false =>
      cases t with
      | false => exact through_slot_low here first
      | true =>
          rw [held.one_slot two] at here
          cases here
  | true =>
      cases t with
      | false => exact Nat.le_trans (through_slot_le ..) (through_slot_low here first)
      | true => exact through_slot_low here first

theorem say_landed_held (held : Held c ram0 s.works s.toLanding) :
    Held c ram0 (say_landed c s).works (say_landed c s).toLanding := by
  unfold say_landed
  dsimp only
  split
  · rename_i more
    exact ⟨held.settled.say (fun L => through_low held) (through_le c s) more, held.regions,
      held.one_slot⟩
  · exact held

theorem say_landed_kept (c : Config) (s : Backend) :
    Kept s (say_landed c s) ∧ (say_landed c s).slot = s.slot := by
  unfold say_landed
  dsimp only
  split
  · exact ⟨⟨rfl, rfl, rfl, rfl, rfl, rfl, rfl, rfl, rfl⟩, rfl⟩
  · exact ⟨.refl s, rfl⟩

theorem say_landed_inv (inv : Inv c ram0 s) :
    Inv c ram0 (say_landed c s) ∧ After s (say_landed c s) := by
  obtain ⟨kept, slots⟩ := say_landed_kept c s
  refine ⟨⟨say_landed_held inv.held, ?_, ?_⟩, ?_⟩
  · apply inv.ready.same _ kept.cur kept.recording.symm.trans kept.dest_used (Nat.le_of_eq kept.pool_used.symm)
    intro t
    rw [slots]
    exact ⟨rfl, rfl⟩
  · rw [kept.writes]
    exact inv.clear
  · apply kept.after
    intro t L member
    rw [slots] at member
    exact member

/-- Slot `t` finished, in flight or not. -/
structure Finished (t : Bool) (s s' : Backend) : Prop extends Kept s s' where
  others : ∀ u, u ≠ t → s'.works u = s.works u
  rests : (s'.works t).inflight = false
  lands : (s'.works t).land = if (s.works t).inflight then [] else (s.works t).land

theorem slot_finish_idle {t : Bool} (idle : (s.works t).inflight = false) :
    slot_finish c t s = s := by
  unfold slot_finish
  split
  · rename_i busy
    cases idle.symm.trans busy
  · rfl

theorem slot_finish_busy {t : Bool} (busy : (s.works t).inflight = true) :
    slot_finish c t s =
      say_landed c (slot_close c t (gpu_run t ((s.works t).passes.length + 1) s)) :=
  if_pos busy

theorem slot_finish_done (c : Config) (t : Bool) (s : Backend) :
    Finished t s (slot_finish c t s) := by
  cases flight : (s.works t).inflight with
  | false =>
      rw [slot_finish_idle flight]
      exact ⟨.refl s, fun _ _ => rfl, flight, by rw [flight]; rfl⟩
  | true =>
      rw [slot_finish_busy flight]
      let ran := gpu_run t ((s.works t).passes.length + 1) s
      obtain ⟨said, slots⟩ := say_landed_kept c (slot_close c t ran)
      have works : (say_landed c (slot_close c t ran)).works =
          Function.update ran.works t (ran.works t).finished := by
        rw [← slot_close_works c]
        funext u
        exact congrArg Slot.toWork (congrFun slots u)
      refine ⟨((gpu_run_kept ..).trans (slot_close_kept c t ran)).trans said, ?_, ?_, ?_⟩
      · intro u different
        rw [works, Function.update_of_ne different, (gpu_run_busy flight).1,
          Function.update_of_ne different]
      · rw [works, Function.update_self]
        rfl
      · rw [works, Function.update_self, flight]
        rfl

theorem slot_finish_held (t : Bool) (held : Held c ram0 s.works s.toLanding) :
    Held c ram0 (slot_finish c t s).works (slot_finish c t s).toLanding := by
  cases flight : (s.works t).inflight with
  | false =>
      rw [slot_finish_idle flight]
      exact held
  | true =>
      rw [slot_finish_busy flight]
      apply say_landed_held
      rw [slot_close_works, slot_close_landing]
      apply (gpu_run_held t _ held).finish t
      have passes := (held.regions t).passes
      rw [(gpu_run_busy flight).1, Function.update_self]
      change (s.works t).land.length ≤
        min ((s.works t).ran + ((s.works t).passes.length + 1)) ((s.works t).passes.length + 1)
      rw [passes, List.length_map]
      omega

theorem Finished.empty {t : Bool} (finished : Finished t s s')
    (idle : (s.works t).inflight = false → (s.works t).land = []) : (s'.works t).land = [] := by
  rw [finished.lands]
  split
  · rfl
  · rename_i rests
    exact idle (by simpa using rests)

theorem Finished.after {t : Bool} (finished : Finished t s s') : After s s' := by
  apply finished.toKept.after
  intro u L member
  change L ∈ (s'.works u).land at member
  by_cases here : u = t
  · subst here
    rw [finished.lands] at member
    split at member
    · cases member
    · exact member
  · rw [finished.others u here] at member
    exact member

theorem Kept.clear (kept : Kept s s') (clear : ∀ w ∈ s.writes, w.clear c) :
    ∀ w ∈ s'.writes, w.clear c := by
  rw [kept.writes]
  exact clear

theorem slot_finish_inv (t : Bool) (inv : Inv c ram0 s) :
    Inv c ram0 (slot_finish c t s) ∧ After s (slot_finish c t s) := by
  have finished := slot_finish_done c t s
  have ready := inv.ready
  by_cases current : t = s.cur
  · subst current
    rw [slot_finish_idle ready.rests]
    exact ⟨inv, .refl s⟩
  · refine ⟨⟨slot_finish_held t inv.held, ?_, finished.toKept.clear inv.clear⟩, finished.after⟩
    have here : (slot_finish c t s).works s.cur = s.works s.cur :=
      finished.others _ (Ne.symm current)
    have now : (slot_finish c t s).works (slot_finish c t s).cur = s.works s.cur := by
      rw [finished.cur, here]
    have land : (slot_finish c t s).current.land = s.current.land := congrArg Work.land now
    constructor
    · rw [finished.cur]
      exact ready.one_slot
    · exact (congrArg Work.inflight now).trans ready.rests
    · intro u different _
      rw [finished.cur] at different
      have same : u = t := by
        rw [Bool.eq_not_of_ne different, Bool.eq_not_of_ne current]
      rw [same]
      exact finished.empty (ready.other_empty t current)
    · rw [finished.recording, land, finished.dest_used, finished.cur]
      exact ready.fresh
    · rw [finished.dest_used, finished.cur]
      exact ready.dest_low
    · rw [land, finished.dest_used]
      exact ready.dest_after
    · rw [finished.pool_used, finished.cur]
      exact ready.pool_low

theorem finish_all_inv (inv : Inv c ram0 s) :
    Inv c ram0 (finish_all c s) ∧ After s (finish_all c s) := by
  obtain ⟨first, after⟩ := slot_finish_inv (s.other c) inv
  obtain ⟨second, later⟩ := slot_finish_inv s.cur first
  exact ⟨second, after.trans later⟩

theorem slot_poll_inv (timing : Timing) (inv : Inv c ram0 s) :
    Inv c ram0 (slot_poll c timing s) ∧ After s (slot_poll c timing s) := by
  obtain ⟨ticked, after⟩ := tick_inv timing inv
  unfold slot_poll
  dsimp only
  split
  · exact ⟨ticked, after⟩
  · obtain ⟨finished, later⟩ := slot_finish_inv ((tick timing s).other c) ticked
    exact ⟨finished, after.trans later⟩

/-! A slot submitted, and the next entered. -/

theorem submit_go_works (s : Backend) :
    (submit_go s).works = Function.update s.works s.cur (s.works s.cur).submitted :=
  works_set_slot ..

theorem submit_go_held (held : Held c ram0 s.works s.toLanding) :
    Held c ram0 (submit_go s).works (submit_go s).toLanding := by
  rw [submit_go_works]
  exact held.submit s.cur

theorem submit_go_after (s : Backend) : After s (submit_go s) := by
  refine ⟨rfl, rfl, rfl, ?_⟩
  rw [submit_go_works, pending_update (W := (s.works s.cur).submitted) rfl]
  exact fun _ => id

theorem slot_enter_inv {t : Bool} (held : Held c ram0 s.works s.toLanding)
    (clear : ∀ w ∈ s.writes, w.clear c) (slots : c.two_slots = false → t = false)
    (rests : (s.works t).inflight = false) (empty : (s.works t).land = [])
    (others : ∀ u, u ≠ t → (s.works u).inflight = false → (s.works u).land = []) :
    Inv c ram0 (slot_enter c t s) := by
  refine ⟨held, ⟨slots, rests, others, fun _ => ⟨empty, rfl⟩, Nat.le_refl _, ?_, Nat.le_refl _⟩,
    clear⟩
  intro L member
  have none : L ∈ (s.works t).land := member
  rw [empty] at none
  cases none

theorem slot_enter_after (t : Bool) (s : Backend) : After s (slot_enter c t s) :=
  ⟨rfl, rfl, rfl, fun _ => id⟩

theorem other_slots (slots : c.two_slots = false → s.cur = false) :
    c.two_slots = false → s.other c = false := by
  intro one
  rw [Backend.other, one]
  exact slots one

theorem other_one (one : s.other c = s.cur) : c.two_slots = false := by
  cases two : c.two_slots with
  | false => rfl
  | true =>
      rw [Backend.other, if_pos two] at one
      cases here : s.cur <;> simp [here] at one

/-- Once submitted, a slot that is not in flight holds nothing. -/
theorem submit_go_empty (ready : Ready c s) (t : Bool)
    (idle : ((submit_go s).works t).inflight = false) : ((submit_go s).works t).land = [] := by
  rw [submit_go_works] at idle ⊢
  by_cases current : t = s.cur
  · subst current
    rw [Function.update_self] at idle
    cases idle
  · rw [Function.update_of_ne current] at idle ⊢
    exact ready.other_empty t current idle

theorem submit_next_inv (inv : Inv c ram0 s) :
    Inv c ram0 (submit_next c s) ∧ After s (submit_next c s) := by
  unfold submit_next
  dsimp only
  split
  · have held := submit_go_held inv.held
    have empty := submit_go_empty inv.ready
    split
    · have finished := slot_finish_done c s.cur (submit_go s)
      refine ⟨?_, ((submit_go_after s).trans finished.after).trans (slot_enter_after ..)⟩
      apply slot_enter_inv (slot_finish_held s.cur held)
      · exact finished.toKept.clear inv.clear
      · exact inv.ready.one_slot
      · exact finished.rests
      · exact finished.empty (empty s.cur)
      · intro u different idle
        rw [finished.others u different] at idle ⊢
        exact empty u idle
    · rename_i both
      have different : s.other c ≠ s.cur := by
        intro same
        simp [same] at both
        exact both.1 rfl
      have finished := slot_finish_done c (s.other c) (submit_go s)
      refine ⟨?_, ((submit_go_after s).trans finished.after).trans (slot_enter_after ..)⟩
      apply slot_enter_inv (slot_finish_held (s.other c) held)
      · exact finished.toKept.clear inv.clear
      · exact other_slots inv.ready.one_slot
      · exact finished.rests
      · exact finished.empty (empty (s.other c))
      · intro u other idle
        rw [finished.others u other] at idle ⊢
        exact empty u idle
  · exact ⟨inv, .refl s⟩

/-- A slot gone on to has its own region whole. -/
theorem submit_next_used (inv : Inv c ram0 s) :
    (submit_next c s).dest_used = half DEST_BYTES (submit_next c s).cur := by
  unfold submit_next
  dsimp only
  split
  · split <;> rfl
  · rename_i idle
    exact (inv.ready.fresh (by simpa using idle)).2

theorem finish_all_empty (slots : c.two_slots = false → s.cur = false)
    (one_slot : c.two_slots = false → (s.works true).land = [])
    (idle : ∀ t, (s.works t).inflight = false → (s.works t).land = []) (t : Bool) :
    ((finish_all c s).works t).land = [] := by
  have first := slot_finish_done c (s.other c) s
  have second := slot_finish_done c s.cur (slot_finish c (s.other c) s)
  by_cases current : t = s.cur
  · subst current
    apply second.empty
    intro rests
    by_cases same : s.cur = s.other c
    · rw [same]
      exact first.empty (idle (s.other c))
    · rw [first.others s.cur same] at rests ⊢
      exact idle s.cur rests
  · change ((slot_finish c s.cur (slot_finish c (s.other c) s)).works t).land = []
    rw [second.others t current]
    by_cases other : t = s.other c
    · subst other
      exact first.empty (idle (s.other c))
    · rw [first.others t other]
      have one : c.two_slots = false := by
        apply other_one (s := s)
        rw [Bool.eq_not_of_ne (Ne.symm other), Bool.eq_not_of_ne (Ne.symm current)]
      have last : t = true := by
        rw [slots one] at current
        exact Bool.eq_not_of_ne current
      rw [last]
      exact one_slot one

theorem finish_all_kept (c : Config) (s : Backend) : Kept s (finish_all c s) :=
  (slot_finish_done c (s.other c) s).toKept.trans (slot_finish_done c s.cur _).toKept

theorem finish_all_held (held : Held c ram0 s.works s.toLanding) :
    Held c ram0 (finish_all c s).works (finish_all c s).toLanding :=
  slot_finish_held s.cur (slot_finish_held (s.other c) held)

theorem finish_all_after (c : Config) (s : Backend) : After s (finish_all c s) :=
  (slot_finish_done c (s.other c) s).after.trans (slot_finish_done c s.cur _).after

theorem submit_wait_inv (inv : Inv c ram0 s) :
    Inv c ram0 (submit_wait c s) ∧ After s (submit_wait c s) := by
  have ready := inv.ready
  unfold submit_wait
  dsimp only
  split
  · have kept := finish_all_kept c (submit_go s)
    have lands := finish_all_empty (s := submit_go s) ready.one_slot
      (submit_go_held inv.held).one_slot (submit_go_empty ready)
    refine ⟨?_, ((submit_go_after s).trans (finish_all_after ..)).trans (slot_enter_after ..)⟩
    apply slot_enter_inv (finish_all_held (submit_go_held inv.held))
    · exact kept.clear inv.clear
    · intro one
      exact kept.cur.trans (ready.one_slot one)
    · rw [kept.cur]
      exact (slot_finish_done c s.cur _).rests
    · exact lands _
    · exact fun u _ _ => lands u
  · exact finish_all_inv inv

/-- Nothing is left to land. -/
theorem land_wait_empty (inv : Inv c ram0 s) : pending (land_wait c s).works = [] := by
  have ready := inv.ready
  have lands : ∀ t, ((land_wait c s).works t).land = [] := by
    unfold land_wait submit_wait
    dsimp only
    split
    · exact finish_all_empty (s := submit_go s) ready.one_slot
        (submit_go_held inv.held).one_slot (submit_go_empty ready)
    · rename_i idle
      apply finish_all_empty ready.one_slot inv.held.one_slot
      intro t rests
      by_cases current : t = s.cur
      · subst current
        exact (ready.fresh (by simpa using idle)).1
      · exact ready.other_empty t current rests
  rw [pending, lands, lands]
  rfl

end SoaPort.Gxv
