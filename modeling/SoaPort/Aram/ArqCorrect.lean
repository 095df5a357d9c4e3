import Mathlib.Data.List.Perm.Basic
import SoaPort.Aram.Agenda

namespace SoaPort.Aram

variable {F : Type} {q : Arq F} {a : Agenda F} {p : Post F} {d : Part F}

/-! ### The blocks the library holds -/

namespace Agenda

theorem tasks_count (a : Agenda F) (t : Ptr) :
    a.tasks.count t = (a.hi.map (·.task)).count t + (a.lo.map (·.task)).count t +
      (a.high.toList.map (·.task)).count t + (a.low.toList.map (·.post.task)).count t := by
  simp only [tasks, List.count_append]

theorem tasks_enqueue (a : Agenda F)
    (queued : p.priority = ARQ_PRIORITY_LOW ∨ p.priority = ARQ_PRIORITY_HIGH) :
    (a.enqueue p).tasks.Perm (p.task :: a.tasks) := by
  refine List.perm_iff_count.mpr fun t => ?_
  rw [List.count_cons, tasks_count, tasks_count, enqueue]
  split
  · simp only [List.map_append, List.count_append, List.map_cons, List.map_nil, List.count_singleton]
    omega
  next high =>
    rw [if_pos (queued.resolve_left high)]
    simp only [List.map_append, List.count_append, List.map_cons, List.map_nil, List.count_singleton]
    omega

theorem tasks_serve_part (a : Agenda F) (d : Part F) :
    (a.serve_part d).1.tasks.Perm ({ a with low := some d } : Agenda F).tasks := by
  rw [serve_part]
  split <;> exact .refl _

theorem tasks_start (a : Agenda F) (free : a.high = none) : a.start.1.tasks.Perm a.tasks := by
  rw [start]
  cases his : a.hi with
  | cons p rest =>
      refine List.perm_iff_count.mpr fun t => ?_
      simp only [tasks_count, his, free, List.map_cons, List.count_cons, Option.toList_some,
        Option.toList_none, List.map_nil, List.count_nil]
      omega
  | nil =>
      dsimp only [serve]
      cases low : a.low with
      | some d =>
          refine (tasks_serve_part a d).trans ?_
          rw [← low]
      | none =>
          cases los : a.lo with
          | nil => exact .refl _
          | cons p rest =>
              dsimp only
              refine (tasks_serve_part _ _).trans ?_
              refine List.perm_iff_count.mpr fun t => ?_
              simp only [tasks_count, los, low, List.map_cons, List.count_cons, Option.toList_some,
                Option.toList_none, List.map_nil, List.count_nil]
              omega

theorem tasks_drop (a : Agenda F) :
    a.tasks.Perm (a.finished.toList.map (·.2.task) ++ a.drop.tasks) := by
  refine List.perm_iff_count.mpr fun t => ?_
  rw [List.count_append, tasks_count, tasks_count, finished, drop]
  cases high : a.high with
  | some p => simp [List.count_cons]; omega
  | none =>
      cases low : a.low with
      | none => simp
      | some d =>
          cases last : d.last with
          | true =>
              simp [last, Option.filter, List.count_cons]
              omega
          | false => simp [last, Option.filter]

theorem tasks_note (a : Agenda F) {c : Call F}
    (queued : ∀ p, c = .post p → p.priority = ARQ_PRIORITY_LOW ∨ p.priority = ARQ_PRIORITY_HIGH) :
    (a.note c).tasks.Perm (c.posts.map (·.task) ++ a.tasks) := by
  cases c with
  | post p => exact a.tasks_enqueue (queued p rfl)
  | chunk size => exact .refl _

end Agenda

/-! ### A request put on its queue -/

theorem start_dma_eq {r s : ARQRequest F} (same : { r with next := NULL } = s) (queue : Queue)
    (length : Word) : start_dma queue r length = start_dma queue s length := by
  subst same
  rfl

section Enqueue

theorem Holds.hi_empty (h : Holds q a) : q.ARQRequestQueueHi = NULL ↔ a.hi = [] := by
  rw [h.hi.head_eq, List.map_eq_nil_iff]

theorem Holds.lo_empty (h : Holds q a) : q.ARQRequestQueueLo = NULL ↔ a.lo = [] := by
  rw [h.lo.head_eq, List.map_eq_nil_iff]

/-- A block is as it was, but for its link. -/
def SameBut (q q' : Arq F) (t : Ptr) : Prop :=
  { q'.task t with next := NULL } = { q.task t with next := NULL }

theorem SameBut.filled {q' : Arq F} (same : SameBut q q' p.task) (filled : Filled q p) :
    Filled q' p := by
  rw [Filled, ← filled]
  exact same

theorem sameBut_link (task : Ptr → ARQRequest F) (tail to_ t : Ptr) :
    { link task tail to_ t with next := NULL } = { task t with next := NULL } := by
  rw [link]
  by_cases same : t = tail
  · rw [same, Function.update_self]
  · rw [Function.update_of_ne same]

theorem enqueue_other (q : Arq F) (p : Post F) {t : Ptr} (other : t ≠ p.task) :
    SameBut q (enqueue q p) t := by
  have filled : { Function.update q.task p.task p.request t with next := NULL } =
      { q.task t with next := NULL } := by
    rw [Function.update_of_ne other]
  rw [SameBut, enqueue]
  dsimp only
  split
  · split
    · exact (sameBut_link _ _ _ _).trans filled
    · exact filled
  · split
    · split
      · exact (sameBut_link _ _ _ _).trans filled
      · exact filled
    · exact filled

theorem enqueue_filled (q : Arq F) (p : Post F) : Filled (enqueue q p) p := by
  have filled : { Function.update q.task p.task p.request p.task with next := NULL } =
      p.request := by
    rw [Function.update_self]
    rfl
  rw [Filled, enqueue]
  dsimp only
  split
  · split
    · exact (sameBut_link _ _ _ _).trans filled
    · exact filled
  · split
    · split
      · exact (sameBut_link _ _ _ _).trans filled
      · exact filled
    · exact filled

theorem next_fill (q : Arq F) (p : Post F) :
    (fun t => (Function.update q.task p.task p.request t).next) =
      Function.update q.next p.task NULL := by
  funext t
  by_cases same : t = p.task
  · rw [same, Function.update_self, Function.update_self]
    rfl
  · rw [Function.update_of_ne same, Function.update_of_ne same]
    rfl

theorem next_link (task : Ptr → ARQRequest F) (tail to_ : Ptr) :
    (fun t => (link task tail to_ t).next) = Function.update (fun t => (task t).next) tail to_ := by
  funext t
  rw [link]
  by_cases same : t = tail
  · rw [same, Function.update_self, Function.update_self]
  · rw [Function.update_of_ne same, Function.update_of_ne same]

theorem next_fill_link (q : Arq F) (p : Post F) (tail : Ptr) :
    (fun t => (link (Function.update q.task p.task p.request) tail p.task t).next) =
      Function.update (Function.update q.next p.task NULL) tail p.task := by
  rw [next_link, next_fill]

theorem Agenda.Fresh.hi (fresh : a.Fresh p.task) : p.task ∉ a.hi.map (·.task) := by
  have out := fresh.2
  simp only [tasks, List.mem_append, not_or] at out
  exact out.1.1.1

theorem Agenda.Fresh.lo (fresh : a.Fresh p.task) : p.task ∉ a.lo.map (·.task) := by
  have out := fresh.2
  simp only [tasks, List.mem_append, not_or] at out
  exact out.1.1.2

theorem Agenda.Fresh.low (fresh : a.Fresh p.task) (low : a.low = some d) :
    d.post.task ≠ p.task := by
  have out := fresh.2
  simp only [tasks, List.mem_append, not_or, low, Option.toList_some, List.map_cons,
    List.map_nil, List.mem_singleton] at out
  exact Ne.symm out.2

theorem Holds.lines_apart (h : Holds q a) {t : Ptr} (hi : t ∈ a.hi.map (·.task)) :
    t ∉ a.lo.map (·.task) := by
  intro lo
  have apart := h.apart
  rw [Agenda.tasks, List.append_assoc, List.append_assoc, List.nodup_append] at apart
  exact apart.2.2 t hi t (List.mem_append_left _ lo) rfl

/-- The two lines after a request is put on one. -/
theorem enqueue_lines (h : Holds q a) (fresh : a.Fresh p.task)
    (queued : p.priority = ARQ_PRIORITY_LOW ∨ p.priority = ARQ_PRIORITY_HIGH) :
    Lib.Fifo (enqueue q p).next NULL (enqueue q p).ARQRequestQueueHi
        (enqueue q p).ARQRequestTailHi ((a.enqueue p).hi.map (·.task)) ∧
      Lib.Fifo (enqueue q p).next NULL (enqueue q p).ARQRequestQueueLo
        (enqueue q p).ARQRequestTailLo ((a.enqueue p).lo.map (·.task)) := by
  rw [enqueue, Agenda.enqueue]
  dsimp only
  by_cases low : p.priority = ARQ_PRIORITY_LOW
  · rw [if_pos low, if_pos low]
    dsimp only
    rw [List.map_append, List.map_cons, List.map_nil]
    split
    next some_ =>
      have tail := h.lo.tail_mem some_
      have out : q.ARQRequestTailLo ∉ a.hi.map (·.task) := fun hi => h.lines_apart hi tail
      unfold Arq.next
      rw [next_fill_link]
      exact ⟨(h.hi.frame fresh.hi NULL).frame out p.task,
        h.lo.push_cleared some_ fresh.1 fresh.lo⟩
    next none_ =>
      unfold Arq.next
      rw [next_fill]
      exact ⟨h.hi.frame fresh.hi NULL, h.lo.push_first (not_not.mp none_) fresh.1⟩
  · rw [if_neg low, if_neg low, if_pos (queued.resolve_left low),
      if_pos (queued.resolve_left low)]
    dsimp only
    rw [List.map_append, List.map_cons, List.map_nil]
    split
    next some_ =>
      have tail := h.hi.tail_mem some_
      have out : q.ARQRequestTailHi ∉ a.lo.map (·.task) := h.lines_apart tail
      unfold Arq.next
      rw [next_fill_link]
      exact ⟨h.hi.push_cleared some_ fresh.1 fresh.hi,
        (h.lo.frame fresh.lo NULL).frame out p.task⟩
    next none_ =>
      unfold Arq.next
      rw [next_fill]
      exact ⟨h.hi.push_first (not_not.mp none_) fresh.1, h.lo.frame fresh.lo NULL⟩

/-- What a request being queued leaves alone. -/
structure SameRest (q q' : Arq F) : Prop where
  pendingHi : q'.ARQRequestPendingHi = q.ARQRequestPendingHi
  pendingLo : q'.ARQRequestPendingLo = q.ARQRequestPendingLo
  callbackHi : q'.ARQCallbackHi = q.ARQCallbackHi
  callbackLo : q'.ARQCallbackLo = q.ARQCallbackLo

theorem SameRest.trans {q₁ q₂ q₃ : Arq F} (one : SameRest q₁ q₂) (two : SameRest q₂ q₃) :
    SameRest q₁ q₃ :=
  ⟨two.pendingHi.trans one.pendingHi, two.pendingLo.trans one.pendingLo,
    two.callbackHi.trans one.callbackHi, two.callbackLo.trans one.callbackLo⟩

theorem enqueue_rest (q : Arq F) (p : Post F) :
    SameRest q (enqueue q p) ∧ (enqueue q p).ARQChunkSize = q.ARQChunkSize := by
  rw [enqueue]
  dsimp only
  split
  · split <;> exact ⟨⟨rfl, rfl, rfl, rfl⟩, rfl⟩
  · split
    · split <;> exact ⟨⟨rfl, rfl, rfl, rfl⟩, rfl⟩
    · exact ⟨⟨rfl, rfl, rfl, rfl⟩, rfl⟩

theorem enqueue_low (a : Agenda F) (p : Post F) :
    (a.enqueue p).low = a.low ∧ (a.enqueue p).high = a.high ∧ (a.enqueue p).chunk = a.chunk := by
  rw [Agenda.enqueue]
  split
  · exact ⟨rfl, rfl, rfl⟩
  · split <;> exact ⟨rfl, rfl, rfl⟩

theorem mem_enqueue {p' : Post F} :
    (p' ∈ (a.enqueue p).hi → p' = p ∨ p' ∈ a.hi) ∧
      (p' ∈ (a.enqueue p).lo → p' = p ∨ p' ∈ a.lo) := by
  rw [Agenda.enqueue]
  split
  · exact ⟨.inr, fun member => by simpa [or_comm] using member⟩
  · split
    · exact ⟨fun member => by simpa [or_comm] using member, .inr⟩
    · exact ⟨.inr, .inr⟩

theorem enqueue_holds (h : Holds q a) (fresh : a.Fresh p.task)
    (queued : p.priority = ARQ_PRIORITY_LOW ∨ p.priority = ARQ_PRIORITY_HIGH) :
    Holds (enqueue q p) (a.enqueue p) := by
  obtain ⟨hi, lo⟩ := enqueue_lines h fresh queued
  obtain ⟨rest, chunk⟩ := enqueue_rest q p
  have perm := a.tasks_enqueue queued
  refine ⟨hi, lo, ?_, ?_, ?_, ?_, ?_, ?_⟩
  · intro p' member
    rcases mem_enqueue.1 member with rfl | before
    · exact enqueue_filled q p'
    · have other : p'.task ≠ p.task := by
        intro same
        exact fresh.hi (same ▸ List.mem_map_of_mem before)
      exact (enqueue_other q p other).filled (h.hi_filled p' before)
  · intro p' member
    rcases mem_enqueue.2 member with rfl | before
    · exact enqueue_filled q p'
    · have other : p'.task ≠ p.task := by
        intro same
        exact fresh.lo (same ▸ List.mem_map_of_mem before)
      exact (enqueue_other q p other).filled (h.lo_filled p' before)
  · intro d low
    rw [(enqueue_low a p).1] at low
    have under := h.low d low
    refine ⟨rest.pendingLo.trans under.pending, rest.callbackLo.trans under.callback, ?_,
      under.more⟩
    intro going
    exact Eq.trans (enqueue_other q p (fresh.low low)) (under.request going)
  · rw [perm.nodup_iff]
    exact List.nodup_cons.mpr ⟨fresh.2, h.apart⟩
  · rw [perm.mem_iff, List.mem_cons, not_or]
    exact ⟨Ne.symm fresh.1, h.there⟩
  · rw [chunk, (enqueue_low a p).2.2]
    exact h.chunk

end Enqueue

/-! ### A transfer started -/

section Start

theorem Holds.low_there (h : Holds q a) (low : a.low = some d) : d.post.task ≠ NULL := by
  intro same
  apply h.there
  simp only [Agenda.tasks, low, Option.toList_some, List.map_cons, List.map_nil,
    List.mem_append, List.mem_singleton]
  exact .inr same.symm

theorem Holds.low_apart (h : Holds q a) (low : a.low = some d) {p' : Post F}
    (member : p' ∈ a.hi ∨ p' ∈ a.lo) : p'.task ≠ d.post.task := by
  intro same
  have apart := h.apart
  rw [Agenda.tasks, low, List.nodup_append] at apart
  refine apart.2.2 p'.task ?_ d.post.task (by simp) same
  rcases member with hi | lo
  · exact List.mem_append_left _ (List.mem_append_left _ (List.mem_map_of_mem hi))
  · exact List.mem_append_left _ (List.mem_append_right _ (List.mem_map_of_mem lo))

/-- The block of the low request under way written, its link kept. -/
theorem part_holds (h : Holds q a) (low : a.low = some d) (high : a.high = none)
    (pending : q.ARQRequestPendingHi = NULL) (callback : q.ARQCallbackHi = none)
    (r : ARQRequest F) (linked : r.next = (q.task q.ARQRequestPendingLo).next)
    (c : Option (ARQCallback F)) (d' : Part F) (same : d'.post = d.post)
    (under : UnderWay { q with
      ARQCallbackLo := c, task := Function.update q.task q.ARQRequestPendingLo r } d') :
    Refines { q with ARQCallbackLo := c, task := Function.update q.task q.ARQRequestPendingLo r }
      { a with low := some d' } := by
  have at_ := (h.low d low).pending
  have links : Arq.next { q with
      ARQCallbackLo := c, task := Function.update q.task q.ARQRequestPendingLo r } = q.next := by
    funext t
    change (Function.update q.task q.ARQRequestPendingLo r t).next = (q.task t).next
    by_cases here : t = q.ARQRequestPendingLo
    · rw [here, Function.update_self, linked]
    · rw [Function.update_of_ne here]
  have others : ∀ p', p' ∈ a.hi ∨ p' ∈ a.lo → Filled q p' → Filled { q with
      ARQCallbackLo := c, task := Function.update q.task q.ARQRequestPendingLo r } p' := by
    intro p' member filled
    change { Function.update q.task q.ARQRequestPendingLo r p'.task with next := NULL } =
      p'.request
    rw [at_, Function.update_of_ne (h.low_apart low member)]
    exact filled
  have tasks : ({ a with low := some d' } : Agenda F).tasks = a.tasks := by
    simp only [Agenda.tasks, low, Option.toList_some, List.map_cons, List.map_nil, same]
  refine ⟨⟨?_, ?_, ?_, ?_, ?_, ?_, ?_, h.chunk⟩, ?_, ?_, ?_, ?_⟩
  · rw [links]
    exact h.hi
  · rw [links]
    exact h.lo
  · exact fun p' member => others p' (.inl member) (h.hi_filled p' member)
  · exact fun p' member => others p' (.inr member) (h.lo_filled p' member)
  · rintro e ⟨⟩
    exact under
  · rw [tasks]
    exact h.apart
  · rw [tasks]
    exact h.there
  · rw [pending, high]
    rfl
  · rw [callback, high]
    rfl
  · rintro ⟨⟩
  · rw [high]
    rintro ⟨⟩

theorem take_lo_none (free : q.ARQRequestPendingLo ≠ NULL ∨ q.ARQRequestQueueLo = NULL) :
    take_lo q = q := by
  rw [take_lo, if_neg]
  rintro ⟨pending, queue⟩
  rcases free with going | empty
  · exact going pending
  · exact queue empty

theorem length_left {n : Word} {k : Nat} (le : k ≤ n.toNat) :
    (n - BitVec.ofNat 32 k).toNat = n.toNat - k := by
  have := n.isLt
  rw [BitVec.toNat_sub_of_le]
  · rw [BitVec.toNat_ofNat, Nat.mod_eq_of_lt (by omega)]
  · rw [BitVec.le_def, BitVec.toNat_ofNat, Nat.mod_eq_of_lt (by omega)]
    exact le

/-- A piece handed over, and the block moved past it. -/
theorem advance_request (p : Post F) (k : Nat) (size : Word) :
    advance { p.request with
        source := p.source + BitVec.ofNat 32 k
        dest := p.dest + BitVec.ofNat 32 k
        length := p.length - BitVec.ofNat 32 k } size =
      { p.request with
        source := p.source + BitVec.ofNat 32 (k + size.toNat)
        dest := p.dest + BitVec.ofNat 32 (k + size.toNat)
        length := p.length - BitVec.ofNat 32 (k + size.toNat) } := by
  have sum : BitVec.ofNat 32 (k + size.toNat) = BitVec.ofNat 32 k + size := by
    rw [BitVec.ofNat_add, BitVec.ofNat_toNat, BitVec.setWidth_eq]
  rw [advance, sum]
  simp only [ARQRequest.mk.injEq, true_and, and_true]
  refine ⟨?_, ?_, ?_⟩
  · rw [BitVec.add_assoc]
  · rw [BitVec.add_assoc]
  · rw [BitVec.sub_sub]

theorem serve_part_refines (h : Holds q a) (low : a.low = some d) (going : d.last = false)
    (high : a.high = none) (pending : q.ARQRequestPendingHi = NULL)
    (callback : q.ARQCallbackHi = none) :
    (ARQServiceQueueLo q).2 = (a.serve_part d).2 ∧
      Refines (ARQServiceQueueLo q).1 (a.serve_part d).1 := by
  have under := h.low d low
  have some_ : q.ARQRequestPendingLo ≠ NULL := by
    rw [under.pending]
    exact h.low_there low
  have request := under.request going
  rw [← under.pending] at request
  have length : (q.task q.ARQRequestPendingLo).length =
      d.post.length - BitVec.ofNat 32 d.done := congrArg (·.length) request
  have starts : ∀ n, start_dma .lo (q.task q.ARQRequestPendingLo) n =
      d.post.piece .lo d.done n := by
    intro n
    rw [start_dma_eq request]
    rfl
  have left := length_left (under.more going)
  rw [ARQServiceQueueLo, take_lo_none (.inl some_)]
  dsimp only
  rw [if_pos some_, length, Agenda.serve_part, starts]
  by_cases last : d.post.length.toNat - d.done ≤ a.chunk.toNat
  · have fits : d.post.length - BitVec.ofNat 32 d.done ≤ q.ARQChunkSize := by
      rw [BitVec.le_def, left, h.chunk]
      exact last
    rw [if_pos last, if_pos fits, if_pos fits]
    refine ⟨rfl, part_holds h low high pending callback
      (advance (q.task q.ARQRequestPendingLo) q.ARQChunkSize) rfl _ { d with last := true } rfl
      ⟨under.pending, ?_, ?_, ?_⟩⟩
    · exact congrArg (·.callback) request
    · rintro ⟨⟩
    · rintro ⟨⟩
  · have tight : ¬ d.post.length - BitVec.ofNat 32 d.done ≤ q.ARQChunkSize := by
      rw [BitVec.le_def, left, h.chunk]
      exact last
    rw [if_neg last, if_neg tight, if_neg tight]
    refine ⟨by rw [h.chunk], part_holds h low high pending callback
      (advance (q.task q.ARQRequestPendingLo) q.ARQChunkSize) rfl _
      { d with done := d.done + a.chunk.toNat } rfl ⟨under.pending, under.callback, ?_, ?_⟩⟩
    · intro _
      change { Function.update q.task q.ARQRequestPendingLo
        (advance (q.task q.ARQRequestPendingLo) q.ARQChunkSize) d.post.task with
          next := NULL } = _
      rw [← under.pending, Function.update_self, h.chunk]
      exact (congrArg (advance · a.chunk) request).trans
        (advance_request d.post d.done a.chunk)
    · intro _
      change d.done + a.chunk.toNat ≤ d.post.length.toNat
      omega

/-- The low line's first request taken up. -/
theorem take_lo_holds (h : Holds q a) (low : a.low = none) {rest : List (Post F)}
    (line : a.lo = p :: rest) (pending : q.ARQRequestPendingLo = NULL)
    (callback : q.ARQCallbackLo = none) :
    Holds (take_lo q) { a with lo := rest, low := some ⟨p, 0, false⟩ } := by
  have lo := h.lo
  rw [line, List.map_cons] at lo
  obtain ⟨head, others⟩ := lo.pop
  have some_ : q.ARQRequestQueueLo ≠ NULL := by
    intro empty
    rw [h.lo_empty.mp empty] at line
    cases line
  have perm : ({ a with lo := rest, low := some ⟨p, 0, false⟩ } : Agenda F).tasks.Perm a.tasks := by
    refine List.perm_iff_count.mpr fun t => ?_
    simp only [Agenda.tasks_count, line, low, List.map_cons, List.count_cons,
      Option.toList_some, Option.toList_none, List.map_nil, List.count_nil]
    omega
  rw [take_lo, if_pos ⟨pending, some_⟩]
  refine ⟨h.hi, ?_, h.hi_filled, ?_, ?_, ?_, ?_, h.chunk⟩
  · dsimp only
    rw [head]
    exact others
  · intro p' member
    refine h.lo_filled p' ?_
    rw [line]
    exact List.mem_cons_of_mem p member
  · rintro d ⟨⟩
    refine ⟨head, callback, fun _ => ?_, fun _ => Nat.zero_le _⟩
    have filled := h.lo_filled p (by rw [line]; exact List.mem_cons_self)
    simp only [BitVec.add_zero, BitVec.sub_zero]
    exact filled
  · rw [perm.nodup_iff]
    exact h.apart
  · rw [perm.mem_iff]
    exact h.there

theorem service_take (q : Arq F) : ARQServiceQueueLo q = ARQServiceQueueLo (take_lo q) := by
  have twice : take_lo (take_lo q) = take_lo q := by
    by_cases free : q.ARQRequestPendingLo = NULL ∧ q.ARQRequestQueueLo ≠ NULL
    · have taken : take_lo q = { q with
          ARQRequestPendingLo := q.ARQRequestQueueLo
          ARQRequestQueueLo := (q.task q.ARQRequestQueueLo).next } := if_pos free
      rw [taken]
      exact take_lo_none (.inl free.2)
    · have same : take_lo q = q := if_neg free
      rw [same, same]
  rw [ARQServiceQueueLo, ARQServiceQueueLo, twice]

/-- What `start_next` is given: no high request under way, and a low one
between two pieces. -/
structure Ready (q : Arq F) (a : Agenda F) : Prop extends Holds q a where
  high : a.high = none
  pending : q.ARQRequestPendingHi = NULL
  callback : q.ARQCallbackHi = none
  between : ∀ d, a.low = some d → d.last = false
  none_low : a.low = none → q.ARQRequestPendingLo = NULL ∧ q.ARQCallbackLo = none

theorem Ready.refines (r : Ready q a) : Refines q a := by
  refine ⟨r.toHolds, ?_, ?_, r.none_low, ?_⟩
  · rw [r.pending, r.high]
    rfl
  · rw [r.callback, r.high]
    rfl
  · rw [r.high]
    rintro ⟨⟩

theorem service_refines (r : Ready q a) :
    (ARQServiceQueueLo q).2 = a.serve.2 ∧ Refines (ARQServiceQueueLo q).1 a.serve.1 := by
  rw [Agenda.serve]
  cases low : a.low with
  | some d =>
      exact serve_part_refines r.toHolds low (r.between d low) r.high r.pending r.callback
  | none =>
      obtain ⟨pending, callback⟩ := r.none_low low
      cases line : a.lo with
      | nil =>
          have empty := r.lo_empty.mpr line
          rw [ARQServiceQueueLo, take_lo_none (.inr empty)]
          dsimp only
          rw [if_neg (not_not.mpr pending)]
          exact ⟨rfl, r.refines⟩
      | cons p rest =>
          have some_ : q.ARQRequestQueueLo ≠ NULL := by
            intro empty
            rw [r.lo_empty.mp empty] at line
            cases line
          have holds := take_lo_holds r.toHolds low line pending callback
          rw [service_take]
          refine serve_part_refines (a := { a with lo := rest, low := some ⟨p, 0, false⟩ })
            holds rfl rfl r.high ?_ ?_
          · rw [take_lo, if_pos ⟨pending, some_⟩]
            exact r.pending
          · rw [take_lo, if_pos ⟨pending, some_⟩]
            exact r.callback

/-- The high line's first request started. -/
theorem pop_refines (r : Ready q a) {rest : List (Post F)} (line : a.hi = p :: rest) :
    (ARQPopTaskQueueHi q).2 = [p.piece .hi 0 p.length] ∧
      Refines (ARQPopTaskQueueHi q).1 { a with hi := rest, high := some p } := by
  have hi := r.hi
  rw [line, List.map_cons] at hi
  obtain ⟨head, others⟩ := hi.pop
  have some_ : q.ARQRequestQueueHi ≠ NULL := by
    intro empty
    rw [r.hi_empty.mp empty] at line
    cases line
  have filled := r.hi_filled p (by rw [line]; exact List.mem_cons_self)
  have perm : ({ a with hi := rest, high := some p } : Agenda F).tasks.Perm a.tasks := by
    refine List.perm_iff_count.mpr fun t => ?_
    simp only [Agenda.tasks_count, line, r.high, List.map_cons, List.count_cons,
      Option.toList_some, Option.toList_none, List.map_nil, List.count_nil]
    omega
  rw [ARQPopTaskQueueHi, if_pos some_]
  dsimp only
  rw [head]
  refine ⟨?_, ⟨⟨?_, r.lo, ?_, r.lo_filled, ?_, ?_, ?_, r.chunk⟩, rfl, ?_, r.none_low, ?_⟩⟩
  · have length : (q.task p.task).length = p.length := congrArg (·.length) filled
    rw [length, start_dma_eq filled, Post.piece]
    simp only [BitVec.add_zero]
    rfl
  · exact others
  · intro p' member
    refine r.hi_filled p' ?_
    rw [line]
    exact List.mem_cons_of_mem p member
  · intro d low
    have under := r.low d low
    exact ⟨under.pending, under.callback, under.request, under.more⟩
  · rw [perm.nodup_iff]
    exact r.apart
  · rw [perm.mem_iff]
    exact r.there
  · exact congrArg (·.callback) filled
  · exact fun _ => r.between

theorem start_refines (r : Ready q a) :
    (start_next q).2 = a.start.2 ∧ Refines (start_next q).1 a.start.1 := by
  rw [start_next, Agenda.start]
  cases line : a.hi with
  | nil =>
      have empty := r.hi_empty.mpr line
      have none_ : ARQPopTaskQueueHi q = (q, []) := by
        rw [ARQPopTaskQueueHi, if_neg (not_not.mpr empty)]
      rw [none_, if_pos r.pending]
      exact service_refines r
  | cons p rest =>
      obtain ⟨out, refines⟩ := pop_refines r line
      have there : p.task ≠ NULL := by
        intro same
        apply r.there
        simp [Agenda.tasks, line, same]
      have under : (ARQPopTaskQueueHi q).1.ARQRequestPendingHi ≠ NULL := by
        rw [refines.high]
        exact there
      rw [if_neg under]
      exact ⟨out, refines⟩

end Start

/-! ### The library's entries -/

section Entries

variable {c : Call F} {calls : List (Call F)}

theorem Refines.high_idle (r : Refines q a) : a.high = none ↔ q.ARQRequestPendingHi = NULL := by
  rw [r.high]
  cases high : a.high with
  | none => exact iff_of_true rfl rfl
  | some p =>
      refine iff_of_false (by rintro ⟨⟩) fun same => r.there ?_
      simp only [Agenda.tasks, high, Option.toList_some, List.map_cons, List.map_nil,
        List.mem_append, List.mem_singleton]
      exact .inl (.inr (Eq.symm same))

theorem Refines.low_idle (r : Refines q a) : a.low = none ↔ q.ARQRequestPendingLo = NULL := by
  cases low : a.low with
  | none => exact iff_of_true rfl (r.none_low low).1
  | some d =>
      refine iff_of_false (by rintro ⟨⟩) ?_
      rw [(r.toHolds.low d low).pending]
      exact r.toHolds.low_there low

theorem Refines.idle (r : Refines q a) : a.idle = true ↔
    q.ARQRequestPendingHi = NULL ∧ q.ARQRequestPendingLo = NULL := by
  rw [← r.high_idle, ← r.low_idle, Agenda.idle, Bool.and_eq_true, Option.isNone_iff_eq_none,
    Option.isNone_iff_eq_none]

theorem chunk_holds (h : Holds q a) (size : Word) :
    Holds (ARQSetChunkSize q size) { a with chunk := Agenda.rounded size } := by
  refine ⟨h.hi, h.lo, h.hi_filled, h.lo_filled, ?_, h.apart, h.there, rfl⟩
  intro d low
  have under := h.low d low
  exact ⟨under.pending, under.callback, under.request, under.more⟩

theorem call_refines (r : Refines q a) (takes : a.Takes c) :
    (q.call c).2 = (a.call c).2 ∧ Refines (q.call c).1 (a.call c).1 := by
  cases c with
  | chunk size =>
      exact ⟨rfl, chunk_holds r.toHolds size, r.high, r.callback, r.none_low, r.between⟩
  | post p =>
      obtain ⟨fresh, queued⟩ := takes p rfl
      have holds := enqueue_holds r.toHolds fresh queued
      obtain ⟨rest, -⟩ := enqueue_rest q p
      obtain ⟨low, high, -⟩ := enqueue_low a p
      rw [Arq.call, Agenda.call, ARQPostRequest, Agenda.post]
      rw [rest.pendingHi, rest.pendingLo]
      by_cases free : a.idle = true
      · rw [if_pos free, if_pos (r.idle.mp free)]
        have pendings := r.idle.mp free
        have none_high := r.high_idle.mpr pendings.1
        have none_low := r.low_idle.mpr pendings.2
        refine start_refines ⟨holds, high.trans none_high, rest.pendingHi.trans pendings.1, ?_,
          ?_, ?_⟩
        · rw [rest.callbackHi, r.callback, none_high]
          rfl
        · rw [low, none_low]
          rintro d ⟨⟩
        · intro _
          rw [rest.pendingLo, rest.callbackLo]
          exact r.none_low none_low
      · rw [if_neg free, if_neg (fun both => free (r.idle.mpr both))]
        refine ⟨rfl, holds, ?_, ?_, ?_, ?_⟩
        · rw [rest.pendingHi, high]
          exact r.high
        · rw [rest.callbackHi, high]
          exact r.callback
        · rw [low, rest.pendingLo, rest.callbackLo]
          exact r.none_low
        · rw [low, high]
          exact r.between

/-- A call made while a request is under way starts nothing. -/
theorem note_holds (h : Holds q a) (takes : a.Takes c)
    (busy : q.ARQRequestPendingHi ≠ NULL ∨ q.ARQRequestPendingLo ≠ NULL) :
    (q.call c).2 = [] ∧ Holds (q.call c).1 (a.note c) ∧ SameRest q (q.call c).1 := by
  cases c with
  | chunk size => exact ⟨rfl, chunk_holds h size, rfl, rfl, rfl, rfl⟩
  | post p =>
      obtain ⟨fresh, queued⟩ := takes p rfl
      obtain ⟨rest, -⟩ := enqueue_rest q p
      rw [Arq.call, ARQPostRequest]
      rw [rest.pendingHi, rest.pendingLo, if_neg]
      · exact ⟨rfl, enqueue_holds h fresh queued, rest⟩
      · rintro ⟨high, low⟩
        rcases busy with there | there
        · exact there high
        · exact there low

theorem calls_hold (h : Holds q a) (takes : a.TakesAll calls)
    (busy : q.ARQRequestPendingHi ≠ NULL ∨ q.ARQRequestPendingLo ≠ NULL) :
    (q.calls calls).2 = [] ∧ Holds (q.calls calls).1 (calls.foldl Agenda.note a) ∧
      SameRest q (q.calls calls).1 := by
  induction calls generalizing q a with
  | nil => exact ⟨rfl, h, rfl, rfl, rfl, rfl⟩
  | cons c calls ih =>
      obtain ⟨first, others⟩ := takes
      obtain ⟨none_, holds, rest⟩ := note_holds h first busy
      have busy' : (q.call c).1.ARQRequestPendingHi ≠ NULL ∨
          (q.call c).1.ARQRequestPendingLo ≠ NULL := by
        rw [rest.pendingHi, rest.pendingLo]
        exact busy
      obtain ⟨none', holds', rest'⟩ := ih holds others busy'
      rw [Arq.calls, none_, none', List.foldl_cons]
      exact ⟨rfl, holds', rest.trans rest'⟩

theorem note_low (a : Agenda F) (c : Call F) :
    (a.note c).low = a.low ∧ (a.note c).high = a.high := by
  cases c with
  | chunk size => exact ⟨rfl, rfl⟩
  | post p => exact ⟨(enqueue_low a p).1, (enqueue_low a p).2.1⟩

theorem notes_low (a : Agenda F) (calls : List (Call F)) :
    (calls.foldl Agenda.note a).low = a.low ∧ (calls.foldl Agenda.note a).high = a.high := by
  induction calls generalizing a with
  | nil => exact ⟨rfl, rfl⟩
  | cons c calls ih =>
      rw [List.foldl_cons, (ih _).1, (ih _).2]
      exact note_low a c

theorem drop_apart (h : Holds q a) : a.drop.tasks.Nodup ∧ NULL ∉ a.drop.tasks := by
  have apart := h.apart
  have there := h.there
  rw [a.tasks_drop.nodup_iff, List.nodup_append] at apart
  rw [a.tasks_drop.mem_iff, List.mem_append, not_or] at there
  exact ⟨apart.2.1, there.2⟩

theorem drop_high {p : Post F} (high : a.high = some p) : a.drop = { a with high := none } := by
  rw [Agenda.drop, high]

theorem drop_last (high : a.high = none) (low : a.low = some d) (last : d.last = true) :
    a.drop = { a with low := none } := by
  rw [Agenda.drop, high, low]
  simp [Option.filter, last]

theorem drop_none (high : a.high = none) (going : ∀ d, a.low = some d → d.last = false) :
    a.drop = a := by
  obtain ⟨hi, lo, high', low, chunk⟩ := a
  cases high
  cases low with
  | none => rfl
  | some d => simp [Agenda.drop, Option.filter, going d rfl]

theorem Holds.release_hi (h : Holds q a) :
    Holds { q with ARQRequestPendingHi := NULL, ARQCallbackHi := none } a := by
  refine ⟨h.hi, h.lo, h.hi_filled, h.lo_filled, ?_, h.apart, h.there, h.chunk⟩
  intro d low
  have under := h.low d low
  exact ⟨under.pending, under.callback, under.request, under.more⟩

theorem Holds.release_lo (h : Holds q a) (low : a.low = none) :
    Holds { q with ARQRequestPendingLo := NULL, ARQCallbackLo := none } a := by
  refine ⟨h.hi, h.lo, h.hi_filled, h.lo_filled, ?_, h.apart, h.there, h.chunk⟩
  intro d some_
  rw [low] at some_
  cases some_

theorem drop_holds (h : Holds q a) (low : ∀ d, a.drop.low = some d → UnderWay q d) :
    Holds q a.drop := by
  obtain ⟨apart, there⟩ := drop_apart h
  have lines : a.drop.hi = a.hi ∧ a.drop.lo = a.lo ∧ a.drop.chunk = a.chunk := by
    rw [Agenda.drop]
    split <;> exact ⟨rfl, rfl, rfl⟩
  obtain ⟨hi, lo, chunk⟩ := lines
  refine ⟨?_, ?_, ?_, ?_, low, apart, there, ?_⟩
  · rw [hi]
    exact h.hi
  · rw [lo]
    exact h.lo
  · rw [hi]
    exact h.hi_filled
  · rw [lo]
    exact h.lo_filled
  · rw [chunk]
    exact h.chunk

/-- The request completed is let go of, after its callback's calls. -/
theorem complete_ready (r : Refines q a) (takes : a.drop.TakesAll (a.ran calls)) :
    (complete q calls).2.1 = [] ∧
      (complete q calls).2.2 = a.finished.toList.map Agenda.made ∧
      Ready (complete q calls).1 ((a.ran calls).foldl Agenda.note a.drop) := by
  cases high : a.high with
  | some p =>
      have finished : a.finished = some (.hi, p) := by rw [Agenda.finished, high]
      have due : q.ARQCallbackHi = some p.called := by rw [r.callback, high]; rfl
      have pending : q.ARQRequestPendingHi = p.task := by rw [r.high, high]; rfl
      have ran : a.ran calls = p.called.runs calls := by rw [Agenda.ran, finished]
      have busy : q.ARQRequestPendingHi ≠ NULL := by
        rw [ne_eq, ← r.high_idle, high]
        exact Option.some_ne_none p
      have dropped := drop_high high
      have holds := drop_holds r.toHolds (by rw [dropped]; exact r.low)
      obtain ⟨none_, holds', rest⟩ := calls_hold holds takes (.inl busy)
      obtain ⟨low', high'⟩ := notes_low a.drop (a.ran calls)
      rw [dropped] at low' high'
      rw [complete, due, finished]
      dsimp only
      rw [← ran, none_, pending]
      refine ⟨rfl, rfl, holds'.release_hi, ?_, rfl, rfl, ?_, ?_⟩
      · rw [dropped]
        exact high'
      · rw [dropped, low']
        exact r.between (by rw [high]; rfl)
      · rw [dropped, low']
        dsimp only
        rw [rest.pendingLo, rest.callbackLo]
        exact r.none_low
  | none =>
      have none_hi : q.ARQCallbackHi = none := by rw [r.callback, high]; rfl
      have pendingHi := r.high_idle.mp high
      cases low : a.low with
      | none =>
          have finished : a.finished = none := by rw [Agenda.finished, high, low]
          obtain ⟨pending, none_lo⟩ := r.none_low low
          have dropped : a.drop = a := drop_none high (by rw [low]; rintro d ⟨⟩)
          have ran : a.ran calls = [] := by rw [Agenda.ran, finished]
          rw [complete, none_hi, none_lo, finished, ran, dropped]
          have going : ∀ e, a.low = some e → e.last = false := by
            rw [low]
            rintro e ⟨⟩
          exact ⟨rfl, rfl, r.toHolds, high, pendingHi, none_hi, going, r.none_low⟩
      | some d =>
          have under := r.low d low
          cases last : d.last with
          | false =>
              have finished : a.finished = none := by
                rw [Agenda.finished, high, low]
                simp [last]
              have none_lo : q.ARQCallbackLo = none := by rw [under.callback, last]; rfl
              have going : ∀ e, a.low = some e → e.last = false := by
                rw [low]
                rintro e ⟨⟩
                exact last
              have dropped := drop_none high going
              have ran : a.ran calls = [] := by rw [Agenda.ran, finished]
              rw [complete, none_hi, none_lo, finished, ran, dropped]
              exact ⟨rfl, rfl, r.toHolds, high, pendingHi, none_hi, going, r.none_low⟩
          | true =>
              have finished : a.finished = some (.lo, d.post) := by
                rw [Agenda.finished, high, low]
                simp [last]
              have due : q.ARQCallbackLo = some d.post.called := by rw [under.callback, last]; rfl
              have ran : a.ran calls = d.post.called.runs calls := by rw [Agenda.ran, finished]
              have busy : q.ARQRequestPendingLo ≠ NULL := by
                rw [ne_eq, ← r.low_idle, low]
                exact Option.some_ne_none d
              have dropped := drop_last high low last
              have holds := drop_holds r.toHolds (by rw [dropped]; rintro e ⟨⟩)
              obtain ⟨none_, holds', rest⟩ := calls_hold holds takes (.inr busy)
              obtain ⟨low', high'⟩ := notes_low a.drop (a.ran calls)
              rw [dropped] at low' high'
              rw [complete, none_hi, due, finished]
              dsimp only
              rw [← ran, none_, under.pending]
              refine ⟨rfl, rfl, holds'.release_lo (by rw [dropped]; exact low'), ?_, ?_, ?_, ?_, ?_⟩
              · rw [dropped]
                exact high'.trans high
              · exact rest.pendingHi.trans pendingHi
              · exact rest.callbackHi.trans none_hi
              · rw [dropped, low']
                rintro e ⟨⟩
              · exact fun _ => ⟨rfl, rfl⟩

theorem interrupt_refines (r : Refines q a) (takes : a.drop.TakesAll (a.ran calls)) :
    (ARQInterruptServiceRoutine q calls).2 = (a.interrupt calls).2 ∧
      Refines (ARQInterruptServiceRoutine q calls).1 (a.interrupt calls).1 := by
  obtain ⟨none_, made, ready⟩ := complete_ready r takes
  obtain ⟨out, refines⟩ := start_refines ready
  rw [ARQInterruptServiceRoutine, Agenda.interrupt]
  dsimp only
  rw [none_, made, out]
  exact ⟨rfl, refines⟩

end Entries

end SoaPort.Aram
