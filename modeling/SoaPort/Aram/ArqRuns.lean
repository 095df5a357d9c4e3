import SoaPort.Aram.ArqCorrect

namespace SoaPort.Aram

variable {F : Type}

/-! Runs of the queue: callers post, the engine ends transfers, and callbacks
post again. -/

def Post.queue (p : Post F) : Queue := if p.priority = ARQ_PRIORITY_LOW then .lo else .hi

/-- The callback a request's end makes. -/
def Post.made (p : Post F) : Called F := ⟨p.queue, p.called, p.task⟩

/-- The queue, the transfers the engine has not ended, and what happened so far:
the transfers started, the callbacks made and the requests posted. -/
structure World (F : Type) where
  q : Arq F
  flight : List Dma
  started : List Dma
  called : List (Called F)
  posts : List (Post F)

inductive Step (F : Type) where
  | call (c : Call F)
  | interrupt (calls : List (Call F))

def World.initial (q : Arq F) : World F := ⟨ARQInit q, [], [], [], []⟩

def World.step (w : World F) : Step F → World F
  | .call c =>
      let r := w.q.call c
      { q := r.1
        flight := w.flight ++ r.2
        started := w.started ++ r.2
        called := w.called
        posts := w.posts ++ c.posts }
  | .interrupt calls =>
      let r := ARQInterruptServiceRoutine w.q calls
      { q := r.1
        flight := w.flight.tail ++ r.2.1
        started := w.started ++ r.2.1
        called := w.called ++ r.2.2
        posts := w.posts ++ (w.q.ran calls).flatMap Call.posts }

/-- A block whose every request has had its callback. -/
def Free (posts : List (Post F)) (called : List (Called F)) (t : Ptr) : Prop :=
  t ≠ NULL ∧ (posts.map (·.task)).count t = (called.map (·.pointerToRequest)).count t

/-- Callers keep to the two priorities, and post a block again only when it is free. -/
def Fits (posts : List (Post F)) (called : List (Called F)) : List (Call F) → Prop
  | [] => True
  | c :: rest =>
      (∀ p, c = .post p → Free posts called p.task ∧
        (p.priority = ARQ_PRIORITY_LOW ∨ p.priority = ARQ_PRIORITY_HIGH)) ∧
      Fits (posts ++ c.posts) called rest

/-- A callback may post its own request's block. The engine interrupts for a
transfer that it was given. -/
def World.Allows (w : World F) : Step F → Prop
  | .call c => Fits w.posts w.called [c]
  | .interrupt calls =>
      w.flight ≠ [] ∧ Fits w.posts (w.called ++ w.q.due) (w.q.ran calls)

inductive World.Reach : World F → Prop
  | initial {q : Arq F} (new : q.ARQInitFlag = false) : Reach (.initial q)
  | step {w : World F} {s : Step F} (reach : Reach w) (allows : w.Allows s) : Reach (w.step s)

def World.run (w : World F) (steps : List (Step F)) : World F := steps.foldl World.step w

def World.AllowsAll (w : World F) : List (Step F) → Prop
  | [] => True
  | s :: rest => w.Allows s ∧ (w.step s).AllowsAll rest

namespace Agenda

/-- The requests of a queue that have not had their callbacks, the first first. -/
def line (a : Agenda F) : Queue → List (Post F)
  | .hi => a.high.toList ++ a.hi
  | .lo => a.low.toList.map (·.post) ++ a.lo

variable {a : Agenda F} {p : Post F}

theorem line_enqueue (a : Agenda F)
    (queued : p.priority = ARQ_PRIORITY_LOW ∨ p.priority = ARQ_PRIORITY_HIGH) (k : Queue) :
    (a.enqueue p).line k = a.line k ++ [p].filter (·.queue = k) := by
  rw [enqueue]
  by_cases low : p.priority = ARQ_PRIORITY_LOW
  · have queue : p.queue = .lo := if_pos low
    rw [if_pos low]
    cases k <;> simp [line, queue]
  · have queue : p.queue = .hi := if_neg low
    rw [if_neg low, if_pos (queued.resolve_left low)]
    cases k <;> simp [line, queue]

theorem line_note (a : Agenda F) {c : Call F} (takes : a.Takes c) (k : Queue) :
    (a.note c).line k = a.line k ++ c.posts.filter (·.queue = k) := by
  cases c with
  | post p => exact a.line_enqueue (takes p rfl).2 k
  | chunk size => cases k <;> exact (List.append_nil _).symm

theorem line_notes {calls : List (Call F)} (takes : a.TakesAll calls) (k : Queue) :
    (calls.foldl note a).line k = a.line k ++ (calls.flatMap Call.posts).filter (·.queue = k) := by
  induction calls generalizing a with
  | nil => exact (List.append_nil _).symm
  | cons c calls ih =>
      rw [List.foldl_cons, ih takes.2, a.line_note takes.1, List.flatMap_cons, List.filter_append,
        List.append_assoc]

theorem line_serve_part (a : Agenda F) (d : Part F) (k : Queue) :
    (a.serve_part d).1.line k = ({ a with low := some d } : Agenda F).line k := by
  rw [serve_part]
  split <;> cases k <;> rfl

theorem line_start (a : Agenda F) (free : a.high = none) (k : Queue) :
    a.start.1.line k = a.line k := by
  rw [start]
  cases his : a.hi with
  | cons p rest => cases k <;> simp [line, his, free]
  | nil =>
      dsimp only [serve]
      cases low : a.low with
      | some d =>
          dsimp only
          rw [line_serve_part, ← low]
      | none =>
          cases los : a.lo with
          | nil => rfl
          | cons p rest =>
              dsimp only
              rw [line_serve_part]
              cases k <;> simp [line, los, low]

theorem line_drop (a : Agenda F) (k : Queue) :
    a.line k = ((a.finished.toList.filter (·.1 = k)).map (·.2)) ++ a.drop.line k := by
  rw [finished, drop]
  cases high : a.high with
  | some p => cases k <;> simp [line, high]
  | none =>
      cases low : a.low with
      | none => cases k <;> simp [line, high, low]
      | some d => cases last : d.last <;> cases k <;> simp [line, high, low, last, Option.filter]

/-- What starts is the high line's first request, the piece under way's next, or
the low line's first request. -/
theorem start_cases (a : Agenda F) :
    (∃ p rest, a.hi = p :: rest ∧
      a.start = ({ a with hi := rest, high := some p }, [p.piece .hi 0 p.length])) ∨
    (∃ d, a.hi = [] ∧ a.low = some d ∧ a.start = a.serve_part d) ∨
    (∃ p rest, a.hi = [] ∧ a.low = none ∧ a.lo = p :: rest ∧
      a.start = { a with lo := rest }.serve_part ⟨p, 0, false⟩) ∨
    (a.hi = [] ∧ a.low = none ∧ a.lo = [] ∧ a.start = (a, [])) := by
  obtain ⟨hi, lo, high, low, chunk⟩ := a
  cases hi with
  | cons p rest => exact .inl ⟨p, rest, rfl, rfl⟩
  | nil =>
      cases low with
      | some d => exact .inr (.inl ⟨d, rfl, rfl, rfl⟩)
      | none =>
          cases lo with
          | cons p rest => exact .inr (.inr (.inl ⟨p, rest, rfl, rfl, rfl, rfl⟩))
          | nil => exact .inr (.inr (.inr ⟨rfl, rfl, rfl, rfl⟩))

theorem serve_part_length (a : Agenda F) (d : Part F) :
    (a.serve_part d).2.length = if (a.serve_part d).1.idle then 0 else 1 := by
  rw [serve_part]
  split <;> simp [idle]

theorem start_length (a : Agenda F) (free : a.high = none) :
    a.start.2.length = if a.start.1.idle then 0 else 1 := by
  rcases a.start_cases with ⟨p, rest, -, is⟩ | ⟨d, -, -, is⟩ | ⟨p, rest, -, -, -, is⟩ |
    ⟨-, low, -, is⟩
  · rw [is]
    rfl
  · rw [is]
    exact serve_part_length a d
  · rw [is]
    exact serve_part_length _ _
  · rw [is]
    simp [idle, free, low]

theorem start_rest (a : Agenda F) (idle : a.start.1.idle = true) :
    a.start.1.hi = [] ∧ a.start.1.lo = [] := by
  have part : ∀ (b : Agenda F) (d : Part F), (b.serve_part d).1.idle = false := by
    intro b d
    rw [serve_part]
    split <;> simp [Agenda.idle]
  rcases a.start_cases with ⟨p, rest, -, is⟩ | ⟨d, -, -, is⟩ | ⟨p, rest, -, -, -, is⟩ |
    ⟨hi, -, lo, is⟩
  · rw [is] at idle
    cases idle
  · rw [is, part] at idle
    cases idle
  · rw [is, part] at idle
    cases idle
  · rw [is]
    exact ⟨hi, lo⟩

theorem piece_queue (p : Post F) (k : Queue) (n : Nat) (m : Word) : (p.piece k n m).queue = k := by
  rw [Post.piece, start_dma]
  split <;> rfl

theorem serve_part_hi (a : Agenda F) (d : Part F) :
    (a.serve_part d).1.hi = a.hi ∧ (a.serve_part d).1.high = a.high := by
  rw [serve_part]
  split <;> exact ⟨rfl, rfl⟩

/-- A low piece starts when no high request waits. -/
theorem start_lo (a : Agenda F) (free : a.high = none) {x : Dma} (member : x ∈ a.start.2)
    (lo : x.queue = .lo) : a.start.1.hi = [] ∧ a.start.1.high = none := by
  rcases a.start_cases with ⟨p, rest, -, is⟩ | ⟨d, hi, -, is⟩ | ⟨p, rest, hi, -, -, is⟩ |
    ⟨hi, -, -, is⟩
  · rw [is] at member
    rw [List.mem_singleton.mp member, piece_queue] at lo
    cases lo
  · rw [is, (serve_part_hi a d).1, (serve_part_hi a d).2]
    exact ⟨hi, free⟩
  · rw [is, (serve_part_hi _ _).1, (serve_part_hi _ _).2]
    exact ⟨hi, free⟩
  · rw [is]
    exact ⟨hi, free⟩

/-- A call starts something if no transfer runs, and queues nothing then but so. -/
theorem call_cases (a : Agenda F) (c : Call F) :
    (a.call c = (a.note c, []) ∧
      (a.idle = true → (a.note c).hi = a.hi ∧ (a.note c).lo = a.lo)) ∨
    (a.idle = true ∧ a.call c = (a.note c).start) := by
  cases c with
  | chunk size => exact .inl ⟨rfl, fun _ => ⟨rfl, rfl⟩⟩
  | post p =>
      rw [call, post]
      split
      next free => exact .inr ⟨free, rfl⟩
      next busy => exact .inl ⟨rfl, fun free => absurd free busy⟩

theorem idle_iff (a : Agenda F) : a.idle = true ↔ a.high = none ∧ a.low = none := by
  rw [idle, Bool.and_eq_true, Option.isNone_iff_eq_none, Option.isNone_iff_eq_none]

end Agenda

/-! ### Pieces on 32 bytes -/

theorem rounded_even (size : Word) : (Agenda.rounded size).toNat % 32 = 0 := by
  have lt := size.isLt
  have remainder : (size % 32).toNat = size.toNat % 32 := BitVec.toNat_umod
  rw [Agenda.rounded]
  split
  · rw [BitVec.toNat_add, BitVec.toNat_sub, remainder]
    have whole : (32 : Word).toNat = 32 := rfl
    rw [whole]
    omega
  next whole =>
    have zero := congrArg BitVec.toNat (not_not.mp whole)
    rwa [remainder] at zero

/-- The pieces of the low request under way begin on 32 bytes. -/
structure Agenda.Even (a : Agenda F) : Prop where
  chunk : a.chunk.toNat % 32 = 0
  done : ∀ d, a.low = some d → d.last = false →
    d.done % 32 = 0 ∧ (d.done < d.post.length.toNat ∨ d.done = 0)

section Even

variable {a : Agenda F}

theorem Agenda.Even.note (even : a.Even) (c : Call F) : (a.note c).Even := by
  refine ⟨?_, ?_⟩
  · cases c with
    | chunk size => exact rounded_even size
    | post p =>
        change (a.enqueue p).chunk.toNat % 32 = 0
        rw [(enqueue_low a p).2.2]
        exact even.chunk
  · rw [(note_low a c).1]
    exact even.done

theorem Agenda.Even.notes (even : a.Even) (calls : List (Call F)) :
    (calls.foldl Agenda.note a).Even := by
  induction calls generalizing a with
  | nil => exact even
  | cons c calls ih => exact ih (even.note c)

theorem Agenda.Even.serve_part (chunk : a.chunk.toNat % 32 = 0) {d : Part F}
    (even : d.done % 32 = 0) : (a.serve_part d).1.Even := by
  rw [Agenda.serve_part]
  split
  · refine ⟨chunk, ?_⟩
    rintro e ⟨⟩ ⟨⟩
  next tight =>
    refine ⟨chunk, ?_⟩
    rintro e ⟨⟩ -
    change (d.done + a.chunk.toNat) % 32 = 0 ∧
      (d.done + a.chunk.toNat < d.post.length.toNat ∨ d.done + a.chunk.toNat = 0)
    omega

theorem Agenda.Even.start (even : a.Even) (between : ∀ d, a.low = some d → d.last = false) :
    a.start.1.Even := by
  rcases a.start_cases with ⟨p, rest, -, is⟩ | ⟨d, -, low, is⟩ | ⟨p, rest, -, -, -, is⟩ |
    ⟨-, -, -, is⟩
  · rw [is]
    exact ⟨even.chunk, even.done⟩
  · rw [is]
    exact .serve_part even.chunk (even.done d low (between d low)).1
  · rw [is]
    exact .serve_part (a := { a with lo := rest }) (d := ⟨p, 0, false⟩) even.chunk
      (Nat.zero_mod 32)
  · rw [is]
    exact even

theorem Agenda.Even.drop (even : a.Even) : a.drop.Even := by
  rw [Agenda.drop]
  split
  · exact ⟨even.chunk, even.done⟩
  · refine ⟨even.chunk, ?_⟩
    intro d kept
    exact even.done d (Option.filter_eq_some_iff.mp kept).1

/-- A transfer of some request of these, begun on 32 bytes and no longer than it. -/
def Piece (posts : List (Post F)) (x : Dma) : Prop :=
  ∃ p ∈ posts, ∃ k done n, x = p.piece k done n ∧ done % 32 = 0 ∧
    done + n.toNat ≤ p.length.toNat

theorem Agenda.serve_part_piece {x : Dma} {d : Part F} (even : d.done % 32 = 0)
    (le : d.done ≤ d.post.length.toNat) (member : x ∈ (a.serve_part d).2) :
    Piece ((a.serve_part d).1.line .lo) x := by
  have last : d.post.length - BitVec.ofNat 32 d.done =
      BitVec.ofNat 32 (d.post.length.toNat - d.done) := by
    apply BitVec.eq_of_toNat_eq
    have lt := d.post.length.isLt
    rw [BitVec.toNat_sub, BitVec.toNat_ofNat, BitVec.toNat_ofNat]
    omega
  rw [serve_part] at member ⊢
  split at member
  next short =>
    rw [if_pos short]
    refine ⟨d.post, List.mem_append_left _ (List.mem_singleton.mpr rfl), .lo, d.done, _,
      List.mem_singleton.mp member, even, ?_⟩
    have lt := d.post.length.isLt
    rw [last, BitVec.toNat_ofNat, Nat.mod_eq_of_lt (by omega)]
    omega
  next more =>
    rw [if_neg more]
    refine ⟨d.post, List.mem_append_left _ (List.mem_singleton.mpr rfl), .lo, d.done, _,
      List.mem_singleton.mp member, even, ?_⟩
    omega

theorem Agenda.start_piece {x : Dma} (even : a.Even)
    (between : ∀ d, a.low = some d → d.last = false) (member : x ∈ a.start.2) : ∃ k, Piece (a.start.1.line k) x := by
  rcases a.start_cases with ⟨p, rest, -, is⟩ | ⟨d, -, low, is⟩ | ⟨p, rest, -, -, -, is⟩ |
    ⟨-, -, -, is⟩
  · rw [is] at member ⊢
    refine ⟨.hi, p, List.mem_append_left _ (List.mem_singleton.mpr rfl), .hi, 0, _,
      List.mem_singleton.mp member, rfl, ?_⟩
    exact Nat.le_of_eq (Nat.zero_add _)
  · rw [is] at member ⊢
    obtain ⟨done, reach⟩ := even.done d low (between d low)
    exact ⟨.lo, serve_part_piece done (by omega) member⟩
  · rw [is] at member ⊢
    exact ⟨.lo, serve_part_piece rfl (Nat.zero_le _) member⟩
  · rw [is] at member
    cases member

end Even

/-! ### The books of a run -/

/-- The transfers of a low request's bytes from one place to another, each
leading on from the one before. -/
def Post.Covers (p : Post F) : Nat → List Dma → Nat → Prop
  | start, [], stop => start = stop
  | start, x :: rest, stop =>
      ∃ n : Word, x = p.piece .lo start n ∧ start + n.toNat ≤ p.length.toNat ∧
        p.Covers (start + n.toNat) rest stop

theorem Post.Covers.snoc {p : Post F} {start stop : Nat} {pieces : List Dma}
    (covers : p.Covers start pieces stop) {n : Word}
    (inside : stop + n.toNat ≤ p.length.toNat) :
    p.Covers start (pieces ++ [p.piece .lo stop n]) (stop + n.toNat) := by
  induction pieces generalizing start with
  | nil =>
      cases covers
      exact ⟨n, rfl, inside, rfl⟩
  | cons x rest ih =>
      obtain ⟨m, is, fits, more⟩ := covers
      exact ⟨m, is, fits, ih more⟩

/-- A high request's one transfer. -/
def Post.whole (p : Post F) : Dma := p.piece .hi 0 p.length

/-- How far the piece under way reaches. -/
def Part.reach (d : Part F) : Nat := if d.last then d.post.length.toNat else d.done

/-- The transfers started, queue by queue: each high request's in one, and each
low one's piece by piece. -/
structure Sent (posts : List (Post F)) (started : List Dma) (a : Agenda F) : Prop where
  hi : ∃ ended, posts.filter (·.queue = .hi) = ended ++ a.line .hi ∧
    started.filter (·.queue = .hi) = (ended ++ a.high.toList).map Post.whole
  lo : ∃ ended pieces current,
    posts.filter (·.queue = .lo) = ended ++ a.line .lo ∧
    started.filter (·.queue = .lo) = pieces.flatten ++ current ∧
    List.Forall₂ (fun p ds => p.Covers 0 ds p.length.toNat) ended pieces ∧
    (∀ d, a.low = some d → d.post.Covers 0 current d.reach) ∧
    (a.low = none → current = [])

structure Books (posts : List (Post F)) (called : List (Called F)) (started : List Dma)
    (a : Agenda F) : Prop where
  order : ∀ k, (posts.filter (·.queue = k)).map Post.made =
    called.filter (·.queue = k) ++ (a.line k).map Post.made
  counts : ∀ t, (posts.map (·.task)).count t =
    (called.map (·.pointerToRequest)).count t + a.tasks.count t
  sent : Sent posts started a

section Books

variable {posts : List (Post F)} {called : List (Called F)} {started : List Dma} {a : Agenda F}
  {c : Call F} {calls : List (Call F)}

theorem Sent.note (sent : Sent posts started a) (takes : a.Takes c) :
    Sent (posts ++ c.posts) started (a.note c) := by
  obtain ⟨⟨begun, hi_posts, hi_sent⟩, ended, pieces, current, lo_posts, rest⟩ := sent
  refine ⟨⟨begun, ?_, ?_⟩, ended, pieces, current, ?_, ?_⟩
  · rw [List.filter_append, hi_posts, a.line_note takes, List.append_assoc]
  · rw [(note_low a c).2]
    exact hi_sent
  · rw [List.filter_append, lo_posts, a.line_note takes, List.append_assoc]
  · rw [(note_low a c).1]
    exact rest

theorem Books.note (books : Books posts called started a) (takes : a.Takes c) :
    Books (posts ++ c.posts) called started (a.note c) := by
  refine ⟨?_, ?_, books.sent.note takes⟩
  · intro k
    rw [List.filter_append, List.map_append, books.order, a.line_note takes, List.map_append,
      List.append_assoc]
  · intro t
    have perm := (a.tasks_note fun p is => (takes p is).2).count_eq t
    rw [List.count_append] at perm
    rw [List.map_append, List.count_append, books.counts, perm]
    omega

theorem Books.notes (books : Books posts called started a) (takes : a.TakesAll calls) :
    Books (posts ++ calls.flatMap Call.posts) called started (calls.foldl Agenda.note a) := by
  induction calls generalizing posts a with
  | nil => simpa using books
  | cons c calls ih =>
      rw [List.flatMap_cons, ← List.append_assoc, List.foldl_cons]
      exact ih (books.note takes.1) takes.2

/-- A piece of the low request under way, up to `stop`. -/
theorem Sent.serve_part (sent : Sent posts started a) {d : Part F} (low : a.low = some d)
    (going : d.last = false) (more : d.done ≤ d.post.length.toNat) :
    Sent posts (started ++ (a.serve_part d).2) (a.serve_part d).1 := by
  obtain ⟨⟨begun, hi_posts, hi_sent⟩, ended, pieces, current, lo_posts, lo_sent, all, here, -⟩ :=
    sent
  have before := here d low
  rw [Part.reach, going] at before
  have step : ∀ (n : Word) (e : Part F), e.post = d.post → d.done + n.toNat ≤ d.post.length.toNat →
      e.reach = d.done + n.toNat →
      Sent posts (started ++ [d.post.piece .lo d.done n]) { a with low := some e } := by
    intro n e same inside reach
    refine ⟨⟨begun, hi_posts, ?_⟩, ended, pieces, current ++ [d.post.piece .lo d.done n], ?_,
      ?_, all, ?_, by rintro ⟨⟩⟩
    · rw [List.filter_append, hi_sent]
      simp [Agenda.piece_queue]
    · rw [lo_posts, Agenda.line, Agenda.line, low]
      simp [same]
    · rw [List.filter_append, lo_sent]
      simp [Agenda.piece_queue]
    · rintro e' ⟨⟩
      rw [same, reach]
      exact before.snoc inside
  rw [Agenda.serve_part]
  split
  next last =>
    have left := length_left more
    refine step _ { d with last := true } rfl (by omega) ?_
    rw [left, Part.reach, if_pos rfl]
    change d.post.length.toNat = _
    omega
  next tight =>
    refine step _ { d with done := d.done + a.chunk.toNat } rfl (by omega) ?_
    rw [Part.reach, going]
    rfl

theorem Sent.start (sent : Sent posts started a) (free : a.high = none)
    (between : ∀ d, a.low = some d → d.last = false ∧ d.done ≤ d.post.length.toNat) :
    Sent posts (started ++ a.start.2) a.start.1 := by
  rcases a.start_cases with ⟨p, rest, hi, is⟩ | ⟨d, hi, low, is⟩ | ⟨p, rest, hi, low, lo, is⟩ |
    ⟨hi, -, -, is⟩
  · rw [is]
    obtain ⟨⟨begun, hi_posts, hi_sent⟩, ended, pieces, current, lo_posts, lo_sent, others⟩ := sent
    refine ⟨⟨begun, ?_, ?_⟩, ended, pieces, current, lo_posts, ?_, others⟩
    · rw [hi_posts, Agenda.line, Agenda.line, free, hi]
      rfl
    · rw [List.filter_append, hi_sent, free]
      simp [Agenda.piece_queue, Post.whole]
    · rw [List.filter_append, lo_sent]
      simp [Agenda.piece_queue]
  · rw [is]
    obtain ⟨going, more⟩ := between d low
    exact sent.serve_part low going more
  · rw [is]
    have taken : Sent posts started { a with lo := rest, low := some ⟨p, 0, false⟩ } := by
      obtain ⟨begun, ended, pieces, current, lo_posts, lo_sent, all, -, none_⟩ := sent
      refine ⟨begun, ended, pieces, current, ?_, lo_sent, all, ?_, by rintro ⟨⟩⟩
      · rw [lo_posts, Agenda.line, Agenda.line, low, lo]
        rfl
      · rintro d ⟨⟩
        rw [none_ low]
        rfl
    exact taken.serve_part rfl rfl (Nat.zero_le _)
  · rw [is, List.append_nil]
    exact sent

theorem Sent.drop (sent : Sent posts started a) : Sent posts started a.drop := by
  obtain ⟨⟨begun, hi_posts, hi_sent⟩, ended, pieces, current, lo_posts, lo_sent, all, here,
    none_⟩ :=
    sent
  cases high : a.high with
  | some p =>
      rw [drop_high high]
      refine ⟨⟨begun ++ [p], ?_, ?_⟩, ended, pieces, current, lo_posts, lo_sent, all, here, none_⟩
      · rw [hi_posts, Agenda.line, Agenda.line, high, List.append_assoc]
        rfl
      · rw [hi_sent, high]
        exact congrArg (List.map Post.whole) (List.append_nil _).symm
  | none =>
      by_cases last : ∃ d, a.low = some d ∧ d.last = true
      · obtain ⟨d, low, last⟩ := last
        rw [drop_last high low last]
        refine ⟨⟨begun, hi_posts, hi_sent⟩, ended ++ [d.post], pieces ++ [current], [], ?_, ?_, ?_,
          by rintro _ ⟨⟩, fun _ => rfl⟩
        · rw [lo_posts, Agenda.line, Agenda.line, low]
          simp
        · rw [lo_sent]
          simp
        · have whole := here d low
          rw [Part.reach, if_pos last] at whole
          exact List.rel_append all (.cons whole .nil)
      · rw [drop_none high fun d low => Bool.eq_false_iff.mpr fun yes => last ⟨d, low, yes⟩]
        exact ⟨⟨begun, hi_posts, hi_sent⟩, ended, pieces, current, lo_posts, lo_sent, all, here,
          none_⟩

theorem Books.start (books : Books posts called started a) (free : a.high = none)
    (between : ∀ d, a.low = some d → d.last = false ∧ d.done ≤ d.post.length.toNat) :
    Books posts called (started ++ a.start.2) a.start.1 := by
  refine ⟨?_, ?_, books.sent.start free between⟩
  · intro k
    rw [a.line_start free]
    exact books.order k
  · intro t
    rw [(a.tasks_start free).count_eq]
    exact books.counts t

/-- A request that is not done is on its own queue. -/
theorem Books.queue (books : Books posts called started a) {k : Queue} {p : Post F}
    (member : p ∈ a.line k) : p.queue = k := by
  have made : p.made ∈ (posts.filter (·.queue = k)).map Post.made := by
    rw [books.order]
    exact List.mem_append_right _ (List.mem_map_of_mem member)
  obtain ⟨p', member', same⟩ := List.mem_map.mp made
  have queue : p'.queue = k := by simpa using (List.mem_filter.mp member').2
  rw [← queue]
  exact (congrArg Called.queue same).symm

theorem Books.finished (books : Books posts called started a) {found : Queue × Post F}
    (is : a.finished = some found) : Agenda.made found = found.2.made := by
  have member : found.2 ∈ a.line found.1 := by
    rw [a.line_drop, is]
    simp
  rw [Agenda.made, Post.made, books.queue member]

theorem Books.drop (books : Books posts called started a) :
    Books posts (called ++ a.finished.toList.map Agenda.made) started a.drop := by
  refine ⟨?_, ?_, books.sent.drop⟩
  · intro k
    rw [books.order, a.line_drop k, List.filter_append, List.map_append, List.append_assoc]
    cases finished : a.finished with
    | none => rfl
    | some found =>
        have made := books.finished finished
        have queue : found.2.made.queue = found.1 := by rw [← made]; rfl
        by_cases same : found.1 = k
        · simp [same, made, queue]
        · simp [same, made, queue]
  · intro t
    have perm := a.tasks_drop.count_eq t
    rw [List.count_append] at perm
    rw [books.counts, perm, List.map_append, List.count_append, List.map_map]
    have same : (fun found : Queue × Post F => found.2.task) =
        (fun c : Called F => c.pointerToRequest) ∘ Agenda.made := rfl
    rw [same]
    omega

theorem Sent.held {posts : List (Post F)} {started : List Dma} (sent : Sent posts started a)
    {k : Queue} (member : p ∈ a.line k) : p ∈ posts := by
  obtain ⟨⟨begun, hi_posts, -⟩, ended, -, -, lo_posts, -⟩ := sent
  have kept : p ∈ posts.filter (·.queue = k) := by
    cases k with
    | hi =>
        rw [hi_posts]
        exact List.mem_append_right begun member
    | lo =>
        rw [lo_posts]
        exact List.mem_append_right ended member
  exact (List.mem_filter.mp kept).1

theorem Books.call (books : Books posts called started a) (takes : a.Takes c) :
    Books (posts ++ c.posts) called (started ++ (a.call c).2) (a.call c).1 := by
  rcases a.call_cases c with ⟨quiet, -⟩ | ⟨free, starts⟩
  · rw [quiet, List.append_nil]
    exact books.note takes
  · obtain ⟨high, low⟩ := a.idle_iff.mp free
    rw [starts]
    refine (books.note takes).start ((note_low a c).2.trans high) ?_
    rw [(note_low a c).1, low]
    rintro d ⟨⟩

theorem Books.interrupt (books : Books posts called started a)
    (takes : a.drop.TakesAll (a.ran calls))
    (free : ((a.ran calls).foldl Agenda.note a.drop).high = none)
    (between : ∀ d, ((a.ran calls).foldl Agenda.note a.drop).low = some d →
      d.last = false ∧ d.done ≤ d.post.length.toNat) :
    Books (posts ++ (a.ran calls).flatMap Call.posts) (called ++ (a.interrupt calls).2.2)
      (started ++ (a.interrupt calls).2.1) (a.interrupt calls).1 :=
  (books.drop.notes takes).start free between

end Books

/-! ### Every run -/

/-- The agenda of a run's queue, and its books. -/
structure Sound (w : World F) (a : Agenda F) : Prop where
  refines : Refines w.q a
  flight : w.flight.length = if a.idle then 0 else 1
  -- nothing waits while no transfer runs
  rest : a.idle = true → a.hi = [] ∧ a.lo = []
  even : a.Even
  books : Books w.posts w.called w.started a

section Runs

variable {w : World F} {a : Agenda F} {q : Arq F} {calls : List (Call F)}

theorem Books.takes {posts : List (Post F)} {called : List (Called F)} {started : List Dma}
    (books : Books posts called started a) (fits : Fits posts called calls) :
    a.TakesAll calls := by
  induction calls generalizing posts a with
  | nil => trivial
  | cons c calls ih =>
      obtain ⟨first, others⟩ := fits
      have takes : a.Takes c := by
        intro p is
        obtain ⟨⟨there, free⟩, queued⟩ := first p is
        have counts := books.counts p.task
        have none_ : a.tasks.count p.task = 0 := by omega
        exact ⟨⟨there, List.count_eq_zero.mp none_⟩, queued⟩
      exact ⟨takes, ih (books.note takes) others⟩

theorem complete_due (q : Arq F) (calls : List (Call F)) : (complete q calls).2.2 = q.due := by
  rw [complete, Arq.due]
  cases q.ARQCallbackHi with
  | some c => rfl
  | none => cases q.ARQCallbackLo <;> rfl

theorem runs_nil (c : ARQCallback F) : c.runs [] = [] := by
  cases c <;> rfl

theorem ran_nil (a : Agenda F) : a.ran [] = [] := by
  rw [Agenda.ran]
  cases a.finished with
  | none => rfl
  | some found => exact runs_nil _

theorem Refines.due (r : Refines q a) : q.due = a.finished.toList.map Agenda.made := by
  have takes : a.drop.TakesAll (a.ran []) := by
    rw [ran_nil]
    trivial
  rw [← complete_due q []]
  exact (complete_ready r takes).2.1

theorem Refines.ran (r : Refines q a) (calls : List (Call F)) : q.ran calls = a.ran calls := by
  rw [Arq.ran, r.due, Agenda.ran]
  cases a.finished with
  | none => rfl
  | some found => exact List.append_nil _

theorem initial_sound {q : Arq F} (new : q.ARQInitFlag = false) :
    Sound (.initial q) ⟨[], [], none, none, ARQ_CHUNK_SIZE_DEFAULT⟩ := by
  have init : ARQInit q = { q with
      ARQRequestQueueHi := NULL
      ARQRequestQueueLo := NULL
      ARQChunkSize := ARQ_CHUNK_SIZE_DEFAULT
      ARQRequestPendingHi := NULL
      ARQRequestPendingLo := NULL
      ARQCallbackHi := none
      ARQCallbackLo := none
      ARQInitFlag := true } := by
    rw [ARQInit, new]
    rfl
  have chunk : ARQ_CHUNK_SIZE_DEFAULT.toNat % 32 = 0 := by decide
  refine ⟨?_, rfl, fun _ => ⟨rfl, rfl⟩, ⟨chunk, by rintro _ ⟨⟩⟩, ?_, fun _ => rfl, ⟨[], rfl, rfl⟩,
    [], [], [], rfl, rfl, .nil, by rintro _ ⟨⟩, fun _ => rfl⟩
  · change Refines (ARQInit q) _
    rw [init]
    exact ⟨⟨.nil, .nil, by rintro _ ⟨⟩, by rintro _ ⟨⟩, by rintro _ ⟨⟩, List.nodup_nil,
      List.not_mem_nil, rfl⟩, rfl, rfl, fun _ => ⟨rfl, rfl⟩, by rintro ⟨⟩⟩
  · intro k
    cases k <;> rfl

theorem Sound.call (sound : Sound w a) {c : Call F} (allows : w.Allows (.call c)) :
    Sound (w.step (.call c)) (a.call c).1 := by
  have takes := (sound.books.takes allows).1
  obtain ⟨out, refines⟩ := call_refines sound.refines takes
  have books := sound.books.call takes
  rw [← out] at books
  have length := sound.flight
  rcases a.call_cases c with ⟨quiet, same⟩ | ⟨free, starts⟩
  · rw [quiet] at out refines books ⊢
    have idle : (a.note c).idle = a.idle := by
      rw [Agenda.idle, Agenda.idle, (note_low a c).1, (note_low a c).2]
    refine ⟨refines, ?_, ?_, sound.even.note c, books⟩
    · change (w.flight ++ (w.q.call c).2).length = _
      rw [out, List.append_nil, idle]
      exact length
    · intro free
      rw [idle] at free
      obtain ⟨hi, lo⟩ := same free
      rw [hi, lo]
      exact sound.rest free
  · rw [starts] at out refines books ⊢
    obtain ⟨none_high, none_low⟩ := a.idle_iff.mp free
    have high : (a.note c).high = none := (note_low a c).2.trans none_high
    have low : (a.note c).low = none := (note_low a c).1.trans none_low
    rw [free, if_pos rfl] at length
    refine ⟨refines, ?_, Agenda.start_rest _, (sound.even.note c).start ?_, books⟩
    · change (w.flight ++ (w.q.call c).2).length = _
      rw [out, List.length_append, length, (a.note c).start_length high, Nat.zero_add]
    · rw [low]
      rintro d ⟨⟩

theorem ready_between (r : Ready q a) :
    ∀ d, a.low = some d → d.last = false ∧ d.done ≤ d.post.length.toNat := by
  intro d low
  have going := r.between d low
  exact ⟨going, (r.toHolds.low d low).more going⟩

/-- What an interrupt finds: a transfer under way, and after the callback an agenda
that is ready for the next. -/
theorem Sound.served (sound : Sound w a) (allows : w.Allows (.interrupt calls)) :
    a.drop.TakesAll (a.ran calls) ∧
      Ready (complete w.q calls).1 ((a.ran calls).foldl Agenda.note a.drop) := by
  obtain ⟨-, fits⟩ := allows
  rw [sound.refines.due, sound.refines.ran] at fits
  have takes := sound.books.drop.takes fits
  obtain ⟨-, -, ready⟩ := complete_ready sound.refines takes
  exact ⟨takes, ready⟩

theorem Sound.interrupt (sound : Sound w a) (allows : w.Allows (.interrupt calls)) :
    Sound (w.step (.interrupt calls)) (a.interrupt calls).1 := by
  obtain ⟨takes, ready⟩ := sound.served allows
  obtain ⟨out, refines⟩ := interrupt_refines sound.refines takes
  have books := sound.books.interrupt takes ready.high (ready_between ready)
  have length : w.flight.length = 1 := by
    have length := sound.flight
    split at length
    · exact absurd (List.length_eq_zero_iff.mp length) allows.1
    · exact length
  refine ⟨refines, ?_, Agenda.start_rest _, (sound.even.drop.notes _).start ready.between, ?_⟩
  · change (w.flight.tail ++ (ARQInterruptServiceRoutine w.q calls).2.1).length = _
    rw [out, List.length_append, List.length_tail, length, Agenda.interrupt]
    dsimp only
    rw [Agenda.start_length _ ready.high, Nat.sub_self, Nat.zero_add]
  · change Books (w.posts ++ (w.q.ran calls).flatMap Call.posts)
      (w.called ++ (ARQInterruptServiceRoutine w.q calls).2.2)
      (w.started ++ (ARQInterruptServiceRoutine w.q calls).2.1) _
    rw [out, sound.refines.ran]
    exact books

theorem Sound.step (sound : Sound w a) {s : Step F} (allows : w.Allows s) :
    ∃ b, Sound (w.step s) b := by
  cases s with
  | call c => exact ⟨_, sound.call allows⟩
  | interrupt calls => exact ⟨_, sound.interrupt allows⟩

/-- No transfer is with the engine just when no request waits or is under way. -/
theorem Sound.rest_iff (sound : Sound w a) : w.flight = [] ↔ ∀ k, a.line k = [] := by
  rw [← List.length_eq_zero_iff, sound.flight]
  constructor
  · intro zero k
    have idle : a.idle = true := by
      by_contra busy
      rw [if_neg busy] at zero
      cases zero
    obtain ⟨high, low⟩ := a.idle_iff.mp idle
    obtain ⟨hi, lo⟩ := sound.rest idle
    cases k
    · rw [Agenda.line, high, hi]
      rfl
    · rw [Agenda.line, low, lo]
      rfl
  · intro none_
    have high := none_ .hi
    have low := none_ .lo
    rw [Agenda.line, List.append_eq_nil_iff, Option.toList_eq_nil_iff] at high
    rw [Agenda.line, List.append_eq_nil_iff, List.map_eq_nil_iff,
      Option.toList_eq_nil_iff] at low
    rw [if_pos (a.idle_iff.mpr ⟨high.1, low.1⟩)]

theorem World.Reach.sound (reach : w.Reach) : ∃ a, Sound w a := by
  induction reach with
  | initial new => exact ⟨_, initial_sound new⟩
  | @step w s _ allows ih =>
      obtain ⟨a, sound⟩ := ih
      exact sound.step allows

end Runs

/-! ### What a step adds -/

section Since

variable {w : World F} {a : Agenda F} {t : Step F} {posts : List (Post F)}
  {called : List (Called F)} {started : List Dma}

/-- The transfers a step starts. -/
def World.out (w : World F) : Step F → List Dma
  | .call c => (w.q.call c).2
  | .interrupt calls => (ARQInterruptServiceRoutine w.q calls).2.1

/-- What a step posts. -/
def World.posted (w : World F) : Step F → List (Post F)
  | .call c => c.posts
  | .interrupt calls => (w.q.ran calls).flatMap Call.posts

/-- The callbacks a step makes. -/
def World.completed (w : World F) : Step F → List (Called F)
  | .call _ => []
  | .interrupt calls => (ARQInterruptServiceRoutine w.q calls).2.2

theorem step_posts (w : World F) (t : Step F) : (w.step t).posts = w.posts ++ w.posted t := by
  cases t <;> rfl

theorem step_called (w : World F) (t : Step F) :
    (w.step t).called = w.called ++ w.completed t := by
  cases t with
  | call c => exact (List.append_nil _).symm
  | interrupt calls => rfl

theorem step_started (w : World F) (t : Step F) : (w.step t).started = w.started ++ w.out t := by
  cases t <;> rfl

/-- Books opened at any time are kept as the whole run's are; what a step starts is
a piece of a request, and a low one's only when no high request waits. -/
theorem Sound.since (sound : Sound w a) (books : Books posts called started a)
    (allows : w.Allows t) :
    ∃ b, Sound (w.step t) b ∧
      Books (posts ++ w.posted t) (called ++ w.completed t) (started ++ w.out t) b ∧
      ∀ x ∈ w.out t, (∃ k, Piece (b.line k) x) ∧ (x.queue = .lo → b.hi = [] ∧ b.high = none) := by
  cases t with
  | call c =>
      have takes := (sound.books.takes allows).1
      obtain ⟨out, -⟩ := call_refines sound.refines takes
      refine ⟨_, sound.call allows, ?_⟩
      rw [World.completed, List.append_nil, World.posted, World.out, out]
      refine ⟨books.call takes, ?_⟩
      rcases a.call_cases c with ⟨quiet, -⟩ | ⟨free, starts⟩
      · rw [quiet]
        rintro x ⟨⟩
      · obtain ⟨high, low⟩ := a.idle_iff.mp free
        rw [starts]
        intro x member
        refine ⟨Agenda.start_piece (sound.even.note c) ?_ member,
          Agenda.start_lo _ ((note_low a c).2.trans high) member⟩
        rw [(note_low a c).1, low]
        rintro d ⟨⟩
  | interrupt calls =>
      obtain ⟨takes, ready⟩ := sound.served allows
      obtain ⟨out, -⟩ := interrupt_refines sound.refines takes
      refine ⟨_, sound.interrupt allows, ?_⟩
      rw [World.completed, World.posted, World.out, out, sound.refines.ran]
      refine ⟨books.interrupt takes ready.high (ready_between ready), ?_⟩
      intro x member
      exact ⟨Agenda.start_piece (sound.even.drop.notes _) ready.between member,
        Agenda.start_lo _ ready.high member⟩

end Since

end SoaPort.Aram
