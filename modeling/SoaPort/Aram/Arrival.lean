import SoaPort.Aram.Copies

namespace SoaPort.Aram

/-! A batch of requests posted from rest: when a request's callback is made, its
destination holds what its source held. -/

variable {F : Type}

/-- A byte of one of the two memories. -/
inductive Place where
  | main (a : Nat)
  | aram (a : Nat)

def Place.byte (m : Memories) : Place → Byte
  | .main a => m.1 a
  | .aram a => m.2 a

def Dma.src (x : Dma) (i : Nat) : Place :=
  if x.type = ARQ_TYPE_MRAM_TO_ARAM then .main (Engine.mm x.mainmem_addr + i)
  else .aram (Engine.ar x.aram_addr + i)

def Dma.dst (x : Dma) (i : Nat) : Place :=
  if x.type = ARQ_TYPE_MRAM_TO_ARAM then .aram (Engine.ar x.aram_addr + i)
  else .main (Engine.mm x.mainmem_addr + i)

/-- Where a request's byte comes from, and where it goes. -/
def Post.src (p : Post F) (i : Nat) : Place := p.whole.src i

def Post.dst (p : Post F) (i : Nat) : Place := p.whole.dst i

/-- No request writes what another reads, and two write one byte only where they
read one byte. -/
structure Clear (batch : List (Post F)) : Prop where
  reads : ∀ p ∈ batch, ∀ p' ∈ batch, ∀ i < p.length.toNat, ∀ i' < p'.length.toNat,
    p.dst i ≠ p'.src i'
  writes : ∀ p ∈ batch, ∀ p' ∈ batch, ∀ i < p.length.toNat, ∀ i' < p'.length.toNat,
    p.dst i = p'.dst i' → p.src i = p'.src i'

/-- The program stores into none of the bytes the requests name. -/
def Spares (batch : List (Post F)) (moves : List (Move F)) : Prop :=
  ∀ at_ b, Move.store at_ b ∈ moves → ∀ p ∈ batch, ∀ i < p.length.toNat,
    p.src i ≠ .main at_ ∧ p.dst i ≠ .main at_

/-! ### One transfer's bytes -/

section Bytes

variable {x : Dma} {m : Memories} {i : Nat} {l : Place}

theorem copy_inside {to_ from_ : Nat → Byte} {dst src len : Nat} (inside : i < len) :
    Engine.copy to_ from_ dst src len (dst + i) = from_ (src + i) := by
  rw [Engine.copy, Lib.overlay_inside inside]

theorem made_dst (inside : i < x.length.toNat) :
    (x.dst i).byte (x.made m) = (x.src i).byte m := by
  rw [Dma.dst, Dma.src, Dma.made]
  split
  · exact copy_inside inside
  · exact copy_inside inside

theorem copy_other {to_ from_ : Nat → Byte} {dst src len a : Nat}
    (other : ∀ i < len, a ≠ dst + i) : Engine.copy to_ from_ dst src len a = to_ a := by
  rw [Engine.copy, Lib.overlay, if_neg]
  rintro ⟨low, high⟩
  exact other (a - dst) (by omega) (by omega)

theorem made_other (other : ∀ i < x.length.toNat, l ≠ x.dst i) :
    l.byte (x.made m) = l.byte m := by
  rw [Dma.made]
  split
  next to_aram =>
    cases l with
    | main a => rfl
    | aram a =>
        refine copy_other fun i inside same => other i inside ?_
        rw [Dma.dst, if_pos to_aram, same]
  next to_main =>
    cases l with
    | aram a => rfl
    | main a =>
        refine copy_other fun i inside same => other i inside ?_
        rw [Dma.dst, if_neg to_main, same]

variable {p : Post F} {done : Nat} {n : Word}

theorem mm_at {a : Word} {length : Nat} (inside : Engine.mm a + length ≤ MEM1_SIZE)
    (lt : done < length) : Engine.mm (a + BitVec.ofNat 32 done) = Engine.mm a + done := by
  rw [mm_eq] at inside
  rw [mm_eq, mm_eq, BitVec.toNat_add, BitVec.toNat_ofNat]
  simp only [MEM1_SIZE] at inside
  omega

theorem ar_at {a : Word} {length : Nat} (inside : Engine.ar a + length ≤ ARAM_SIZE)
    (lt : done < length) : Engine.ar (a + BitVec.ofNat 32 done) = Engine.ar a + done := by
  rw [ar_eq] at inside
  rw [ar_eq, ar_eq, BitVec.toNat_add, BitVec.toNat_ofNat]
  simp only [ARAM_SIZE] at inside
  omega

/-- A piece's bytes are the request's. -/
theorem Post.Proper.piece_at (proper : p.Proper) (lt : done + i < p.length.toNat) (k : Queue) :
    (p.piece k done n).src i = p.src (done + i) ∧ (p.piece k done n).dst i = p.dst (done + i) := by
  obtain ⟨-, -, -, in_mem, in_aram⟩ := id proper
  simp only [Post.whole, Post.piece, start_dma, BitVec.add_zero] at in_mem in_aram
  simp only [Post.src, Post.dst, Post.whole, Post.piece, start_dma, BitVec.add_zero, Dma.src,
    Dma.dst]
  split at in_mem
  next to_aram =>
    rw [if_pos to_aram] at in_aram
    dsimp only at in_mem in_aram
    simp only [if_pos to_aram]
    rw [mm_at in_mem (by omega), ar_at in_aram (by omega), Nat.add_assoc, Nat.add_assoc]
    exact ⟨rfl, rfl⟩
  next to_main =>
    rw [if_neg to_main] at in_aram
    dsimp only at in_mem in_aram
    simp only [if_neg to_main]
    rw [mm_at in_mem (by omega), ar_at in_aram (by omega), Nat.add_assoc, Nat.add_assoc]
    exact ⟨rfl, rfl⟩

theorem Post.Covers.at_ {start stop : Nat} {ds : List Dma} (covers : p.Covers start ds stop)
    (low : start ≤ i) (high : i < stop) :
    ∃ x ∈ ds, ∃ done n, x = p.piece .lo done n ∧ done ≤ i ∧ i < done + n.toNat ∧
      done + n.toNat ≤ p.length.toNat := by
  induction ds generalizing start with
  | nil =>
      have same : start = stop := covers
      omega
  | cons x rest ih =>
      obtain ⟨n, is, le, others⟩ := covers
      by_cases here : i < start + n.toNat
      · exact ⟨x, List.mem_cons_self, start, n, is, low, here, le⟩
      · obtain ⟨y, member, found⟩ := ih others (by omega)
        exact ⟨y, List.mem_cons_of_mem x member, found⟩

theorem piece_length (k : Queue) : (p.piece k done n).length = n := by
  rw [Post.piece, start_dma]
  split <;> rfl

/-- Each byte a transfer moves is the same byte of a request of the batch. -/
def Moves (batch : List (Post F)) (x : Dma) : Prop :=
  ∀ j < x.length.toNat, ∃ p ∈ batch, ∃ i < p.length.toNat, x.src j = p.src i ∧ x.dst j = p.dst i

theorem Piece.moves {batch : List (Post F)} (piece : Piece batch x)
    (proper : ∀ p ∈ batch, p.Proper) : Moves batch x := by
  obtain ⟨p, member, k, done, n, rfl, -, le⟩ := piece
  intro j inside
  rw [piece_length] at inside
  have lt : done + j < p.length.toNat := by omega
  obtain ⟨src, dst⟩ := (proper p member).piece_at lt k
  exact ⟨p, member, done + j, lt, src, dst⟩

/-- What the batch reads is as it was, and each transfer has brought what its
source held. -/
structure Brought (batch : List (Post F)) (was m : Memories) (started : List Dma) : Prop where
  reads : ∀ p ∈ batch, ∀ i < p.length.toNat, (p.src i).byte m = (p.src i).byte was
  wrote : ∀ x ∈ started, ∀ j < x.length.toNat, (x.dst j).byte m = (x.src j).byte was

theorem Brought.take {batch : List (Post F)} {was : Memories} {started : List Dma}
    (brought : Brought batch was m started) (clear : Clear batch)
    (all : ∀ y ∈ started, Moves batch y) (moves : Moves batch x) :
    Brought batch was (x.made m) (started ++ [x]) := by
  have now : ∀ j < x.length.toNat, (x.dst j).byte (x.made m) = (x.src j).byte was := by
    intro j inside
    obtain ⟨p, member, i, lt, src, -⟩ := moves j inside
    rw [made_dst inside, src]
    exact brought.reads p member i lt
  constructor
  · intro p member i lt
    rw [made_other]
    · exact brought.reads p member i lt
    · intro j inside same
      obtain ⟨p', member', i', lt', -, dst⟩ := moves j inside
      rw [dst] at same
      exact clear.reads p' member' p member i' lt' i lt same.symm
  · intro y started_ j inside
    rcases List.mem_append.mp started_ with before | last
    · by_cases again : ∃ j' < x.length.toNat, y.dst j = x.dst j'
      · obtain ⟨j', inside', same⟩ := again
        obtain ⟨p, member, i, lt, src, dst⟩ := all y before j inside
        obtain ⟨p', member', i', lt', src', dst'⟩ := moves j' inside'
        rw [same, now j' inside', src', src]
        rw [dst, dst'] at same
        rw [clear.writes p member p' member' i lt i' lt' same]
      · rw [made_other fun j' inside' same => again ⟨j', inside', same⟩]
        exact brought.wrote y before j inside
    · rw [List.mem_singleton.mp last] at inside ⊢
      exact now j inside

theorem Brought.takes {batch : List (Post F)} {was : Memories} {started out : List Dma}
    (brought : Brought batch was m started) (clear : Clear batch)
    (all : ∀ y ∈ started, Moves batch y) (moves : ∀ y ∈ out, Moves batch y) :
    Brought batch was (out.foldl (fun m x => x.made m) m) (started ++ out) := by
  induction out generalizing m started with
  | nil =>
      rw [List.append_nil]
      exact brought
  | cons x out ih =>
      have first := moves x List.mem_cons_self
      have both : ∀ y ∈ started ++ [x], Moves batch y := by
        intro y member
        rcases List.mem_append.mp member with before | last
        · exact all y before
        · rw [List.mem_singleton.mp last]
          exact first
      have next := ih (brought.take clear all first) both
        fun y member => moves y (List.mem_cons_of_mem x member)
      rw [List.append_assoc] at next
      exact next

end Bytes

/-! ### The books at rest -/

section Rest

variable {w : World F} {a : Agenda F}

theorem Sound.rest_books (sound : Sound w a) (rest : w.flight = []) :
    Books ([] : List (Post F)) [] [] a := by
  have line := sound.rest_iff.mp rest
  obtain ⟨high, hi⟩ := List.append_eq_nil_iff.mp (line .hi)
  obtain ⟨low, lo⟩ := List.append_eq_nil_iff.mp (line .lo)
  rw [Option.toList_eq_nil_iff] at high
  rw [List.map_eq_nil_iff, Option.toList_eq_nil_iff] at low
  refine ⟨?_, ?_, ⟨[], ?_, ?_⟩, [], [], [], ?_, rfl, .nil, ?_, fun _ => rfl⟩
  · intro k
    rw [line]
    rfl
  · intro t
    simp [Agenda.tasks, high, low, hi, lo]
  · rw [line]
    rfl
  · rw [high]
    rfl
  · rw [line]
    rfl
  · rw [low]
    rintro d ⟨⟩

end Rest

/-! ### A run from rest -/

section Run

variable {s : System F} {base c : Copies F} {batch posts : List (Post F)}
  {called : List (Called F)} {started : List Dma} {a : Agenda F} {p : Post F}
  {moves : List (Move F)} {i : Nat}

/-- What a run since `base` keeps: the books opened there, and the bytes brought. -/
structure Batch (base c : Copies F) (batch posts : List (Post F)) (called : List (Called F))
    (started : List Dma) (a : Agenda F) : Prop where
  sound : Sound c.w a
  books : Books posts called started a
  posted : c.w.posts = base.w.posts ++ posts
  completed : c.w.called = base.w.called ++ called
  brought : Brought batch base.memories c.memories started
  moves : ∀ y ∈ started, Moves batch y

theorem Batch.within {t : Step F} {later : List (Post F)}
    (held : Batch base c batch posts called started a)
    (ends : (c.w.step t).posts ++ later = base.w.posts ++ batch) :
    ∀ p ∈ posts ++ c.w.posted t, p ∈ batch := by
  rw [step_posts, held.posted] at ends
  simp only [List.append_assoc] at ends
  intro p member
  rw [← List.append_cancel_left ends, ← List.append_assoc]
  exact List.mem_append_left later member

theorem Batch.step {t : Step F} (held : Batch base c batch posts called started a)
    (clear : Clear batch) (proper : ∀ p ∈ batch, p.Proper) (allows : c.w.Allows t)
    (within : ∀ p ∈ posts ++ c.w.posted t, p ∈ batch) :
    ∃ b, Batch base ⟨c.w.step t, (c.w.out t).foldl (fun m x => x.made m) c.memories⟩ batch
      (posts ++ c.w.posted t) (called ++ c.w.completed t) (started ++ c.w.out t) b := by
  obtain ⟨b, sound, books, pieces⟩ := held.sound.since held.books allows
  have moves : ∀ y ∈ c.w.out t, Moves batch y := by
    intro y member
    obtain ⟨⟨k, p, line, piece⟩, -⟩ := pieces y member
    exact Piece.moves ⟨p, within p (books.sent.held line), piece⟩ proper
  refine ⟨b, sound, books, ?_, ?_, held.brought.takes clear held.moves moves, ?_⟩
  · rw [step_posts, held.posted, List.append_assoc]
  · rw [step_called, held.completed, List.append_assoc]
  · intro y member
    rcases List.mem_append.mp member with before | now
    · exact held.moves y before
    · exact moves y now

theorem store_other {l : Place} {m : Memories} {at_ : Nat} {v : Byte} (other : l ≠ .main at_) :
    l.byte (Function.update m.1 at_ v, m.2) = l.byte m := by
  cases l with
  | aram a => rfl
  | main a =>
      have apart : a ≠ at_ := by
        rintro rfl
        exact other rfl
      change Function.update m.1 at_ v a = m.1 a
      rw [Function.update_of_ne apart]

theorem Batch.store {at_ : Nat} {v : Byte} (held : Batch base c batch posts called started a)
    (spared : ∀ p ∈ batch, ∀ i < p.length.toNat, p.src i ≠ .main at_ ∧ p.dst i ≠ .main at_) :
    Batch base (c.move (.store at_ v)) batch posts called started a := by
  refine ⟨held.sound, held.books, held.posted, held.completed, ⟨?_, ?_⟩, held.moves⟩
  · intro p member i lt
    exact (store_other (spared p member i lt).1).trans (held.brought.reads p member i lt)
  · intro y member j inside
    obtain ⟨p, posted, i, lt, -, dst⟩ := held.moves y member j inside
    refine (store_other ?_).trans (held.brought.wrote y member j inside)
    rw [dst]
    exact (spared p posted i lt).2

theorem Spares.tail {m : Move F} (spares : Spares batch (m :: moves)) : Spares batch moves :=
  fun at_ b member => spares at_ b (List.mem_cons_of_mem m member)

theorem Batch.run (tracks : Tracks s c) (held : Batch base c batch posts called started a)
    (clear : Clear batch) (allows : s.AllowsAll moves) (spares : Spares batch moves)
    (proper : ∀ p ∈ (s.run moves).w.posts, p.Proper)
    (ends : (s.run moves).w.posts = base.w.posts ++ batch) :
    ∃ called started b, Batch base (c.run moves) batch batch called started b := by
  have inside : ∀ p ∈ batch, p.Proper := by
    intro p member
    apply proper
    rw [ends]
    exact List.mem_append_right base.w.posts member
  induction moves generalizing s c posts called started a with
  | nil =>
      have posted := held.posted
      rw [← tracks.same] at posted
      have same : batch = posts := List.append_cancel_left (ends.symm.trans posted)
      exact ⟨called, started, a, same ▸ held⟩
  | cons m moves ih =>
      obtain ⟨allowed, others⟩ := allows
      obtain ⟨later, rest⟩ := (s.move m).posts_run moves
      have first : ∀ p ∈ (s.move m).w.posts, p.Proper := by
        intro p posted
        apply proper
        change p ∈ ((s.move m).run moves).w.posts
        rw [rest]
        exact List.mem_append_left later posted
      have next := tracks.move allowed first
      have sofar : (s.move m).w.posts ++ later = base.w.posts ++ batch := rest.symm.trans ends
      obtain rfl := tracks.same
      cases m with
      | store at_ v =>
          have spared := spares at_ v List.mem_cons_self
          exact ih next (held.store spared) others spares.tail proper ends
      | poll now => exact ih next held others spares.tail proper ends
      | call now call =>
          have taken : s.w.Allows (.call call) := allowed
          obtain ⟨b, kept⟩ := held.step clear inside taken (held.within sofar)
          exact ih next kept others spares.tail proper ends
      | interrupt now calls =>
          have served := (tracks.reach.agrees.interrupts allowed).1
          obtain ⟨b, kept⟩ := held.step clear inside served (held.within sofar)
          exact ih next kept others spares.tail proper ends

theorem System.Reach.tracks (reach : s.Reach) (proper : ∀ p ∈ s.w.posts, p.Proper) :
    Tracks s s.copies := by
  induction reach with
  | initial new rests => exact ⟨.initial new rests, rests.clean, rfl⟩
  | @move s m reach allows ih =>
      obtain ⟨new, posts⟩ := s.posts_move m
      have first : ∀ p ∈ s.w.posts, p.Proper := by
        intro p posted
        apply proper
        rw [posts]
        exact List.mem_append_left new posted
      have next := (ih first).move allows proper
      exact ⟨next.reach, next.clean, rfl⟩

/-- A request done has been moved, byte by byte. -/
theorem Sent.moved {k : Queue} (sent : Sent posts started a) (proper : p.Proper)
    {ended : List (Post F)} (is : posts.filter (·.queue = k) = ended ++ a.line k)
    (member : p ∈ ended) (lt : i < p.length.toNat) :
    ∃ x ∈ started, ∃ j < x.length.toNat, x.src j = p.src i ∧ x.dst j = p.dst i := by
  obtain ⟨⟨begun, hi_posts, hi_sent⟩, done, pieces, current, lo_posts, lo_sent, all, -⟩ := sent
  cases k with
  | hi =>
      have same : ended = begun := List.append_cancel_right (is.symm.trans hi_posts)
      have sent : p.whole ∈ started.filter (·.queue = .hi) := by
        rw [hi_sent, ← same]
        exact List.mem_map_of_mem (List.mem_append_left _ member)
      refine ⟨p.whole, (List.mem_filter.mp sent).1, i, ?_, rfl, rfl⟩
      rw [Post.whole, piece_length]
      exact lt
  | lo =>
      have same : ended = done := List.append_cancel_right (is.symm.trans lo_posts)
      rw [same] at member
      have covered : ∃ ds ∈ pieces, p.Covers 0 ds p.length.toNat := by
        clear is lo_posts lo_sent same
        induction all with
        | nil => cases member
        | cons covers rest ih =>
            rcases List.mem_cons.mp member with rfl | later
            · exact ⟨_, List.mem_cons_self, covers⟩
            · obtain ⟨ds, found, covers⟩ := ih later
              exact ⟨ds, List.mem_cons_of_mem _ found, covers⟩
      obtain ⟨ds, found, covers⟩ := covered
      obtain ⟨x, member, start, n, rfl, low, high, le⟩ := covers.at_ (Nat.zero_le i) lt
      have sent : p.piece .lo start n ∈ started.filter (·.queue = .lo) := by
        rw [lo_sent]
        exact List.mem_append_left current (List.mem_flatten_of_mem found member)
      have here : start + (i - start) = i := by omega
      obtain ⟨src, dst⟩ := proper.piece_at (n := n) (here.symm ▸ lt) .lo
      rw [here] at src dst
      refine ⟨_, (List.mem_filter.mp sent).1, i - start, ?_, src, dst⟩
      rw [piece_length]
      omega

/-- From rest, whatever batch of requests is posted: once a request has had its
callback, its destination holds what its source held at rest. -/
theorem requests_delivered (reach : s.Reach) (rest : s.w.flight = [])
    (allows : s.AllowsAll moves) (ends : (s.run moves).w.posts = s.w.posts ++ batch)
    (proper : ∀ p ∈ (s.run moves).w.posts, p.Proper) (clear : Clear batch)
    (spares : Spares batch moves) {k : Queue} {j : Nat}
    (is : (batch.filter (·.queue = k))[j]? = some p)
    (done : (s.w.called.filter (·.queue = k)).length + j <
      ((s.run moves).w.called.filter (·.queue = k)).length) (lt : i < p.length.toNat) :
    (p.dst i).byte (s.run moves).copies.memories = (p.src i).byte s.copies.memories := by
  have first : ∀ p ∈ s.w.posts, p.Proper := by
    intro p posted
    apply proper
    rw [ends]
    exact List.mem_append_left batch posted
  have tracks := reach.tracks first
  obtain ⟨a, sound⟩ := tracks.reach.agrees.reach.sound
  have opened : Batch s.copies s.copies batch [] [] [] a := by
    refine ⟨sound, sound.rest_books rest, (List.append_nil _).symm, (List.append_nil _).symm,
      ⟨fun _ _ _ _ => rfl, ?_⟩, ?_⟩
    · rintro x ⟨⟩
    · rintro x ⟨⟩
  obtain ⟨called, started, b, held⟩ := opened.run tracks clear allows spares proper ends
  have same := (tracks.run allows proper).same
  rw [← same] at held
  have member := List.mem_of_getElem? is
  have posted : p ∈ batch := (List.mem_filter.mp member).1
  have here : p.Proper := by
    apply proper
    rw [ends]
    exact List.mem_append_right s.w.posts posted
  have ended : ∃ ended, batch.filter (·.queue = k) = ended ++ b.line k := by
    obtain ⟨⟨begun, hi_posts, -⟩, ended, -, -, lo_posts, -⟩ := held.books.sent
    cases k with
    | hi => exact ⟨begun, hi_posts⟩
    | lo => exact ⟨ended, lo_posts⟩
  obtain ⟨ended, line⟩ := ended
  have length := held.books.called_length k
  have completed : (s.run moves).w.called = s.w.called ++ called := held.completed
  rw [completed, List.filter_append, List.length_append] at done
  rw [line, List.length_append] at length
  rw [line, List.getElem?_append_left (by omega)] at is
  obtain ⟨x, sent, j, inside, src, dst⟩ :=
    held.books.sent.moved here line (List.mem_of_getElem? is) lt
  have wrote := held.brought.wrote x sent j inside
  rw [src, dst] at wrote
  exact wrote

end Run

/-- The low request posted from rest, its transfer made and its callback. -/
def low_moves : List (Move Unit) :=
  [.call 0 (.post low_post), .poll TB_HZ, .interrupt TB_HZ []]

theorem low_clear : Clear [low_post] := by
  have src : ∀ i, low_post.src i = .main (0x100 + i) := fun _ => rfl
  have dst : ∀ i, low_post.dst i = .aram (0x4000 + i) := fun _ => rfl
  constructor
  · intro p member p' member' i _ i' _ same
    rw [List.mem_singleton.mp member, List.mem_singleton.mp member', src, dst] at same
    cases same
  · intro p member p' member' i _ i' _ same
    rw [List.mem_singleton.mp member, List.mem_singleton.mp member'] at same ⊢
    rw [dst, dst, Place.aram.injEq] at same
    rw [src, src, Place.main.injEq]
    omega

theorem requests_delivered_low :
    (low_post.dst 5).byte
        ((⟨.initial unset, at_rest⟩ : System Unit).run low_moves).copies.memories =
      (low_post.src 5).byte (⟨.initial unset, at_rest⟩ : System Unit).copies.memories := by
  refine @requests_delivered Unit _ [low_post] low_post low_moves 5
    (.initial rfl at_rest_rests) rfl ⟨low_allowed, trivial, ⟨?_, trivial⟩, trivial⟩ rfl ?_
    low_clear ?_ .lo 0 rfl ?_ (by decide)
  · decide
  · intro p posted
    have is : p ∈ [low_post] := posted
    rw [List.mem_singleton.mp is]
    exact two_proper.1
  · intro at_ b member
    simp [low_moves] at member
  · decide

end SoaPort.Aram
