import SoaPort.Aram.System

namespace SoaPort.Aram

/-! The queue's transfers as copies between the two memories, without an engine. -/

variable {F : Type}

/-- Main memory and ARAM. -/
abbrev Memories := (Nat → Byte) × (Nat → Byte)

/-- The memories after a transfer. -/
def Dma.made (x : Dma) (m : Memories) : Memories :=
  if x.type = ARQ_TYPE_MRAM_TO_ARAM then
    (m.1, Engine.copy m.2 m.1 (Engine.ar x.aram_addr) (Engine.mm x.mainmem_addr) x.length.toNat)
  else (Engine.copy m.1 m.2 (Engine.mm x.mainmem_addr) (Engine.ar x.aram_addr) x.length.toNat, m.2)

/-- The queue and the memories, a transfer made as it is started. -/
structure Copies (F : Type) where
  w : World F
  memories : Memories

def Copies.move (c : Copies F) : Move F → Copies F
  | .call _ call =>
      ⟨c.w.step (.call call), (c.w.out (.call call)).foldl (fun m x => x.made m) c.memories⟩
  | .poll _ => c
  | .interrupt _ calls =>
      ⟨c.w.step (.interrupt calls),
        (c.w.out (.interrupt calls)).foldl (fun m x => x.made m) c.memories⟩
  | .store at_ b => { c with memories := (Function.update c.memories.1 at_ b, c.memories.2) }

def Copies.run (c : Copies F) (moves : List (Move F)) : Copies F := moves.foldl Copies.move c

def System.copies (s : System F) : Copies F := ⟨s.w, s.e.mem, s.e.g_aram⟩

def System.run (s : System F) (moves : List (Move F)) : System F := moves.foldl System.move s

def System.AllowsAll (s : System F) : List (Move F) → Prop
  | [] => True
  | m :: rest => s.Allows m ∧ (s.move m).AllowsAll rest

/-- A request the engine can carry out: of a known direction, its addresses on 32
bytes, and all of it inside the two memories. -/
def Post.Proper (p : Post F) : Prop := p.whole.Proper

/-! ### The pieces of a request -/

section Pieces

variable {p : Post F} {done : Nat} {n : Word}

theorem mm_eq (a : Word) : Engine.mm a = a.toNat % 2 ^ 25 := by
  rw [Engine.mm, BitVec.toNat_and]
  exact Nat.and_two_pow_sub_one_eq_mod a.toNat 25

theorem ar_eq (a : Word) : Engine.ar a = a.toNat % 2 ^ 24 := by
  rw [Engine.ar, BitVec.toNat_and]
  exact Nat.and_two_pow_sub_one_eq_mod a.toNat 24

theorem Aligned.add {a : Word} (aligned : Aligned a) (even : done % 32 = 0) :
    Aligned (a + BitVec.ofNat 32 done) := by
  rw [Aligned] at aligned ⊢
  rw [BitVec.toNat_add, BitVec.toNat_ofNat]
  omega

theorem mm_add {a : Word} {length : Nat} (inside : Engine.mm a + length ≤ MEM1_SIZE)
    (le : done + n.toNat ≤ length) :
    Engine.mm (a + BitVec.ofNat 32 done) + n.toNat ≤ MEM1_SIZE := by
  rw [mm_eq] at inside ⊢
  rw [BitVec.toNat_add, BitVec.toNat_ofNat]
  simp only [MEM1_SIZE] at inside ⊢
  omega

theorem ar_add {a : Word} {length : Nat} (inside : Engine.ar a + length ≤ ARAM_SIZE)
    (le : done + n.toNat ≤ length) :
    Engine.ar (a + BitVec.ofNat 32 done) + n.toNat ≤ ARAM_SIZE := by
  rw [ar_eq] at inside ⊢
  rw [BitVec.toNat_add, BitVec.toNat_ofNat]
  simp only [ARAM_SIZE] at inside ⊢
  omega

/-- A part of a proper transfer, begun on 32 bytes, is one itself. -/
theorem Post.Proper.piece (proper : p.Proper) (even : done % 32 = 0)
    (le : done + n.toNat ≤ p.length.toNat) (k : Queue) : (p.piece k done n).Proper := by
  obtain ⟨type, mainmem, aram, in_mem, in_aram⟩ := id proper
  simp only [Post.whole, Post.piece, start_dma] at type mainmem aram in_mem in_aram
  rw [Post.piece, start_dma]
  split at type
  next to_aram =>
    rw [if_pos to_aram] at mainmem aram in_mem in_aram
    rw [if_pos to_aram]
    simp only [BitVec.add_zero] at mainmem aram in_mem in_aram
    exact ⟨type, mainmem.add even, aram.add even, mm_add in_mem le, ar_add in_aram le⟩
  next to_main =>
    rw [if_neg to_main] at mainmem aram in_mem in_aram
    rw [if_neg to_main]
    simp only [BitVec.add_zero] at mainmem aram in_mem in_aram
    exact ⟨type, mainmem.add even, aram.add even, mm_add in_mem le, ar_add in_aram le⟩

variable {w : World F} {x : Dma}

/-- What a step starts is a piece of a request posted by its end. -/
theorem World.Reach.out_piece {t : Step F} (reach : w.Reach) (allows : w.Allows t)
    (member : x ∈ w.out t) : Piece (w.step t).posts x := by
  obtain ⟨a, sound⟩ := reach.sound
  obtain ⟨b, next, -, starts⟩ := sound.since sound.books allows
  obtain ⟨⟨k, p, held, piece⟩, -⟩ := starts x member
  exact ⟨p, next.books.sent.held held, piece⟩

theorem World.Reach.out_proper {t : Step F} (reach : w.Reach) (allows : w.Allows t)
    (proper : ∀ p ∈ (w.step t).posts, p.Proper) (member : x ∈ w.out t) : x.Proper := by
  obtain ⟨p, posted, k, done, n, rfl, even, le⟩ := reach.out_piece allows member
  exact (proper p posted).piece even le k

end Pieces

/-! ### Each move -/

section Moves

variable {s : System F} {c : Copies F} {m : Move F} {e : Engine} {now : Nat}

theorem acknowledge_keeps (idle : e.g_ar_busy = false) (clean : e.Clean) (now : Nat) :
    (e.acknowledge now).mem = e.mem ∧ (e.acknowledge now).g_aram = e.g_aram ∧
      (e.acknowledge now).g_ar_busy = false ∧ (e.acknowledge now).Clean := by
  rw [Engine.acknowledge, Engine.aram_read, Engine.poll_idle idle]
  exact ⟨rfl, rfl, idle, clean.mmaddr, clean.araddr, clean.cnt⟩

/-- The one transfer a move starts, on an engine at rest. -/
theorem starts_made {out : List Dma} (one : out.length ≤ 1)
    (idle : out ≠ [] → e.g_ar_busy = false) (clean : e.Clean) (proper : ∀ x ∈ out, x.Proper)
    (now : Nat) :
    ((out.foldl (fun e x => e.start now x) e).mem,
        (out.foldl (fun e x => e.start now x) e).g_aram) =
      out.foldl (fun m x => x.made m) (e.mem, e.g_aram) ∧
      (out.foldl (fun e x => e.start now x) e).Clean := by
  cases out with
  | nil => exact ⟨rfl, clean⟩
  | cons x rest =>
      have alone : rest = [] := by
        rw [List.length_cons] at one
        exact List.length_eq_zero_iff.mp (by omega)
      subst alone
      obtain ⟨moves, kept, -⟩ := Engine.start_moves (idle (List.cons_ne_nil x [])) clean now
        (proper x (List.mem_singleton.mpr rfl))
      exact ⟨moves, kept⟩

theorem World.Reach.out_le {w : World F} {t : Step F} (reach : w.Reach) (allows : w.Allows t) :
    (w.out t).length ≤ 1 := by
  have length := (World.Reach.step reach allows).flight_le
  rw [step_flight, List.length_append] at length
  omega

/-- A reachable system, and what of it the copies alone say. -/
structure Tracks (s : System F) (c : Copies F) : Prop where
  reach : s.Reach
  clean : s.e.Clean
  same : s.copies = c

theorem Tracks.move (tracks : Tracks s c) (allows : s.Allows m)
    (proper : ∀ p ∈ (s.move m).w.posts, p.Proper) : Tracks (s.move m) (c.move m) := by
  obtain ⟨reach, clean, rfl⟩ := tracks
  have agrees := reach.agrees
  have next := System.Reach.move reach allows
  cases m with
  | store at_ b => exact ⟨next, ⟨clean.mmaddr, clean.araddr, clean.cnt⟩, rfl⟩
  | poll now =>
      have kept : ((s.e.aram_poll now).mem, (s.e.aram_poll now).g_aram) = (s.e.mem, s.e.g_aram) ∧
          (s.e.aram_poll now).Clean := by
        rw [Engine.aram_poll]
        split
        · exact ⟨rfl, clean.mmaddr, clean.araddr, clean.cnt⟩
        · exact ⟨rfl, clean⟩
      refine ⟨next, kept.2, ?_⟩
      exact congrArg (Copies.mk s.w) kept.1
  | call now call =>
      have allowed : s.w.Allows (.call call) := allows
      have pieces : ∀ x ∈ s.w.out (.call call), x.Proper :=
        fun _ => agrees.reach.out_proper allowed proper
      have idle := fun starts => (agrees.idle (starts_alone agrees.reach allowed starts)).1
      obtain ⟨made, kept⟩ := starts_made (agrees.reach.out_le allowed) idle clean pieces now
      refine ⟨next, kept, ?_⟩
      exact congrArg (Copies.mk (s.w.step (.call call))) made
  | interrupt now calls =>
      obtain ⟨allowed, idle⟩ := agrees.interrupts allows
      have pieces : ∀ x ∈ s.w.out (.interrupt calls), x.Proper :=
        fun _ => agrees.reach.out_proper allowed proper
      obtain ⟨mem, aram, idle', clean'⟩ := acknowledge_keeps idle clean now
      obtain ⟨made, kept⟩ :=
        starts_made (agrees.reach.out_le allowed) (fun _ => idle') clean' pieces now
      refine ⟨next, kept, ?_⟩
      rw [mem, aram] at made
      exact congrArg (Copies.mk (s.w.step (.interrupt calls))) made

theorem System.posts_move (s : System F) (m : Move F) :
    ∃ new, (s.move m).w.posts = s.w.posts ++ new := by
  cases m with
  | call now call => exact ⟨_, rfl⟩
  | poll now => exact ⟨[], (List.append_nil _).symm⟩
  | interrupt now calls => exact ⟨_, rfl⟩
  | store at_ b => exact ⟨[], (List.append_nil _).symm⟩

theorem System.posts_run (s : System F) (moves : List (Move F)) :
    ∃ new, (s.run moves).w.posts = s.w.posts ++ new := by
  induction moves generalizing s with
  | nil => exact ⟨[], (List.append_nil _).symm⟩
  | cons m moves ih =>
      obtain ⟨first, is⟩ := s.posts_move m
      obtain ⟨later, then_⟩ := ih (s.move m)
      refine ⟨first ++ later, ?_⟩
      rw [← List.append_assoc, ← is]
      exact then_

theorem Tracks.run {moves : List (Move F)} (tracks : Tracks s c) (allows : s.AllowsAll moves)
    (proper : ∀ p ∈ (s.run moves).w.posts, p.Proper) : Tracks (s.run moves) (c.run moves) := by
  induction moves generalizing s c with
  | nil => exact tracks
  | cons m moves ih =>
      obtain ⟨new, posts⟩ := (s.move m).posts_run moves
      have first : ∀ p ∈ (s.move m).w.posts, p.Proper := by
        intro p posted
        apply proper
        change p ∈ ((s.move m).run moves).w.posts
        rw [posts]
        exact List.mem_append_left new posted
      exact ih (tracks.move allows.1 first) allows.2 proper

/-- Through the registers, the polls and the interrupts the memories hold what they
would if each transfer were made whole as it is started. -/
theorem engine_copies {q : Arq F} {moves : List (Move F)} (new : q.ARQInitFlag = false)
    (rests : e.Rests) (allows : (⟨.initial q, e⟩ : System F).AllowsAll moves)
    (proper : ∀ p ∈ ((⟨.initial q, e⟩ : System F).run moves).w.posts, p.Proper) :
    ((⟨.initial q, e⟩ : System F).run moves).copies =
      (⟨.initial q, e.mem, e.g_aram⟩ : Copies F).run moves :=
  (Tracks.run ⟨.initial new rests, rests.clean, rfl⟩ allows proper).same

end Moves

theorem two_proper : low_post.Proper ∧ high_post.Proper :=
  ⟨⟨.inl rfl, rfl, rfl, by decide, by decide⟩, ⟨.inr rfl, rfl, rfl, by decide, by decide⟩⟩

/-- The two requests posted, and the first's transfer done. -/
def two_moves : List (Move Unit) :=
  [.call 0 (.post low_post), .call 0 (.post high_post), .poll TB_HZ]

theorem engine_copies_two :
    ((⟨.initial unset, at_rest⟩ : System Unit).run two_moves).copies =
      (⟨.initial unset, at_rest.mem, at_rest.g_aram⟩ : Copies Unit).run two_moves := by
  refine engine_copies rfl at_rest_rests ⟨low_allowed, high_allowed, trivial, trivial⟩ ?_
  intro p posted
  have either : p ∈ [low_post, high_post] := posted
  rcases List.mem_pair.mp either with rfl | rfl
  · exact two_proper.1
  · exact two_proper.2

end SoaPort.Aram
