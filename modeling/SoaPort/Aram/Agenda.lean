import SoaPort.Lib.Fifo
import SoaPort.Aram.Arq

namespace SoaPort.Aram

variable {F : Type}

/-! What the queue is for: requests wait in two lines, a high one is transferred
whole and a low one piece by piece, and one transfer runs at a time. -/

/-- A low request under way: how much of it has been handed to the engine. -/
structure Part (F : Type) where
  post : Post F
  done : Nat
  last : Bool

structure Agenda (F : Type) where
  hi : List (Post F)
  lo : List (Post F)
  high : Option (Post F)
  low : Option (Part F)
  chunk : Word

/-- The transfer of a request's bytes from `done` on. -/
def Post.piece (p : Post F) (queue : Queue) (done : Nat) (length : Word) : Dma :=
  start_dma queue
    { p.request with
      source := p.source + BitVec.ofNat 32 done
      dest := p.dest + BitVec.ofNat 32 done } length

namespace Agenda

def enqueue (a : Agenda F) (p : Post F) : Agenda F :=
  if p.priority = ARQ_PRIORITY_LOW then { a with lo := a.lo ++ [p] }
  else if p.priority = ARQ_PRIORITY_HIGH then { a with hi := a.hi ++ [p] }
  else a

/-- The next piece of a low request. -/
def serve_part (a : Agenda F) (d : Part F) : Agenda F × List Dma :=
  if d.post.length.toNat - d.done ≤ a.chunk.toNat then
    ({ a with low := some { d with last := true } },
      [d.post.piece .lo d.done (d.post.length - BitVec.ofNat 32 d.done)])
  else
    ({ a with low := some { d with done := d.done + a.chunk.toNat } },
      [d.post.piece .lo d.done a.chunk])

def serve (a : Agenda F) : Agenda F × List Dma :=
  match a.low, a.lo with
  | some d, _ => a.serve_part d
  | none, p :: rest => { a with lo := rest }.serve_part ⟨p, 0, false⟩
  | none, [] => (a, [])

/-- What starts when no transfer runs. -/
def start (a : Agenda F) : Agenda F × List Dma :=
  match a.hi with
  | p :: rest => ({ a with hi := rest, high := some p }, [p.piece .hi 0 p.length])
  | [] => a.serve

def idle (a : Agenda F) : Bool := a.high.isNone && a.low.isNone

def post (a : Agenda F) (p : Post F) : Agenda F × List Dma :=
  if a.idle then (a.enqueue p).start else (a.enqueue p, [])

/-- The chunk size a caller's leads to. -/
def rounded (size : Word) : Word := if size % 32 ≠ 0 then size + (32 - size % 32) else size

/-- A call that starts nothing. -/
def note (a : Agenda F) : Call F → Agenda F
  | .post p => a.enqueue p
  | .chunk size => { a with chunk := rounded size }

def call (a : Agenda F) : Call F → Agenda F × List Dma
  | .post p => a.post p
  | .chunk size => ({ a with chunk := rounded size }, [])

/-- The request that the transfer ended completes, if it was its last. -/
def finished (a : Agenda F) : Option (Queue × Post F) :=
  match a.high, a.low with
  | some p, _ => some (.hi, p)
  | none, some d => if d.last then some (.lo, d.post) else none
  | none, none => none

/-- The agenda without the request completed. -/
def drop (a : Agenda F) : Agenda F :=
  match a.high with
  | some _ => { a with high := none }
  | none => { a with low := a.low.filter fun d => !d.last }

def made (found : Queue × Post F) : Called F := ⟨found.1, found.2.called, found.2.task⟩

/-- The calls made while the transfer's end is served. -/
def ran (a : Agenda F) (calls : List (Call F)) : List (Call F) :=
  match a.finished with
  | some found => found.2.called.runs calls
  | none => []

def interrupt (a : Agenda F) (calls : List (Call F)) : Agenda F × List Dma × List (Called F) :=
  let next := ((a.ran calls).foldl note a.drop).start
  (next.1, next.2, a.finished.toList.map made)

/-- The blocks the library holds. -/
def tasks (a : Agenda F) : List Ptr :=
  a.hi.map (·.task) ++ a.lo.map (·.task) ++ a.high.toList.map (·.task) ++
    a.low.toList.map (·.post.task)

/-- A block the library does not hold. -/
def Fresh (a : Agenda F) (t : Ptr) : Prop := t ≠ NULL ∧ t ∉ a.tasks

end Agenda

/-- What a call may be: a request of one of the two priorities, in a block the
library does not hold. -/
def Agenda.Takes (a : Agenda F) (c : Call F) : Prop :=
  ∀ p, c = .post p → a.Fresh p.task ∧
    (p.priority = ARQ_PRIORITY_LOW ∨ p.priority = ARQ_PRIORITY_HIGH)

def Agenda.TakesAll (a : Agenda F) : List (Call F) → Prop
  | [] => True
  | c :: rest => a.Takes c ∧ (a.note c).TakesAll rest

/-! ### The queue's state as an agenda -/

def Arq.next (q : Arq F) : Nat → Nat := fun t => (q.task t).next

/-- A block as its post left it, up to its link. -/
def Filled (q : Arq F) (p : Post F) : Prop :=
  { q.task p.task with next := NULL } = p.request

structure UnderWay (q : Arq F) (d : Part F) : Prop where
  pending : q.ARQRequestPendingLo = d.post.task
  callback : q.ARQCallbackLo = if d.last then some d.post.called else none
  request : d.last = false → { q.task d.post.task with next := NULL } =
    { d.post.request with
      source := d.post.source + BitVec.ofNat 32 d.done
      dest := d.post.dest + BitVec.ofNat 32 d.done
      length := d.post.length - BitVec.ofNat 32 d.done }
  more : d.last = false → d.done ≤ d.post.length.toNat

/-- The state but for the high request under way. -/
structure Holds (q : Arq F) (a : Agenda F) : Prop where
  hi : Lib.Fifo q.next NULL q.ARQRequestQueueHi q.ARQRequestTailHi (a.hi.map (·.task))
  lo : Lib.Fifo q.next NULL q.ARQRequestQueueLo q.ARQRequestTailLo (a.lo.map (·.task))
  hi_filled : ∀ p ∈ a.hi, Filled q p
  lo_filled : ∀ p ∈ a.lo, Filled q p
  low : ∀ d, a.low = some d → UnderWay q d
  apart : a.tasks.Nodup
  there : NULL ∉ a.tasks
  chunk : q.ARQChunkSize = a.chunk

structure Refines (q : Arq F) (a : Agenda F) : Prop extends Holds q a where
  high : q.ARQRequestPendingHi = a.high.elim NULL (·.task)
  callback : q.ARQCallbackHi = a.high.map (·.called)
  none_low : a.low = none → q.ARQRequestPendingLo = NULL ∧ q.ARQCallbackLo = none
  -- a high request starts between two pieces of a low one
  between : a.high.isSome → ∀ d, a.low = some d → d.last = false

end SoaPort.Aram
