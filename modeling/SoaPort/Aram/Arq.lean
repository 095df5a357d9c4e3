import Mathlib.Data.List.Basic
import Mathlib.Logic.Function.Basic

namespace SoaPort.Aram

/-! The ARAM request queue of the game's SDK: two queues of requests linked
through the callers' own blocks, and the one transfer under way. -/

abbrev Word := BitVec 32

/-- The address of a request's block. -/
abbrev Ptr := Nat

def NULL : Ptr := 0

def ARQ_TYPE_MRAM_TO_ARAM : Word := 0
def ARQ_TYPE_ARAM_TO_MRAM : Word := 1
def ARQ_PRIORITY_LOW : Word := 0
def ARQ_PRIORITY_HIGH : Word := 1
def ARQ_CHUNK_SIZE_DEFAULT : Word := 4096

/-- What is called when a request is done: the library's own empty function,
or the caller's. -/
inductive ARQCallback (F : Type) where
  | hack
  | client (f : F)

structure ARQRequest (F : Type) where
  next : Ptr
  owner : Word
  type : Word
  source : Word
  dest : Word
  length : Word
  callback : Option (ARQCallback F)

inductive Queue where
  | hi
  | lo
  deriving DecidableEq

/-- The arguments of a call of `ARStartDMA`, and the queue it was made for. -/
structure Dma where
  queue : Queue
  type : Word
  mainmem_addr : Word
  aram_addr : Word
  length : Word

structure Arq (F : Type) where
  task : Ptr → ARQRequest F
  ARQRequestQueueHi : Ptr
  ARQRequestTailHi : Ptr
  ARQRequestQueueLo : Ptr
  ARQRequestTailLo : Ptr
  ARQRequestPendingHi : Ptr
  ARQRequestPendingLo : Ptr
  ARQCallbackHi : Option (ARQCallback F)
  ARQCallbackLo : Option (ARQCallback F)
  ARQChunkSize : Word
  ARQInitFlag : Bool

/-- The arguments of a call of `ARQPostRequest`. -/
structure Post (F : Type) where
  task : Ptr
  owner : Word
  type : Word
  priority : Word
  source : Word
  dest : Word
  length : Word
  callback : Option F

/-- A caller's call into the library. -/
inductive Call (F : Type) where
  | post (p : Post F)
  | chunk (size : Word)

/-- A completion callback made: the queue, the function and its argument. -/
structure Called (F : Type) where
  queue : Queue
  callback : ARQCallback F
  pointerToRequest : Ptr

variable {F : Type}

def start_dma (queue : Queue) (r : ARQRequest F) (length : Word) : Dma :=
  if r.type = ARQ_TYPE_MRAM_TO_ARAM then ⟨queue, r.type, r.source, r.dest, length⟩
  else ⟨queue, r.type, r.dest, r.source, length⟩

def ARQPopTaskQueueHi (q : Arq F) : Arq F × List Dma :=
  if q.ARQRequestQueueHi ≠ NULL then
    let r := q.task q.ARQRequestQueueHi
    ({ q with
        ARQCallbackHi := r.callback
        ARQRequestPendingHi := q.ARQRequestQueueHi
        ARQRequestQueueHi := r.next },
      [start_dma .hi r r.length])
  else (q, [])

/-- The low queue's first request, when none of it is under way. -/
def take_lo (q : Arq F) : Arq F :=
  if q.ARQRequestPendingLo = NULL ∧ q.ARQRequestQueueLo ≠ NULL then
    { q with
      ARQRequestPendingLo := q.ARQRequestQueueLo
      ARQRequestQueueLo := (q.task q.ARQRequestQueueLo).next }
  else q

def advance (r : ARQRequest F) (size : Word) : ARQRequest F :=
  { r with length := r.length - size, source := r.source + size, dest := r.dest + size }

/-- `fn_80243A34`. -/
def ARQServiceQueueLo (q : Arq F) : Arq F × List Dma :=
  let q := take_lo q
  if q.ARQRequestPendingLo ≠ NULL then
    let r := q.task q.ARQRequestPendingLo
    let last := r.length ≤ q.ARQChunkSize
    ({ q with
        ARQCallbackLo := if last then r.callback else q.ARQCallbackLo
        task := Function.update q.task q.ARQRequestPendingLo (advance r q.ARQChunkSize) },
      [start_dma .lo r (if last then r.length else q.ARQChunkSize)])
  else (q, [])

/-- What starts when nothing is under way. -/
def start_next (q : Arq F) : Arq F × List Dma :=
  let popped := ARQPopTaskQueueHi q
  if popped.1.ARQRequestPendingHi = NULL then
    let served := ARQServiceQueueLo popped.1
    (served.1, popped.2 ++ served.2)
  else popped

/-- `fn_80243C04`, all the statics zero before it. -/
def ARQInit (q : Arq F) : Arq F :=
  if q.ARQInitFlag then q
  else
    { q with
      ARQRequestQueueHi := NULL
      ARQRequestQueueLo := NULL
      ARQChunkSize := ARQ_CHUNK_SIZE_DEFAULT
      ARQRequestPendingHi := NULL
      ARQRequestPendingLo := NULL
      ARQCallbackHi := none
      ARQCallbackLo := none
      ARQInitFlag := true }

/-- The callback a request is given: the library's own, where there is none. -/
def Post.called (p : Post F) : ARQCallback F :=
  match p.callback with
  | some f => .client f
  | none => .hack

def Post.request (p : Post F) : ARQRequest F where
  next := NULL
  owner := p.owner
  type := p.type
  source := p.source
  dest := p.dest
  length := p.length
  callback := some p.called

/-- A request at a block's `next`. -/
def link (task : Ptr → ARQRequest F) (tail to_ : Ptr) : Ptr → ARQRequest F :=
  Function.update task tail { task tail with next := to_ }

/-- The request's block filled in, and put at the end of its queue. A priority
that is neither of the two puts it on none. -/
def enqueue (q : Arq F) (p : Post F) : Arq F :=
  let q := { q with task := Function.update q.task p.task p.request }
  if p.priority = ARQ_PRIORITY_LOW then
    if q.ARQRequestQueueLo ≠ NULL then
      { q with task := link q.task q.ARQRequestTailLo p.task, ARQRequestTailLo := p.task }
    else { q with ARQRequestQueueLo := p.task, ARQRequestTailLo := p.task }
  else if p.priority = ARQ_PRIORITY_HIGH then
    if q.ARQRequestQueueHi ≠ NULL then
      { q with task := link q.task q.ARQRequestTailHi p.task, ARQRequestTailHi := p.task }
    else { q with ARQRequestQueueHi := p.task, ARQRequestTailHi := p.task }
  else q

/-- `fn_80243C74`. -/
def ARQPostRequest (q : Arq F) (p : Post F) : Arq F × List Dma :=
  let q := enqueue q p
  if q.ARQRequestPendingHi = NULL ∧ q.ARQRequestPendingLo = NULL then start_next q
  else (q, [])

/-- `fn_80243DD0`. -/
def ARQSetChunkSize (q : Arq F) (size : Word) : Arq F :=
  { q with
    ARQChunkSize := if size % 32 ≠ 0 then size + (32 - size % 32) else size }

/-- `fn_80243DF0`. -/
def ARQGetChunkSize (q : Arq F) : Word := q.ARQChunkSize

def Arq.call (q : Arq F) : Call F → Arq F × List Dma
  | .post p => ARQPostRequest q p
  | .chunk size => (ARQSetChunkSize q size, [])

def Call.posts : Call F → List (Post F)
  | .post p => [p]
  | .chunk _ => []

/-- The calls a callback makes, one after the other. -/
def Arq.calls (q : Arq F) : List (Call F) → Arq F × List Dma
  | [] => (q, [])
  | c :: rest => (((q.call c).1.calls rest).1, (q.call c).2 ++ ((q.call c).1.calls rest).2)

/-- The calls made out of a callback: none of the library's own. -/
def ARQCallback.runs : ARQCallback F → List (Call F) → List (Call F)
  | .hack, _ => []
  | .client _, calls => calls

/-- The callback that is due, with the calls it makes if it is a caller's. -/
def complete (q : Arq F) (calls : List (Call F)) : Arq F × List Dma × List (Called F) :=
  match q.ARQCallbackHi with
  | some c =>
      let ran := q.calls (c.runs calls)
      ({ ran.1 with ARQRequestPendingHi := NULL, ARQCallbackHi := none }, ran.2,
        [⟨.hi, c, q.ARQRequestPendingHi⟩])
  | none =>
      match q.ARQCallbackLo with
      | some c =>
          let ran := q.calls (c.runs calls)
          ({ ran.1 with ARQRequestPendingLo := NULL, ARQCallbackLo := none }, ran.2,
            [⟨.lo, c, q.ARQRequestPendingLo⟩])
      | none => (q, [], [])

/-- The callback an interrupt makes. -/
def Arq.due (q : Arq F) : List (Called F) :=
  match q.ARQCallbackHi, q.ARQCallbackLo with
  | some c, _ => [⟨.hi, c, q.ARQRequestPendingHi⟩]
  | none, some c => [⟨.lo, c, q.ARQRequestPendingLo⟩]
  | none, none => []

/-- The calls it makes, of those a caller's would. -/
def Arq.ran (q : Arq F) (calls : List (Call F)) : List (Call F) :=
  q.due.flatMap fun d => d.callback.runs calls

/-- `fn_80243B38`. -/
def ARQInterruptServiceRoutine (q : Arq F) (calls : List (Call F)) :
    Arq F × List Dma × List (Called F) :=
  let done := complete q calls
  let next := start_next done.1
  (next.1, done.2.1 ++ next.2, done.2.2)

end SoaPort.Aram
