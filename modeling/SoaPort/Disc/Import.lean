import Mathlib.Logic.Function.Basic
import SoaPort.Lib.Bytes

namespace SoaPort.Disc.Import

open Lib

/-! The copy of a file the player picked (import.c), where the port is for Linux's kernel. -/

def IMPORT_MARGIN : Nat := 512 <<< 20

/-- The most read at once. -/
def STEP : Nat := 1 <<< 20

def TICK_MS : Nat := 250

inductive Kind where
  | IMPORT_FILE
  | IMPORT_STREAM
  | IMPORT_OTHER
deriving DecidableEq

def size_words (n : Nat) (up : Bool) : String :=
  let mb := 1 <<< 20
  let gb := 1 <<< 30
  if n < gb then toString ((n + if up then mb - 1 else 0) / mb) ++ " MB"
  else
    let tenths := (n * 10 + if up then gb - 1 else 0) / gb
    toString (tenths / 10) ++ "." ++ toString (tenths % 10) ++ " GB"

structure File where
  bytes : List Byte
  mode : Nat
deriving DecidableEq

/-- What each path holds. -/
abbrev Folder := String → Option File

/-- `head` is empty for none; a callback is none where the pointer is NULL. `peek` is given the
path, what it holds and how much, and answers none to go on or its why; `progress` is asked with
how often it was asked before. -/
structure ImportCopy where
  fd : Nat
  head : List Byte
  dir : String
  name : String
  expect : Int
  limit : Nat
  peek_at : Nat
  peek : Option (String → List Byte → Nat → Option String)
  progress : Option (Nat → Nat → Int → Bool)

/-- Before a read answers: `poll` or the read interrupted, or a quarter second with nothing. -/
inductive Wait where
  | poll_interrupted
  | silent
  | interrupted

/-- `gave k`: the next bytes, up to k + 1 of them. -/
inductive Answer where
  | gave (k : Nat)
  | failed (errno : String)

structure Read where
  waits : List Wait
  answer : Answer

inductive Write where
  | gave (k : Nat)
  | zero (eio : String)
  | interrupted
  | failed (errno : String)

inductive Create where
  | made
  | unlink_failed (errno : String)
  | open_failed (errno : String)

inductive Fallocate where
  | done
  | unsupported
  | failed (errno : String)

/-- What the system answers: the descriptor holds `content`, the head its first bytes. -/
structure Os (c : ImportCopy) where
  kind : Kind
  content : List Byte
  taken : c.head <+: content
  free : Nat → Option Nat
  free_errno : String
  clock : Nat → Nat
  malloc : Bool
  create : Create
  fallocate : Fallocate
  fsync : Option String
  fchmod : Option String
  close : Option String

/-- A question to `peek`: what the .tmp held, `have`, and its answer. -/
structure Peek where
  held : List Byte
  count : Nat
  answer : Option String

/-- The copy under way; `touched` is every path the copy changed. Counts are naturals: no file
or stream reaches 2^64 bytes. -/
structure Copying where
  fs : Folder
  touched : List String
  writes : List Write
  pos : Nat
  ticks : Nat
  asked : Nat
  looks : Nat
  next : Nat
  due : Nat
  done : Nat
  room_at : Nat
  made : Bool
  peeked : Bool
  peeks : List Peek

inductive Result where
  | IMPORT_OK (copied : Nat)
  | IMPORT_REFUSED (why : String)
  | IMPORT_CANCELLED (why : String)

/-- How the copy's loop is left. -/
inductive Leave where
  | at_end
  | refused (why : String)
  | peek_refused (said : String)
  | cancelled

section Copy

variable (c : ImportCopy)

def held_to : Int := if c.expect = 0 then -1 else c.expect

def src : String := "/proc/self/fd/" ++ toString c.fd

def final_path : String := c.dir ++ "/" ++ c.name

def tmp_path : String := final_path c ++ ".tmp"

variable (o : Os c)

/-- Whether the copy is to stop. -/
def stop (s : Copying) (now : Bool) : Bool × Copying :=
  let t := o.clock s.ticks
  let s := { s with ticks := s.ticks + 1 }
  match c.progress with
  | none => (false, s)
  | some progress =>
      if !now && s.done < s.next && t < s.due then (false, s)
      else
        (progress s.asked s.done (held_to c),
          { s with next := (s.done / STEP + 1) * STEP, due := t + TICK_MS, asked := s.asked + 1 })

inductive Taken where
  | bytes (b : List Byte)
  | failed (errno : String)
  | cancelled

/-- Up to `want` bytes: a file's at `done`, a stream's next. Only a stream is polled. -/
def take (want : Nat) (answer : Answer) : List Wait → Copying → Taken × Copying
  | [], s =>
      match answer with
      | .failed errno => (.failed errno, s)
      | .gave k =>
          if o.kind = .IMPORT_FILE then
            (.bytes ((o.content.drop s.done).take (min want (k + 1))), s)
          else
            let b := (o.content.drop s.pos).take (min want (k + 1))
            (.bytes b, { s with pos := s.pos + b.length })
  | .poll_interrupted :: waits, s => take want answer waits s
  | .interrupted :: waits, s => take want answer waits s
  | .silent :: waits, s =>
      if o.kind = .IMPORT_FILE then take want answer waits s
      else
        match stop c o s true with
        | (true, s) => (.cancelled, s)
        | (false, s) => take want answer waits s

/-- All of `b` through short writes: the error if it cannot, what was written, and the answers
left; none while a write has no answer. -/
def put : List Write → List Byte → Option (Option String × List Byte × List Write)
  | [], b => if b = [] then some (none, [], []) else none
  | w :: ws, b =>
      if b = [] then some (none, [], w :: ws)
      else
        match w with
        | .interrupted => put ws b
        | .failed errno => some (some errno, [], ws)
        | .zero eio => some (some eio, [], ws)
        | .gave k =>
            (put ws (b.drop (k + 1))).map fun (e, wrote, ws) => (e, b.take (k + 1) ++ wrote, ws)

def Folder.append (fs : Folder) (path : String) (b : List Byte) : Folder :=
  Function.update fs path ((fs path).map fun f => { f with bytes := f.bytes ++ b })

/-- The peek, at what the .tmp holds now. -/
def look (s : Copying) : Option String × Copying :=
  let bytes := ((s.fs (tmp_path c)).map File.bytes).getD []
  let answer := c.peek.bind fun peek => peek (tmp_path c) bytes s.done
  (answer, { s with peeked := true, peeks := s.peeks ++ [⟨bytes, s.done, answer⟩] })

/-- With no size, room for a MiB above the margin, before each. -/
def room_left (s : Copying) : Option String × Copying :=
  if held_to c < 0 ∧ s.done ≥ s.room_at then
    let s' := { s with looks := s.looks + 1, room_at := s.done + STEP }
    match o.free s.looks with
    | none => (none, s')
    | some room =>
        if room < IMPORT_MARGIN + STEP then
          (some ("this device has " ++ size_words room false ++ " free and " ++
            size_words IMPORT_MARGIN true ++ " of it must stay free, so the copy of " ++ src c ++
            " stopped at " ++ toString s.done ++ " bytes: make room and pick it again"),
            { s with looks := s.looks + 1 })
        else (none, s')
  else (none, s)

/-- The peek once its bytes are in, and progress. -/
def after_put (s : Copying) : Option Leave × Copying :=
  match if !s.peeked && s.done ≥ c.peek_at then look c s else (none, s) with
  | (some said, s) => (some (.peek_refused said), s)
  | (none, s) =>
      match stop c o s false with
      | (true, s) => (some .cancelled, s)
      | (false, s) => (none, s)

/-- The bytes in hand: counted, written, and the first of them checked. -/
def copy_bytes (s : Copying) (bytes : List Byte) : Option (Option Leave × Copying) :=
  if s.done + bytes.length > c.limit then
    some (some (.refused (src c ++ " sent more than " ++ size_words c.limit false ++
      ", and the file asked for is never more than that: pick the right one")), s)
  else if held_to c ≥ 0 ∧ (s.done + bytes.length : Int) > held_to c then
    some (some (.refused (src c ++ " sent more than the " ++ toString (held_to c) ++
      " bytes it was said to hold: pick it again")), s)
  else
    match room_left c o s with
    | (some why, s) => some (some (.refused why), s)
    | (none, s) =>
        (put s.writes bytes).map fun (failed, wrote, writes) =>
          let s := { s with
            fs := Folder.append s.fs (tmp_path c) wrote
            touched := s.touched ++ [tmp_path c]
            writes }
          match failed with
          | some errno => (some (.refused ("cannot write " ++ tmp_path c ++ ": " ++ errno)), s)
          | none => after_put c o { s with done := s.done + bytes.length }

def want (s : Copying) : Nat :=
  let want := STEP
  let want :=
    if !s.peeked && c.peek_at > s.done && c.peek_at - s.done < want then c.peek_at - s.done
    else want
  if held_to c < 0 ∧ s.room_at > s.done ∧ s.room_at - s.done < want then s.room_at - s.done
  else want

/-- The reads; none while the provider has not answered. -/
def copy_loop : List Read → Copying → Option (Leave × Copying)
  | [], _ => none
  | read :: reads, s =>
      match take c o (want c s) read.answer read.waits s with
      | (.cancelled, s) => some (.cancelled, s)
      | (.failed errno, s) =>
          some (.refused ("cannot read " ++ src c ++ ": " ++ errno), s)
      | (.bytes [], s) => some (.at_end, s)
      | (.bytes (b :: bytes), s) =>
          match copy_bytes c o s (b :: bytes) with
          | none => none
          | some (some leave, s) => some (leave, s)
          | some (none, s) => copy_loop reads s

/-- The head first, as if just read. -/
def copy_all (reads : List Read) (s : Copying) : Option (Leave × Copying) :=
  if c.head = [] then copy_loop c o reads s
  else
    match copy_bytes c o s c.head with
    | none => none
    | some (some leave, s) => some (leave, s)
    | some (none, s) => copy_loop c o reads s

def Copying.unlink (s : Copying) (path : String) : Copying :=
  { s with fs := Function.update s.fs path none, touched := s.touched ++ [path] }

/-- The failure exits. -/
def fail (s : Copying) (result : Result) : Result × Copying :=
  (result, if s.made then s.unlink (tmp_path c) else s)

def refuse (s : Copying) (why : String) : Result × Copying := fail c s (.IMPORT_REFUSED why)

def peek_refused (s : Copying) (said : String) : Result × Copying :=
  let said := if said = "" then "its first bytes are not what was asked for" else said
  refuse c s (
    if held_to c ≥ 0 then
      "the copy was stopped after " ++ toString s.done ++ " of " ++ toString (held_to c) ++
        " bytes: " ++ said
    else "the copy was stopped after " ++ toString s.done ++ " bytes: " ++ said)

def cancelled (s : Copying) : Result × Copying :=
  fail c s (.IMPORT_CANCELLED (
    if held_to c ≥ 0 then
      "the copy was cancelled at " ++ toString s.done ++ " of " ++ toString (held_to c) ++ " bytes"
    else "the copy was cancelled at " ++ toString s.done ++ " bytes"))

def Copying.chmod (s : Copying) (path : String) (mode : Nat) : Copying :=
  { s with
    fs := Function.update s.fs path ((s.fs path).map fun f => { f with mode })
    touched := s.touched ++ [path] }

/-- The end of the descriptor: its size, its peek if it was short, and the .tmp made whole. -/
def finish (s : Copying) : Result × Copying :=
  if held_to c ≥ 0 ∧ (s.done : Int) < held_to c then
    refuse c s ("the copy stopped at " ++ toString s.done ++ " of " ++ toString (held_to c) ++
      " bytes: " ++ src c ++ " ended early; pick it again")
  else
    match if !s.peeked then look c s else (none, s) with
    | (some said, s) => peek_refused c s said
    | (none, s) =>
        match o.fsync with
        | some errno => refuse c s ("cannot write " ++ tmp_path c ++ ": " ++ errno)
        | none =>
            match o.fchmod with
            | some errno =>
                refuse c s ("cannot make " ++ tmp_path c ++ " read-only: " ++ errno)
            | none =>
                let s := s.chmod (tmp_path c) 0o444
                match o.close with
                | some errno => refuse c s ("cannot write " ++ tmp_path c ++ ": " ++ errno)
                | none => (.IMPORT_OK s.done, s)

def leave (s : Copying) : Leave → Result × Copying
  | .at_end => finish c o s
  | .refused why => refuse c s why
  | .peek_refused said => peek_refused c s said
  | .cancelled => cancelled c s

/-- The .tmp made anew, with whatever had its name removed first. -/
def create (s : Copying) : Option String × Copying :=
  match o.create with
  | .unlink_failed errno => (some errno, s)
  | .open_failed errno => (some errno, s.unlink (tmp_path c))
  | .made =>
      let s := s.unlink (tmp_path c)
      (none, { s with
        fs := Function.update s.fs (tmp_path c) (some ⟨[], 0o600⟩)
        made := true })

/-- All of its size taken now, where the filesystem can. -/
def no_room : Option String :=
  if held_to c > 0 then
    match o.fallocate with
    | .failed errno => some errno
    | _ => none
  else none

def start (fs : Folder) (writes : List Write) : Copying where
  fs := fs
  touched := []
  writes := writes
  pos := c.head.length
  ticks := 0
  asked := 0
  looks := 1
  next := 0
  due := 0
  done := 0
  room_at := 0
  made := false
  peeked := c.peek.isNone
  peeks := []

/-- The copy, and the folder after it; none while it still waits for the system. -/
def import_copy (fs : Folder) (reads : List Read) (writes : List Write) :
    Option (Result × Copying) :=
  let s := start c fs writes
  if (tmp_path c).utf8ByteSize ≥ 1100 then some (refuse c s (tmp_path c ++ " is too long a path"))
  else if o.kind = .IMPORT_OTHER then
    some (refuse c s (src c ++ " is neither a file nor a stream"))
  else if held_to c ≥ 0 ∧ held_to c > c.limit then
    some (refuse c s (src c ++ " is " ++ size_words (held_to c).toNat false ++
      ", and the file asked for is never more than " ++ size_words c.limit false ++
      ": pick the right one"))
  else
    match o.free 0 with
    | none =>
        some (refuse c s ("cannot tell how much room " ++ c.dir ++ " has: " ++ o.free_errno))
    | some room =>
        if held_to c ≥ 0 ∧ (room : Int) < held_to c + IMPORT_MARGIN then
          some (refuse c s ("copying " ++ src c ++ " needs " ++
            size_words (held_to c).toNat true ++ ", and " ++ size_words IMPORT_MARGIN true ++
            " more must stay free, but " ++ size_words room false ++
            " is free: make room on this device and pick it again"))
        else if !o.malloc then some (refuse c s "no memory for the copy")
        else
          match create c o s with
          | (some errno, s) =>
              some (refuse c s ("cannot create " ++ tmp_path c ++ ": " ++ errno))
          | (none, s) =>
              match no_room c o with
              | some errno =>
                  some (refuse c s ("cannot make room for " ++ tmp_path c ++ ": " ++ errno))
              | none =>
                  match stop c o s true with
                  | (true, s) => some (cancelled c s)
                  | (false, s) => (copy_all c o reads s).map fun (left, s) => leave c o s left

end Copy

end SoaPort.Disc.Import
