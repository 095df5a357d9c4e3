import SoaPort.Lib.Bytes

namespace SoaPort.Screen

open SoaPort.Lib

/-! What mods draw over the picture: three frames of draws, one the guest thread builds,
one in the shared word, one the window thread draws (overlay.c). -/

def MODS : Nat := 32
def CMDS : Nat := 1024
def TEXT : Nat := 16384
def OVERLAY_MOD_CMDS : Nat := 256
def OVERLAY_MOD_TEXT : Nat := 4096
def FRESH : Nat := 4

inductive Kind where
  | K_RECT
  | K_TEXT
deriving DecidableEq

/-- A draw. A text's size is in `w`, and its bytes are `len` of the frame's from `at_`. -/
structure Cmd where
  x : BitVec 32
  y : BitVec 32
  w : BitVec 32
  h : BitVec 32
  rgba : BitVec 32
  at_ : BitVec 16
  len : BitVec 16
  kind : Kind

structure Frame where
  n : Nat
  used : Nat
  cmd : Nat → Cmd
  text : Nat → Byte

/-- What a draw puts on the picture. -/
inductive Shown where
  | rect (x y w h rgba : BitVec 32)
  | text (x y size rgba : BitVec 32) (bytes : List Byte)
deriving DecidableEq

def Frame.shown (f : Frame) (i : Nat) : Shown :=
  let c := f.cmd i
  match c.kind with
  | .K_RECT => .rect c.x c.y c.w c.h c.rgba
  | .K_TEXT =>
      .text c.x c.y c.w c.rgba ((List.range c.len.toNat).map fun k => f.text (c.at_.toNat + k))

/-- The frame's list. -/
def Frame.list (f : Frame) : List Shown := (List.range f.n).map f.shown

/-- Where the guest thread is: outside, past a draw's `n++`, before `overlay_publish`'s
exchange, or after it. -/
inductive Guest where
  | out
  | fill (m : Nat) (c : Cmd) (text : List Byte)
  | hand
  | clear

/-- Where the window thread is: outside, past the load that saw a fresh frame, or at a
draw of the list. -/
inductive Window where
  | out
  | fresh
  | draw (i : Nat)

structure Overlay where
  g_frame : Nat → Frame
  g_shared : Nat
  g_back : Nat
  g_front : Nat
  g_mod_cmds : Nat → Nat
  g_mod_text : Nat → Nat
  g_last_n : Nat
  guest : Guest
  window : Window

/-- What a take or a draw gave, and how many lists were published when the take began. -/
structure Seen where
  began : Nat
  items : List Shown

/-- What happened. Frame 1 is published at the start, empty. -/
structure Log where
  lists : List (List Shown)
  seen : List Seen
  /-- the lists published when the take under way began -/
  began : Nat
  /-- what the draw under way has drawn -/
  items : List Shown
  /-- the mods of the frame being built's draws, with their texts' lengths -/
  owners : List (Nat × Nat)

structure State where
  o : Overlay
  log : Log

def start (g_frame : Nat → Frame) : State where
  o :=
    { g_frame := fun i => { g_frame i with n := 0, used := 0 }, g_shared := 1, g_back := 0
      g_front := 2, g_mod_cmds := fun _ => 0, g_mod_text := fun _ => 0, g_last_n := 0
      guest := .out, window := .out }
  log := { lists := [[]], seen := [], began := 0, items := [], owners := [] }

def room (o : Overlay) (m : Int) (text : Nat) : Bool :=
  0 ≤ m ∧ m < MODS ∧ (o.g_frame o.g_back).n < CMDS ∧ o.g_mod_cmds m.toNat < OVERLAY_MOD_CMDS ∧
    (o.g_frame o.g_back).used + text ≤ TEXT ∧ o.g_mod_text m.toNat + text ≤ OVERLAY_MOD_TEXT

/-- A frame of the three with one of its fields changed. -/
def Overlay.back (o : Overlay) (f : Frame → Frame) : Overlay :=
  { o with g_frame := Function.update o.g_frame o.g_back (f (o.g_frame o.g_back)) }

/-- A draw's slot taken, and what is to go in it. -/
def claim (o : Overlay) (m : Int) (c : Cmd) (text : List Byte) : Overlay :=
  { o.back fun f => { f with n := f.n + 1 } with guest := .fill m.toNat c text }

def overlay_rect (o : Overlay) (m : Int) (x y w h rgba : BitVec 32) : Overlay :=
  if room o m 0 then claim o m ⟨x, y, w, h, rgba, 0, 0, .K_RECT⟩ [] else o

def overlay_text (o : Overlay) (m : Int) (x y size rgba : BitVec 32) (text : Option (List Byte)) :
    Overlay :=
  let bytes := text.getD []
  let len := bytes.length
  if size.toNat < 1 ∨ size.toNat > 8 ∨ len > 255 ∨ room o m len = false then o
  else
    claim o m
      ⟨x, y, size, 0, rgba, BitVec.ofNat 16 (o.g_frame o.g_back).used, BitVec.ofNat 16 len, .K_TEXT⟩
      bytes

/-- The draw's fields, its text's bytes, and its mod's counts. -/
def write (f : Frame) (c : Cmd) (text : List Byte) : Frame :=
  { f with
    cmd := Function.update f.cmd (f.n - 1) c
    text := fun i => if f.used ≤ i ∧ i < f.used + text.length then text.getD (i - f.used) 0#8
      else f.text i
    used := f.used + text.length }

/-- What the two threads do, one step at a time: a call begun, or its next access. -/
inductive Action where
  | overlay_rect (m : Int) (x y w h rgba : BitVec 32)
  | overlay_text (m : Int) (x y size rgba : BitVec 32) (text : Option (List Byte))
  | write
  | overlay_publish
  | exchange
  | clear
  | overlay_take
  | swap
  | overlay_draw (drawable : Bool)
  | next

/-- The window thread's list, as its take leaves it. -/
def State.took (s : State) (o : Overlay) : State :=
  { o := o
    log := { s.log with seen := s.log.seen ++ [⟨s.log.began, (o.g_frame o.g_front).list⟩] } }

def step (s : State) : Action → Option State
  | .overlay_rect m x y w h rgba =>
      match s.o.guest with
      | .out => some { s with o := overlay_rect s.o m x y w h rgba }
      | _ => none
  | .overlay_text m x y size rgba text =>
      match s.o.guest with
      | .out => some { s with o := overlay_text s.o m x y size rgba text }
      | _ => none
  | .write =>
      match s.o.guest with
      | .fill m c text =>
          some
            { o :=
                { s.o.back fun f => write f c text with
                  g_mod_cmds := Function.update s.o.g_mod_cmds m (s.o.g_mod_cmds m + 1)
                  g_mod_text := Function.update s.o.g_mod_text m (s.o.g_mod_text m + text.length)
                  guest := .out }
              log := { s.log with owners := s.log.owners ++ [(m, text.length)] } }
      | _ => none
  | .overlay_publish =>
      match s.o.guest with
      | .out =>
          let f := s.o.g_frame s.o.g_back
          if f.n = 0 ∧ s.o.g_last_n = 0 then
            some { s with log := { s.log with lists := s.log.lists ++ [f.list] } }
          else some { s with o := { s.o with g_last_n := f.n, guest := .hand } }
      | _ => none
  | .exchange =>
      match s.o.guest with
      | .hand =>
          some
            { o :=
                { s.o with
                  g_back := s.o.g_shared &&& 3
                  g_shared := s.o.g_back ||| FRESH
                  guest := .clear }
              log := { s.log with lists := s.log.lists ++ [(s.o.g_frame s.o.g_back).list] } }
      | _ => none
  | .clear =>
      match s.o.guest with
      | .clear =>
          some
            { o :=
                { s.o.back fun f => { f with n := 0, used := 0 } with
                  g_mod_cmds := fun _ => 0
                  g_mod_text := fun _ => 0
                  guest := .out }
              log := { s.log with owners := [] } }
      | _ => none
  | .overlay_take =>
      match s.o.window with
      | .out =>
          let s := { s with log := { s.log with began := s.log.lists.length } }
          if s.o.g_shared &&& FRESH ≠ 0 then some { s with o := { s.o with window := .fresh } }
          else some (s.took s.o)
      | _ => none
  | .swap =>
      match s.o.window with
      | .fresh =>
          some
            (s.took
              { s.o with
                g_front := s.o.g_shared &&& 3
                g_shared := s.o.g_front
                window := .out })
      | _ => none
  | .overlay_draw drawable =>
      match s.o.window with
      | .out =>
          if drawable = false ∨ (s.o.g_frame s.o.g_front).n = 0 then some s
          else some { o := { s.o with window := .draw 0 }, log := { s.log with items := [] } }
      | _ => none
  | .next =>
      match s.o.window with
      | .draw i =>
          let f := s.o.g_frame s.o.g_front
          if i < f.n then
            some
              { o := { s.o with window := .draw (i + 1) }
                log := { s.log with items := s.log.items ++ [f.shown i] } }
          else
            some
              { o := { s.o with window := .out }
                log := { s.log with seen := s.log.seen ++ [⟨0, s.log.items⟩] } }
      | _ => none

/-- The two threads' steps in some order; one that is not at its place waits. -/
def run (s : State) (actions : List Action) : State :=
  actions.foldl (fun s a => (step s a).getD s) s

end SoaPort.Screen
