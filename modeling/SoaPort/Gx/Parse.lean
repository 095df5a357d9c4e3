import Mathlib.Logic.Function.Basic
import SoaPort.Gx.Command
import SoaPort.Lib.Stream

namespace SoaPort.Gx

/-! The front end's state, the parser, the write-gather pipe, and the capture
of frames. -/

def MEM1_SIZE : Nat := 0x01800000

def MEM_MASK : Word := 0x01FFFFFF#32

def PIPE_CAP : Nat := 65536

/-- The offset of an address in the memory image. -/
def mem_ptr (addr : Word) : Nat := (addr &&& MEM_MASK).toNat

def mem_bytes (mem : Nat → Byte) (addr : Word) (size : Nat) : List Byte :=
  (List.range size).map fun k => mem (mem_ptr addr + k)

/-- The register shadows. -/
structure Regs where
  cp : Nat → Word
  xf : Nat → Word
  bp : Nat → Word

/-- What the front end does, in order: register writes, what it hands to the
renderer, and the ends of frames. -/
inductive Effect where
  | cp (reg : Nat) (v : Word)
  | xf (addr : Nat) (v : Word)
  /-- `gxr_bp_written`; for register 0x52 an EFB copy. -/
  | bp (reg : Nat) (v : Word)
  /-- Words read from memory by an indexed load. -/
  | fetch (src : Word) (words : List Word)
  /-- `gxr_draw`, with the display list it came through. -/
  | draw (op count : Nat) (verts : List Byte) (vsize : Nat) (list : Option Word)
  | frame_end
  deriving DecidableEq, Repr

/-- The registers, and the pixel engine's interrupt and token registers. -/
structure Gpu where
  regs : Regs
  bp_mask : Word
  pe_isr : BitVec 16
  pe_token : BitVec 16
  list_addr : Word
  in_list : Bool
  log : List Effect

namespace Gpu

def emit (g : Gpu) (e : Effect) : Gpu := { g with log := g.log ++ [e] }

def load_cp (g : Gpu) (reg : Nat) (v : Word) : Gpu :=
  { g with regs := { g.regs with cp := Function.update g.regs.cp reg v } }.emit (.cp reg v)

/-- `if (addr + i < 0x1100) g_xf[addr + i] = v`, for each value in turn. -/
def load_xf (g : Gpu) (addr : Nat) : List Word → Gpu
  | [] => g
  | v :: values =>
      if addr < 0x1100 then
        load_xf ({ g with regs := { g.regs with xf := Function.update g.regs.xf addr v } }.emit
          (.xf addr v)) (addr + 1) values
      else load_xf g (addr + 1) values

/-- Indexed XF (GXLoadPosMtxIndx etc.). The source is below the windows of the
devices, so its words come from the memory image. -/
def load_xf_indexed (g : Gpu) (mem : Nat → Byte) (op index v : Nat) : Gpu :=
  let count := v / 4096 + 1
  let addr := v % 4096
  let array := 12 + (op - 0x20) / 8
  let base := g.regs.cp (0xA0 + array) &&& 0x1FFFFFFF#32
  let stride := g.regs.cp (0xB0 + array) &&& 0xFF#32
  let src := base + BitVec.ofNat 32 index * stride
  if count ≤ MEM1_SIZE / 4 ∧ mem_ptr src ≤ MEM1_SIZE - 4 * count then
    let words := (List.range count).map fun i =>
      be32 (mem_bytes mem ((src ||| 0x80000000#32) + BitVec.ofNat 32 (4 * i)) 4)
    (g.emit (.fetch src words)).load_xf addr words
  else g

/-- BP_MASK (BP 0xFE): the next BP write changes only the bits it names; the
mask then lapses. -/
def load_bp (g : Gpu) (v : Word) : Gpu :=
  let reg := (v >>> 24).toNat
  let v := ((g.regs.bp reg &&& ~~~g.bp_mask) ||| (v &&& g.bp_mask)) &&& 0xFFFFFF#32
  let g := { g with
    bp_mask := if reg = 0xFE then v else 0xFFFFFF#32
    regs := { g.regs with bp := Function.update g.regs.bp reg v } }
  let g :=
    -- PE_DONE, PE_TOKEN, PE_TOKEN_INT
    if reg = 0x45 then (if v &&& 2 ≠ 0 then { g with pe_isr := g.pe_isr ||| 8 } else g)
    else if reg = 0x47 then { g with pe_token := v.setWidth 16 }
    else if reg = 0x48 then { g with pe_token := v.setWidth 16, pe_isr := g.pe_isr ||| 4 }
    else g
  let g := g.emit (.bp reg v)
  if reg = 0x52 ∧ v &&& 0x4000 ≠ 0 then g.emit .frame_end else g

/-- Whether a BP write is a copy to the XFB, which ends the frame. -/
def ends_frame (g : Gpu) (v : Word) : Bool :=
  let value := (g.regs.bp 0x52 &&& ~~~g.bp_mask) ||| (v &&& g.bp_mask)
  v >>> 24 = 0x52 && value &&& 0xFFFFFF &&& 0x4000 ≠ 0

def draw (g : Gpu) (op count : Nat) (verts : List Byte) (vsize : Nat) : Gpu :=
  g.emit (.draw op count verts vsize (if g.in_list then some g.list_addr else none))

end Gpu

/-! Frame capture. -/

/-- A captured frame: the registers as it began, the bytes pushed during it,
and memory as it ended. -/
structure Capture where
  frame : Nat
  regs : Regs
  fifo : List Byte
  ram : Nat → Byte

/-- `g_dump_list` names the frames wanted; it is null until the first check. -/
structure Cap where
  dump_list : Option (List Nat)
  bytes : List Byte
  regs : Regs
  frame : Nat
  captures : List Capture

namespace Cap

/-- `dump` is the environment's SOA_FIFO_DUMP. -/
def frame_end (dump : Option (List Nat)) (cap : Cap) (regs : Regs) (mem : Nat → Byte) : Cap :=
  { dump_list := dump
    bytes := []
    regs := regs
    frame := cap.frame + 1
    captures :=
      if cap.frame ∈ dump.getD [] then
        cap.captures ++ [{ frame := cap.frame, regs := cap.regs, fifo := cap.bytes, ram := mem }]
      else cap.captures }

def append (cap : Cap) (p : List Byte) : Cap :=
  if cap.dump_list.isNone then cap else { cap with bytes := cap.bytes ++ p }

/-- The 9-byte list call `back` bytes before the capture's end becomes a
CAP_LIST record holding the list as it is now; what follows the call follows
it again. -/
def inline_list (cap : Cap) (back : Nat) (body : List Byte) : Cap :=
  if cap.dump_list.isNone ∨ back < 9 ∨ back > cap.bytes.length ∨ back - 9 > 64 then cap
  else
    let pos := cap.bytes.length - back
    if byte cap.bytes pos ≠ 0x40 then cap
    else
      { cap with
        bytes := cap.bytes.take pos ++
          (BitVec.ofNat 8 CAP_LIST :: (cap.bytes.drop (pos + 1)).take 8) ++ body ++
          cap.bytes.drop (pos + 9) }

end Cap

structure FrontEnd where
  gpu : Gpu
  cap : Cap
  mem : Nat → Byte
  /-- The write-gather pipe's bytes not yet parsed. -/
  pipe : List Byte
  /-- `PI_FIFO_BASE`, `PI_FIFO_TOP` and `PI_FIFO_WPTR`. -/
  pi_base : Word
  pi_top : Word
  pi_wptr : Word
  /-- The CPU FIFO is DisplayListFifo: record, do not parse. -/
  dl_rec : Bool

/-- The statics, as the program starts. -/
def FrontEnd.init : FrontEnd where
  gpu := { regs := ⟨fun _ => 0, fun _ => 0, fun _ => 0⟩, bp_mask := 0xFFFFFF, pe_isr := 0,
           pe_token := 0, list_addr := 0, in_list := false, log := [] }
  cap := { dump_list := none, bytes := [], regs := ⟨fun _ => 0, fun _ => 0, fun _ => 0⟩,
           frame := 0, captures := [] }
  mem := fun _ => 0
  pipe := []
  pi_base := 0
  pi_top := 0
  pi_wptr := 0
  dl_rec := false

namespace FrontEnd

variable (dump : Option (List Nat))

def load_bp (g : FrontEnd) (v : Word) : FrontEnd :=
  let gpu := g.gpu.load_bp v
  if g.gpu.ends_frame v then { g with gpu, cap := g.cap.frame_end dump gpu.regs g.mem }
  else { g with gpu }

/-- A command inside a display list, where a list called is skipped. -/
def exec (g : FrontEnd) : Command → FrontEnd
  | .nop | .unknown _ | .list .. => g
  | .cp reg v => { g with gpu := g.gpu.load_cp reg v }
  | .xf addr values => { g with gpu := g.gpu.load_xf addr values }
  | .xf_indexed op index v => { g with gpu := g.gpu.load_xf_indexed g.mem op index v }
  | .bp v => g.load_bp dump v
  | .draw op count verts vsize => { g with gpu := g.gpu.draw op count verts vsize }

/-- `parse(s, body, size, 1)`, one command. -/
def list_step (g : FrontEnd) (p : List Byte) : Option (FrontEnd × List Byte) :=
  (next_command g.gpu.regs.cp false p).map fun (cmd, rest) => (g.exec dump cmd, rest)

def parse_list (g : FrontEnd) (body : List Byte) : FrontEnd := (Lib.drain (list_step dump) g body).1

/-- The draws inside say which list they came through. -/
def run_list (g : FrontEnd) (addr : Word) (body : List Byte) : FrontEnd :=
  let g := { g with gpu := { g.gpu with list_addr := addr, in_list := true } }
  let g := g.parse_list dump body
  { g with gpu := { g.gpu with in_list := false } }

/-- A command of the stream, `back` bytes before the end of the buffer. `live`
is set when the buffer is the pipe's own: the capture keeps the list as it is
now, not as the frame's end leaves it. -/
def exec_top (live : Bool) (back : Nat) (g : FrontEnd) : Command → FrontEnd
  | .list addr _ (some body) => g.run_list dump addr body
  | .list addr size none =>
      if size.toNat ≤ MEM1_SIZE ∧ mem_ptr addr ≤ MEM1_SIZE - size.toNat then
        let body := mem_bytes g.mem addr size.toNat
        let g := if live ∧ size ≠ 0 then { g with cap := g.cap.inline_list back body } else g
        g.run_list dump addr body
      else g
  | cmd => g.exec dump cmd

/-- `parse(s, p, len, 0)`, one command. -/
def parse_step (replaying live : Bool) (g : FrontEnd) (p : List Byte) : Option (FrontEnd × List Byte) :=
  (next_command g.gpu.regs.cp replaying p).map fun (cmd, rest) =>
    (g.exec_top dump live p.length cmd, rest)

/-- Parse as many whole commands as the bytes hold, and leave the rest. -/
def parse (replaying live : Bool) (g : FrontEnd) (p : List Byte) : FrontEnd × List Byte :=
  Lib.drain (parse_step dump replaying live) g p

def pipe_flush (g : FrontEnd) : FrontEnd :=
  let (g, rest) := parse dump false true g g.pipe
  { g with pipe := rest }

end FrontEnd

/-- The bytes of a store, most significant first. -/
def store_bytes (size : Nat) (v : BitVec 64) : List Byte :=
  (List.range size).map fun i => (v >>> (8 * (size - 1 - i))).setWidth 8

def PI_WRAP : Word := 0x04000000#32

namespace FrontEnd

variable (dump : Option (List Nat))

/-- One byte of `dl_record`. -/
def dl_record_byte (g : FrontEnd) (b : Byte) : FrontEnd :=
  let base := g.pi_base &&& 0x03FFFFFF#32
  -- top is the last word
  let stop := (g.pi_top &&& 0x03FFFFFF#32) + 4
  let w := g.pi_wptr &&& 0x03FFFFFF#32
  let wraps := stop.toNat ≤ w.toNat
  let wptr := if wraps then g.pi_wptr ||| PI_WRAP else g.pi_wptr
  let w := if wraps then base else w
  { g with
    mem := if w.toNat < MEM1_SIZE then
        Function.update g.mem (mem_ptr (0x80000000#32 ||| w)) b
      else g.mem
    pi_wptr := (wptr &&& PI_WRAP) ||| (w + 1) }

/-- The bytes go into guest memory at the PI write pointer, and are neither
parsed nor captured here. -/
def dl_record (g : FrontEnd) (size : Nat) (v : BitVec 64) : FrontEnd :=
  (store_bytes size v).foldl dl_record_byte g

def gx_pipe_write (g : FrontEnd) (size : Nat) (v : BitVec 64) : FrontEnd :=
  if g.dl_rec then g.dl_record size v
  else
    -- a full buffer: a command is not parsing
    let pipe := if g.pipe.length + size > PIPE_CAP then [] else g.pipe
    let p := store_bytes size v
    pipe_flush dump { g with pipe := pipe ++ p, cap := g.cap.append p }

end FrontEnd

/-- A store to the gather pipe. -/
structure Store where
  size : Nat
  value : BitVec 64
  width : size = 1 ∨ size = 2 ∨ size = 4 ∨ size = 8

namespace Store

def bytes (store : Store) : List Byte := store_bytes store.size store.value

theorem size_le (store : Store) : store.size ≤ 8 := by
  have := store.width
  omega

theorem bytes_length (store : Store) : store.bytes.length = store.size := by
  rw [bytes, store_bytes, List.length_map, List.length_range]

end Store

def FrontEnd.gx_pipe_writes (dump : Option (List Nat)) (g : FrontEnd) (stores : List Store) :
    FrontEnd :=
  stores.foldl (fun g store => g.gx_pipe_write dump store.size store.value) g

end SoaPort.Gx
