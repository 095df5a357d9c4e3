import SoaPort.Card.Serial
import SoaPort.Recomp.Cpu

namespace SoaPort.Card

open SoaPort.Lib SoaPort.Recomp

/-! The external interface and the memory card on it (exi.c). The card is an array
in memory, written through to a file when a program or an erase is deselected. -/

abbrev CARD_BYTES : Nat := 4 * 2 ^ 17
abbrev CARD_SECTOR : Nat := 0x2000
abbrev CARD_ID : Word := 0x00000004#32
abbrev MEM1_SIZE : Nat := 0x01800000

def EXI_BASE : Word := 0xCC006800#32
abbrev CSR_EXIINT : Word := 0x0002#32
abbrev CSR_TCINT : Word := 0x0008#32
abbrev CSR_W1C : Word := 0x080A#32
abbrev CSR_STORED : Word := 0x07F5#32

/-- One of the three channels; `selected` is the device its chip select names. -/
structure Channel where
  csr : Word
  mar : Word
  len : Word
  cr : Word
  data : Word
  selected : Option Nat
  pos : Word

/-- The card, and the file at its path: `file` while the port holds it open. -/
structure CardState where
  card : Option (Nat → Byte)
  addr : Word
  cmd : Byte
  status : Byte
  int_en : Bool
  int_req : Bool
  dirty : Bool
  dirty_lo : Nat
  dirty_hi : Nat
  file : Bool
  image : Option (List Byte)

/-- Which of a flush's two `fopen` calls the host would let through. -/
structure Opens where
  r_plus : Bool
  w_plus : Bool

section Card

/-- Blank flash under what the file has. -/
def card_load (c : CardState) : CardState :=
  match c.card with
  | some _ => c
  | none => { c with card := some fun i => ((c.image.getD []).take CARD_BYTES).getD i 0xFF#8 }

/-- The array, of a card that has been loaded. -/
def CardState.array (c : CardState) : Nat → Byte := c.card.getD fun _ => 0xFF#8

def card_dirty (c : CardState) (off len : Nat) : CardState :=
  if c.dirty = false then
    { c with dirty := true, dirty_lo := off, dirty_hi := off + len }
  else
    { c with
      dirty_lo := if off < c.dirty_lo then off else c.dirty_lo
      dirty_hi := if off + len > c.dirty_hi then off + len else c.dirty_hi }

/-- A file that is not of the card's size is rewritten whole. -/
def widen (c : CardState) : CardState :=
  if (c.image.getD []).length ≠ CARD_BYTES then
    { c with dirty_lo := 0, dirty_hi := CARD_BYTES }
  else c

/-- `r+b` wants the file there; `w+b` makes it, or empties it. -/
def open_file (o : Opens) (c : CardState) : Option CardState :=
  if c.file then some c
  else if c.image.isSome ∧ o.r_plus then some (widen { c with file := true })
  else if o.w_plus then some (widen { c with file := true, image := some [] })
  else none

/-- Bytes written at an offset of a file, past its end over zeros. -/
def pwrite (f : List Byte) (at_ : Nat) (q : List Byte) : List Byte :=
  splice (f ++ List.replicate (at_ - f.length) 0#8) at_ q

def card_flush (o : Opens) (c : CardState) : CardState :=
  match c.card with
  | none => c
  | some card =>
      if c.dirty = false then c
      else
        match open_file o c with
        | none => { c with dirty := false }
        | some c =>
            let bytes := (List.range' c.dirty_lo (c.dirty_hi - c.dirty_lo)).map card
            { c with image := some (pwrite (c.image.getD []) c.dirty_lo bytes), dirty := false }

/-- The address bytes of commands 0x52, 0xF1 and 0xF2. -/
def address_byte (pos : Nat) (addr : Word) (input : Byte) : Word :=
  let input := input.setWidth 32
  match pos with
  | 1 => input <<< 17
  | 2 => addr ||| (input <<< 9)
  | 3 => addr ||| ((input &&& 3#32) <<< 7)
  | _ => addr ||| (input &&& 0x7F#32)

def set_array (c : CardState) (array : Nat → Byte) : CardState := { c with card := some array }

/-- Page program: four address bytes, then data, which can only clear bits. -/
def program_byte (pos : Nat) (input : Byte) (c : CardState) : CardState :=
  if 1 ≤ pos ∧ pos ≤ 4 then { c with addr := address_byte pos c.addr input }
  else
    let a := c.addr.toNat % CARD_BYTES
    let c := set_array c (Function.update c.array a (c.array a &&& input))
    let c := card_dirty c a 1
    { c with addr := c.addr + 1#32 }

/-- Sector erase: two address bytes, the second of which starts it. -/
def erase_byte (pos : Nat) (input : Byte) (c : CardState) : CardState :=
  if pos = 1 then { c with addr := address_byte 1 c.addr input }
  else if pos = 2 then
    let addr := address_byte 2 c.addr input
    let base := addr.toNat % CARD_BYTES / CARD_SECTOR * CARD_SECTOR
    let erased := fun i => if base ≤ i ∧ i < base + CARD_SECTOR then 0xFF#8 else c.array i
    card_dirty (set_array { c with addr := addr } erased) base CARD_SECTOR
  else c

def chip_erase_byte (pos : Nat) (c : CardState) : CardState :=
  if pos = 2 then card_dirty (set_array c fun _ => 0xFF#8) 0 CARD_BYTES else c

/-- Read array: four address bytes, four of latency, then data. -/
def read_byte (pos : Nat) (input : Byte) (c : CardState) : Byte × CardState :=
  if 1 ≤ pos ∧ pos ≤ 4 then (0xFF#8, { c with addr := address_byte pos c.addr input })
  else if 9 ≤ pos then
    (c.array (c.addr.toNat % CARD_BYTES), { c with addr := c.addr + 1#32 })
  else (0xFF#8, c)

/-- A byte after the command's own. -/
def command_byte (pos : Nat) (input : Byte) (c : CardState) : Byte × CardState :=
  match c.cmd.toNat with
  | 0x00 =>
      (if 2 ≤ pos then (CARD_ID >>> (8 * (3 - ((pos - 2) &&& 3)))).setWidth 8 else 0xFF#8, c)
  | 0x85 => (if pos = 1 then 0x80#8 else if pos = 2 then 0xC2#8 else
      if pos = 3 then 0x21#8 else 0x00#8, c)
  | 0x83 => (c.status, c)
  | 0x52 => read_byte pos input c
  | 0xF2 => (0xFF#8, program_byte pos input c)
  | 0xF1 => (0xFF#8, erase_byte pos input c)
  | 0xF4 => (0xFF#8, chip_erase_byte pos c)
  | 0x81 => (0xFF#8, if pos = 1 then { c with int_en := input &&& 1#8 ≠ 0#8 } else c)
  | _ => (0xFF#8, c)

/-- One byte in each direction on the card's serial line. -/
def card_byte (pos : Word) (input : Byte) (c : CardState) : Byte × CardState :=
  let c := card_load c
  if pos = 0#32 then
    let c := { c with cmd := input }
    if input = 0x89#8 then
      (0xFF#8, { c with status := c.status &&& ~~~0x18#8, int_req := false })
    else (0xFF#8, c)
  else command_byte pos.toNat input c

/-- The commands whose deselect flushes the card. -/
def writes (cmd : Byte) : Bool := cmd = 0xF1#8 || cmd = 0xF2#8 || cmd = 0xF4#8

/-- The chip select going away; the result's flag is the interrupt line's rising edge. -/
def card_deselected (o : Opens) (c : CardState) : Bool × CardState :=
  if writes c.cmd then
    let c := card_flush o c
    if c.int_en ∧ c.int_req = false then (true, { c with int_req := true }) else (false, c)
  else (false, c)

end Card

/-! The clock and the settings memory, which present the card's flash ID. -/

structure Rtc where
  sram : Nat → Byte
  ready : Bool
  cmd : Word
  latch : Word

abbrev RTC_COUNTER_ADDR : Nat := 0x800000
abbrev SRAM_ADDR : Nat := 0x800004

def RUNTIME_FLASH_ID : List Byte :=
  [0x53#8, 0x4F#8, 0x41#8, 0x50#8, 0x4F#8, 0x52#8, 0x54#8, 0#8, 0#8, 0#8, 0#8, 0x01#8]

/-- The settings with the card's flash ID in slot A's place, and their checksums. -/
def sram_contents (card : Nat → Byte) : Nat → Byte :=
  let id := (card_flash_id card).getD RUNTIME_FLASH_ID
  let fields : Nat → Byte := fun i =>
    if i = 19 then 0x04#8 else if 20 ≤ i ∧ i < 32 then id.getD (i - 20) 0#8 else 0#8
  let idsum := ((List.range 12).map fun i => (id.getD i 0#8).toNat).sum
  let words := (List.range 4).map fun k => halfword fields (12 + 2 * k)
  let sum := (words.map BitVec.toNat).sum
  let inv := (words.map fun w => (~~~w).toNat).sum
  fun i =>
    if i = 0 then BitVec.ofNat 8 (sum / 256) else if i = 1 then BitVec.ofNat 8 sum
    else if i = 2 then BitVec.ofNat 8 (inv / 256) else if i = 3 then BitVec.ofNat 8 inv
    else if i = 58 then ~~~BitVec.ofNat 8 idsum else if i = 59 then 0xFF#8 else fields i

def sram_init (r : Rtc) (c : CardState) : Rtc × CardState :=
  if r.ready then (r, c)
  else
    let c := card_load c
    ({ r with ready := true, sram := sram_contents c.array }, c)

/-- `seconds` is what the host's clock reads. -/
def rtc_byte (seconds : Word) (pos : Word) (input : Byte) (r : Rtc) (c : CardState) :
    Byte × Rtc × CardState :=
  let (r, c) := sram_init r c
  if pos.toNat < 4 then
    let r := { r with cmd := (r.cmd <<< 8) ||| input.setWidth 32 }
    (0#8, if pos = 3#32 then { r with latch := seconds } else r, c)
  else
    let off := pos.toNat - 4
    let addr := ((r.cmd >>> 6) &&& 0x01FFFFFF#32).toNat
    let write : Bool := r.cmd >>> 31 ≠ 0#32
    if SRAM_ADDR ≤ addr ∧ addr < SRAM_ADDR + 64 then
      let off := (off + (addr - SRAM_ADDR)) % 2 ^ 32
      if 64 ≤ off then (0#8, r, c)
      else if write then (0#8, { r with sram := Function.update r.sram off input }, c)
      else (r.sram off, r, c)
    else if RTC_COUNTER_ADDR ≤ addr ∧ addr < SRAM_ADDR ∧ write = false then
      let off := (off + (addr - RTC_COUNTER_ADDR)) % 2 ^ 32
      (if off < 4 then (r.latch >>> (8 * (3 - off))).setWidth 8 else 0#8, r, c)
    else (0#8, r, c)

/-! The channels. -/

/-- What the host decides during one register write. -/
structure Host where
  opens : Opens
  seconds : Word

structure Exi where
  ch : Nat → Channel
  card : CardState
  rtc : Rtc

section Channels

variable {ρ : Type} (rt : Runtime ρ) (host : Host)

def Exi.set (e : Exi) (ch : Nat) (c : Channel) : Exi :=
  { e with ch := Function.update e.ch ch c }

@[simp] theorem Exi.set_card (e : Exi) (ch : Nat) (c : Channel) : (e.set ch c).card = e.card := rfl

/-- The byte position moves with every byte the device sees. -/
def Exi.count (e : Exi) (ch : Nat) : Exi :=
  e.set ch { e.ch ch with pos := (e.ch ch).pos + 1#32 }

def exi_card_byte (ch : Nat) (input : Byte) (e : Exi) : Byte × Exi :=
  let (out, card) := card_byte (e.ch ch).pos input e.card
  (out, { e with card := card }.count ch)

def exi_rtc_byte (ch : Nat) (input : Byte) (e : Exi) : Byte × Exi :=
  let (out, rtc, card) := rtc_byte host.seconds (e.ch ch).pos input e.rtc e.card
  (out, { e with rtc := rtc, card := card }.count ch)

def dev_byte (ch : Nat) (input : Byte) (e : Exi) : Byte × Exi :=
  if ch = 0 ∧ (e.ch ch).selected = some 0 then exi_card_byte ch input e
  else if ch = 0 ∧ (e.ch ch).selected = some 1 then exi_rtc_byte host ch input e
  else (0xFF#8, e)

/-- DMA moves the same byte stream; `device` is the device's end of it. -/
def dma_loop (device : Byte → Exi → Byte × Exi) (mar : Word) (send : Bool) :
    List Nat → CpuState ρ → Exi → CpuState ρ × Exi
  | [], s, e => (s, e)
  | i :: rest, s, e =>
      let ea := (mar ||| 0x80000000#32) + BitVec.ofNat 32 i
      if send then
        let (byte, s) := mem_r8 rt s ea
        let (_, e) := device byte e
        dma_loop device mar send rest s e
      else
        let (out, e) := device 0#8 e
        dma_loop device mar send rest (mem_w8 rt s ea out) e

/-- A transfer that would leave MEM1 is dropped. -/
def card_dma (ch : Nat) (mar : Word) (len : Nat) (send : Bool) (s : CpuState ρ) (e : Exi) :
    CpuState ρ × Exi :=
  let e := { e with card := card_load e.card }
  if mem_ptr mar + len > MEM1_SIZE then (s, e)
  else dma_loop rt (exi_card_byte ch) mar send (List.range len) s e

def rtc_dma (ch : Nat) (mar : Word) (len : Nat) (send : Bool) (s : CpuState ρ) (e : Exi) :
    CpuState ρ × Exi :=
  dma_loop rt (exi_rtc_byte host ch) mar send
    ((List.range len).takeWhile fun i => mem_ptr mar + i < MEM1_SIZE) s e

/-- The bytes of an immediate transfer, most significant first. -/
def imm_loop (ch : Nat) (rw : Nat) (data : Word) : List Nat → Word → Exi → Word × Exi
  | [], out, e => (out, e)
  | i :: rest, out, e =>
      let b := (data >>> (8 * (3 - i))).setWidth 8
      let (r, e) := dev_byte host ch (if rw = 0 then 0#8 else b) e
      imm_loop ch rw data rest (out ||| (r.setWidth 32 <<< (8 * (3 - i)))) e

def transfer_dma (ch rw : Nat) (s : CpuState ρ) (e : Exi) : CpuState ρ × Exi :=
  let c := e.ch ch
  let len := (c.len &&& ~~~31#32).toNat
  if ch = 0 ∧ c.selected = some 0 then card_dma rt ch c.mar len (rw = 1) s e
  else if ch = 0 ∧ c.selected = some 1 then rtc_dma rt host ch c.mar len (rw = 1) s e
  else (s, e)

def transfer_imm (ch rw : Nat) (e : Exi) : Exi :=
  let c := e.ch ch
  let n := ((c.cr >>> 4) &&& 3#32).toNat + 1
  let (out, e) := imm_loop host ch rw c.data (List.range n) 0#32 e
  if rw ≠ 1 then e.set ch { e.ch ch with data := out } else e

def transfer (ch : Nat) (s : CpuState ρ) (e : Exi) : CpuState ρ × Exi :=
  let c := e.ch ch
  let rw := ((c.cr >>> 2) &&& 3#32).toNat
  let (s, e) :=
    if c.cr &&& 2#32 ≠ 0#32 then transfer_dma rt host ch rw s e
    else (s, transfer_imm host ch rw e)
  let c := e.ch ch
  (s, e.set ch { c with cr := c.cr &&& ~~~1#32, csr := c.csr ||| CSR_TCINT })

/-- The device the chip select bits of a CSR write name. -/
def chip_select (w : Word) : Option Nat :=
  if w &&& 0x0080#32 ≠ 0#32 then some 0
  else if w &&& 0x0100#32 ≠ 0#32 then some 1
  else if w &&& 0x0200#32 ≠ 0#32 then some 2
  else none

def deselect (ch : Nat) (e : Exi) : Exi :=
  if ch = 0 ∧ (e.ch ch).selected = some 0 then
    let (edge, card) := card_deselected host.opens e.card
    let c := e.ch ch
    { e with card := card }.set ch (if edge then { c with csr := c.csr ||| CSR_EXIINT } else c)
  else e

/-- A chip select that changes frames the transaction. -/
def select (ch : Nat) (sel : Option Nat) (e : Exi) : Exi :=
  if sel = (e.ch ch).selected then e
  else
    let e := deselect host ch e
    { e with rtc := { e.rtc with cmd := 0#32 } }.set ch
      { e.ch ch with selected := sel, pos := 0#32 }

def csr_write (ch : Nat) (w : Word) (e : Exi) : Exi :=
  let c := e.ch ch
  let csr := (c.csr &&& CSR_W1C &&& ~~~(w &&& CSR_W1C)) ||| (w &&& CSR_STORED)
  select host ch (chip_select w) (e.set ch { c with csr := csr })

/-- A write to a register of a channel. -/
def reg_write (ch reg : Nat) (w : Word) (s : CpuState ρ) (e : Exi) : CpuState ρ × Exi :=
  let c := e.ch ch
  match reg with
  | 0x00 => (s, csr_write host ch w e)
  | 0x04 => (s, e.set ch { c with mar := w &&& 0x03FFFFE0#32 })
  | 0x08 => (s, e.set ch { c with len := w &&& 0x03FFFFE0#32 })
  | 0x0C =>
      let e := e.set ch { c with cr := w &&& 0x3F#32 }
      if w &&& 1#32 ≠ 0#32 then transfer rt host ch s e else (s, e)
  | 0x10 => (s, e.set ch { c with data := w })
  | _ => (s, e)

/-- Whether the write was taken, and what it leaves. -/
def exi_write (ea : Word) (size : Nat) (v : BitVec 64) (s : CpuState ρ) (e : Exi) :
    Bool × CpuState ρ × Exi :=
  if ea.toNat < EXI_BASE.toNat ∨ EXI_BASE.toNat + 0x40 ≤ ea.toNat ∨ size ≠ 4 then (false, s, e)
  else
    let ch := (ea.toNat - EXI_BASE.toNat) / 0x14
    let reg := (ea.toNat - EXI_BASE.toNat) % 0x14
    if ch > 2 then (false, s, e) else (true, reg_write rt host ch reg (v.setWidth 32) s e)

end Channels

/-! Runs of register writes, the guest doing anything in between. -/

def Channel.off : Channel :=
  { csr := 0#32, mar := 0#32, len := 0#32, cr := 0#32, data := 0#32, selected := none
    pos := 0#32 }

/-- Power-on, with whatever file there is at the card's path. -/
def power_on (image : Option (List Byte)) : Exi :=
  { ch := fun _ => Channel.off
    card :=
      { card := none, addr := 0#32, cmd := 0#8, status := 0x41#8, int_en := false
        int_req := false, dirty := false, dirty_lo := 0, dirty_hi := 0, file := false
        image := image }
    rtc := { sram := fun _ => 0#8, ready := false, cmd := 0#32, latch := 0#32 } }

structure Machine (ρ : Type) where
  cpu : CpuState ρ
  exi : Exi

inductive Event (ρ : Type) where
  | write (ea : Word) (size : Nat) (v : BitVec 64) (host : Host)
  | guest (cpu : CpuState ρ)

def step {ρ : Type} (rt : Runtime ρ) (m : Machine ρ) : Event ρ → Machine ρ
  | .write ea size v host =>
      let (_, cpu, exi) := exi_write rt host ea size v m.cpu m.exi
      ⟨cpu, exi⟩
  | .guest cpu => { m with cpu := cpu }

def run {ρ : Type} (rt : Runtime ρ) (m : Machine ρ) (events : List (Event ρ)) : Machine ρ :=
  events.foldl (step rt) m

end SoaPort.Card
