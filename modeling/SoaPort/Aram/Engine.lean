import SoaPort.Lib.Overlay
import SoaPort.Aram.ArqRuns

namespace SoaPort.Aram

/-! The transfer engine behind the queue: the DSP's 16-bit registers that ar.c
writes, and the copies aram.c makes. -/

abbrev Half := BitVec 16
abbrev Byte := BitVec 8

def MEM1_SIZE : Nat := 0x01800000
def MEM_MASK : Word := 0x01FFFFFF
def ARAM_SIZE : Nat := 0x01000000
def ARAM_MASK : Word := 0x00FFFFFF
def TB_HZ : Nat := 40500000

def CSR_PIINT : Half := 0x0002
def CSR_HALT : Half := 0x0004
def CSR_AIDINT : Half := 0x0008
def CSR_AIDINTMSK : Half := 0x0010
def CSR_ARINT : Half := 0x0020
def CSR_ARINTMSK : Half := 0x0040
def CSR_DSPINT : Half := 0x0080
def CSR_DSPINTMSK : Half := 0x0100
def CSR_DSPINITCODE : Half := 0x0400
def CSR_DSPINIT : Half := 0x0800
def CSR_W1C : Half := CSR_PIINT ||| CSR_AIDINT ||| CSR_ARINT ||| CSR_DSPINT
def CSR_STORED : Half :=
  CSR_HALT ||| CSR_AIDINTMSK ||| CSR_ARINTMSK ||| CSR_DSPINTMSK ||| CSR_DSPINITCODE |||
    CSR_DSPINIT

/-- Main memory as `mem_ptr` offsets it, ARAM, and the registers. -/
structure Engine where
  mem : Nat → Byte
  g_aram : Nat → Byte
  g_mmaddr : Word
  g_araddr : Word
  g_cnt_hi : Half
  g_csr : Half
  g_ar_busy : Bool
  g_ar_due : Nat

namespace Engine

/-- Where an address is in main memory. -/
def mm (a : Word) : Nat := (a &&& MEM_MASK).toNat

/-- Where an address is in ARAM. -/
def ar (a : Word) : Nat := (a &&& ARAM_MASK).toNat

/-- `memcpy` between the two memories. -/
def copy (to_ from_ : Nat → Byte) (dst src len : Nat) : Nat → Byte :=
  Lib.overlay dst len (fun i _ => from_ (src + i)) to_

def dma (e : Engine) (now : Nat) (cnt : Word) : Engine :=
  let len := (cnt &&& 0x7FFFFFFF).toNat
  let to_main := cnt.msb
  let e :=
    if ar e.g_araddr + len > ARAM_SIZE ∨ mm e.g_mmaddr + len > MEM1_SIZE then e
    else if to_main then
      { e with mem := copy e.mem e.g_aram (mm e.g_mmaddr) (ar e.g_araddr) len }
    else { e with g_aram := copy e.g_aram e.mem (ar e.g_araddr) (mm e.g_mmaddr) len }
  -- the interrupt, and the busy bit clearing, wait for the engine
  { e with
    g_ar_busy := true
    g_ar_due := now + TB_HZ / 20000 + len * TB_HZ / 20000000 }

def aram_poll (e : Engine) (now : Nat) : Engine :=
  if e.g_ar_busy = true ∧ now ≥ e.g_ar_due then
    { e with g_ar_busy := false, g_csr := e.g_csr ||| CSR_ARINT }
  else e

/-- The registers, by their offset from 0xCC005000. -/
inductive Reg where
  | CSR
  | MMADDR_H
  | MMADDR_L
  | ARADDR_H
  | ARADDR_L
  | CNT_H
  | CNT_L

def value (e : Engine) : Reg → Half
  | .CSR => e.g_csr ||| if e.g_ar_busy then 0x0200 else 0
  | .MMADDR_H => (e.g_mmaddr >>> 16).setWidth 16
  | .MMADDR_L => e.g_mmaddr.setWidth 16
  | .ARADDR_H => (e.g_araddr >>> 16).setWidth 16
  | .ARADDR_L => e.g_araddr.setWidth 16
  | .CNT_H => e.g_cnt_hi
  | .CNT_L => 0

def aram_read (e : Engine) (now : Nat) (r : Reg) : Engine × Half :=
  (e.aram_poll now, (e.aram_poll now).value r)

def aram_write (e : Engine) (now : Nat) (r : Reg) (v : Half) : Engine :=
  match r with
  | .CSR =>
      -- the interrupt bits are cleared by a one
      let g_csr := (e.g_csr &&& CSR_W1C &&& ~~~(v &&& CSR_W1C)) ||| (v &&& CSR_STORED)
      let boots := e.g_csr &&& CSR_DSPINIT ≠ 0 ∧ v &&& CSR_DSPINIT = 0
      { e with g_csr := if boots then g_csr ||| CSR_DSPINITCODE else g_csr }
  | .MMADDR_H =>
      { e with g_mmaddr := (e.g_mmaddr &&& 0xFFFF) ||| (v.setWidth 32 <<< 16) }
  | .MMADDR_L =>
      { e with g_mmaddr := (e.g_mmaddr &&& 0xFFFF0000) ||| v.setWidth 32 }
  | .ARADDR_H =>
      { e with g_araddr := (e.g_araddr &&& 0xFFFF) ||| (v.setWidth 32 <<< 16) }
  | .ARADDR_L =>
      { e with g_araddr := (e.g_araddr &&& 0xFFFF0000) ||| v.setWidth 32 }
  | .CNT_H => { e with g_cnt_hi := v }
  | .CNT_L => e.dma now ((e.g_cnt_hi.setWidth 32 <<< 16) ||| v.setWidth 32)

/-- `__DSPRegs[r] = (u16)((__DSPRegs[r] & ~mask) | bits)` -/
def merge (e : Engine) (now : Nat) (r : Reg) (mask bits : Word) : Engine :=
  let read := e.aram_read now r
  read.1.aram_write now r ((read.2.setWidth 32 &&& ~~~mask ||| bits).setWidth 16)

/-- `fn_80242004`. -/
def ARStartDMA (e : Engine) (now : Nat) (type mainmem_addr aram_addr length : Word) : Engine :=
  let e := e.merge now .MMADDR_H 0x03ff (mainmem_addr >>> 16)
  let e := e.merge now .MMADDR_L 0xffe0 (mainmem_addr &&& 0xffff)
  let e := e.merge now .ARADDR_H 0x03ff (aram_addr >>> 16)
  let e := e.merge now .ARADDR_L 0xffe0 (aram_addr &&& 0xffff)
  let e := e.merge now .CNT_H 0x8000 (type <<< 15)
  let e := e.merge now .CNT_H 0x03ff (length >>> 16)
  e.merge now .CNT_L 0xffe0 (length &&& 0xffff)

def aram_irq_pending (e : Engine) : Bool :=
  e.g_csr &&& CSR_ARINT ≠ 0 && e.g_csr &&& CSR_ARINTMSK ≠ 0

/-- What `fn_802421C8` writes before it calls the queue's routine. -/
def acknowledge (e : Engine) (now : Nat) : Engine :=
  let read := e.aram_read now .CSR
  read.1.aram_write now .CSR ((read.2 &&& ~~~(0x0080 ||| 0x0008)) ||| 0x0020)

def start (e : Engine) (now : Nat) (x : Dma) : Engine :=
  e.ARStartDMA now x.type x.mainmem_addr x.aram_addr x.length

end Engine

/-! The queue and the engine, and the program that stores into main memory. -/

variable {F : Type}

structure System (F : Type) where
  w : World F
  e : Engine

inductive Move (F : Type) where
  | call (now : Nat) (c : Call F)
  | poll (now : Nat)
  | interrupt (now : Nat) (calls : List (Call F))
  | store (at_ : Nat) (b : Byte)

def System.move (s : System F) : Move F → System F
  | .call now c =>
      { w := s.w.step (.call c)
        e := (s.w.out (.call c)).foldl (fun e x => e.start now x) s.e }
  | .poll now => { s with e := s.e.aram_poll now }
  | .interrupt now calls =>
      { w := s.w.step (.interrupt calls)
        e := (s.w.out (.interrupt calls)).foldl (fun e x => e.start now x)
          (s.e.acknowledge now) }
  | .store at_ b => { s with e := { s.e with mem := Function.update s.e.mem at_ b } }

end SoaPort.Aram
