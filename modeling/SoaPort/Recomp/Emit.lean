import Mathlib.Data.List.Sort
import Mathlib.Data.List.Dedup
import SoaPort.Recomp.Target

namespace SoaPort.Recomp

open SoaPort.Ppc

/-! The emitter's integer, move and branch templates. -/

/-- The rotate-and-mask family's mask, MSB-numbered and wrapping when `mb > me`. -/
def ppc_mask (mb me : Nat) : Nat :=
  let lo := 0xFFFFFFFF >>> mb
  let hi := (0xFFFFFFFF <<< (31 - me)) &&& 0xFFFFFFFF
  if mb ≤ me then lo &&& hi else lo ||| hi

/-- Expand an 8-bit CR field mask to a 32-bit bit mask. -/
def crm_mask (crm : Nat) : Nat :=
  (List.range 8).foldl
    (fun m i => if (crm &&& (0x80 >>> i)) ≠ 0 then m ||| (0xF <<< (28 - 4 * i)) else m) 0

/-- The emitter's configuration: the functions it knows, the resolved switch
tables, the decoded code, and the addresses the runtime is called at. -/
structure Emitter where
  functions : Nat → Bool
  tables : Nat → Option (List Nat)
  code : Nat → Option Insn
  hooks : Nat → Bool := fun _ => false
  savepoints : Nat → Bool := fun _ => false
  traces : Nat → Bool := fun _ => false
  _hooked : Bool := false

def G (n : Int) : Expr := .lval (.gpr n)

def GA (n : Int) : Expr := if n = 0 then .u32 0 else G n

def setG (n : Int) (e : Expr) : Simple := .assign (.gpr n) e

/-- SPRs with dedicated fields in `CpuState`. -/
def _SPR_FIELDS (spr : Int) : Option LVal :=
  if spr = 1 then some .xer
  else if spr = 8 then some .lr
  else if spr = 9 then some .ctr
  else if spr = 920 then some .hid2
  else if spr = 921 then some .wpar
  else none

/-- Where `mfspr` and `mtspr` find a register other than the decrementer. -/
def spr_lval (spr : Int) : LVal :=
  match _SPR_FIELDS spr with
  | some l => l
  | none => if GQR_SPRS spr then .gqr (spr - 912) else .spr spr

def _NOP_MNEMONICS (m : Mnemonic) : Bool :=
  m = .sync || m = .isync || m = .eieio || m = .dcbf || m = .dcbst || m = .dcbi ||
    m = .dcbt || m = .dcbtst || m = .icbi || m = .tlbsync

def _LOGICAL (a b : Expr) : Mnemonic → Option Expr
  | .and => some (.call2 .and a b)
  | .andc => some (.call2 .and a (.not b))
  | .or => some (.call2 .or a b)
  | .orc => some (.call2 .or a (.not b))
  | .xor => some (.call2 .xor a b)
  | .nand => some (.not (.call2 .and a b))
  | .nor => some (.not (.call2 .or a b))
  | .eqv => some (.not (.call2 .xor a b))
  | _ => none

def _CR_OPS : Mnemonic → Option CrOp
  | .crand => some .crand
  | .crandc => some .crandc
  | .cror => some .cror
  | .crorc => some .crorc
  | .crxor => some .crxor
  | .crnand => some .crnand
  | .crnor => some .crnor
  | .creqv => some .creqv
  | _ => none

/-- Loads: the value read at an address, whether the form updates rA, and
whether the address is indexed (the mnemonic ends in `x`). -/
def _LOADS : Mnemonic → Option ((Expr → Expr) × Bool × Bool)
  | .lwz => some (.mem_r32, false, false)
  | .lwzu => some (.mem_r32, true, false)
  | .lbz => some (.mem_r8, false, false)
  | .lbzu => some (.mem_r8, true, false)
  | .lhz => some (.mem_r16, false, false)
  | .lhzu => some (.mem_r16, true, false)
  | .lha => some (fun e => .call1 .int16 (.mem_r16 e), false, false)
  | .lhau => some (fun e => .call1 .int16 (.mem_r16 e), true, false)
  | .lwzx => some (.mem_r32, false, true)
  | .lwzux => some (.mem_r32, true, true)
  | .lbzx => some (.mem_r8, false, true)
  | .lbzux => some (.mem_r8, true, true)
  | .lhzx => some (.mem_r16, false, true)
  | .lhzux => some (.mem_r16, true, true)
  | .lhax => some (fun e => .call1 .int16 (.mem_r16 e), false, true)
  | .lhaux => some (fun e => .call1 .int16 (.mem_r16 e), true, true)
  | .lwbrx => some (fun e => .call1 .bswap32 (.mem_r32 e), false, true)
  | .lhbrx => some (fun e => .call1 .bswap16 (.mem_r16 e), false, true)
  | .lwarx => some (.mem_r32, false, true)
  | _ => none

/-- Stores: the statement, whether the form updates rA, and whether the
address is indexed. -/
def _STORES : Mnemonic → Option ((Expr → Expr → Simple) × Bool × Bool)
  | .stw => some (.mem_w32, false, false)
  | .stwu => some (.mem_w32, true, false)
  | .stb => some (.mem_w8, false, false)
  | .stbu => some (.mem_w8, true, false)
  | .sth => some (.mem_w16, false, false)
  | .sthu => some (.mem_w16, true, false)
  | .stwx => some (.mem_w32, false, true)
  | .stwux => some (.mem_w32, true, true)
  | .stbx => some (.mem_w8, false, true)
  | .stbux => some (.mem_w8, true, true)
  | .sthx => some (.mem_w16, false, true)
  | .sthux => some (.mem_w16, true, true)
  | .stwbrx => some (fun e v => .mem_w32 e (.call1 .bswap32 v), false, true)
  | .sthbrx => some (fun e v => .mem_w16 e (.call1 .bswap16 v), false, true)
  | _ => none

/-- The effective address: `rA + rB` or `rA + d`, with rA = 0 read as zero. -/
def ea_expr (i : Insn) (indexed : Bool) : Expr :=
  if indexed then .call2 .add (GA i.ra) (G i.rb) else .call2 .add (GA i.ra) (.u32 i.imm)

namespace Emitter

def _unsupported (i : Insn) : List Stmt :=
  [.simple (.guest_unimplemented i.addr)]

/-- A call that returns here: set LR, then call the target directly if known. -/
def _call (em : Emitter) (target next_pc : Nat) : List Simple :=
  if em.functions target then [.assign .lr (.u32 next_pc), .call target]
  else [.assign .lr (.u32 next_pc), .dispatch (.u32 target)]

/-- An unconditional transfer: local goto, tail call, or trap. A backward goto
polls for interrupts first, unless the function delivers them at a hook. -/
def _jump (em : Emitter) (target : Nat) (addr_set : Nat → Bool) (pc : Nat) : List Simple :=
  if addr_set target then
    if target ≤ pc ∧ ¬ em._hooked then [.irq_poll, .goto target] else [.goto target]
  else if em.functions target then [.call target, .ret]
  else [.guest_trap pc, .ret]

def _cond (bo bi : Nat) : List CondPart :=
  (if bo &&& 16 = 0 then [.cr_bit_eq bi ((bo >>> 3) &&& 1)] else []) ++
    (if bo &&& 4 = 0 then [if bo &&& 2 ≠ 0 then .ctr_eq_zero else .ctr_ne_zero] else [])

/-- The CTR decrement of a branch whose BO asks for one. -/
def ctr_step (bo : Nat) : List Stmt :=
  if bo &&& 4 = 0 then [.simple .ctr_dec] else []

/-- `body if cond == "1" else if (cond) { body }`. -/
def guarded (cond : List CondPart) (body : List Simple) : List Stmt :=
  if cond = [] then body.map .simple else [.ite cond body]

/-- The branch templates. -/
def _translate_branch (em : Emitter) (i : Insn) (addr_set : Nat → Bool) : List Stmt :=
  let pc := i.addr
  let nxt := i.addr + 4
  let target := i.target.getD 0
  match i.mnemonic with
  | .b =>
      if i.lk_bit && em.savepoints pc then [.savepoint (em._call target nxt)]
      else if i.lk_bit then (em._call target nxt).map .simple
      else (em._jump target addr_set pc).map .simple
  | .bc =>
      let body := if i.lk_bit then em._call target nxt else em._jump target addr_set pc
      ctr_step i.bo ++ guarded (_cond i.bo i.bi) body
  | .bclr =>
      ctr_step i.bo ++
        guarded (_cond i.bo i.bi) (if i.lk_bit then [.dispatch_lr nxt] else [.ret])
  | .bcctr =>
      if i.lk_bit then
        guarded (_cond i.bo i.bi) [.assign .lr (.u32 nxt), .dispatch (.lval .ctr)]
      else
        match em.tables pc with
        | some targets =>
            [.switch_ctr ((targets.dedup.insertionSort (· ≤ ·)).map
              fun t => (t, em._jump t addr_set pc))
              [.guest_trap pc, .ret]]
        | none => _unsupported i
  | .rfi => [.simple .ret]
  | .sc => [.simple (.guest_syscall pc)]
  | .tw | .twi => [.simple (.guest_trap pc)]
  | _ => _unsupported i

/-- The instructions whose statements are floating-point code. -/
def is_float : Mnemonic → Bool
  | .lfs | .lfsu | .lfsx | .lfsux | .lfd | .lfdu | .lfdx | .lfdux
  | .stfs | .stfsu | .stfsx | .stfsux | .stfd | .stfdu | .stfdx | .stfdux | .stfiwx
  | .fadds | .fsubs | .fmuls | .fdivs | .fmadds | .fmsubs | .fnmadds | .fnmsubs | .fres
  | .fadd | .fsub | .fmul | .fdiv | .fmadd | .fmsub | .fnmadd | .fnmsub | .frsqrte | .fsel
  | .fmr | .fneg | .fabs | .fnabs | .frsp | .fctiw | .fctiwz | .fcmpu | .fcmpo
  | .mffs | .mtfsf | .mtfsb0 | .mtfsb1
  | .psq_l | .psq_lu | .psq_lx | .psq_lux | .psq_st | .psq_stu | .psq_stx | .psq_stux
  | .ps_add | .ps_sub | .ps_mul | .ps_div | .ps_madd | .ps_msub | .ps_nmadd | .ps_nmsub
  | .ps_muls0 | .ps_muls1 | .ps_madds0 | .ps_madds1 | .ps_sum0 | .ps_sum1
  | .ps_neg | .ps_abs | .ps_nabs | .ps_mr | .ps_res | .ps_rsqrte | .ps_sel
  | .ps_merge00 | .ps_merge01 | .ps_merge10 | .ps_merge11
  | .ps_cmpu0 | .ps_cmpo0 | .ps_cmpu1 | .ps_cmpo1 => true
  | _ => false

/-- The statements of a load, given its entry of `_LOADS`. -/
def load_stmts (i : Insn) (value : Expr → Expr) (update indexed : Bool) : List Stmt :=
  let ea := ea_expr i indexed
  if update then [.block ea [setG i.rd (value .tmp), setG i.ra .tmp]]
  else [.simple (setG i.rd (value ea))]

def store_stmts (i : Insn) (tmpl : Expr → Expr → Simple) (update indexed : Bool) :
    List Stmt :=
  let ea := ea_expr i indexed
  if update then [.block ea [tmpl .tmp (G i.rd), setG i.ra .tmp]]
  else [.simple (tmpl ea (G i.rd))]

/-- A result into `n`, compared against zero when the instruction records. -/
def result (i : Insn) (n : Int) (e : Expr) : List Stmt :=
  .simple (setG n e) :: if i.rc_bit then [.simple (.CR0_RC (G n))] else []

/-- `rotl32(rS, SH)`, or rS itself for a shift of zero. -/
def rot_expr (i : Insn) : Expr :=
  if i.imm ≠ 0 then .call2 .rotl32 (G i.rd) (.u32 i.imm) else G i.rd

def _translate (em : Emitter) (i : Insn) (addr_set : Nat → Bool) : List Stmt :=
  if ¬ i.valid then _unsupported i
  else
    let rd := i.rd
    let ra := i.ra
    let rb := i.rb
    match i.mnemonic with
    -- immediates
    | .addi => [.simple (setG rd (.call2 .add (GA ra) (.u32 i.imm)))]
    | .addis => [.simple (setG rd (.call2 .add (GA ra) (.u32 (i.imm * 2 ^ 16))))]
    | .addic => [.simple (setG rd (.call2 .ppc_addc (G ra) (.u32 i.imm)))]
    | .addicDot =>
        [.simple (setG rd (.call2 .ppc_addc (G ra) (.u32 i.imm))), .simple (.CR0_RC (G rd))]
    | .subfic => [.simple (setG rd (.call2 .ppc_subfc (G ra) (.u32 i.imm)))]
    | .mulli => [.simple (setG rd (.call2 .mul (G ra) (.u32 i.imm)))]
    | .ori => [.simple (setG ra (.call2 .or (G rd) (.u32 i.imm)))]
    | .xori => [.simple (setG ra (.call2 .xor (G rd) (.u32 i.imm)))]
    | .oris => [.simple (setG ra (.call2 .or (G rd) (.u32 (i.imm * 2 ^ 16))))]
    | .xoris => [.simple (setG ra (.call2 .xor (G rd) (.u32 (i.imm * 2 ^ 16))))]
    | .andiDot =>
        [.simple (setG ra (.call2 .and (G rd) (.u32 i.imm))), .simple (.CR0_RC (G ra))]
    | .andisDot =>
        [.simple (setG ra (.call2 .and (G rd) (.u32 (i.imm * 2 ^ 16)))),
          .simple (.CR0_RC (G ra))]
    | .cmpi => [.simple (.cr_cmp_s i.crf_d (G ra) (.u32 i.imm))]
    | .cmpli => [.simple (.cr_cmp_u i.crf_d (G ra) (.u32 i.imm))]
    | .cmp => [.simple (.cr_cmp_s i.crf_d (G ra) (G rb))]
    | .cmpl => [.simple (.cr_cmp_u i.crf_d (G ra) (G rb))]
    -- loads and stores outside the tables
    | .stwcxDot =>
        [.simple (.mem_w32 (.call2 .add (GA ra) (G rb)) (G rd)), .simple .stwcx_cr]
    | .lmw => [.simple (.ppc_lmw rd (.call2 .add (GA ra) (.u32 i.imm)))]
    | .stmw => [.simple (.ppc_stmw rd (.call2 .add (GA ra) (.u32 i.imm)))]
    | .dcbz | .dcbz_l => [.simple (.mem_zero32 (.call2 .add (GA ra) (G rb)))]
    -- integer arithmetic
    | .add => result i rd (.call2 .add (G ra) (G rb))
    | .subf => result i rd (.call2 .sub (G rb) (G ra))
    | .neg => result i rd (.call2 .sub (.u32 0) (G ra))
    | .addc => result i rd (.call2 .ppc_addc (G ra) (G rb))
    | .adde => result i rd (.call2 .ppc_adde (G ra) (G rb))
    | .subfc => result i rd (.call2 .ppc_subfc (G ra) (G rb))
    | .subfe => result i rd (.call2 .ppc_subfe (G ra) (G rb))
    | .addze => result i rd (.call1 .ppc_addze (G ra))
    | .subfze => result i rd (.call1 .ppc_subfze (G ra))
    | .addme => result i rd (.call1 .ppc_addme (G ra))
    | .subfme => result i rd (.call1 .ppc_subfme (G ra))
    | .mullw => result i rd (.call2 .mul (G ra) (G rb))
    | .mulhw => result i rd (.call2 .ppc_mulhw (G ra) (G rb))
    | .mulhwu => result i rd (.call2 .ppc_mulhwu (G ra) (G rb))
    | .divw => result i rd (.call2 .ppc_divw (G ra) (G rb))
    | .divwu => result i rd (.call2 .ppc_divwu (G ra) (G rb))
    -- shifts and rotates
    | .slw => result i ra (.call2 .ppc_slw (G rd) (G rb))
    | .srw => result i ra (.call2 .ppc_srw (G rd) (G rb))
    | .sraw => result i ra (.call2 .ppc_sraw (G rd) (G rb))
    | .srawi => result i ra (.call2 .ppc_srawi (G rd) (.u32 i.imm))
    | .cntlzw => result i ra (.call1 .ppc_cntlzw (G rd))
    | .extsb => result i ra (.call1 .int8 (G rd))
    | .extsh => result i ra (.call1 .int16 (G rd))
    | .rlwinm => result i ra (.call2 .and (rot_expr i) (.u32 (ppc_mask i.mb i.me)))
    | .rlwimi =>
        let mask := ppc_mask i.mb i.me
        result i ra
          (.call2 .or (.call2 .and (rot_expr i) (.u32 mask))
            (.call2 .and (G ra) (.u32 (-mask - 1))))
    | .rlwnm =>
        result i ra
          (.call2 .and (.call2 .rotl32 (G rd) (.call2 .and (G rb) (.u32 31)))
            (.u32 (ppc_mask i.mb i.me)))
    -- special registers and CR
    | .mfspr =>
        if i.spr = 22 then [.simple (setG rd .dec_read)]
        else [.simple (setG rd (.lval (spr_lval i.spr)))]
    | .mtspr =>
        if i.spr = 22 then [.simple (.dec_write (G rd))]
        else [.simple (.assign (spr_lval i.spr) (G rd))]
    | .mftb => [.simple (setG rd .guest_timebase_lo)]
    | .mftbu => [.simple (setG rd .guest_timebase_hi)]
    | .mfcr => [.simple (setG rd (.lval .cr))]
    | .mtcrf =>
        let mask := crm_mask i.imm.toNat
        [.simple (.assign .cr
          (.call2 .or (.call2 .and (.lval .cr) (.u32 (-mask - 1)))
            (.call2 .and (G rd) (.u32 mask))))]
    | .mcrf => [.simple (.cr_set_field i.crf_d (.cr_get_field i.crf_s))]
    | .mcrxr =>
        [.simple (.cr_set_field i.crf_d (.call2 .shr (.lval .xer) (.u32 28))),
          .simple (.assign .xer (.call2 .and (.lval .xer) (.u32 0x0FFFFFFF)))]
    | .mfsr => [.simple (setG rd (.lval (.sr (ra % 16))))]
    | .mtsr => [.simple (.assign (.sr (ra % 16)) (G rd))]
    | .mfmsr => [.simple (setG rd (.lval .msr))]
    | .mtmsr => [.simple (.assign .msr (G rd))]
    | .b | .bc | .bclr | .bcctr | .rfi | .sc | .tw | .twi =>
        em._translate_branch i addr_set
    | m =>
        match _LOADS m with
        | some (value, update, indexed) => load_stmts i value update indexed
        | none =>
            match _STORES m with
            | some (tmpl, update, indexed) => store_stmts i tmpl update indexed
            | none =>
                match _LOGICAL (G rd) (G rb) m with
                | some e => result i ra e
                | none =>
                    match _CR_OPS m with
                    | some op => [.simple (.cr_set_bit i.bo op i.bi rb.toNat)]
                    | none =>
                        if _NOP_MNEMONICS m then []
                        else if is_float m then [.simple (.float i)]
                        else _unsupported i

end Emitter

end SoaPort.Recomp
