import Mathlib.Data.Nat.Notation

namespace SoaPort.Ppc

/-! The PowerPC 750CL (Gekko) instruction tables. Each table is keyed by the
opcode field its form uses. A trailing dot in a mnemonic is spelt `Dot`;
`unknown` is the mnemonic of a word that is no instruction. -/

inductive Mnemonic where
  | unknown
  | twi | mulli | subfic | cmpli | cmpi | addic | addicDot | addi | addis
  | bc | sc | b | rlwimi | rlwinm | rlwnm | ori | oris | xori | xoris
  | andiDot | andisDot | lwz | lwzu | lbz | lbzu | stw | stwu | stb | stbu
  | lhz | lhzu | lha | lhau | sth | sthu | lmw | stmw | lfs | lfsu | lfd
  | lfdu | stfs | stfsu | stfd | stfdu | psq_l | psq_lu | psq_st | psq_stu
  | mcrf | bclr | crnor | rfi | crandc | isync | crxor | crnand | crand
  | creqv | crorc | cror | bcctr | cmp | tw | subfc | addc | mulhwu | mfcr
  | lwarx | lwzx | slw | cntlzw | and | cmpl | subf | dcbst | lwzux | andc
  | mulhw | mfmsr | dcbf | lbzx | neg | lbzux | nor | subfe | adde | mtcrf
  | mtmsr | stwcxDot | stwx | stwux | subfze | addze | mtsr | stbx | subfme
  | addme | mullw | mtsrin | dcbtst | stbux | add | dcbt | lhzx | eqv | tlbie
  | eciwx | lhzux | xor | mfspr | lhax | mftb | mftbu | lhaux | sthx | orc
  | ecowx | sthux | or | divwu | mtspr | dcbi | nand | divw | mcrxr | lswx
  | lwbrx | lfsx | srw | tlbsync | lfsux | mfsr | lswi | sync | lfdx | lfdux
  | mfsrin | stswx | stwbrx | stfsx | stfsux | stswi | stfdx | stfdux | lhbrx
  | sraw | srawi | eieio | sthbrx | extsh | extsb | icbi | stfiwx | dcbz
  | fdivs | fsubs | fadds | fres | fmuls | fmsubs | fmadds | fnmsubs
  | fnmadds | fdiv | fsub | fadd | fsel | fmul | frsqrte | fmsub | fmadd
  | fnmsub | fnmadd | fcmpu | frsp | fctiw | fctiwz | fcmpo | mtfsb1 | fneg
  | mcrfs | mtfsb0 | fmr | mtfsfi | fnabs | fabs | mffs | mtfsf | ps_sum0
  | ps_sum1 | ps_muls0 | ps_muls1 | ps_madds0 | ps_madds1 | ps_div | ps_sub
  | ps_add | ps_sel | ps_res | ps_mul | ps_rsqrte | ps_msub | ps_madd
  | ps_nmsub | ps_nmadd | psq_lx | psq_stx | psq_lux | psq_stux | ps_cmpu0
  | ps_cmpo0 | ps_neg | ps_cmpu1 | ps_mr | ps_cmpo1 | ps_nabs | ps_abs
  | ps_merge00 | ps_merge01 | ps_merge10 | ps_merge11 | dcbz_l
  deriving DecidableEq, Repr

/-- Instruction encoding form: it determines which operand fields are valid. -/
inductive Form where
  | I | B | SC | D | X | XL | XFX | XFL | XO | A | M | PSQ | PSQX
  deriving DecidableEq, Repr

/-! Flags describing which optional bits an instruction carries. -/

/-- Record bit: updates CR0 (or CR1 for float). -/
abbrev RC : Nat := 1 <<< 0
/-- Overflow enable. -/
abbrev OE : Nat := 1 <<< 1
/-- Link bit. -/
abbrev LK : Nat := 1 <<< 2
/-- Absolute address. -/
abbrev AA : Nat := 1 <<< 3

abbrev Entry := Mnemonic × Form × Nat

/-- Instructions whose primary opcode alone identifies them. -/
def PRIMARY : Nat → Option Entry
  | 3 => some (.twi, .D, 0)
  | 7 => some (.mulli, .D, 0)
  | 8 => some (.subfic, .D, 0)
  | 10 => some (.cmpli, .D, 0)
  | 11 => some (.cmpi, .D, 0)
  | 12 => some (.addic, .D, 0)
  | 13 => some (.addicDot, .D, 0)
  | 14 => some (.addi, .D, 0)
  | 15 => some (.addis, .D, 0)
  | 16 => some (.bc, .B, AA ||| LK)
  | 17 => some (.sc, .SC, 0)
  | 18 => some (.b, .I, AA ||| LK)
  | 20 => some (.rlwimi, .M, RC)
  | 21 => some (.rlwinm, .M, RC)
  | 23 => some (.rlwnm, .M, RC)
  | 24 => some (.ori, .D, 0)
  | 25 => some (.oris, .D, 0)
  | 26 => some (.xori, .D, 0)
  | 27 => some (.xoris, .D, 0)
  | 28 => some (.andiDot, .D, 0)
  | 29 => some (.andisDot, .D, 0)
  | 32 => some (.lwz, .D, 0)
  | 33 => some (.lwzu, .D, 0)
  | 34 => some (.lbz, .D, 0)
  | 35 => some (.lbzu, .D, 0)
  | 36 => some (.stw, .D, 0)
  | 37 => some (.stwu, .D, 0)
  | 38 => some (.stb, .D, 0)
  | 39 => some (.stbu, .D, 0)
  | 40 => some (.lhz, .D, 0)
  | 41 => some (.lhzu, .D, 0)
  | 42 => some (.lha, .D, 0)
  | 43 => some (.lhau, .D, 0)
  | 44 => some (.sth, .D, 0)
  | 45 => some (.sthu, .D, 0)
  | 46 => some (.lmw, .D, 0)
  | 47 => some (.stmw, .D, 0)
  | 48 => some (.lfs, .D, 0)
  | 49 => some (.lfsu, .D, 0)
  | 50 => some (.lfd, .D, 0)
  | 51 => some (.lfdu, .D, 0)
  | 52 => some (.stfs, .D, 0)
  | 53 => some (.stfsu, .D, 0)
  | 54 => some (.stfd, .D, 0)
  | 55 => some (.stfdu, .D, 0)
  | 56 => some (.psq_l, .PSQ, 0)
  | 57 => some (.psq_lu, .PSQ, 0)
  | 60 => some (.psq_st, .PSQ, 0)
  | 61 => some (.psq_stu, .PSQ, 0)
  | _ => none

/-- Opcode 19, by the ten-bit extended opcode. -/
def OP19 : Nat → Option Entry
  | 0 => some (.mcrf, .XL, 0)
  | 16 => some (.bclr, .XL, LK)
  | 33 => some (.crnor, .XL, 0)
  | 50 => some (.rfi, .XL, 0)
  | 129 => some (.crandc, .XL, 0)
  | 150 => some (.isync, .XL, 0)
  | 193 => some (.crxor, .XL, 0)
  | 225 => some (.crnand, .XL, 0)
  | 257 => some (.crand, .XL, 0)
  | 289 => some (.creqv, .XL, 0)
  | 417 => some (.crorc, .XL, 0)
  | 449 => some (.cror, .XL, 0)
  | 528 => some (.bcctr, .XL, LK)
  | _ => none

/-- Opcode 31, by the ten-bit extended opcode; XO-form entries also honour OE. -/
def OP31 : Nat → Option Entry
  | 0 => some (.cmp, .X, 0)
  | 4 => some (.tw, .X, 0)
  | 8 => some (.subfc, .XO, RC ||| OE)
  | 10 => some (.addc, .XO, RC ||| OE)
  | 11 => some (.mulhwu, .XO, RC)
  | 19 => some (.mfcr, .X, 0)
  | 20 => some (.lwarx, .X, 0)
  | 23 => some (.lwzx, .X, 0)
  | 24 => some (.slw, .X, RC)
  | 26 => some (.cntlzw, .X, RC)
  | 28 => some (.and, .X, RC)
  | 32 => some (.cmpl, .X, 0)
  | 40 => some (.subf, .XO, RC ||| OE)
  | 54 => some (.dcbst, .X, 0)
  | 55 => some (.lwzux, .X, 0)
  | 60 => some (.andc, .X, RC)
  | 75 => some (.mulhw, .XO, RC)
  | 83 => some (.mfmsr, .X, 0)
  | 86 => some (.dcbf, .X, 0)
  | 87 => some (.lbzx, .X, 0)
  | 104 => some (.neg, .XO, RC ||| OE)
  | 119 => some (.lbzux, .X, 0)
  | 124 => some (.nor, .X, RC)
  | 136 => some (.subfe, .XO, RC ||| OE)
  | 138 => some (.adde, .XO, RC ||| OE)
  | 144 => some (.mtcrf, .XFX, 0)
  | 146 => some (.mtmsr, .X, 0)
  | 150 => some (.stwcxDot, .X, 0)
  | 151 => some (.stwx, .X, 0)
  | 183 => some (.stwux, .X, 0)
  | 200 => some (.subfze, .XO, RC ||| OE)
  | 202 => some (.addze, .XO, RC ||| OE)
  | 210 => some (.mtsr, .X, 0)
  | 215 => some (.stbx, .X, 0)
  | 232 => some (.subfme, .XO, RC ||| OE)
  | 234 => some (.addme, .XO, RC ||| OE)
  | 235 => some (.mullw, .XO, RC ||| OE)
  | 242 => some (.mtsrin, .X, 0)
  | 246 => some (.dcbtst, .X, 0)
  | 247 => some (.stbux, .X, 0)
  | 266 => some (.add, .XO, RC ||| OE)
  | 278 => some (.dcbt, .X, 0)
  | 279 => some (.lhzx, .X, 0)
  | 284 => some (.eqv, .X, RC)
  | 306 => some (.tlbie, .X, 0)
  | 310 => some (.eciwx, .X, 0)
  | 311 => some (.lhzux, .X, 0)
  | 316 => some (.xor, .X, RC)
  | 339 => some (.mfspr, .XFX, 0)
  | 343 => some (.lhax, .X, 0)
  | 371 => some (.mftb, .XFX, 0)
  | 375 => some (.lhaux, .X, 0)
  | 407 => some (.sthx, .X, 0)
  | 412 => some (.orc, .X, RC)
  | 438 => some (.ecowx, .X, 0)
  | 439 => some (.sthux, .X, 0)
  | 444 => some (.or, .X, RC)
  | 459 => some (.divwu, .XO, RC ||| OE)
  | 467 => some (.mtspr, .XFX, 0)
  | 470 => some (.dcbi, .X, 0)
  | 476 => some (.nand, .X, RC)
  | 491 => some (.divw, .XO, RC ||| OE)
  | 512 => some (.mcrxr, .X, 0)
  | 533 => some (.lswx, .X, 0)
  | 534 => some (.lwbrx, .X, 0)
  | 535 => some (.lfsx, .X, 0)
  | 536 => some (.srw, .X, RC)
  | 566 => some (.tlbsync, .X, 0)
  | 567 => some (.lfsux, .X, 0)
  | 595 => some (.mfsr, .X, 0)
  | 597 => some (.lswi, .X, 0)
  | 598 => some (.sync, .X, 0)
  | 599 => some (.lfdx, .X, 0)
  | 631 => some (.lfdux, .X, 0)
  | 659 => some (.mfsrin, .X, 0)
  | 661 => some (.stswx, .X, 0)
  | 662 => some (.stwbrx, .X, 0)
  | 663 => some (.stfsx, .X, 0)
  | 695 => some (.stfsux, .X, 0)
  | 725 => some (.stswi, .X, 0)
  | 727 => some (.stfdx, .X, 0)
  | 759 => some (.stfdux, .X, 0)
  | 790 => some (.lhbrx, .X, 0)
  | 792 => some (.sraw, .X, RC)
  | 824 => some (.srawi, .X, RC)
  | 854 => some (.eieio, .X, 0)
  | 918 => some (.sthbrx, .X, 0)
  | 922 => some (.extsh, .X, RC)
  | 954 => some (.extsb, .X, RC)
  | 982 => some (.icbi, .X, 0)
  | 983 => some (.stfiwx, .X, 0)
  | 1014 => some (.dcbz, .X, 0)
  | _ => none

/-- Opcode 59 by the five-bit extended opcode: the single-precision family. -/
def FLOAT_A_SINGLE : Nat → Option Entry
  | 18 => some (.fdivs, .A, RC)
  | 20 => some (.fsubs, .A, RC)
  | 21 => some (.fadds, .A, RC)
  | 24 => some (.fres, .A, RC)
  | 25 => some (.fmuls, .A, RC)
  | 28 => some (.fmsubs, .A, RC)
  | 29 => some (.fmadds, .A, RC)
  | 30 => some (.fnmsubs, .A, RC)
  | 31 => some (.fnmadds, .A, RC)
  | _ => none

/-- Opcode 63 by the five-bit extended opcode: the double-precision family. -/
def FLOAT_A_DOUBLE : Nat → Option Entry
  | 18 => some (.fdiv, .A, RC)
  | 20 => some (.fsub, .A, RC)
  | 21 => some (.fadd, .A, RC)
  | 23 => some (.fsel, .A, RC)
  | 25 => some (.fmul, .A, RC)
  | 26 => some (.frsqrte, .A, RC)
  | 28 => some (.fmsub, .A, RC)
  | 29 => some (.fmadd, .A, RC)
  | 30 => some (.fnmsub, .A, RC)
  | 31 => some (.fnmadd, .A, RC)
  | _ => none

/-- Opcode 63 by the ten-bit extended opcode. -/
def OP63_X : Nat → Option Entry
  | 0 => some (.fcmpu, .X, 0)
  | 12 => some (.frsp, .X, RC)
  | 14 => some (.fctiw, .X, RC)
  | 15 => some (.fctiwz, .X, RC)
  | 32 => some (.fcmpo, .X, 0)
  | 38 => some (.mtfsb1, .X, RC)
  | 40 => some (.fneg, .X, RC)
  | 64 => some (.mcrfs, .X, 0)
  | 70 => some (.mtfsb0, .X, RC)
  | 72 => some (.fmr, .X, RC)
  | 134 => some (.mtfsfi, .X, RC)
  | 136 => some (.fnabs, .X, RC)
  | 264 => some (.fabs, .X, RC)
  | 583 => some (.mffs, .X, RC)
  | 711 => some (.mtfsf, .XFL, RC)
  | _ => none

/-- Opcode 4 by the five-bit extended opcode: paired-single arithmetic. -/
def PS_A : Nat → Option Entry
  | 10 => some (.ps_sum0, .A, RC)
  | 11 => some (.ps_sum1, .A, RC)
  | 12 => some (.ps_muls0, .A, RC)
  | 13 => some (.ps_muls1, .A, RC)
  | 14 => some (.ps_madds0, .A, RC)
  | 15 => some (.ps_madds1, .A, RC)
  | 18 => some (.ps_div, .A, RC)
  | 20 => some (.ps_sub, .A, RC)
  | 21 => some (.ps_add, .A, RC)
  | 23 => some (.ps_sel, .A, RC)
  | 24 => some (.ps_res, .A, RC)
  | 25 => some (.ps_mul, .A, RC)
  | 26 => some (.ps_rsqrte, .A, RC)
  | 28 => some (.ps_msub, .A, RC)
  | 29 => some (.ps_madd, .A, RC)
  | 30 => some (.ps_nmsub, .A, RC)
  | 31 => some (.ps_nmadd, .A, RC)
  | _ => none

/-- Opcode 4 by the six-bit extended opcode: quantized loads and stores. -/
def PS_QX : Nat → Option Entry
  | 6 => some (.psq_lx, .PSQX, 0)
  | 7 => some (.psq_stx, .PSQX, 0)
  | 38 => some (.psq_lux, .PSQX, 0)
  | 39 => some (.psq_stux, .PSQX, 0)
  | _ => none

/-- Opcode 4 by the ten-bit extended opcode: compares, moves and merges. -/
def PS_X : Nat → Option Entry
  | 0 => some (.ps_cmpu0, .X, 0)
  | 32 => some (.ps_cmpo0, .X, 0)
  | 40 => some (.ps_neg, .X, RC)
  | 64 => some (.ps_cmpu1, .X, 0)
  | 72 => some (.ps_mr, .X, RC)
  | 96 => some (.ps_cmpo1, .X, 0)
  | 136 => some (.ps_nabs, .X, RC)
  | 264 => some (.ps_abs, .X, RC)
  | 528 => some (.ps_merge00, .X, RC)
  | 560 => some (.ps_merge01, .X, RC)
  | 592 => some (.ps_merge10, .X, RC)
  | 624 => some (.ps_merge11, .X, RC)
  | 1014 => some (.dcbz_l, .X, 0)
  | _ => none

/-! Special purpose registers. -/

/-- Time base, lower half. -/
def SPR_TBL : Nat := 268
/-- Time base, upper half. -/
def SPR_TBU : Nat := 269

def GQR_SPRS (spr : Int) : Bool := 912 ≤ spr && spr < 920

end SoaPort.Ppc
