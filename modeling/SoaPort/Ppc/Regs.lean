import SoaPort.Ppc.Decode

namespace SoaPort.Ppc

/-! Which general-purpose registers an instruction writes. -/

/-- The destination is rA; the rD field holds the source rS. -/
def _WRITES_RA : Mnemonic → Bool
  | .and | .andc | .or | .orc | .xor | .nand | .nor | .eqv | .slw | .srw | .sraw | .srawi
  | .cntlzw | .extsb | .extsh | .rlwinm | .rlwimi | .rlwnm | .ori | .oris | .xori | .xoris
  | .andiDot | .andisDot => true
  | _ => false

/-- Update forms write rA with the effective address. -/
def _UPDATE : Mnemonic → Bool
  | .lwzu | .lbzu | .lhzu | .lhau | .lfsu | .lfdu | .stwu | .stbu | .sthu | .stfsu | .stfdu
  | .lwzux | .lbzux | .lhzux | .lhaux | .lfsux | .lfdux | .stwux | .stbux | .sthux | .stfsux
  | .stfdux | .psq_lu | .psq_stu | .psq_lux | .psq_stux => true
  | _ => false

/-- Of the update forms, the integer loads: `l…`, but not `lf…` or `psq…`. -/
def integer_load_update : Mnemonic → Bool
  | .lwzu | .lbzu | .lhzu | .lhau | .lwzux | .lbzux | .lhzux | .lhaux => true
  | _ => false

/-- Ordinary results land in rD. -/
def _WRITES_RD : Mnemonic → Bool
  | .add | .addc | .adde | .addme | .addze | .subf | .subfc | .subfe | .subfme | .subfze
  | .neg | .mullw | .mulhw | .mulhwu | .divw | .divwu | .addi | .addis | .addic | .addicDot
  | .mulli | .subfic | .lwz | .lbz | .lhz | .lha | .lwzx | .lbzx | .lhzx | .lhax | .lwbrx
  | .lhbrx | .lswi | .lswx | .lwarx | .mfspr | .mfcr | .mfmsr | .mfsr | .mfsrin | .mftb
  | .mftbu => true
  | _ => false

def gpr_defs (insn : Insn) : List Int :=
  if ¬ insn.valid then []
  else
    let m := insn.mnemonic
    (if _WRITES_RD m then [insn.rd] else []) ++
      (if _WRITES_RA m then [insn.ra] else []) ++
      (if _UPDATE m then insn.ra :: if integer_load_update m then [insn.rd] else [] else []) ++
      (if m = .lmw then (List.range (32 - insn.rd.toNat)).map fun (k : Nat) => insn.rd + k else [])

/-- `mr rA, rS` is `or rA, rS, rS`. -/
def is_mr (insn : Insn) : Bool :=
  insn.valid && insn.mnemonic = .or && insn.rd = insn.rb

end SoaPort.Ppc
