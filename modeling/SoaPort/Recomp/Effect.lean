import SoaPort.Ppc.Regs
import SoaPort.Recomp.TranslateCorrect

namespace SoaPort.Recomp

open SoaPort.Ppc

/-! What one decoded instruction can do to the registers a switch depends on.
The instructions that build a switch are given exactly; of the others only
which registers they can change, since what they load or compute is any value.
Memory is not tracked: devices, interrupts and stores may change it. -/

/-- `cr k` is bit `k` of the condition register, from the most significant. -/
structure Regs where
  gpr : Int → Word
  cr : Nat → Bool
  ctr : Word
  mem : Nat → BitVec 8

/-- `(rA|0)` -/
def Regs.base (g : Regs) (ra : Int) : Word := if ra = 0 then 0#32 else g.gpr ra

/-- Where an instruction's general-purpose results go. -/
inductive Dest where
  | none | rd | ra | rd_and_ra
  /-- rD to r31 -/
  | multiple
  /-- from rD up, and r0 follows r31 -/
  | string
  deriving DecidableEq, Repr

/-- The architecture's destination for each mnemonic. -/
def dest : Mnemonic → Dest
  | .addi | .addis | .addic | .addicDot | .subfic | .mulli
  | .add | .addc | .adde | .addme | .addze | .subf | .subfc | .subfe | .subfme | .subfze
  | .neg | .mullw | .mulhw | .mulhwu | .divw | .divwu
  | .lbz | .lhz | .lha | .lwz | .lbzx | .lhzx | .lhax | .lwzx | .lhbrx | .lwbrx
  | .lwarx | .eciwx
  | .mfcr | .mfmsr | .mfspr | .mfsr | .mfsrin | .mftb | .mftbu => .rd
  | .ori | .oris | .xori | .xoris | .andiDot | .andisDot
  | .and | .andc | .or | .orc | .xor | .nand | .nor | .eqv
  | .slw | .srw | .sraw | .srawi | .rlwinm | .rlwimi | .rlwnm | .cntlzw | .extsb | .extsh => .ra
  | .lbzu | .lhzu | .lhau | .lwzu | .lbzux | .lhzux | .lhaux | .lwzux => .rd_and_ra
  | .stbu | .sthu | .stwu | .stbux | .sthux | .stwux
  | .lfsu | .lfdu | .stfsu | .stfdu | .lfsux | .lfdux | .stfsux | .stfdux
  | .psq_lu | .psq_stu | .psq_lux | .psq_stux => .ra
  | .lmw => .multiple
  | .lswi | .lswx => .string
  | _ => .none

/-- The most bytes a string load can bring: `lswx` takes its count from XER. -/
def string_bytes (i : Insn) : Nat :=
  if i.mnemonic = .lswi then (if i.rb = 0 then 32 else i.rb.toNat) else 127

/-- The general-purpose registers an instruction can write. -/
def results (i : Insn) : List Int :=
  match dest i.mnemonic with
  | .none => []
  | .rd => [i.rd]
  | .ra => [i.ra]
  | .rd_and_ra => [i.rd, i.ra]
  | .multiple => (List.range (32 - i.rd.toNat)).map fun (k : Nat) => i.rd + k
  | .string => (List.range ((string_bytes i + 3) / 4)).map fun k => (i.rd + k) % 32

/-- The effective address of an indexed load. -/
def Regs.indexed (g : Regs) (i : Insn) : Word := g.base i.ra + g.gpr i.rb

def GprEffect (i : Insn) (g g' : Regs) : Prop :=
  match i.mnemonic with
  | .addi => g'.gpr = Function.update g.gpr i.rd (g.base i.ra + BitVec.ofInt 32 i.imm)
  | .addis =>
      g'.gpr = Function.update g.gpr i.rd (g.base i.ra + BitVec.ofInt 32 (i.imm * 2 ^ 16))
  | .ori => g'.gpr = Function.update g.gpr i.ra (g.gpr i.rd ||| BitVec.ofInt 32 i.imm)
  | .or => g'.gpr = Function.update g.gpr i.ra (g.gpr i.rd ||| g.gpr i.rb)
  | .rlwinm =>
      g'.gpr = Function.update g.gpr i.ra (Arch.ofMsb fun k =>
        Arch.inMask i.mb i.me k && Arch.rotlBit (g.gpr i.rd) i.imm.toNat k)
  | .lwzx =>
      ∃ v, g'.gpr = Function.update g.gpr i.rd v ∧
        (Arch.deviceSpace (g.indexed i) = false →
          v = BitVec.ofNat 32 (Arch.readBE g.mem (Arch.physical (g.indexed i)) 4))
  | _ => ∀ r, r ∉ results i → g'.gpr r = g.gpr r

/-- CR field `f` holds a comparison of `a` with `b`, its copy of XER[SO] apart. -/
def Compared (f : Nat) (a b : Int) (cr cr' : Nat → Bool) : Prop :=
  cr' (4 * f) = decide (a < b) ∧ cr' (4 * f + 1) = decide (a > b) ∧
    cr' (4 * f + 2) = decide (a = b) ∧ ∀ k, k / 4 ≠ f → cr' k = cr k

/-- The instructions other than the integer comparisons that change the
condition register. -/
def writes_cr (i : Insn) : Bool :=
  i.rc_bit ||
    match i.mnemonic with
    | .addicDot | .andiDot | .andisDot | .stwcxDot
    | .mcrf | .mcrxr | .mcrfs | .mtcrf
    | .crand | .crandc | .cror | .crorc | .crxor | .crnand | .crnor | .creqv
    | .fcmpu | .fcmpo | .ps_cmpu0 | .ps_cmpo0 | .ps_cmpu1 | .ps_cmpo1 => true
    | _ => false

def CrEffect (i : Insn) (g g' : Regs) : Prop :=
  match i.mnemonic with
  | .cmpi => Compared i.crf_d (g.gpr i.ra).toInt i.imm g.cr g'.cr
  | .cmpli => Compared i.crf_d (g.gpr i.ra).toNat i.imm g.cr g'.cr
  | .cmp => Compared i.crf_d (g.gpr i.ra).toInt (g.gpr i.rb).toInt g.cr g'.cr
  | .cmpl => Compared i.crf_d (g.gpr i.ra).toNat (g.gpr i.rb).toNat g.cr g'.cr
  | _ => writes_cr i = false → g'.cr = g.cr

/-- A branch that tests CTR decrements it; `mtspr` sets it. -/
def CtrEffect (i : Insn) (g g' : Regs) : Prop :=
  if i.mnemonic = .mtspr ∧ i.spr = 9 then g'.ctr = g.gpr i.rd
  else i.is_branch = false ∨ i.bo &&& 4 ≠ 0 → g'.ctr = g.ctr

structure Effect (i : Insn) (g g' : Regs) : Prop where
  gpr : GprEffect i g g'
  cr : CrEffect i g g'
  ctr : CtrEffect i g g'

theorem Effect.frame {i : Insn} {g g' : Regs} (effect : Effect i g g') {r : Int}
    (outside : r ∉ results i) : g'.gpr r = g.gpr r := by
  have gpr := effect.gpr
  unfold GprEffect at gpr
  split at gpr
  case h_6 m =>
      obtain ⟨v, update, _⟩ := gpr
      have other : r ≠ i.rd := by
        rintro rfl
        simp [results, dest, m] at outside
      rw [update]
      exact Function.update_of_ne other v g.gpr
  case h_7 => exact gpr r outside
  all_goals
    rename_i m
    rw [gpr]
    apply Function.update_of_ne
    rintro rfl
    simp [results, dest, m] at outside

/-- A comparison can always be recorded. -/
theorem compared_exists (f : Nat) (a b : Int) (cr : Nat → Bool) :
    ∃ cr', Compared f a b cr cr' := by
  refine ⟨fun k =>
    if k = 4 * f then decide (a < b) else if k = 4 * f + 1 then decide (a > b)
    else if k = 4 * f + 2 then decide (a = b) else cr k, ?_, ?_, ?_, ?_⟩
  · simp
  · simp
  · simp
  · intro k other
    have far : k ≠ 4 * f ∧ k ≠ 4 * f + 1 ∧ k ≠ 4 * f + 2 := by omega
    simp [far]

theorem crEffect_exists (i : Insn) (g : Regs) : ∃ cr, ∀ g' : Regs, g'.cr = cr → CrEffect i g g' := by
  unfold CrEffect
  split
  case h_5 => exact ⟨g.cr, fun _ same _ => same⟩
  all_goals
    obtain ⟨cr, compared⟩ := compared_exists i.crf_d _ _ g.cr
    refine ⟨cr, ?_⟩
    rintro g' rfl
    exact compared

theorem gprEffect_exists (i : Insn) (g : Regs) :
    ∃ gpr, ∀ g' : Regs, g'.gpr = gpr → GprEffect i g g' := by
  unfold GprEffect
  split
  case h_6 => exact ⟨_, fun _ same => ⟨_, same, fun _ => rfl⟩⟩
  case h_7 => exact ⟨g.gpr, fun _ same r _ => congrFun same r⟩
  all_goals exact ⟨_, fun _ same => same⟩

theorem ctrEffect_exists (i : Insn) (g : Regs) :
    ∃ ctr, ∀ g' : Regs, g'.ctr = ctr → CtrEffect i g g' := by
  unfold CtrEffect
  split
  · exact ⟨_, fun _ same => same⟩
  · exact ⟨_, fun _ same _ => same⟩

/-- Every instruction can execute. -/
theorem effect_exists (i : Insn) (g : Regs) : ∃ g', Effect i g g' := by
  obtain ⟨gpr, gprs⟩ := gprEffect_exists i g
  obtain ⟨cr, crs⟩ := crEffect_exists i g
  obtain ⟨ctr, ctrs⟩ := ctrEffect_exists i g
  exact ⟨⟨gpr, cr, ctr, g.mem⟩, gprs _ rfl, crs _ rfl, ctrs _ rfl⟩

/-! The architecture's own definitions stay within these effects. -/

section Architecture

open Arch

variable {ρ : Type}

def CpuState.regs (s : CpuState ρ) : Regs where
  gpr := s.gpr
  cr := s.cr.getMsbD
  ctr := s.ctr
  mem := s.mem

/-- `s'` has the general-purpose registers, CR and CTR of `s`. -/
def Untouched (s s' : CpuState ρ) : Prop := s'.gpr = s.gpr ∧ s'.cr = s.cr ∧ s'.ctr = s.ctr

/-- The device models leave these registers alone. -/
structure Quiet (rt : Runtime ρ) : Prop where
  mmio_read8 : ∀ s ea, Untouched s (rt.mmio_read8 s ea).2
  mmio_read16 : ∀ s ea, Untouched s (rt.mmio_read16 s ea).2
  mmio_read32 : ∀ s ea, Untouched s (rt.mmio_read32 s ea).2
  mmio_write8 : ∀ s ea v, Untouched s (rt.mmio_write8 s ea v)
  mmio_write16 : ∀ s ea v, Untouched s (rt.mmio_write16 s ea v)
  mmio_write32 : ∀ s ea v, Untouched s (rt.mmio_write32 s ea v)
  gx_pipe_write : ∀ s n v, Untouched s (rt.gx_pipe_write s n v)
  guest_timebase_lo : ∀ s, Untouched s (rt.guest_timebase_lo s).2
  guest_timebase_hi : ∀ s, Untouched s (rt.guest_timebase_hi s).2
  dec_read : ∀ s, Untouched s (rt.dec_read s).2
  dec_write : ∀ s v, Untouched s (rt.dec_write s v)

/-- Apart from `r`, and from CR when `rc`, the registers keep their values. -/
structure Writes (s s' : CpuState ρ) (r : Reg) (rc : Bool) : Prop where
  gpr : ∀ k, k ≠ (r.toNat : Int) → s'.gpr k = s.gpr k
  cr : rc = false → s'.cr = s.cr
  ctr : s'.ctr = s.ctr

theorem writes_writeBack (s : CpuState ρ) (r : Reg) (v : Word) (rc : Bool) :
    Writes s (writeBack s r v rc) r rc := by
  cases rc with
  | false =>
      constructor
      · intro k other
        exact Function.update_of_ne other v s.gpr
      · intro _
        rfl
      · rfl
  | true =>
      constructor
      · intro k other
        exact Function.update_of_ne other v s.gpr
      · intro plain
        cases plain
      · rfl

theorem writes_setGprOf (s : CpuState ρ) (r : Reg) (v : Word) :
    Writes s (setGprOf s r v) r false :=
  writes_writeBack s r v false

theorem writes_addCarrying (s : CpuState ρ) (r : Reg) (x y c : Nat) (rc : Bool) :
    Writes s (addCarrying s r x y c rc) r rc := by
  have w := writes_writeBack (setCa s (2 ^ 32 ≤ x + y + c)) r (BitVec.ofNat 32 (x + y + c)) rc
  exact ⟨w.gpr, w.cr, w.ctr⟩

theorem writes_shiftRightAlgebraic (s : CpuState ρ) (rS rA : Reg) (n : Nat) (rc : Bool) :
    Writes s (shiftRightAlgebraic s rS rA n rc) rA rc := by
  let x := (gprOf s rS).toInt
  have w := writes_writeBack (setCa s (x < 0 ∧ x % 2 ^ n ≠ 0)) rA (BitVec.ofInt 32 (x / 2 ^ n)) rc
  exact ⟨w.gpr, w.cr, w.ctr⟩

theorem Writes.after {s t s' : CpuState ρ} {r : Reg} {rc : Bool} (same : Untouched s t)
    (w : Writes t s' r rc) : Writes s s' r rc := by
  obtain ⟨gpr, cr, ctr⟩ := same
  constructor
  · intro k other
    rw [w.gpr k other, gpr]
  · intro plain
    rw [w.cr plain, cr]
  · rw [w.ctr, ctr]

theorem Untouched.refl (s : CpuState ρ) : Untouched s s := ⟨rfl, rfl, rfl⟩

variable {rt : Runtime ρ} (quiet : Quiet rt)

include quiet in
theorem untouched_read (s : CpuState ρ) (ea : Word) (op : Load) :
    Untouched s (op.read rt s ea).2 := by
  cases op with
  | lbz =>
      change Untouched s (readByte rt s ea).2
      unfold readByte
      split
      · exact quiet.mmio_read8 s ea
      · exact .refl s
  | lhz =>
      change Untouched s (readHalf rt s ea).2
      unfold readHalf
      split
      · exact quiet.mmio_read16 s ea
      · exact .refl s
  | lha =>
      change Untouched s (readHalf rt s ea).2
      unfold readHalf
      split
      · exact quiet.mmio_read16 s ea
      · exact .refl s
  | lwz =>
      change Untouched s (readWord rt s ea).2
      unfold readWord
      split
      · exact quiet.mmio_read32 s ea
      · exact .refl s

include quiet in
theorem untouched_write (s : CpuState ρ) (ea : Word) (v : Nat) (op : Store) :
    Untouched s (op.write rt s ea v) := by
  cases op with
  | stb =>
      change Untouched s (writeByte rt s ea v)
      unfold writeByte
      split
      · exact quiet.gx_pipe_write s 1 _
      · split
        · exact quiet.mmio_write8 s ea _
        · exact .refl s
  | sth =>
      change Untouched s (writeHalf rt s ea v)
      unfold writeHalf
      split
      · exact quiet.gx_pipe_write s 2 _
      · split
        · exact quiet.mmio_write16 s ea _
        · exact .refl s
  | stw =>
      change Untouched s (writeWord rt s ea v)
      unfold writeWord
      split
      · exact quiet.gx_pipe_write s 4 _
      · split
        · exact quiet.mmio_write32 s ea _
        · exact .refl s

/-- The mnemonics whose effect is more than a set of registers. -/
def exact : Mnemonic → Bool
  | .addi | .addis | .ori | .or | .rlwinm | .lwzx | .cmpi | .cmpli | .cmp | .cmpl | .mtspr => true
  | _ => false

theorem ne_of_exact {m m' : Mnemonic} (plain : exact m = false) (listed : exact m' = true) :
    m ≠ m' := by
  rintro rfl
  rw [plain] at listed
  cases listed

theorem crEffect_of_frame {i : Insn} {g g' : Regs} (plain : isCompare i.mnemonic = false)
    (cr : writes_cr i = false → g'.cr = g.cr) : CrEffect i g g' := by
  unfold CrEffect
  split
  case h_5 => exact cr
  all_goals
    rename_i m
    rw [m] at plain
    cases plain

theorem ctrEffect_of_frame {i : Insn} {g g' : Regs} (plain : decide (i.mnemonic = .mtspr) = false)
    (ctr : g'.ctr = g.ctr) : CtrEffect i g g' := by
  unfold CtrEffect
  rw [if_neg fun h => of_decide_eq_false plain h.1]
  exact fun _ => ctr

theorem effect_of_frame {i : Insn} {g g' : Regs} (plain : exact i.mnemonic = false)
    (gpr : ∀ r, r ∉ results i → g'.gpr r = g.gpr r)
    (cr : writes_cr i = false → g'.cr = g.cr) (ctr : g'.ctr = g.ctr) : Effect i g g' := by
  constructor
  · unfold GprEffect
    split
    case h_7 => exact gpr
    all_goals
      rename_i m
      exact absurd m (ne_of_exact plain rfl)
  · refine crEffect_of_frame ?_ cr
    have cmp : i.mnemonic ≠ .cmp := ne_of_exact plain rfl
    have cmpl : i.mnemonic ≠ .cmpl := ne_of_exact plain rfl
    have cmpi : i.mnemonic ≠ .cmpi := ne_of_exact plain rfl
    have cmpli : i.mnemonic ≠ .cmpli := ne_of_exact plain rfl
    simp [isCompare, cmp, cmpl, cmpi, cmpli]
  · exact ctrEffect_of_frame (decide_eq_false (ne_of_exact plain rfl)) ctr

/-- An instruction with one result register. -/
theorem effect_of_writes {i : Insn} {s s' : CpuState ρ} {r : Reg} {rc : Bool}
    (plain : exact i.mnemonic = false) (result : (r.toNat : Int) ∈ results i)
    (recorded : writes_cr i = false → rc = false) (w : Writes s s' r rc) :
    Effect i s.regs s'.regs := by
  apply effect_of_frame plain
  · intro k outside
    apply w.gpr
    rintro rfl
    exact outside result
  · intro unrecorded
    exact congrArg BitVec.getMsbD (w.cr (recorded unrecorded))
  · exact w.ctr

/-- An instruction with none. -/
theorem effect_of_untouched {i : Insn} {s s' : CpuState ρ} (plain : exact i.mnemonic = false)
    (same : Untouched s s') : Effect i s.regs s'.regs :=
  effect_of_frame plain (fun r _ => congrFun same.1 r) (fun _ => congrArg BitVec.getMsbD same.2.1) same.2.2

theorem writes_xoArith {s s' : CpuState ρ} {rD rA rB : Reg} {rc : Bool} {op : XOArith}
    (step : op.Step s rD rA rB rc s') : Writes s s' rD rc := by
  cases op with
  | add | subf | mullw | mulhw | mulhwu =>
      subst step
      exact writes_writeBack ..
  | addc | adde | subfc | subfe =>
      subst step
      exact writes_addCarrying ..
  | divw | divwu =>
      unfold XOArith.Step at step
      dsimp only at step
      split at step
      · obtain ⟨q, rfl⟩ := step
        exact writes_writeBack ..
      · subst step
        exact writes_writeBack ..

theorem writes_xoUnary (s : CpuState ρ) (rD rA : Reg) (rc : Bool) (op : XOUnary) :
    Writes s (op.exec s rD rA rc) rD rc := by
  cases op with
  | neg => exact writes_writeBack ..
  | addze | addme | subfze | subfme => exact writes_addCarrying ..

theorem writes_xLogic (s : CpuState ρ) (rS rA rB : Reg) (rc : Bool) (op : XLogic) :
    Writes s (op.exec s rS rA rB rc) rA rc := by
  cases op with
  | sraw => exact writes_shiftRightAlgebraic ..
  | and | andc | or | orc | xor | nand | nor | eqv | slw | srw => exact writes_writeBack ..

theorem writes_xUnary (s : CpuState ρ) (rS rA : Reg) (rc : Bool) (op : XUnary) :
    Writes s (op.exec s rS rA rc) rA rc := by
  cases op with
  | cntlzw | extsb | extsh => exact writes_writeBack ..

theorem gpr_writeBack (s : CpuState ρ) (r : Reg) (v : Word) (rc : Bool) :
    (writeBack s r v rc).gpr = Function.update s.gpr r.toNat v := by
  cases rc with
  | false => rfl
  | true => rfl

/-- A comparison sets its field's first three bits and leaves the other fields. -/
theorem compared_compare (s : CpuState ρ) (f : BitVec 3) (a b : Int) :
    Compared f.toNat a b s.cr.getMsbD (compare s f.toNat a b).cr.getMsbD := by
  have bound := f.isLt
  have bit : ∀ k, k < 32 → (compare s f.toNat a b).cr.getMsbD k =
      if k / 4 = f.toNat then compareBits s a b (k % 4) else s.cr.getMsbD k := by
    intro k below
    unfold Arch.compare setCrField ofMsb
    rw [BitVec.getMsbD_ofFnBE, dif_pos below]
  refine ⟨?_, ?_, ?_, ?_⟩
  · rw [bit _ (by omega), if_pos (by omega), show 4 * f.toNat % 4 = 0 by omega]
    rfl
  · rw [bit _ (by omega), if_pos (by omega), show (4 * f.toNat + 1) % 4 = 1 by omega]
    rfl
  · rw [bit _ (by omega), if_pos (by omega), show (4 * f.toNat + 2) % 4 = 2 by omega]
    rfl
  · intro k other
    by_cases below : k < 32
    · rw [bit k below, if_neg other]
    · simp [BitVec.getMsbD, below]

theorem compared_slot (s : CpuState ρ) (crfD : BitVec 3) (a b : Int) :
    Compared ((crfD ++ 0#2).toNat / 4) a b s.cr.getMsbD (compare s crfD.toNat a b).cr.getMsbD := by
  rw [field_of_slot]
  exact compared_compare s crfD a b

theorem sprSet_frame (s : CpuState ρ) (n : Nat) (v : Word) :
    (sprSet s n v).gpr = s.gpr ∧ (sprSet s n v).cr = s.cr ∧
      (sprSet s n v).ctr = if n = 9 then v else s.ctr := by
  unfold sprSet
  by_cases ctr : n = 9
  · subst ctr
    exact ⟨rfl, rfl, rfl⟩
  · rw [if_neg ctr, if_neg ctr]
    repeat' split
    all_goals exact ⟨rfl, rfl, rfl⟩

theorem base_regs (s : CpuState ρ) (r : Reg) : s.regs.base r.toNat = baseOf s r := by
  have zero : ((r.toNat : Int) = 0) ↔ r = 0 := by
    rw [Int.natCast_eq_zero, ← BitVec.toNat_inj]
    rfl
  simp only [Regs.base, baseOf, zero]
  rfl

theorem loadMultiple_gpr (s : CpuState ρ) (ea : Word) (rD : Reg) (quiet : Quiet rt) (n : Nat) :
    let s' := (List.range n).foldl (loadMultipleStep rt ea rD) s
    (∀ r : Int, (∀ k < n, r ≠ rD.toNat + (k : Nat)) → s'.gpr r = s.gpr r) ∧
      s'.cr = s.cr ∧ s'.ctr = s.ctr := by
  induction n with
  | zero => exact ⟨fun _ _ => rfl, rfl, rfl⟩
  | succ n ih =>
      obtain ⟨gpr, cr, ctr⟩ := ih
      rw [List.range_succ, List.foldl_append]
      obtain ⟨sameGpr, sameCr, sameCtr⟩ := untouched_read quiet
        ((List.range n).foldl (loadMultipleStep rt ea rD) s) (ea + BitVec.ofNat 32 (4 * n)) .lwz
      refine ⟨?_, ?_, ?_⟩
      · intro r outside
        have other : r ≠ ((rD.toNat + n : Nat) : Int) := by
          have far := outside n (Nat.lt_succ_self n)
          push_cast
          exact far
        calc
          _ = _ := Function.update_of_ne other _ _
          _ = _ := congrFun sameGpr r
          _ = _ := gpr r fun k below => outside k (Nat.lt_succ_of_lt below)
      · exact sameCr.trans cr
      · exact sameCtr.trans ctr

theorem storeMultiple_untouched (s : CpuState ρ) (ea : Word) (rS : Reg) (quiet : Quiet rt)
    (n : Nat) : Untouched s ((List.range n).foldl (storeMultipleStep rt ea rS) s) := by
  induction n with
  | zero => exact .refl s
  | succ n ih =>
      obtain ⟨gpr, cr, ctr⟩ := ih
      rw [List.range_succ, List.foldl_append]
      obtain ⟨sameGpr, sameCr, sameCtr⟩ := untouched_write quiet
        ((List.range n).foldl (storeMultipleStep rt ea rS) s) (ea + BitVec.ofNat 32 (4 * n))
        (((List.range n).foldl (storeMultipleStep rt ea rS) s).gpr (rS.toNat + n)).toNat .stw
      exact ⟨sameGpr.trans gpr, sameCr.trans cr, sameCtr.trans ctr⟩

include quiet in
theorem effect_of_load {i : Insn} {s : CpuState ρ} {op : Load} {update : Bool} {rD rA : Reg}
    {ea : Word} (plain : exact i.mnemonic = false) (rd : (rD.toNat : Int) ∈ results i)
    (ra : update = true → (rA.toNat : Int) ∈ results i) :
    Effect i s.regs (loadInto rt s op update rD rA ea).regs := by
  have w := (writes_setGprOf (op.read rt s ea).2 rD (op.read rt s ea).1).after
    (untouched_read quiet s ea op)
  cases update with
  | false => exact effect_of_writes plain rd (fun _ => rfl) w
  | true =>
      have u := writes_setGprOf (setGprOf (op.read rt s ea).2 rD (op.read rt s ea).1) rA ea
      apply effect_of_frame plain
      · intro r outside
        have notA : r ≠ (rA.toNat : Int) := by
          rintro rfl
          exact outside (ra rfl)
        have notD : r ≠ (rD.toNat : Int) := by
          rintro rfl
          exact outside rd
        exact (u.gpr r notA).trans (w.gpr r notD)
      · intro _
        exact congrArg BitVec.getMsbD ((u.cr rfl).trans (w.cr rfl))
      · exact u.ctr.trans w.ctr

include quiet in
theorem effect_of_lwzx (s : CpuState ρ) (addr : Nat) (rD rA rB : Reg) {w : Nat} :
    Effect (xInsn rD rA rB false addr w .lwzx) s.regs
      (loadInto rt s .lwz false rD rA (baseOf s rA + gprOf s rB)).regs := by
  have same := untouched_read quiet s (baseOf s rA + gprOf s rB) .lwz
  refine ⟨?_, crEffect_of_frame rfl fun _ => congrArg BitVec.getMsbD same.2.1, ctrEffect_of_frame rfl same.2.2⟩
  have address : s.regs.indexed (xInsn rD rA rB false addr w .lwzx) =
      baseOf s rA + gprOf s rB := congrArg (· + gprOf s rB) (base_regs s rA)
  refine ⟨_, congrArg (Function.update · (rD.toNat : Int) _) same.1, ?_⟩
  rw [address]
  intro memory
  change BitVec.ofNat 32 (readWord rt s _).1 = _
  unfold readWord
  rw [memory]
  rfl

include quiet in
theorem effect_of_store {i : Insn} {s : CpuState ρ} {op : Store} {update : Bool} {rS rA : Reg}
    {ea : Word} (plain : exact i.mnemonic = false)
    (ra : update = true → (rA.toNat : Int) ∈ results i) :
    Effect i s.regs (storeFrom rt s op update rS rA ea).regs := by
  have same := untouched_write quiet s ea (gprOf s rS).toNat op
  cases update with
  | false => exact effect_of_untouched plain same
  | true =>
      have w := (writes_setGprOf (op.write rt s ea (gprOf s rS).toNat) rA ea).after same
      exact effect_of_writes plain (ra rfl) (fun _ => rfl) w

include quiet in
theorem effect_of_step (addr : Nat) {s s' : CpuState ρ} {i : Instr} (step : Step rt s s' i) :
    Effect (decode i.encode.toNat addr) s.regs s'.regs := by
  cases i with
  | dArith op rD rA simm =>
      rw [Instr.encode, decode_dArith]
      subst step
      cases op with
      | addi =>
          refine ⟨?_, crEffect_of_frame rfl fun _ => rfl, ctrEffect_of_frame rfl rfl⟩
          have value : BitVec.ofInt 32 ((baseOf s rA).toInt + simm.toInt) =
              s.regs.base rA.toNat + BitVec.ofInt 32 simm.toInt := by
            rw [base_regs, BitVec.ofInt_add, BitVec.ofInt_toInt]
          exact congrArg (Function.update s.gpr rD.toNat) value
      | addis =>
          refine ⟨?_, crEffect_of_frame rfl fun _ => rfl, ctrEffect_of_frame rfl rfl⟩
          have value : BitVec.ofInt 32 ((baseOf s rA).toInt + simm.toInt * 2 ^ 16) =
              s.regs.base rA.toNat + BitVec.ofInt 32 (simm.toInt * 2 ^ 16) := by
            rw [base_regs, BitVec.ofInt_add, BitVec.ofInt_toInt]
          exact congrArg (Function.update s.gpr rD.toNat) value
      | addic | subfic =>
          exact effect_of_writes rfl (.head _) (fun _ => rfl) (writes_addCarrying ..)
      | addicDot => exact effect_of_writes rfl (.head _) (fun plain => by cases plain) (writes_addCarrying ..)
      | mulli => exact effect_of_writes rfl (.head _) (fun _ => rfl) (writes_setGprOf ..)
  | dLogic op rS rA uimm =>
      rw [Instr.encode, decode_dLogic]
      subst step
      cases op with
      | ori =>
          refine ⟨?_, crEffect_of_frame rfl fun _ => rfl, ctrEffect_of_frame rfl rfl⟩
          exact congrArg (Function.update s.gpr rA.toNat)
            (or_eq (gprOf s rS) (BitVec.ofNat 32 uimm.toNat)).symm
      | oris | xori | xoris =>
          exact effect_of_writes rfl (.head _) (fun _ => rfl) (writes_setGprOf ..)
      | andiDot | andisDot =>
          exact effect_of_writes rfl (.head _) (fun plain => by cases plain) (writes_writeBack ..)
  | cmpi crfD rA simm =>
      rw [Instr.encode, decode_dForm (crfD ++ 0#2) rA simm addr rfl fun _ => slot_even crfD]
      subst step
      exact ⟨fun _ _ => rfl, compared_slot s crfD (gprOf s rA).toInt simm.toInt, ctrEffect_of_frame rfl rfl⟩
  | cmpli crfD rA uimm =>
      rw [Instr.encode, decode_dForm (crfD ++ 0#2) rA uimm addr rfl fun _ => slot_even crfD]
      subst step
      exact ⟨fun _ _ => rfl, compared_slot s crfD (gprOf s rA).toNat uimm.toNat, ctrEffect_of_frame rfl rfl⟩
  | cmp crfD rA rB =>
      rw [Instr.encode, decode_xForm (crfD ++ 0#2) rA rB addr rfl fun _ => slot_even crfD]
      subst step
      exact ⟨fun _ _ => rfl, compared_slot s crfD (gprOf s rA).toInt (gprOf s rB).toInt, ctrEffect_of_frame rfl rfl⟩
  | cmpl crfD rA rB =>
      rw [Instr.encode, decode_xForm (crfD ++ 0#2) rA rB addr rfl fun _ => slot_even crfD]
      subst step
      exact ⟨fun _ _ => rfl, compared_slot s crfD (gprOf s rA).toNat (gprOf s rB).toNat, ctrEffect_of_frame rfl rfl⟩
  | xoArith op rD rA rB rc =>
      rw [Instr.encode, decode_xoArith]
      have w := writes_xoArith step
      cases op with
      | add | addc | adde | subf | subfc | subfe | mullw | mulhw | mulhwu | divw | divwu =>
          exact effect_of_writes rfl (.head _) (fun plain => (Bool.or_eq_false_iff.mp plain).1) w
  | xoUnary op rD rA rc =>
      rw [Instr.encode, decode_xoUnary]
      subst step
      have w := writes_xoUnary s rD rA rc op
      cases op with
      | neg | addze | addme | subfze | subfme =>
          exact effect_of_writes rfl (.head _) (fun plain => (Bool.or_eq_false_iff.mp plain).1) w
  | xLogic op rS rA rB rc =>
      rw [Instr.encode, decode_xLogic]
      subst step
      have w := writes_xLogic s rS rA rB rc op
      cases op with
      | or =>
          refine ⟨?_, crEffect_of_frame rfl ?_, ctrEffect_of_frame rfl w.ctr⟩
          · have value := gpr_writeBack s rA (gprOf s rS ||| gprOf s rB) rc
            rw [or_eq] at value
            exact value.trans
              (congrArg (Function.update s.gpr rA.toNat) (or_eq (gprOf s rS) (gprOf s rB)).symm)
          · intro plain
            exact congrArg BitVec.getMsbD (w.cr (Bool.or_eq_false_iff.mp plain).1)
      | and | andc | orc | xor | nand | nor | eqv | slw | srw | sraw =>
          exact effect_of_writes rfl (.head _) (fun plain => (Bool.or_eq_false_iff.mp plain).1) w
  | xUnary op rS rA rc =>
      rw [Instr.encode, decode_xUnary]
      subst step
      have w := writes_xUnary s rS rA rc op
      cases op with
      | cntlzw | extsb | extsh =>
          exact effect_of_writes rfl (.head _) (fun plain => (Bool.or_eq_false_iff.mp plain).1) w
  | srawi rS rA sh rc =>
      rw [Instr.encode, decode_xForm_rc rS rA sh rc addr rfl rfl]
      subst step
      exact effect_of_writes rfl (.head _) (fun plain => (Bool.or_eq_false_iff.mp plain).1)
        (writes_shiftRightAlgebraic ..)
  | rlwinm rS rA sh mb me rc =>
      rw [Instr.encode, decode_mForm rS rA sh mb me rc addr rfl rfl]
      subst step
      have w := writes_writeBack s rA (ofMsb fun i =>
        inMask mb.toNat me.toNat i && rotlBit (gprOf s rS) sh.toNat i) rc
      refine ⟨?_, crEffect_of_frame rfl ?_, ctrEffect_of_frame rfl w.ctr⟩
      · exact gpr_writeBack s rA _ rc
      · intro plain
        exact congrArg BitVec.getMsbD (w.cr (Bool.or_eq_false_iff.mp plain).1)
  | rlwimi rS rA sh mb me rc =>
      rw [Instr.encode, decode_mForm rS rA sh mb me rc addr rfl rfl]
      subst step
      exact effect_of_writes rfl (.head _) (fun plain => (Bool.or_eq_false_iff.mp plain).1)
        (writes_writeBack ..)
  | rlwnm rS rA rB mb me rc =>
      rw [Instr.encode, decode_mForm rS rA rB mb me rc addr rfl rfl]
      subst step
      exact effect_of_writes rfl (.head _) (fun plain => (Bool.or_eq_false_iff.mp plain).1)
        (writes_writeBack ..)
  | crLogic op crbD crbA crbB =>
      rw [Instr.encode, decode_crLogic]
      subst step
      cases op with
      | crand | crandc | cror | crorc | crxor | crnand | crnor | creqv =>
          exact effect_of_frame rfl (fun _ _ => rfl) (fun plain => by cases plain) rfl
  | mcrf crfD crfS =>
      rw [Instr.encode, decode_xlForm (crfD ++ 0#2) (crfS ++ 0#2) 0 addr rfl rfl]
      subst step
      exact effect_of_frame rfl (fun _ _ => rfl) (fun plain => by cases plain) rfl
  | mcrxr crfD =>
      rw [Instr.encode, decode_x addr (crfD ++ 0#2) 0 0 .mcrxr 512 rfl rfl]
      subst step
      exact effect_of_frame rfl (fun _ _ => rfl) (fun plain => by cases plain) rfl
  | mfcr rD =>
      rw [Instr.encode, decode_x addr rD 0 0 .mfcr 19 rfl rfl]
      subst step
      exact effect_of_writes rfl (.head _) (fun _ => rfl) (writes_setGprOf ..)
  | mtcrf crm rS =>
      rw [decode_mtcrf]
      subst step
      exact effect_of_frame rfl (fun _ _ => rfl) (fun plain => by cases plain) rfl
  | mfspr rD spr =>
      rw [Instr.encode, decode_spr rD addr spr rfl (.inl rfl)]
      simp only [Step] at step
      split at step
      · subst step
        exact effect_of_writes rfl (.head _) (fun _ => rfl)
          ((writes_setGprOf _ rD _).after (quiet.dec_read s))
      · subst step
        exact effect_of_writes rfl (.head _) (fun _ => rfl) (writes_setGprOf ..)
  | mtspr spr rS =>
      rw [Instr.encode, decode_spr rS addr spr rfl (.inr rfl)]
      simp only [Step] at step
      split at step
      next dec =>
        subst step
        obtain ⟨gpr, cr, ctr⟩ := quiet.dec_write s (gprOf s rS)
        refine ⟨fun r _ => congrFun gpr r,
          crEffect_of_frame rfl fun _ => congrArg BitVec.getMsbD cr, ?_⟩
        unfold CtrEffect
        rw [if_neg]
        · exact fun _ => ctr
        · rintro ⟨_, counter⟩
          have nine : spr.toNat = 9 := Int.natCast_inj.mp counter
          rw [dec] at nine
          cases nine
      next =>
        subst step
        obtain ⟨gpr, cr, ctr⟩ := sprSet_frame s spr.toNat (gprOf s rS)
        refine ⟨fun r _ => congrFun gpr r,
          crEffect_of_frame rfl fun _ => congrArg BitVec.getMsbD cr, ?_⟩
        unfold CtrEffect
        split
        next counter =>
          have nine : spr.toNat = 9 := Int.natCast_inj.mp counter.2
          exact ctr.trans (if_pos nine)
        next other =>
          have nine : spr.toNat ≠ 9 := fun h => other ⟨rfl, congrArg Nat.cast h⟩
          exact fun _ => ctr.trans (if_neg nine)
  | mftb rD upper =>
      rw [decode_mftb]
      cases upper with
      | false =>
          subst step
          exact effect_of_writes rfl (.head _) (fun _ => rfl)
            ((writes_setGprOf _ rD _).after (quiet.guest_timebase_lo s))
      | true =>
          subst step
          exact effect_of_writes rfl (.head _) (fun _ => rfl)
            ((writes_setGprOf _ rD _).after (quiet.guest_timebase_hi s))
  | mfmsr rD =>
      rw [Instr.encode, decode_x addr rD 0 0 .mfmsr 83 rfl rfl]
      subst step
      exact effect_of_writes rfl (.head _) (fun _ => rfl) (writes_setGprOf ..)
  | mtmsr rS =>
      rw [Instr.encode, decode_x addr rS 0 0 .mtmsr 146 rfl rfl]
      subst step
      exact effect_of_untouched rfl (.refl s)
  | mfsr rD sr =>
      rw [Instr.encode, decode_x addr rD (0#1 ++ sr) 0 .mfsr 595 rfl rfl]
      subst step
      exact effect_of_writes rfl (.head _) (fun _ => rfl) (writes_setGprOf ..)
  | mtsr sr rS =>
      rw [Instr.encode, decode_x addr rS (0#1 ++ sr) 0 .mtsr 210 rfl rfl]
      subst step
      exact effect_of_untouched rfl (.refl s)
  | load op update rD rA d =>
      rw [Instr.encode, decode_load]
      subst step
      cases op with
      | lbz | lhz | lha | lwz =>
          cases update with
          | false => exact effect_of_load quiet rfl (.head _) (fun plain => by cases plain)
          | true => exact effect_of_load quiet rfl (.head _) fun _ => .tail _ (.head _)
  | loadx op update rD rA rB =>
      rw [Instr.encode, decode_loadx]
      subst step
      cases op with
      | lbz | lhz | lha =>
          cases update with
          | false => exact effect_of_load quiet rfl (.head _) (fun plain => by cases plain)
          | true => exact effect_of_load quiet rfl (.head _) fun _ => .tail _ (.head _)
      | lwz =>
          cases update with
          | false => exact effect_of_lwzx quiet s addr rD rA rB
          | true => exact effect_of_load quiet rfl (.head _) fun _ => .tail _ (.head _)
  | lwbrx rD rA rB =>
      rw [Instr.encode, decode_x addr rD rA rB .lwbrx 534 rfl rfl]
      subst step
      exact effect_of_writes rfl (.head _) (fun _ => rfl)
        ((writes_setGprOf _ rD _).after (untouched_read quiet s _ .lwz))
  | lhbrx rD rA rB =>
      rw [Instr.encode, decode_x addr rD rA rB .lhbrx 790 rfl rfl]
      subst step
      exact effect_of_writes rfl (.head _) (fun _ => rfl)
        ((writes_setGprOf _ rD _).after (untouched_read quiet s _ .lhz))
  | store op update rS rA d =>
      rw [Instr.encode, decode_store]
      subst step
      cases op with
      | stb | sth | stw =>
          cases update with
          | false => exact effect_of_store quiet rfl (fun plain => by cases plain)
          | true => exact effect_of_store quiet rfl fun _ => .head _
  | storex op update rS rA rB =>
      rw [Instr.encode, decode_storex]
      subst step
      cases op with
      | stb | sth | stw =>
          cases update with
          | false => exact effect_of_store quiet rfl (fun plain => by cases plain)
          | true => exact effect_of_store quiet rfl fun _ => .head _
  | stwbrx rS rA rB =>
      rw [Instr.encode, decode_x addr rS rA rB .stwbrx 662 rfl rfl]
      subst step
      exact effect_of_untouched rfl (untouched_write quiet s _ _ .stw)
  | sthbrx rS rA rB =>
      rw [Instr.encode, decode_x addr rS rA rB .sthbrx 918 rfl rfl]
      subst step
      exact effect_of_untouched rfl (untouched_write quiet s _ _ .sth)
  | lmw rD rA d =>
      rw [Instr.encode, decode_dForm rD rA d addr rfl (by simp [isCompare])]
      subst step
      obtain ⟨gpr, cr, ctr⟩ := loadMultiple_gpr s (baseOf s rA + exts d) rD quiet
        (32 - rD.toNat)
      refine effect_of_frame rfl ?_ (fun _ => congrArg BitVec.getMsbD cr) ctr
      intro r outside
      apply gpr r
      rintro k below rfl
      exact outside (List.mem_map.mpr ⟨k, List.mem_range.mpr below, rfl⟩)
  | stmw rS rA d =>
      rw [Instr.encode, decode_dForm rS rA d addr rfl (by simp [isCompare])]
      subst step
      exact effect_of_untouched rfl (storeMultiple_untouched s _ rS quiet _)

end Architecture

end SoaPort.Recomp
