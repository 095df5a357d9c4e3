import SoaPort.Recomp.Tracking

namespace SoaPort.Recomp

open SoaPort.Ppc

/-! A resolved switch: the four instructions the search settles on, the code
between them, and what reaches CTR when the bound check lets it through. -/

section Search

variable {dol : Dol}

/-- `i` is the nearest instruction above `addr` that `f` decides on, and it
decides for `b`. -/
structure Nearest {β : Type} (dol : Dol) (addr : Nat) (f : Insn → Option (Option β)) (i : Insn)
    (b : β) : Prop where
  valid : CodeView.valid dol i.addr = some i
  below : i.addr < addr
  decides : f i = some (some b)
  passes : ∀ x, i.addr < x → x < addr → x % 4 = 0 →
    ∃ j, CodeView.valid dol x = some j ∧ f j = none

theorem valid_addr {x : Nat} {i : Insn} (found : CodeView.valid dol x = some i) :
    i.addr = x ∧ x % 4 = 0 := by
  obtain ⟨got, _⟩ := CodeView.valid_eq_some.mp found
  unfold CodeView.get at got
  split at got
  · cases got
  next aligned =>
    split at got
    · obtain rfl := Option.some.inj got
      exact ⟨decode_addr .., not_not.mp aligned⟩
    · cases got

theorem before_eq_valid {addr back : Nat} {i : Insn}
    (found : CodeView.before dol addr back = some i) :
    back ≤ addr ∧ CodeView.valid dol (addr - back) = some i := by
  unfold CodeView.before at found
  split at found
  next le => exact ⟨le, found⟩
  next => cases found

theorem nearest_of_scan {β : Type} {addr : Nat} {f : Insn → Option (Option β)} {n k : Nat} {b : β}
    (positive : 0 < k) (found : scan_back dol addr f n k = some b)
    (passed : ∀ x, addr < x + 4 * k → x < addr → x % 4 = 0 →
      ∃ j, CodeView.valid dol x = some j ∧ f j = none) :
    ∃ i, Nearest dol addr f i b := by
  induction n generalizing k with
  | zero => cases found
  | succ n ih =>
      unfold scan_back at found
      split at found
      next => cases found
      next i here =>
        obtain ⟨le, valid⟩ := before_eq_valid here
        obtain ⟨at_, aligned⟩ := valid_addr valid
        split at found
        next answer decides =>
          subst found
          refine ⟨i, ?_, ?_, decides, ?_⟩
          · rw [at_]
            exact valid
          · omega
          · intro x above below divisible
            exact passed x (by omega) below divisible
        next undecided =>
          refine ih (Nat.succ_pos k) found ?_
          intro x above below divisible
          by_cases same : x = addr - 4 * k
          · rw [same]
            exact ⟨i, valid, undecided⟩
          · exact passed x (by omega) below divisible

/-- A search that answers began at an aligned address. -/
theorem aligned_of_scan {β : Type} {addr : Nat} {f : Insn → Option (Option β)} {n k : Nat} {b : β}
    (found : scan_back dol addr f n k = some b) : addr % 4 = 0 := by
  cases n with
  | zero => cases found
  | succ n =>
      unfold scan_back at found
      split at found
      next => cases found
      next i here =>
        obtain ⟨le, valid⟩ := before_eq_valid here
        have aligned := (valid_addr valid).2
        omega

theorem nearest_of_search {β : Type} {addr : Nat} {f : Insn → Option (Option β)} {n : Nat} {b : β}
    (found : scan_back dol addr f n 1 = some b) : ∃ i, Nearest dol addr f i b := by
  have aligned := aligned_of_scan found
  refine nearest_of_scan Nat.one_pos found ?_
  intro x above below divisible
  omega

end Search

/-! What `_resolve_table` looks for at each of its four searches. -/

def moves_to_ctr (i : Insn) : Option (Option Insn) :=
  if i.mnemonic = .mtspr ∧ i.spr = _SPR_CTR then some (some i) else none

def loads_indexed (ctr_src : Int) (i : Insn) : Option (Option Insn) :=
  if i.mnemonic = .lwzx ∧ i.rd = ctr_src then some (some i)
  else if ctr_src ∈ gpr_defs i then some none
  else none

def leaves_on_gt (i : Insn) : Option (Option Nat) :=
  if (i.mnemonic = .bc ∨ i.mnemonic = .bclr) ∧ i.bo = 12 ∧ i.bi = 1 then some (some i.addr)
  else none

def bounds (i : Insn) : Option (Option Int) :=
  let m := i.mnemonic
  if (m = .cmpli ∨ m = .cmpi) ∧ i.crf_d = 0 then
    some (if i.imm ≥ 0 then some (i.imm + 1) else none)
  else if (m = .cmp ∨ m = .cmpl) ∧ i.crf_d = 0 then some none
  else if i.rc_bit then some none
  else if m = .bclr ∧ i.is_unconditional then some none
  else none

/-- A resolved site: the instructions found, nearest first, and the entries. -/
structure Dispatch (dol : Dol) (site : Nat) (table : JumpTable) where
  mtctr : Insn
  load : Insn
  bgt : Insn
  check : Insn
  moved : Nearest dol site moves_to_ctr mtctr mtctr
  loaded : Nearest dol mtctr.addr (loads_indexed mtctr.rd) load load
  left : Nearest dol load.addr leaves_on_gt bgt bgt.addr
  bounded : Nearest dol bgt.addr bounds check (check.imm + 1)
  aligned : site % 4 = 0
  few : check.imm + 1 ≤ _MAX_TABLE
  entries : table.targets =
    (List.range (check.imm + 1).toNat).map fun k => dol.word (table.base + 4 * k)

theorem resolve_site {dol : Dol} {site : Nat} {table : JumpTable}
    (resolved : _resolve_table dol site = some table) : table.site = site := by
  simp only [_resolve_table, Option.bind_eq_bind, Option.bind_eq_some_iff,
    Option.ite_none_left_eq_some, Option.ite_none_right_eq_some, Option.some.injEq] at resolved
  obtain ⟨_, _, _, _, _, _, _, _, _, _, _, _, _, rfl⟩ := resolved
  rfl

section Found

variable {i : Insn} {ctr_src : Int}

theorem moves_to_ctr_some {b : Insn} (decides : moves_to_ctr i = some (some b)) :
    b = i ∧ i.mnemonic = .mtspr ∧ i.spr = 9 := by
  unfold moves_to_ctr at decides
  split at decides
  next m =>
    cases decides
    exact ⟨rfl, m⟩
  next => cases decides

theorem loads_indexed_some {b : Insn} (decides : loads_indexed ctr_src i = some (some b)) :
    b = i ∧ i.mnemonic = .lwzx ∧ i.rd = ctr_src := by
  unfold loads_indexed at decides
  split at decides
  next m =>
    cases decides
    exact ⟨rfl, m⟩
  next =>
    split at decides
    · cases decides
    · cases decides

theorem leaves_on_gt_some {b : Nat} (decides : leaves_on_gt i = some (some b)) :
    b = i.addr ∧ (i.mnemonic = .bc ∨ i.mnemonic = .bclr) ∧ i.bo = 12 ∧ i.bi = 1 := by
  unfold leaves_on_gt at decides
  split at decides
  next m =>
    cases decides
    exact ⟨rfl, m⟩
  next => cases decides

theorem bounds_some {b : Int} (decides : bounds i = some (some b)) :
    b = i.imm + 1 ∧ (i.mnemonic = .cmpli ∨ i.mnemonic = .cmpi) ∧ i.crf_d = 0 ∧ 0 ≤ i.imm := by
  unfold bounds at decides
  dsimp only at decides
  split at decides
  next m =>
    split at decides
    next nonneg =>
      cases decides
      exact ⟨rfl, m.1, m.2, nonneg⟩
    next => cases decides
  next =>
    split at decides
    · cases decides
    split at decides
    · cases decides
    split at decides
    · cases decides
    · cases decides

end Found

theorem dispatch_of_resolved {dol : Dol} {site : Nat} {table : JumpTable}
    (resolved : _resolve_table dol site = some table) : Nonempty (Dispatch dol site table) := by
  simp only [_resolve_table, _bound_count, Option.bind_eq_bind, Option.bind_eq_some_iff,
    Option.ite_none_left_eq_some, Option.ite_none_right_eq_some, Option.some.injEq] at resolved
  obtain ⟨mtctr, moved, load, loaded, base, _, bound, ⟨bgt, left, bounded⟩, range, _, _, _, _,
    rfl⟩ := resolved
  have aligned := aligned_of_scan moved
  obtain ⟨i, moved⟩ := nearest_of_search (f := moves_to_ctr) moved
  obtain ⟨rfl, _⟩ := moves_to_ctr_some moved.decides
  obtain ⟨j, loaded⟩ := nearest_of_search (f := loads_indexed mtctr.rd) loaded
  obtain ⟨rfl, _⟩ := loads_indexed_some loaded.decides
  obtain ⟨k, left⟩ := nearest_of_search (f := leaves_on_gt) left
  obtain ⟨rfl, _⟩ := leaves_on_gt_some left.decides
  obtain ⟨check, bounded⟩ := nearest_of_search (f := bounds) bounded
  obtain ⟨rfl, _⟩ := bounds_some bounded.decides
  exact ⟨⟨mtctr, load, k, check, moved, loaded, left, bounded, aligned,
    (not_not.mp range).2, rfl⟩⟩

/-! Executing the code between two addresses: `st x` is the state the
instruction at `x` starts from. -/

section Execution

variable {dol : Dol}

def Executes (dol : Dol) (lo hi : Nat) (st : Nat → Regs) : Prop :=
  ∀ x, lo ≤ x → x < hi → x % 4 = 0 →
    ∃ i, CodeView.valid dol x = some i ∧ Effect i (st x) (st (x + 4))

/-- What every instruction between two addresses keeps holds at the second. -/
theorem Executes.carry {P : Regs → Prop} {lo hi : Nat} {st : Nat → Regs} (le : lo ≤ hi)
    (aligned : lo % 4 = 0 ∧ hi % 4 = 0)
    (keeps : ∀ x, lo ≤ x → x < hi → x % 4 = 0 → P (st x) → P (st (x + 4)))
    (start : P (st lo)) : P (st hi) := by
  obtain ⟨n, rfl⟩ : ∃ n, hi = lo + 4 * n := ⟨(hi - lo) / 4, by omega⟩
  clear le
  induction n with
  | zero => exact start
  | succ n ih =>
      have reached := ih ⟨aligned.1, by omega⟩
        (fun x above below divisible => keeps x above (by omega) divisible)
      exact keeps (lo + 4 * n) (by omega) (by omega) (by omega) reached

/-- An instruction that does not report `r` can leave it as it was. -/
theorem effect_keeping (r : Int) (i : Insn) (g : Regs) :
    ∃ g', Effect i g g' ∧ (i.valid = true → r ∉ gpr_defs i → g'.gpr r = g.gpr r) := by
  by_cases silent : i.valid = true ∧ r ∉ gpr_defs i ∧ r ∈ results i
  · obtain ⟨g', effect, value⟩ := silent_any silent.1 silent.2.2 silent.2.1 g (g.gpr r)
    exact ⟨g', effect, fun _ _ => value⟩
  · obtain ⟨g', effect⟩ := effect_exists i g
    refine ⟨g', effect, ?_⟩
    intro valid unreported
    exact effect.frame fun written => silent ⟨valid, unreported, written⟩

/-- From any state the code can run on, changing `r` only where it is reported. -/
theorem execution_from (hi : Nat) (r : Int) (g : Regs) {x : Nat} (aligned : x % 4 = 0)
    (code : ∀ y, x ≤ y → y < hi → y % 4 = 0 → ∃ i, CodeView.valid dol y = some i) :
    ∃ st, st x = g ∧ Executes dol x hi st ∧
      ∀ y, x ≤ y → y < hi → y % 4 = 0 → ∀ i, CodeView.valid dol y = some i →
        r ∉ gpr_defs i → (st (y + 4)).gpr r = (st y).gpr r := by
  choose after effect keeps using effect_keeping r
  let step : Nat → Regs → Regs := fun y g =>
    (CodeView.valid dol y).elim g fun i => after i g
  let run : Nat → Regs := Nat.rec g fun k s => step (x + 4 * k) s
  have stepped : ∀ y i, x ≤ y → y % 4 = 0 → CodeView.valid dol y = some i →
      run ((y + 4 - x) / 4) = after i (run ((y - x) / 4)) := by
    intro y i above divisible valid
    have next : (y + 4 - x) / 4 = (y - x) / 4 + 1 := by omega
    have here : x + 4 * ((y - x) / 4) = y := by omega
    rw [next]
    change step (x + 4 * ((y - x) / 4)) (run ((y - x) / 4)) = _
    rw [here]
    simp only [step, valid, Option.elim_some]
  refine ⟨fun y => run ((y - x) / 4), ?_, ?_, ?_⟩
  · have zero : (x - x) / 4 = 0 := by omega
    exact congrArg run zero
  · intro y above below divisible
    obtain ⟨i, valid⟩ := code y above below divisible
    refine ⟨i, valid, ?_⟩
    dsimp only
    rw [stepped y i above divisible valid]
    exact effect i _
  · intro y above below divisible i valid unreported
    dsimp only
    rw [stepped y i above divisible valid]
    exact keeps i _ (CodeView.valid_eq_some.mp valid).2 unreported

/-- `st` up to `x`, and `st'` from there on. -/
def splice (st : Nat → Regs) (x : Nat) (st' : Nat → Regs) : Nat → Regs := fun y =>
  if y < x then st y else st' y

theorem executes_splice {lo x hi : Nat} {st st' : Nat → Regs} (aligned : x % 4 = 0)
    (before : Executes dol lo hi st) (after : Executes dol x hi st')
    (joins : ∀ y i, y + 4 = x → CodeView.valid dol y = some i → Effect i (st y) (st' x)) :
    Executes dol lo hi (splice st x st') := by
  intro y above below divisible
  by_cases early : y < x
  · obtain ⟨i, valid, effect⟩ := before y above below divisible
    refine ⟨i, valid, ?_⟩
    by_cases last : y + 4 < x
    · rw [splice, if_pos early, splice, if_pos last]
      exact effect
    · have junction : y + 4 = x := by omega
      rw [splice, if_pos early, splice, if_neg last, junction]
      exact joins y i junction valid
  · obtain ⟨i, valid, effect⟩ := after y (by omega) below divisible
    refine ⟨i, valid, ?_⟩
    rw [splice, if_neg early, splice, if_neg (by omega)]
    exact effect

/-- No effect constrains the memory that is there afterwards. -/
theorem Effect.with_mem {i : Insn} {g g' : Regs} (effect : Effect i g g') (mem : Nat → BitVec 8) :
    Effect i g { g' with mem := mem } :=
  ⟨effect.gpr, effect.cr, effect.ctr⟩

end Execution

/-! What the bound check of a resolved switch lets through. -/

section Switch

/-- Memory holds the table's words. -/
def Holds (dol : Dol) (table : JumpTable) (mem : Nat → BitVec 8) : Prop :=
  ∀ k < table.targets.length,
    Arch.deviceSpace (BitVec.ofNat 32 (table.base + 4 * k)) = false ∧
      Arch.readBE mem (Arch.physical (BitVec.ofNat 32 (table.base + 4 * k))) 4 =
        dol.word (table.base + 4 * k)

/-- Whatever else memory holds, the word at `ea` is one of the targets. -/
def Lands (dol : Dol) (table : JumpTable) (ea : Word) : Prop :=
  Arch.deviceSpace ea = false ∧ ∀ mem, Holds dol table mem →
    ∃ t ∈ table.targets, BitVec.ofNat 32 (Arch.readBE mem (Arch.physical ea) 4) = BitVec.ofNat 32 t

/-- The emitted switch has a case for CTR when CTR is one of the targets; else
it reaches its default, which traps. -/
theorem switch_case_iff (targets : List Nat) (body : Nat → List Simple) (ctr : Word) :
    (((targets.dedup.insertionSort (· ≤ ·)).map fun t => (t, body t)).find?
      fun c => BitVec.ofNat 32 c.1 = ctr).isSome = true ↔
        ∃ t ∈ targets, ctr = BitVec.ofNat 32 t := by
  simp only [List.find?_isSome, List.mem_map, List.mem_insertionSort, List.mem_dedup,
    decide_eq_true_eq]
  constructor
  · rintro ⟨_, ⟨t, member, rfl⟩, same⟩
    exact ⟨t, member, same.symm⟩
  · rintro ⟨t, member, rfl⟩
    exact ⟨_, ⟨t, member, rfl⟩, rfl⟩

namespace Dispatch

variable {dol : Dol} {site : Nat} {table : JumpTable} (d : Dispatch dol site table)

/-- From the bound check to the `bctr` the code is straight-line, the `bgt` apart. -/
def Straight : Prop :=
  ∀ x, d.check.addr ≤ x → x < site → x % 4 = 0 → x ≠ d.bgt.addr →
    ∃ i, CodeView.valid dol x = some i ∧ straight i

/-- An execution from the check to the `bctr` that falls through the `bgt`,
with the table's data unchanged when it is read. -/
structure Passes (st : Nat → Regs) : Prop where
  runs : Executes dol d.check.addr site st
  falls_through : (st d.bgt.addr).cr 1 = false
  unchanged : Holds dol table (st d.load.addr).mem

/-- The value in CTR at the `bctr` is one of the targets. -/
def Covered : Prop :=
  ∀ st, d.Passes st → ∃ t ∈ table.targets, (st site).ctr = BitVec.ofNat 32 t

/-- From the load to the `mtctr` every write of the loaded register is one
`gpr_defs` reports. -/
def Kept : Prop :=
  ∀ x i, d.load.addr < x → x < d.mtctr.addr → CodeView.valid dol x = some i →
    d.mtctr.rd ∈ results i → d.mtctr.rd ∈ gpr_defs i

theorem order : d.check.addr < d.bgt.addr ∧ d.bgt.addr < d.load.addr ∧
    d.load.addr < d.mtctr.addr ∧ d.mtctr.addr < site :=
  ⟨d.bounded.below, d.left.below, d.loaded.below, d.moved.below⟩

theorem aligned_load : d.load.addr % 4 = 0 := (valid_addr d.loaded.valid).2

theorem aligned_mtctr : d.mtctr.addr % 4 = 0 := (valid_addr d.moved.valid).2

/-- Between the load and the `mtctr` nothing defines the loaded register. -/
theorem undefined_between {x : Nat} {i : Insn} (above : d.load.addr < x) (below : x < d.mtctr.addr)
    (valid : CodeView.valid dol x = some i) : d.mtctr.rd ∉ gpr_defs i := by
  obtain ⟨j, same, undecided⟩ := d.loaded.passes x above below (valid_addr valid).2
  obtain rfl := Option.some.inj (valid.symm.trans same)
  intro defines
  unfold loads_indexed at undecided
  rw [if_pos defines] at undecided
  split at undecided
  · cases undecided
  · cases undecided

variable {d} (straight : d.Straight)

include straight in
/-- CTR at the `bctr` is what the loaded register held at the `mtctr`. -/
theorem ctr_of_mtctr {x : Nat} {st : Nat → Regs}
    (runs : Executes dol x site st) (le : x ≤ d.mtctr.addr) :
    (st site).ctr = (st d.mtctr.addr).gpr d.mtctr.rd := by
  obtain ⟨_, after_bgt, after_load, before_site⟩ := d.order
  have divisible := d.aligned_mtctr
  have aligned := d.aligned
  obtain ⟨_, m, spr⟩ := moves_to_ctr_some d.moved.decides
  obtain ⟨i, valid, effect⟩ := runs d.mtctr.addr le before_site divisible
  obtain rfl := Option.some.inj (d.moved.valid.symm.trans valid)
  have moved := effect.ctr
  rw [CtrEffect, if_pos ⟨m, spr⟩] at moved
  have reached : d.mtctr.addr + 4 ≤ site := by omega
  refine Executes.carry (P := fun g => g.ctr = (st d.mtctr.addr).gpr d.mtctr.rd)
    reached (by omega) ?_ moved
  intro y above below divisible held
  obtain ⟨i, valid, effect⟩ := runs y (by omega) below divisible
  obtain ⟨j, same, undecided⟩ := d.moved.passes y (by omega) below divisible
  obtain rfl := Option.some.inj (valid.symm.trans same)
  obtain ⟨j, same, plain⟩ := straight y (by omega) below divisible (by omega)
  obtain rfl := Option.some.inj (valid.symm.trans same)
  have kept := effect.ctr
  rw [CtrEffect, if_neg] at kept
  · rw [kept (.inl plain.1)]
    exact held
  · intro moves
    have decided : moves_to_ctr i = some (some i) := if_pos moves
    rw [undecided] at decided
    cases decided

include straight in
/-- The loaded register's value reaches the `bctr` from any state after the load,
where nothing on the way changes it. -/
theorem ctr_of_value {x : Nat} {st : Nat → Regs} (aligned : x % 4 = 0)
    (le : x ≤ d.mtctr.addr) (runs : Executes dol x site st)
    (keeps : ∀ y i, x ≤ y → y < d.mtctr.addr → CodeView.valid dol y = some i →
      (st (y + 4)).gpr d.mtctr.rd = (st y).gpr d.mtctr.rd) :
    (st site).ctr = (st x).gpr d.mtctr.rd := by
  obtain ⟨_, _, _, before_site⟩ := d.order
  rw [ctr_of_mtctr straight runs le]
  refine Executes.carry (P := fun g => g.gpr d.mtctr.rd = (st x).gpr d.mtctr.rd) le
    ⟨aligned, d.aligned_mtctr⟩ ?_ rfl
  intro y above below divisible held
  obtain ⟨i, valid, _⟩ := runs y above (by omega) divisible
  exact (keeps y i above below valid).trans held

theorem load_exact {g g' : Regs} (effect : Effect d.load g g') :
    ∃ v, g'.gpr d.mtctr.rd = v ∧ (Arch.deviceSpace (g.indexed d.load) = false →
      v = BitVec.ofNat 32 (Arch.readBE g.mem (Arch.physical (g.indexed d.load)) 4)) := by
  obtain ⟨_, m, rd⟩ := loads_indexed_some d.loaded.decides
  have gpr := effect.gpr
  simp only [GprEffect, m] at gpr
  obtain ⟨v, update, value⟩ := gpr
  refine ⟨v, ?_, value⟩
  rw [update, rd, Function.update_self]

include straight in
/-- A load from the table, kept until the `mtctr`, puts a target in CTR. -/
theorem covered_of_lands {st : Nat → Regs} (passes : d.Passes st) (kept : d.Kept)
    (lands : Lands dol table ((st d.load.addr).indexed d.load)) :
    ∃ t ∈ table.targets, (st site).ctr = BitVec.ofNat 32 t := by
  obtain ⟨after_check, after_bgt, after_load, before_site⟩ := d.order
  have aligned := d.aligned_load
  have aligned_mtctr := d.aligned_mtctr
  obtain ⟨memory, target⟩ := lands
  obtain ⟨i, valid, effect⟩ := passes.runs d.load.addr (by omega) (by omega) aligned
  obtain rfl := Option.some.inj (d.loaded.valid.symm.trans valid)
  obtain ⟨v, loaded, value⟩ := load_exact effect
  obtain ⟨t, member, word⟩ := target _ passes.unchanged
  refine ⟨t, member, ?_⟩
  rw [ctr_of_value straight (x := d.load.addr + 4) (by omega) (by omega)
    (fun y above below divisible => passes.runs y (by omega) below divisible) ?_, loaded,
    value memory, word]
  intro y i above below valid
  obtain ⟨j, same, effect⟩ := passes.runs y (by omega) (by omega) (valid_addr valid).2
  obtain rfl := Option.some.inj (valid.symm.trans same)
  exact effect.frame fun written =>
    d.undefined_between (by omega) below valid (kept y i (by omega) below valid written)

/-- Some word is no target: the table is short. -/
theorem exists_other (d : Dispatch dol site table) : ∃ w : Word, ∀ t ∈ table.targets, w ≠ BitVec.ofNat 32 t := by
  have few := d.few
  have length : table.targets.length ≤ 4096 := by
    rw [d.entries, List.length_map, List.length_range]
    have bound : d.check.imm + 1 ≤ 4096 := few
    omega
  let words := (table.targets.map (· % 2 ^ 32)).toFinset
  have card : words.card < (Finset.range 5000).card := by
    have short : words.card ≤ (table.targets.map (· % 2 ^ 32)).length := List.toFinset_card_le _
    rw [List.length_map] at short
    rw [Finset.card_range]
    omega
  obtain ⟨n, small, outside⟩ := Finset.exists_mem_notMem_of_card_lt_card card
  refine ⟨BitVec.ofNat 32 n, ?_⟩
  intro t member same
  apply outside
  have equal := congrArg BitVec.toNat same
  have below := Finset.mem_range.mp small
  rw [BitVec.toNat_ofNat, BitVec.toNat_ofNat, Nat.mod_eq_of_lt (by omega)] at equal
  exact List.mem_toFinset.mpr (List.mem_map.mpr ⟨t, member, equal.symm⟩)

include straight in
theorem code_valid {x : Nat} (above : d.check.addr ≤ x) (below : x < site) (aligned : x % 4 = 0) :
    ∃ i, CodeView.valid dol x = some i := by
  by_cases same : x = d.bgt.addr
  · rw [same]
    exact ⟨d.bgt, d.left.valid⟩
  · obtain ⟨i, valid, _⟩ := straight x above below aligned same
    exact ⟨i, valid⟩

include straight in
/-- An execution that reaches a state `g` after the load goes on from it to the
`bctr` with the loaded register as it is there. -/
theorem diverted {st : Nat → Regs} (passes : d.Passes st) {x : Nat} (aligned : x % 4 = 0)
    (after : d.load.addr < x) (le : x ≤ d.mtctr.addr) {g : Regs}
    (joins : ∀ y i, y + 4 = x → CodeView.valid dol y = some i → Effect i (st y) g) :
    ∃ st', d.Passes st' ∧ (st' site).ctr = g.gpr d.mtctr.rd := by
  obtain ⟨after_check, after_bgt, after_load, before_site⟩ := d.order
  obtain ⟨st', start, runs, keeps⟩ := execution_from site d.mtctr.rd g aligned
    fun y above below divisible => code_valid straight (by omega) below divisible
  have joined := executes_splice aligned passes.runs runs (by rwa [start])
  refine ⟨splice st x st', ⟨joined, ?_, ?_⟩, ?_⟩
  · rw [splice, if_pos (by omega)]
    exact passes.falls_through
  · rw [splice, if_pos after]
    exact passes.unchanged
  · rw [splice, if_neg (by omega), ← start]
    refine ctr_of_value straight aligned le runs ?_
    intro y i above below valid
    exact keeps y above (by omega) (valid_addr valid).2 i valid
      (d.undefined_between (by omega) below valid)

include straight in
theorem kept_of_covered (covered : d.Covered) {st : Nat → Regs} (passes : d.Passes st) :
    d.Kept := by
  intro x i above below valid written
  by_contra silent
  obtain ⟨w, other⟩ := d.exists_other
  have aligned := (valid_addr valid).2
  have aligned_mtctr := d.aligned_mtctr
  obtain ⟨g, effect, value⟩ :=
    silent_any (CodeView.valid_eq_some.mp valid).2 written silent (st x) w
  obtain ⟨st', passes', ctr⟩ := diverted straight passes (x := x + 4) (g := g) (by omega)
    (by omega) (by omega) (by
      intro y j junction same
      obtain rfl := Nat.add_right_cancel junction
      obtain rfl := Option.some.inj (valid.symm.trans same)
      exact effect)
  obtain ⟨t, member, reached⟩ := covered st' passes'
  rw [ctr, value] at reached
  exact other t member reached

include straight in
theorem lands_of_covered (covered : d.Covered) {st : Nat → Regs} (passes : d.Passes st) :
    Lands dol table ((st d.load.addr).indexed d.load) := by
  obtain ⟨after_check, after_bgt, after_load, before_site⟩ := d.order
  have aligned := d.aligned_load
  have aligned_mtctr := d.aligned_mtctr
  obtain ⟨_, m, rd⟩ := loads_indexed_some d.loaded.decides
  obtain ⟨i, valid, effect⟩ := passes.runs d.load.addr (by omega) (by omega) aligned
  obtain rfl := Option.some.inj (d.loaded.valid.symm.trans valid)
  have aligned_check := (valid_addr d.bounded.valid).2
  have memory : Arch.deviceSpace ((st d.load.addr).indexed d.load) = false := by
    -- a device could answer with anything
    by_contra device
    obtain ⟨w, other⟩ := d.exists_other
    let g : Regs := { st (d.load.addr + 4) with
      gpr := Function.update (st d.load.addr).gpr d.load.rd w }
    have answered : Effect d.load (st d.load.addr) g := by
      refine ⟨?_, effect.cr, effect.ctr⟩
      simp only [GprEffect, m]
      exact ⟨w, rfl, fun memory => absurd memory device⟩
    obtain ⟨st', passes', ctr⟩ := diverted straight passes (x := d.load.addr + 4) (g := g)
      (by omega) (by omega) (by omega) (by
        intro y j junction same
        obtain rfl := Nat.add_right_cancel junction
        obtain rfl := Option.some.inj (d.loaded.valid.symm.trans same)
        exact answered)
    obtain ⟨t, member, reached⟩ := covered st' passes'
    have value : g.gpr d.load.rd = w := Function.update_self ..
    rw [ctr, ← rd, value] at reached
    exact other t member reached
  refine ⟨memory, ?_⟩
  -- memory outside the table could hold anything
  intro mem holds
  let g : Regs := { st d.load.addr with mem := mem }
  obtain ⟨st', start, runs, keeps⟩ := execution_from site d.mtctr.rd g aligned
    fun y above below divisible => code_valid straight (by omega) below divisible
  have joined := executes_splice aligned passes.runs runs (by
    intro y j junction same
    have divisible := (valid_addr same).2
    obtain ⟨k, valid', step⟩ := passes.runs y (by omega) (by omega) divisible
    obtain rfl := Option.some.inj (same.symm.trans valid')
    rw [junction] at step
    rw [start]
    exact step.with_mem mem)
  obtain ⟨k, valid', loads⟩ := runs d.load.addr (Nat.le_refl _) (by omega) aligned
  obtain rfl := Option.some.inj (d.loaded.valid.symm.trans valid')
  obtain ⟨v, loaded, value⟩ := load_exact loads
  rw [start] at value
  have ctr := ctr_of_value straight (x := d.load.addr + 4) (by omega) (by omega)
    (fun y above below divisible => runs y (by omega) below divisible)
    fun y i above below valid => keeps y (by omega) (by omega) (valid_addr valid).2 i valid
      (d.undefined_between (by omega) below valid)
  obtain ⟨t, member, reached⟩ := covered (splice st d.load.addr st') ⟨joined, by
    rw [splice, if_pos after_bgt]
    exact passes.falls_through, by
    rw [splice, if_neg (Nat.lt_irrefl _), start]
    exact holds⟩
  refine ⟨t, member, ?_⟩
  rw [splice, if_neg (by omega), ctr, loaded, value memory] at reached
  exact reached

include straight in
theorem covered_iff_lands : d.Covered ↔
    ∀ st, d.Passes st → d.Kept ∧ Lands dol table ((st d.load.addr).indexed d.load) := by
  constructor
  · intro covered st passes
    exact ⟨kept_of_covered straight covered passes, lands_of_covered straight covered passes⟩
  · intro condition st passes
    obtain ⟨kept, lands⟩ := condition st passes
    exact covered_of_lands straight passes kept lands

omit straight in
/-- The load lands in the table where the check bounds the index: it compares,
unsigned, the value the index operand holds scaled by four, and CR0[GT] still
says so at the `bgt`. -/
theorem lands_of_index {st : Nat → Regs} (passes : d.Passes st) {x : Word}
    (compared : x = (st d.check.addr).gpr d.check.ra)
    (unsigned : d.check.mnemonic = .cmpli ∨ 0 ≤ x.toInt)
    (said : (st d.bgt.addr).cr 1 = (st (d.check.addr + 4)).cr 1)
    (scaled : (st d.load.addr).indexed d.load = BitVec.ofNat 32 (table.base + 4 * x.toNat)) :
    Lands dol table ((st d.load.addr).indexed d.load) := by
  obtain ⟨after_check, after_bgt, after_load, before_site⟩ := d.order
  obtain ⟨_, m, field, nonneg⟩ := bounds_some d.bounded.decides
  obtain ⟨i, valid, effect⟩ := passes.runs d.check.addr (Nat.le_refl _) (by omega)
    (valid_addr d.bounded.valid).2
  obtain rfl := Option.some.inj (d.bounded.valid.symm.trans valid)
  have small : (x.toNat : Int) ≤ d.check.imm := by
    have gt := passes.falls_through
    have cr := effect.cr
    rcases m with m | m
    · simp only [CrEffect, m, field] at cr
      rw [said, cr.2.1, decide_eq_false_iff_not, ← compared] at gt
      omega
    · simp only [CrEffect, m, field] at cr
      rw [said, cr.2.1, decide_eq_false_iff_not, ← compared] at gt
      have positive : 0 ≤ x.toInt := by
        rcases unsigned with other | positive
        · rw [m] at other
          cases other
        · exact positive
      have value := BitVec.toInt_eq_toNat_cond x
      split at value
      · omega
      · omega
  have entry : x.toNat < table.targets.length := by
    rw [d.entries, List.length_map, List.length_range]
    omega
  have member : dol.word (table.base + 4 * x.toNat) ∈ table.targets := by
    rw [d.entries]
    exact List.mem_map.mpr ⟨x.toNat, List.mem_range.mpr (by omega), rfl⟩
  rw [scaled]
  refine ⟨(passes.unchanged x.toNat entry).1, ?_⟩
  intro mem holds
  exact ⟨_, member, congrArg _ (holds x.toNat entry).2⟩

end Dispatch

end Switch

/-! A switch whose check compares r4 and whose index is r3:
`cmplwi r4, 1; bgt +24; lis r5, 0x8040; lwzx r0, r5, r3; mtctr r0; bctr`. -/

def crossed : Dol where
  sections := [
    { file_offset := 0, address := 0x80003100, size := 32, is_text := true },
    { file_offset := 32, address := 0x80400000, size := 8, is_text := false }]
  entry_point := 0x80003100
  data := [
    0x28, 0x04, 0x00, 0x01, 0x41, 0x81, 0x00, 0x18, 0x3C, 0xA0, 0x80, 0x40, 0x7C, 0x05, 0x18, 0x2E,
    0x7C, 0x09, 0x03, 0xA6, 0x4E, 0x80, 0x04, 0x20, 0x4E, 0x80, 0x00, 0x20, 0x4E, 0x80, 0x00, 0x20,
    0x80, 0x00, 0x31, 0x18, 0x80, 0x00, 0x31, 0x1C]

def crossed_table : JumpTable where
  site := 0x80003114
  base := 0x80400000
  targets := [0x80003118, 0x8000311C]

theorem crossed_resolved : crossed_table ∈ find_jump_tables crossed := by
  decide

theorem crossed_lis : CodeView.valid crossed 0x80003108 = some (decode 0x3CA08040 0x80003108) := by
  decide

def crossed_dispatch : Dispatch crossed 0x80003114 crossed_table where
  mtctr := decode 0x7C0903A6 0x80003110
  load := decode 0x7C05182E 0x8000310C
  bgt := decode 0x41810018 0x80003104
  check := decode 0x28040001 0x80003100
  moved := {
    valid := by decide
    below := by decide
    decides := by decide
    passes := by
      intro x above below aligned
      rw [decode_addr] at above
      omega }
  loaded := {
    valid := by decide
    below := by decide
    decides := by decide
    passes := by
      intro x above below aligned
      rw [decode_addr] at above below
      omega }
  left := {
    valid := by decide
    below := by decide
    decides := by decide
    passes := by
      intro x above below aligned
      rw [decode_addr] at above below
      have lis : x = 0x80003108 := by omega
      rw [lis]
      exact ⟨_, crossed_lis, by decide⟩ }
  bounded := {
    valid := by decide
    below := by decide
    decides := by decide
    passes := by
      intro x above below aligned
      rw [decode_addr] at above below
      omega }
  aligned := by decide
  few := by decide
  entries := by decide

/-- r4 = 0 passes the check, and r3 = 8 takes the load past the table. -/
def crossed_state (x : Nat) : Regs where
  gpr r := if r = 3 then 8#32 else if r = 5 ∧ 0x80003108 < x then 0x80400000#32 else 0#32
  cr k := k = 0
  ctr := 0#32
  mem p := ((crossed.data.drop 32)[p - 0x400000]?).getD 0

/-- Only the `lis` changes a register. -/
theorem crossed_gpr {a : Nat} (other : a + 4 ≤ 0x80003108 ∨ 0x80003108 < a) :
    (crossed_state (a + 4)).gpr = (crossed_state a).gpr := by
  have same : 0x80003108 < a + 4 ↔ 0x80003108 < a := by omega
  simp only [crossed_state, same]

theorem crossed_check :
    Effect (decode 0x28040001 0x80003100) (crossed_state 0x80003100) (crossed_state 0x80003104) := by
  have m : (decode 0x28040001 0x80003100).mnemonic = .cmpli := by decide
  have fields : (decode 0x28040001 0x80003100).crf_d = 0 ∧
      (decode 0x28040001 0x80003100).ra = 4 ∧ (decode 0x28040001 0x80003100).imm = 1 := by decide
  refine ⟨?_, ?_, ?_⟩
  · simp only [GprEffect, m]
    exact fun r _ => congrFun (crossed_gpr (.inl (by decide))) r
  · simp only [CrEffect, m]
    rw [fields.1, fields.2.1, fields.2.2]
    exact ⟨rfl, rfl, rfl, fun _ _ => rfl⟩
  · simp only [CtrEffect, m]
    exact fun _ => rfl

theorem crossed_bgt :
    Effect (decode 0x41810018 0x80003104) (crossed_state 0x80003104) (crossed_state 0x80003108) := by
  have m : (decode 0x41810018 0x80003104).mnemonic = .bc := by decide
  refine ⟨?_, ?_, ?_⟩
  · simp only [GprEffect, m]
    exact fun r _ => congrFun (crossed_gpr (.inl (by decide))) r
  · simp only [CrEffect, m]
    exact fun _ => rfl
  · simp only [CtrEffect, m]
    exact fun _ => rfl

theorem crossed_base :
    Effect (decode 0x3CA08040 0x80003108) (crossed_state 0x80003108) (crossed_state 0x8000310C) := by
  have m : (decode 0x3CA08040 0x80003108).mnemonic = .addis := by decide
  have fields : (decode 0x3CA08040 0x80003108).rd = 5 ∧ (decode 0x3CA08040 0x80003108).ra = 0 ∧
      (decode 0x3CA08040 0x80003108).imm = -0x7FC0 := by decide
  refine ⟨?_, ?_, ?_⟩
  · simp only [GprEffect, m]
    rw [fields.1, fields.2.1, fields.2.2]
    funext r
    by_cases five : r = 5
    · subst five
      rfl
    · rw [Function.update_of_ne five]
      simp [crossed_state, five]
  · simp only [CrEffect, m]
    exact fun _ => rfl
  · simp only [CtrEffect, m]
    exact fun _ => rfl

theorem crossed_load :
    Effect (decode 0x7C05182E 0x8000310C) (crossed_state 0x8000310C) (crossed_state 0x80003110) := by
  have m : (decode 0x7C05182E 0x8000310C).mnemonic = .lwzx := by decide
  have fields : (decode 0x7C05182E 0x8000310C).rd = 0 ∧ (decode 0x7C05182E 0x8000310C).ra = 5 ∧
      (decode 0x7C05182E 0x8000310C).rb = 3 := by decide
  refine ⟨?_, ?_, ?_⟩
  · simp only [GprEffect, m, Regs.indexed]
    rw [fields.1, fields.2.1, fields.2.2]
    refine ⟨0#32, ?_, fun _ => by decide⟩
    rw [crossed_gpr (.inr (by decide))]
    exact (Function.update_eq_self 0 _).symm
  · simp only [CrEffect, m]
    exact fun _ => rfl
  · simp only [CtrEffect, m]
    exact fun _ => rfl

theorem crossed_move :
    Effect (decode 0x7C0903A6 0x80003110) (crossed_state 0x80003110) (crossed_state 0x80003114) := by
  have m : (decode 0x7C0903A6 0x80003110).mnemonic = .mtspr := by decide
  have fields : (decode 0x7C0903A6 0x80003110).spr = 9 ∧ (decode 0x7C0903A6 0x80003110).rd = 0 := by
    decide
  refine ⟨?_, ?_, ?_⟩
  · simp only [GprEffect, m]
    exact fun r _ => congrFun (crossed_gpr (.inr (by decide))) r
  · simp only [CrEffect, m]
    exact fun _ => rfl
  · rw [CtrEffect, if_pos ⟨m, fields.1⟩, fields.2]
    rfl

theorem crossed_passes : crossed_dispatch.Passes crossed_state := by
  refine ⟨?_, rfl, ?_⟩
  · intro x above below aligned
    have low : 0x80003100 ≤ x := (decode_addr 0x28040001 0x80003100).symm.le.trans above
    obtain rfl | rfl | rfl | rfl | rfl : x = 0x80003100 ∨ x = 0x80003104 ∨ x = 0x80003108 ∨
        x = 0x8000310C ∨ x = 0x80003110 := by omega
    · exact ⟨_, crossed_dispatch.bounded.valid, crossed_check⟩
    · exact ⟨_, crossed_dispatch.left.valid, crossed_bgt⟩
    · exact ⟨_, crossed_lis, crossed_base⟩
    · exact ⟨_, crossed_dispatch.loaded.valid, crossed_load⟩
    · exact ⟨_, crossed_dispatch.moved.valid, crossed_move⟩
  · have words : ∀ k < 2, Arch.deviceSpace (BitVec.ofNat 32 (0x80400000 + 4 * k)) = false ∧
        Arch.readBE (crossed_state 0).mem
          (Arch.physical (BitVec.ofNat 32 (0x80400000 + 4 * k))) 4 =
            crossed.word (0x80400000 + 4 * k) := by decide
    exact words

theorem crossed_straight : crossed_dispatch.Straight := by
  intro x above below aligned other
  have low : 0x80003100 ≤ x := (decode_addr 0x28040001 0x80003100).symm.le.trans above
  have apart : x ≠ 0x80003104 := other.trans_eq (decode_addr 0x41810018 0x80003104)
  obtain rfl | rfl | rfl | rfl : x = 0x80003100 ∨ x = 0x80003108 ∨ x = 0x8000310C ∨
      x = 0x80003110 := by omega
  · exact ⟨_, crossed_dispatch.bounded.valid, by decide, by decide⟩
  · exact ⟨_, crossed_lis, by decide, by decide⟩
  · exact ⟨_, crossed_dispatch.loaded.valid, by decide, by decide⟩
  · exact ⟨_, crossed_dispatch.moved.valid, by decide, by decide⟩

end SoaPort.Recomp
