import SoaPort.Recomp.FlowCorrect

namespace SoaPort.Recomp

open SoaPort.Ppc

/-! A body that follows the guest comes from a laid-out function. Each
condition is read off a state in which the guest would pass it. -/

/-- A runtime that does nothing. -/
def quiet : Runtime Unit where
  mmio_read8 s _ := (0, s)
  mmio_read16 s _ := (0, s)
  mmio_read32 s _ := (0, s)
  mmio_write8 s _ _ := s
  mmio_write16 s _ _ := s
  mmio_write32 s _ _ := s
  gx_pipe_write s _ _ := s
  guest_timebase_lo s := (0, s)
  guest_timebase_hi s := (0, s)
  dec_read s := (0, s)
  dec_write s _ := s
  guest_syscall s _ := s
  guest_trap s _ := s
  guest_unimplemented s _ := s
  irq_poll s := s
  hook _ s := s
  trace_hit _ s := s
  fn _ s := s
  dispatch s _ := s

/-- A state with the given condition and count registers. -/
def stateWith (cr ctr : Word) : CpuState Unit where
  gpr _ := 0
  fpr _ := (0, 0)
  cr := cr
  xer := 0
  lr := 0
  ctr := ctr
  fpscr := 0
  msr := 0
  pc := 0
  gqr _ := 0
  hid2 := 0
  wpar := 0
  spr _ := 0
  sr _ := 0
  mem _ := 0
  user := ()

section Layout

variable {em : Emitter} {fn : Ppc.Function} {body : List Chunk} {c : Chunk} {i : Insn}

theorem enter_quiet (fc : FloatCode Unit) (written : em.function_c fn = some body)
    (emitted : c ∈ body) (s : CpuState Unit) :
    (c.enter quiet fc s).cr = s.cr ∧ (c.enter quiet fc s).ctr = s.ctr := by
  obtain ⟨i, _, same⟩ := Option.map_eq_some_iff.mp (chunk_made written emitted)
  rw [← same, Chunk.enter]
  dsimp only
  split <;> split <;> split <;> exact ⟨rfl, rfl⟩

/-- No condition bit can hold its own opposite. -/
theorem cr_untaken {bo bi : Nat} (tested : Guest.boBit bo 0 = false) (inside : bi < 32) :
    ∃ cr : Word, ∀ s : CpuState Unit, s.cr = cr → Guest.taken bo bi s = false := by
  cases want : Guest.boBit bo 1 with
  | true =>
      refine ⟨0, fun s same => ?_⟩
      simp [Guest.taken, tested, want, same]
  | false =>
      refine ⟨BitVec.allOnes 32, fun s same => ?_⟩
      have bit : s.cr.getMsbD bi = true := by
        rw [same, BitVec.getMsbD_allOnes, decide_eq_true inside]
      simp [Guest.taken, tested, want, bit]

theorem unconditional_of_bits (other : i.mnemonic = .bc ∨ i.mnemonic = .bclr)
    (ignores_cr : Guest.boBit i.bo 0 = true) (ignores_ctr : Guest.boBit i.bo 2 = true) :
    i.is_unconditional = true := by
  have both : i.bo &&& 20 = 20 := by
    calc
      i.bo &&& 20 = (i.bo &&& 2 ^ 4) ||| (i.bo &&& 2 ^ 2) :=
        Nat.and_or_distrib_left i.bo 16 4
      _ = 20 := by
        rw [Nat.and_two_pow, Nat.and_two_pow, show i.bo.testBit 4 = true from ignores_cr,
          show i.bo.testBit 2 = true from ignores_ctr]
        rfl
  rcases other with m | m <;> simp [Insn.is_unconditional, m, both]

/-- A conditional `bc` or `bclr` is not taken from some state. -/
theorem untaken_state (other : i.mnemonic = .bc ∨ i.mnemonic = .bclr)
    (conditional : i.is_unconditional = false) (inside : i.bi < 32) :
    ∃ cr ctr : Word, ∀ s : CpuState Unit, s.cr = cr → s.ctr = ctr →
      Guest.taken i.bo i.bi (Guest.decrement i.bo s) = false := by
  have kept (s : CpuState Unit) : (Guest.decrement i.bo s).cr = s.cr := by
    unfold Guest.decrement
    split <;> rfl
  cases ignores_cr : Guest.boBit i.bo 0 with
  | false =>
      obtain ⟨cr, untaken⟩ := cr_untaken ignores_cr inside
      exact ⟨cr, 0, fun s same _ => untaken _ ((kept s).trans same)⟩
  | true =>
      have counts : Guest.boBit i.bo 2 = false := by
        cases ignores_ctr : Guest.boBit i.bo 2 with
        | false => rfl
        | true => rw [unconditional_of_bits other ignores_cr ignores_ctr] at conditional; cases conditional
      cases zero : Guest.boBit i.bo 3 with
      | true =>
          refine ⟨0, 0, fun s _ same => ?_⟩
          simp [Guest.taken, Guest.decrement, counts, zero, same]
      | false =>
          refine ⟨0, 1, fun s _ same => ?_⟩
          simp [Guest.taken, Guest.decrement, counts, zero, same]

/-- An instruction that can pass control on does so from some state. -/
theorem falls_on_state (on : falls_on i = true) (inside : i.bi < 32)
    (tables : Nat → Option (List Nat)) :
    ∃ cr ctr : Word, ∀ s : CpuState Unit, s.cr = cr → s.ctr = ctr →
      ∃ ctl, Guest.control tables i s = some ctl ∧
        (ctl = .fall ∨ (∃ t, ctl = .call t) ∨ ∃ t, ctl = .call_at t) := by
  have valid : i.valid = true := (Bool.and_eq_true_iff.mp on).1
  cases transfer : Emitter.transfers i.mnemonic with
  | false => exact ⟨0, 0, fun s _ _ => ⟨_, control_plain tables valid transfer s, .inl rfl⟩⟩
  | true =>
      rw [falls_on, valid, Bool.true_and] at on
      rcases transfers_cases transfer with m | m | m | m | m
      · simp only [m] at on
        refine ⟨0, 0, fun s _ _ => ⟨.call (i.target.getD 0), ?_, .inr (.inl ⟨_, rfl⟩)⟩⟩
        simp [Guest.control, valid, m, on]
      · simp only [m] at on
        cases linked : i.lk_bit with
        | true =>
            refine ⟨0, 0, fun s _ _ => ?_⟩
            cases taken : Guest.taken i.bo i.bi (Guest.decrement i.bo s) <;>
              simp [Guest.control, valid, m, linked, taken]
        | false =>
            obtain ⟨cr, ctr, untaken⟩ :=
              untaken_state (.inl m) (by simpa [linked] using on) inside
            refine ⟨cr, ctr, fun s same same' => ⟨.fall, ?_, .inl rfl⟩⟩
            simp [Guest.control, valid, m, untaken s same same']
      · simp only [m] at on
        cases linked : i.lk_bit with
        | true =>
            refine ⟨0, 0, fun s _ _ => ?_⟩
            cases taken : Guest.taken i.bo i.bi (Guest.decrement i.bo s) <;>
              simp [Guest.control, valid, m, linked, taken]
        | false =>
            obtain ⟨cr, ctr, untaken⟩ :=
              untaken_state (.inr m) (by simpa [linked] using on) inside
            refine ⟨cr, ctr, fun s same same' => ⟨.fall, ?_, .inl rfl⟩⟩
            simp [Guest.control, valid, m, untaken s same same']
      · simp only [m, Bool.and_eq_true, Bool.or_eq_true] at on
        obtain ⟨ignores_ctr, linked | conditional⟩ := on
        · refine ⟨0, 0, fun s _ _ => ?_⟩
          cases taken : Guest.taken i.bo i.bi s <;>
            simp [Guest.control, valid, m, linked, ignores_ctr, taken]
        · obtain ⟨cr, untaken⟩ := cr_untaken (by simpa using conditional) inside
          refine ⟨cr, 0, fun s same _ => ⟨.fall, ?_, .inl rfl⟩⟩
          simp [Guest.control, valid, m, ignores_ctr, untaken s same]
      · simp only [m] at on
        cases on

/-- The transfers that stay beside the instruction lead to the next address. -/
theorem transfer_next {ρ : Type} {rt : Runtime ρ} {pc : Nat} {s s' : CpuState ρ} {ctl : Control}
    {next : Option Nat} (moved : Transfer rt em fn pc s ctl next s')
    (beside : ctl = .fall ∨ (∃ t, ctl = .call t) ∨ ∃ t, ctl = .call_at t) :
    next = some (pc + 4) := by
  rcases beside with rfl | ⟨t, rfl⟩ | ⟨t, rfl⟩ <;> cases moved <;> rfl

theorem place_of (emitted : c ∈ body) : ∃ place, c :: place <:+ body := by
  obtain ⟨before, place, rfl⟩ := List.append_of_mem emitted
  exact ⟨place, List.suffix_append before _⟩

theorem falls_of_follows {dol : Dol} (image : FromImage em dol)
    (written : em.function_c fn = some body)
    (follows : StepFollows quiet (fun _ s => s) em fn body) (emitted : c ∈ body)
    (decoded : em.code c.addr = some i) (on : falls_on i = true) :
    c.addr + 4 ∈ Emitter.addrs fn := by
  obtain ⟨_, _, bi_lt⟩ := CodeView.get_spec (image.view ▸ decoded)
  obtain ⟨place, suffix⟩ := place_of emitted
  obtain ⟨cr, ctr, passes⟩ := falls_on_state on bi_lt em.tables
  obtain ⟨same_cr, same_ctr⟩ := enter_quiet (fun _ s => s) written emitted (stateWith cr ctr)
  obtain ⟨ctl, specified, beside⟩ := passes _ same_cr same_ctr
  obtain ⟨next, s', moved, stands⟩ := follows c place suffix i _ ctl decoded specified
  rw [transfer_next moved beside] at stands
  obtain ⟨d, rest, _, later, address⟩ := stands_at stands
  rw [← address]
  exact emitted_addr written (later.subset List.mem_cons_self)

/-- A switch never runs on past its end. -/
theorem switch_leaves {ρ : Type} (rt : Runtime ρ) (fc : FloatCode ρ) (em : Emitter)
    (addr_set : Nat → Bool) (targets : List Nat) (pc : Nat) (s : CpuState ρ) :
    ∃ s', (Stmt.switch_ctr ((targets.dedup.insertionSort (· ≤ ·)).map
        fun t => (t, em._jump t addr_set pc)) [.guest_trap pc, .ret]).exec rt fc s = (s', .ret) ∨
      ∃ t ∈ targets, addr_set t = true ∧ BitVec.ofNat 32 t = s.ctr ∧
        (Stmt.switch_ctr ((targets.dedup.insertionSort (· ≤ ·)).map
          fun t => (t, em._jump t addr_set pc)) [.guest_trap pc, .ret]).exec rt fc s =
            (s', .goto t) := by
  rw [Stmt.exec]
  cases found : ((targets.dedup.insertionSort (· ≤ ·)).map
      fun t => (t, em._jump t addr_set pc)).find?
        (fun case => BitVec.ofNat 32 case.1 = s.ctr) with
  | none => exact ⟨rt.guest_trap s (BitVec.ofNat 32 pc), .inl rfl⟩
  | some case =>
      have selects := List.find?_some found
      obtain ⟨t, member, rfl⟩ := List.mem_map.mp (List.mem_of_find?_eq_some found)
      have listed : t ∈ targets := by
        rw [List.mem_insertionSort, List.mem_dedup] at member
        exact member
      dsimp only
      cases inside : addr_set t with
      | true =>
          rw [Emitter.exec_jump_inside rt fc em addr_set pc s inside]
          exact ⟨_, .inr ⟨t, listed, inside, by simpa using selects, rfl⟩⟩
      | false =>
          rw [Emitter.exec_jump_outside rt fc em addr_set pc s inside]
          exact ⟨_, .inl rfl⟩

theorem switches_of_follows {dol : Dol} (image : FromImage em dol)
    (written : em.function_c fn = some body)
    (follows : StepFollows quiet (fun _ s => s) em fn body) (emitted : c ∈ body)
    (decoded : em.code c.addr = some i) (valid : i.valid = true) (m : i.mnemonic = .bcctr)
    (unlinked : i.lk_bit = false) (resolved : (em.tables c.addr).isSome)
    (ignores_ctr : Guest.boBit i.bo 2 = true) : Guest.boBit i.bo 0 = true := by
  obtain ⟨_, address, bi_lt⟩ := CodeView.get_spec (image.view ▸ decoded)
  obtain ⟨targets, table⟩ := Option.isSome_iff_exists.mp resolved
  cases tested : Guest.boBit i.bo 0 with
  | true => rfl
  | false =>
      -- the condition fails, so the guest falls on; the switch cannot
      obtain ⟨cr, untaken⟩ := cr_untaken tested bi_lt
      obtain ⟨place, suffix⟩ := place_of emitted
      let s := stateWith cr (BitVec.ofNat 32 (c.addr + 5))
      obtain ⟨same_cr, same_ctr⟩ := enter_quiet (fun _ s => s) written emitted s
      have specified : Guest.control em.tables i (c.enter quiet (fun _ s => s) s) = some .fall := by
        simp [Guest.control, valid, m, ignores_ctr, untaken _ same_cr]
      obtain ⟨next, s', moved, stands⟩ := follows c place suffix i s .fall decoded specified
      rw [transfer_next moved (.inl rfl),
        branch_exec quiet _ written emitted decoded valid (by rw [m]; rfl),
        Emitter.exec_bcctr_switch quiet _ (em.enter fn) _ m unlinked (address ▸ table)] at stands
      obtain ⟨s'', left | ⟨t, listed, inside, equal, gone⟩⟩ := switch_leaves quiet (fun _ s => s)
        (em.enter fn) (· ∈ Emitter.addrs fn) targets i.addr (c.enter quiet (fun _ s => s) s)
      · rw [left] at stands
        cases stands
      · rw [gone] at stands
        have lands := switch_label written emitted decoded valid m table listed
          (of_decide_eq_true inside)
        have same : t = c.addr + 4 := Option.some.inj (lands.symm.trans stands.2.2)
        rw [same, same_ctr] at equal
        have equal := congrArg BitVec.toNat equal
        simp only [s, stateWith, BitVec.toNat_ofNat] at equal
        omega

end Layout

theorem laidOut_of_simulates {em : Emitter} {fn : Ppc.Function} {dol : Dol}
    (image : FromImage em dol) (simulates : Simulates em fn) : LaidOut em fn := by
  obtain ⟨body, written, start, all⟩ := simulates
  obtain ⟨follows, _⟩ := all Unit quiet (fun _ s => s)
  constructor
  · intro a inside
    obtain ⟨c, emitted, rfl⟩ := chunk_at written inside
    obtain ⟨i, decoded⟩ := code_at written emitted
    exact Option.isSome_iff_exists.mpr ⟨i, decoded⟩
  · rw [← body_addrs written, List.head?_map]
    exact start
  · intro a inside i decoded on
    obtain ⟨c, emitted, rfl⟩ := chunk_at written inside
    exact falls_of_follows image written follows emitted decoded on
  · intro a inside i decoded valid m unlinked resolved ignores_ctr
    obtain ⟨c, emitted, rfl⟩ := chunk_at written inside
    exact switches_of_follows image written follows emitted decoded valid m unlinked resolved
      ignores_ctr

theorem simulates_iff {em : Emitter} {fn : Ppc.Function} {dol : Dol}
    (image : FromImage em dol) : Simulates em fn ↔ LaidOut em fn :=
  ⟨laidOut_of_simulates image, simulates_of_laidOut image⟩

theorem ofDol_fromImage (dol : Dol) (functions hooks savepoints traces : Nat → Bool) :
    FromImage (Emitter.ofDol dol functions hooks savepoints traces) dol where
  view := rfl
  words a targets resolved t member := by
    obtain ⟨table, found, rfl⟩ := Option.map_eq_some_iff.mp resolved
    exact table_targets_lt (List.mem_of_find?_eq_some found) member

theorem function_c_simulates (dol : Dol) (functions hooks savepoints traces : Nat → Bool)
    (fn : Ppc.Function) :
    Simulates (Emitter.ofDol dol functions hooks savepoints traces) fn ↔
      LaidOut (Emitter.ofDol dol functions hooks savepoints traces) fn :=
  simulates_iff (ofDol_fromImage dol functions hooks savepoints traces)

/-- A program whose entry, `li r3, 1`, goes on to a `blr` placed below it. -/
def shared_return : Dol where
  sections := [{ file_offset := 256, address := 0x80003100, size := 12, is_text := true }]
  entry_point := 0x80003104
  data := List.replicate 256 0 ++
    [0x4E, 0x80, 0x00, 0x20, 0x38, 0x60, 0x00, 0x01, 0x4B, 0xFF, 0xFF, 0xF8]

/-- The body of `shared_return`'s entry starts at the `blr`. -/
theorem shared_return_not_simulated :
    ¬ ∀ (dol : Dol) (functions hooks savepoints traces seeds : Nat → Bool) (entry max_insns : Nat),
      Simulates (Emitter.ofDol dol functions hooks savepoints traces)
        (_walk dol entry seeds (find_jump_tables dol) max_insns) := by
  intro claim
  have simulates := claim shared_return (fun _ => false) (fun _ => false) (fun _ => false)
    (fun _ => false) (fun _ => false) 0x80003104 200000
  have laid := laidOut_of_simulates (ofDol_fromImage ..) simulates
  have lowest : (Emitter.addrs (_walk shared_return 0x80003104 (fun _ => false)
      (find_jump_tables shared_return) 200000)).head? = some 0x80003100 := by decide
  have entry := laid.entry
  rw [lowest] at entry
  exact absurd entry (by decide)

end SoaPort.Recomp
