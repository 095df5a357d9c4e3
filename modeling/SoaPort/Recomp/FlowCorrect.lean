import SoaPort.Recomp.FlowExec

namespace SoaPort.Recomp

open SoaPort.Ppc

/-! A laid-out function's body follows the guest. -/

section Body

variable {em : Emitter} {fn : Ppc.Function} {body : List Chunk}
  (written : em.function_c fn = some body)

include written

theorem body_addrs : body.map (·.addr) = Emitter.addrs fn :=
  Emitter.chunks_addrs written

theorem body_ascending : Ascending body := by
  unfold Ascending
  rw [body_addrs written]
  exact Emitter.addrs_sorted fn

theorem emitted_addr {c : Chunk} (emitted : c ∈ body) : c.addr ∈ Emitter.addrs fn := by
  rw [← body_addrs written]
  exact List.mem_map.mpr ⟨c, emitted, rfl⟩

theorem chunk_at {a : Nat} (inside : a ∈ Emitter.addrs fn) : ∃ c ∈ body, c.addr = a := by
  rw [← body_addrs written] at inside
  exact List.mem_map.mp inside

theorem chunk_made {c : Chunk} (emitted : c ∈ body) :
    (em.enter fn).chunk (· ∈ Emitter.addrs fn) (· ∈ (em.enter fn).labels fn) c.addr = some c :=
  Emitter.chunk_of_mem written emitted

theorem head_plain {c : Chunk} (emitted : c ∈ body) : c.head.all Stmt.plain = true :=
  Emitter.chunk_head_plain _ _ (chunk_made written emitted)

theorem body_translate {c : Chunk} (emitted : c ∈ body) {i : Insn}
    (decoded : em.code c.addr = some i) :
    c.body = (em.enter fn)._translate i (· ∈ Emitter.addrs fn) := by
  have made := chunk_made written emitted
  rw [Emitter.chunk, show (em.enter fn).code c.addr = some i from decoded] at made
  exact (congrArg Chunk.body (Option.some.inj made)).symm

theorem labelled_eq {c : Chunk} (emitted : c ∈ body) :
    c.labelled = decide (c.addr ∈ (em.enter fn).labels fn) := by
  obtain ⟨i, _, same⟩ := Option.map_eq_some_iff.mp (chunk_made written emitted)
  exact (congrArg Chunk.labelled same).symm

/-- A goto to an emitted address that some instruction labels lands there. -/
theorem goto_lands {a t : Nat} (source : a ∈ Emitter.addrs fn)
    (asked : t ∈ em.branch_labels (· ∈ Emitter.addrs fn) a) (inside : t ∈ Emitter.addrs fn) :
    (goto_label body t).head?.map (·.addr) = some t := by
  obtain ⟨c, emitted, address⟩ := chunk_at written inside
  have listed : c.addr ∈ (em.enter fn).labels fn := by
    rw [address]
    exact List.mem_append_right _ (List.mem_flatMap.mpr ⟨a, source, asked⟩)
  have labelled : c.labelled = true := by
    rw [labelled_eq written emitted]
    exact decide_eq_true listed
  obtain ⟨first, rest, landed, here⟩ := goto_label_head emitted labelled address
  rw [landed]
  exact congrArg some here

end Body

section Step

variable {ρ : Type} (rt : Runtime ρ) (fc : FloatCode ρ) {em : Emitter} {fn : Ppc.Function}
  {body : List Chunk} {dol : Dol}

theorem resume_done (place : List Chunk) (s : CpuState ρ) :
    Stands body none s (resume body place (s, .ret)) := rfl

/-- Falling out of a chunk reaches the next address when that is emitted: all
emitted addresses are multiples of four. -/
theorem fall_lands (view : em.code = CodeView.get dol) (laid : LaidOut em fn)
    (written : em.function_c fn = some body) {c : Chunk} {place : List Chunk}
    (here : c :: place <:+ body) (next : c.addr + 4 ∈ Emitter.addrs fn) (s : CpuState ρ) :
    Stands body (some (c.addr + 4)) s (resume body place (s, .next)) := by
  have aligned : ∀ e ∈ body, e.addr % 4 = 0 := by
    intro e emitted
    have known := laid.decoded e.addr (emitted_addr written emitted)
    obtain ⟨i, found⟩ := Option.isSome_iff_exists.mp known
    rw [view] at found
    exact (CodeView.get_spec found).1
  have emitted : c ∈ body := here.subset List.mem_cons_self
  obtain ⟨d, member, address⟩ := chunk_at written next
  obtain ⟨rest, same⟩ := next_place (body_ascending written) here member (by omega) (by
    intro e other above
    have := aligned c emitted
    have := aligned e other
    omega)
  subst same
  refine ⟨rfl, ?_, ?_⟩
  · exact (List.suffix_cons c _).trans here
  · exact congrArg some address

theorem goto_stands {t : Nat} (lands : (goto_label body t).head?.map (·.addr) = some t)
    (place : List Chunk) (s : CpuState ρ) :
    Stands body (some t) s (resume body place (s, .goto t)) :=
  ⟨rfl, goto_label_suffix body t, lands⟩

/-- A call returns to the next address. -/
theorem call_follows {c : Chunk} {place : List Chunk} (target : Nat) (s : CpuState ρ)
    (falls : ∀ s' : CpuState ρ, Stands body (some (c.addr + 4)) s' (resume body place (s', .next))) :
    ∃ next s', Transfer rt em fn c.addr s (.call target) next s' ∧
      Stands body next s' (resume body place
        (execSimples rt fc 0 ((em.enter fn)._call target (c.addr + 4)) s)) := by
  rw [Emitter.exec_call, show (em.enter fn).functions = em.functions from rfl]
  cases known : em.functions target with
  | true => exact ⟨_, _, .call known, falls _⟩
  | false => exact ⟨_, _, .call_unknown known, falls _⟩

/-- A jump lands on its label, or leaves the function. -/
theorem jump_follows {c : Chunk} {place : List Chunk} (target : Nat) (s : CpuState ρ)
    (lands : target ∈ Emitter.addrs fn →
      (goto_label body target).head?.map (·.addr) = some target) :
    ∃ next s', Transfer rt em fn c.addr s (.jump target) next s' ∧
      Stands body next s' (resume body place
        (execSimples rt fc 0
          ((em.enter fn)._jump target (· ∈ Emitter.addrs fn) c.addr) s)) := by
  by_cases inside : target ∈ Emitter.addrs fn
  · rw [Emitter.exec_jump_inside rt fc (em.enter fn) _ _ _ (decide_eq_true inside)]
    split
    · exact ⟨_, _, .goto_polled inside, goto_stands (lands inside) place _⟩
    · exact ⟨_, _, .goto inside, goto_stands (lands inside) place _⟩
  · rw [Emitter.exec_jump_outside rt fc (em.enter fn) _ _ _ (decide_eq_false inside),
      show (em.enter fn).functions = em.functions from rfl]
    cases known : em.functions target with
    | true => exact ⟨_, _, .tail_call inside known, resume_done place _⟩
    | false => exact ⟨_, _, .trap inside known, resume_done place _⟩

end Step

section Branches

variable {ρ : Type} (rt : Runtime ρ) (fc : FloatCode ρ) {em : Emitter} {fn : Ppc.Function}
  {body : List Chunk} {c : Chunk} {place : List Chunk} {i : Insn}

theorem translate_transfer (em : Emitter) (addr_set : Nat → Bool) {i : Insn}
    (valid : i.valid = true) (transfer : Emitter.transfers i.mnemonic = true) :
    em._translate i addr_set = em._translate_branch i addr_set := by
  unfold Emitter._translate
  rw [if_neg (not_not.mpr valid)]
  unfold Emitter.transfers at transfer
  split at transfer
  · rename_i m
    simp only [m]
  · rename_i m
    simp only [m]
  · rename_i m
    simp only [m]
  · rename_i m
    simp only [m]
  · rename_i m
    simp only [m]
  · cases transfer

/-- Where a direct branch goes, its target labelled when it is emitted. -/
theorem direct_label (written : em.function_c fn = some body) (emitted : c ∈ body)
    (decoded : em.code c.addr = some i) (valid : i.valid = true)
    (direct : i.is_direct_branch = true) (unlinked : i.lk_bit = false)
    (inside : i.target.getD 0 ∈ Emitter.addrs fn) :
    (goto_label body (i.target.getD 0)).head?.map (·.addr) = some (i.target.getD 0) := by
  have known : i.target = some (i.target.getD 0) := by
    have form : (i.mnemonic = .b || i.mnemonic = .bc) = true := direct
    unfold Insn.target
    rw [if_pos form]
    rfl
  apply goto_lands written (emitted_addr written emitted) _ inside
  unfold Emitter.branch_labels
  rw [decoded]
  refine List.mem_append_left _ ?_
  rw [if_pos (by simp [valid, direct, unlinked])]
  refine List.mem_filter.mpr ⟨?_, decide_eq_true inside⟩
  rw [Option.mem_toList]
  exact known

/-- A resolved switch labels its targets. -/
theorem switch_label (written : em.function_c fn = some body) (emitted : c ∈ body)
    (decoded : em.code c.addr = some i) (valid : i.valid = true) (bcctr : i.mnemonic = .bcctr)
    {targets : List Nat} (resolved : em.tables c.addr = some targets) {t : Nat}
    (listed : t ∈ targets) (inside : t ∈ Emitter.addrs fn) :
    (goto_label body t).head?.map (·.addr) = some t := by
  apply goto_lands written (emitted_addr written emitted) _ inside
  unfold Emitter.branch_labels
  rw [decoded]
  refine List.mem_append_right _ ?_
  rw [if_pos (by simp [valid, bcctr]), resolved]
  exact List.mem_filter.mpr ⟨listed, decide_eq_true inside⟩

/-- The direct transfer of `b` and `bc`. -/
theorem direct_follows (target : Nat) (lk : Bool) (s : CpuState ρ)
    (falls : lk = true → ∀ s' : CpuState ρ,
      Stands body (some (c.addr + 4)) s' (resume body place (s', .next)))
    (lands : lk = false → target ∈ Emitter.addrs fn →
      (goto_label body target).head?.map (·.addr) = some target) :
    ∃ next s', Transfer rt em fn c.addr s (if lk then .call target else .jump target) next s' ∧
      Stands body next s' (resume body place
        (execSimples rt fc 0
          (if lk then (em.enter fn)._call target (c.addr + 4)
            else (em.enter fn)._jump target (· ∈ Emitter.addrs fn) c.addr) s)) := by
  cases lk with
  | true => exact call_follows rt fc target s (falls rfl)
  | false => exact jump_follows rt fc target s (lands rfl)

/-- The switch of a resolved `bctr` reaches the target that CTR equals. -/
theorem switch_follows (targets : List Nat) (bounded : ∀ t ∈ targets, t < 2 ^ 32)
    (s : CpuState ρ) (listed : s.ctr.toNat ∈ targets) (lands : ∀ t ∈ targets, t ∈ Emitter.addrs fn →
      (goto_label body t).head?.map (·.addr) = some t) :
    ∃ next s', Transfer rt em fn c.addr s (.jump s.ctr.toNat) next s' ∧
      Stands body next s' (resume body place
        ((Stmt.switch_ctr ((targets.dedup.insertionSort (· ≤ ·)).map
            fun t => (t, (em.enter fn)._jump t (· ∈ Emitter.addrs fn) c.addr))
          [.guest_trap c.addr, .ret]).exec rt fc s)) := by
  have selected : ((targets.dedup.insertionSort (· ≤ ·)).map
      fun t => (t, (em.enter fn)._jump t (· ∈ Emitter.addrs fn) c.addr)).find?
        (fun case => BitVec.ofNat 32 case.1 = s.ctr) =
      some (s.ctr.toNat, (em.enter fn)._jump s.ctr.toNat (· ∈ Emitter.addrs fn) c.addr) := by
    rw [List.find?_map, Option.map_eq_some_iff]
    refine ⟨s.ctr.toNat, ?_, rfl⟩
    have sorted_mem (t : Nat) : t ∈ targets.dedup.insertionSort (· ≤ ·) ↔ t ∈ targets := by
      rw [List.mem_insertionSort, List.mem_dedup]
    cases found : (targets.dedup.insertionSort (· ≤ ·)).find?
        ((fun case : Nat × List Simple => decide (BitVec.ofNat 32 case.1 = s.ctr)) ∘
          fun t => (t, (em.enter fn)._jump t (· ∈ Emitter.addrs fn) c.addr)) with
    | none =>
        have passed := List.find?_eq_none.mp found s.ctr.toNat ((sorted_mem _).mpr listed)
        simp at passed
    | some t =>
        have equal : BitVec.ofNat 32 t = s.ctr := by simpa using List.find?_some found
        have small := bounded t ((sorted_mem t).mp (List.mem_of_find?_eq_some found))
        rw [← equal, BitVec.toNat_ofNat, Nat.mod_eq_of_lt small]
  rw [Stmt.exec, selected]
  exact jump_follows rt fc s.ctr.toNat s (lands _ listed)

/-- What the emitter knows of the program comes from its image. -/
structure FromImage (em : Emitter) (dol : Dol) : Prop where
  view : em.code = CodeView.get dol
  words : ∀ a targets, em.tables a = some targets → ∀ t ∈ targets, t < 2 ^ 32

theorem branch_exec (written : em.function_c fn = some body) (emitted : c ∈ body)
    (decoded : em.code c.addr = some i) (valid : i.valid = true)
    (transfer : Emitter.transfers i.mnemonic = true) (s : CpuState ρ) :
    c_step rt fc body (c :: place) s =
      resume body place (execStmts rt fc
        ((em.enter fn)._translate_branch i (· ∈ Emitter.addrs fn)) (c.enter rt fc s)) := by
  rw [c_step, execStmts_append rt fc (head_plain written emitted),
    body_translate written emitted decoded, translate_transfer _ _ valid transfer]
  rfl

/-! An instruction that is no branch passes control on. -/

theorem transfers_cases {m : Mnemonic} (transfer : Emitter.transfers m = true) :
    m = .b ∨ m = .bc ∨ m = .bclr ∨ m = .bcctr ∨ m = .rfi := by
  unfold Emitter.transfers at transfer
  split at transfer <;> first | decide | cases transfer

theorem control_plain (tables : Nat → Option (List Nat)) (valid : i.valid = true)
    (other : Emitter.transfers i.mnemonic = false) (s : CpuState ρ) :
    Guest.control tables i s = some .fall := by
  unfold Guest.control
  dsimp only
  rw [if_neg (not_not.mpr valid)]
  unfold Emitter.transfers at other
  split <;> first | rfl | (rename_i m; rw [m] at other; cases other)

theorem effect_plain (other : Emitter.transfers i.mnemonic = false) (s : CpuState ρ) :
    effect rt fc em fn i s =
      (execStmts rt fc ((em.enter fn)._translate i (· ∈ Emitter.addrs fn)) s).1 := by
  unfold effect
  unfold Emitter.transfers at other
  split <;> first | rfl | (rename_i m; rw [m] at other; cases other)

theorem falls_on_plain (valid : i.valid = true) (other : Emitter.transfers i.mnemonic = false) :
    falls_on i = true := by
  unfold falls_on
  rw [valid, Bool.true_and]
  unfold Emitter.transfers at other
  split <;> first | rfl | (rename_i m; rw [m] at other; cases other)

/-- A branch whose BO ignores both CTR and the condition is always taken. -/
theorem taken_of_unconditional (other : i.mnemonic ≠ .b) (always : i.is_unconditional = true)
    (s : CpuState ρ) : Guest.taken i.bo i.bi s = true := by
  unfold Insn.is_unconditional at always
  rw [if_neg other, Bool.and_eq_true, decide_eq_true_eq] at always
  have ignores_ctr : i.bo.testBit 2 = true := by
    have bit := congrArg (Nat.testBit · 2) always.2
    simpa [Nat.testBit_and, show Nat.testBit 20 2 = true from rfl] using bit
  have ignores_cr : i.bo.testBit 4 = true := by
    have bit := congrArg (Nat.testBit · 4) always.2
    simpa [Nat.testBit_and, show Nat.testBit 20 4 = true from rfl] using bit
  simp [Guest.taken, Guest.boBit, ignores_ctr, ignores_cr]

theorem falls_on_untaken (valid : i.valid = true) (m : i.mnemonic = .bc ∨ i.mnemonic = .bclr)
    {s : CpuState ρ} (untaken : ¬ Guest.taken i.bo i.bi s = true) : falls_on i = true := by
  have conditional : i.is_unconditional = false := by
    cases always : i.is_unconditional with
    | false => rfl
    | true =>
        have other : i.mnemonic ≠ .b := by rcases m with m | m <;> rw [m] <;> decide
        exact (untaken (taken_of_unconditional other always s)).elim
  rcases m with m | m <;> simp [falls_on, valid, m, conditional]

theorem bcctr_follows {dol : Dol} (image : FromImage em dol) (laid : LaidOut em fn)
    (written : em.function_c fn = some body) (emitted : c ∈ body)
    (decoded : em.code c.addr = some i) (valid : i.valid = true) (m : i.mnemonic = .bcctr)
    (ignores_ctr : Guest.boBit i.bo 2 = true)
    (falls : falls_on i = true → ∀ s' : CpuState ρ,
      Stands body (some (c.addr + 4)) s' (resume body place (s', .next)))
    (s : CpuState ρ) {ctl : Control}
    (specified : (if ¬ Guest.taken i.bo i.bi s then some .fall
        else if i.lk_bit then some (.call_at s.ctr)
        else if s.ctr.toNat ∈ (em.tables i.addr).getD [] then some (.jump s.ctr.toNat)
        else none) = some ctl) :
    ∃ next s', Transfer rt em fn c.addr (effect rt fc em fn i s) ctl next s' ∧
      Stands body next s' (resume body place (execStmts rt fc
        ((em.enter fn)._translate_branch i (· ∈ Emitter.addrs fn)) s)) := by
  obtain ⟨_, address, bi_lt⟩ := CodeView.get_spec (image.view ▸ decoded)
  cases linked : i.lk_bit with
  | true =>
      have on : falls_on i = true := by simp [falls_on, valid, m, ignores_ctr, linked]
      rw [Emitter.exec_bcctr_link rt fc _ _ m linked bi_lt, address]
      simp only [effect, m, linked, Bool.true_or, if_true] at specified ⊢
      cases taken : Guest.taken i.bo i.bi s with
      | true =>
          simp only [taken, not_true_eq_false, if_false, Option.some.injEq] at specified
          subst specified
          exact ⟨_, _, .call_at, falls on _⟩
      | false =>
          simp only [taken] at specified
          cases specified
          exact ⟨_, _, .fall, falls on _⟩
  | false =>
      cases resolved : em.tables i.addr with
      | none =>
          rw [Emitter.exec_bcctr_unresolved rt fc (em.enter fn) _ m linked resolved]
          rw [address] at resolved
          simp only [effect, m, linked, address, resolved, Option.isSome_none, Bool.or_false,
            Bool.false_eq_true, Option.getD_none, List.not_mem_nil, if_false] at specified ⊢
          cases taken : Guest.taken i.bo i.bi s with
          | true => simp [taken] at specified
          | false =>
              have conditional : Guest.boBit i.bo 0 = false := by
                cases ignores_cr : Guest.boBit i.bo 0 with
                | false => rfl
                | true => simp [Guest.taken, ignores_ctr, ignores_cr] at taken
              simp only [taken, Bool.false_eq_true, not_false_eq_true, if_true,
                Option.some.injEq] at specified
              subst specified
              exact ⟨_, _, .fall,
                falls (by simp [falls_on, valid, m, ignores_ctr, conditional]) _⟩
      | some targets =>
          rw [address] at resolved
          have always := laid.switches c.addr (emitted_addr written emitted) i decoded valid m
            linked (by simp [resolved]) ignores_ctr
          have taken : Guest.taken i.bo i.bi s = true := by
            simp [Guest.taken, ignores_ctr, always]
          rw [Emitter.exec_bcctr_switch rt fc (em.enter fn) _ m linked (address ▸ resolved),
            address]
          simp only [effect, m, linked, address, resolved, taken, Option.isSome_some,
            Bool.or_true, Option.getD_some, not_true_eq_false, Bool.false_eq_true, if_true,
            if_false] at specified ⊢
          split at specified
          · rename_i listed
            cases specified
            exact switch_follows rt fc targets (image.words c.addr targets resolved) s listed
              fun t member => switch_label written emitted decoded valid m resolved member
          · cases specified

theorem chunk_follows {dol : Dol} (image : FromImage em dol) (laid : LaidOut em fn)
    (written : em.function_c fn = some body) : StepFollows rt fc em fn body := by
  intro c place here i s ctl decoded specified
  have emitted : c ∈ body := here.subset List.mem_cons_self
  have inside : c.addr ∈ Emitter.addrs fn := emitted_addr written emitted
  obtain ⟨_, address, bi_lt⟩ := CodeView.get_spec (image.view ▸ decoded)
  have valid : i.valid = true := by
    by_contra invalid
    simp [Guest.control, invalid] at specified
  have falls (on : falls_on i = true) (s' : CpuState ρ) :
      Stands body (some (c.addr + 4)) s' (resume body place (s', .next)) :=
    fall_lands image.view laid written here (laid.falls c.addr inside i decoded on) s'
  cases transfer : Emitter.transfers i.mnemonic with
  | false =>
      rw [control_plain em.tables valid transfer] at specified
      cases specified
      rw [effect_plain rt fc transfer, c_step, execStmts_append rt fc (head_plain written emitted),
        body_translate written emitted decoded]
      have run := execStmts_plain rt fc
        (Emitter._translate_plain (em.enter fn) (· ∈ Emitter.addrs fn) i transfer)
        (c.enter rt fc s)
      refine ⟨_, _, .fall, ?_⟩
      change Stands body _ _ (resume body place (execStmts rt fc _ (c.enter rt fc s)))
      rw [run]
      exact falls (falls_on_plain valid transfer) _
  | true =>
      rw [branch_exec rt fc written emitted decoded valid transfer]
      generalize c.enter rt fc s = s₁ at specified ⊢
      rw [Guest.control, if_neg (not_not.mpr valid)] at specified
      have label (direct : i.is_direct_branch = true) (unlinked : i.lk_bit = false) :=
        direct_label written emitted decoded valid direct unlinked
      rcases transfers_cases transfer with m | m | m | m | m
      · simp only [m, Option.some.injEq] at specified
        subst specified
        rw [Emitter.exec_b rt fc _ _ m, address]
        simp only [effect, m]
        exact direct_follows rt fc (i.target.getD 0) i.lk_bit s₁
          (fun linked => falls (by simp [falls_on, valid, m, linked]))
          (label (by simp [Insn.is_direct_branch, m]))
      · simp only [m, Option.some.injEq] at specified
        subst specified
        rw [Emitter.exec_bc rt fc _ _ m bi_lt, address]
        simp only [effect, m]
        split
        · exact direct_follows rt fc (i.target.getD 0) i.lk_bit _
            (fun linked => falls (by simp [falls_on, valid, m, linked]))
            (label (by simp [Insn.is_direct_branch, m]))
        · rename_i untaken
          exact ⟨_, _, .fall, falls (falls_on_untaken valid (.inl m) untaken) _⟩
      · simp only [m, Option.some.injEq] at specified
        subst specified
        rw [Emitter.exec_bclr rt fc _ _ m bi_lt, address]
        simp only [effect, m]
        split
        · have saved (t : CpuState ρ) : (Guest.decrement i.bo t).lr = t.lr := by
            unfold Guest.decrement
            split <;> rfl
          cases linked : i.lk_bit with
          | true =>
              rw [← saved s₁]
              exact ⟨_, _, .call_at, falls (by simp [falls_on, valid, m, linked]) _⟩
          | false => exact ⟨_, _, .ret, resume_done place _⟩
        · rename_i untaken
          exact ⟨_, _, .fall, falls (falls_on_untaken valid (.inr m) untaken) _⟩
      · simp only [m] at specified
        split at specified
        · cases specified
        · rename_i ignores_ctr
          exact bcctr_follows rt fc image laid written emitted decoded valid m
            (by simpa using ignores_ctr) falls s₁ specified
      · simp only [m, Option.some.injEq] at specified
        subst specified
        simp only [effect, m, Emitter._translate_branch]
        exact ⟨_, _, .ret, resume_done place _⟩

end Branches

section Runs

variable {ρ : Type} {rt : Runtime ρ} {fc : FloatCode ρ} {em : Emitter} {fn : Ppc.Function}
  {body : List Chunk}

theorem code_at (written : em.function_c fn = some body) {c : Chunk} (emitted : c ∈ body) :
    ∃ i, em.code c.addr = some i := by
  have known : ((em.enter fn).code c.addr).isSome :=
    Emitter.code_of_chunk (chunk_made written emitted)
  exact Option.isSome_iff_exists.mp known

/-- A place that stands at an address begins with its chunk. -/
theorem stands_at {a : Nat} {s : CpuState ρ} {config : Config ρ}
    (stands : Stands body (some a) s config) :
    ∃ c place, config = .at (c :: place) s ∧ c :: place <:+ body ∧ c.addr = a := by
  cases config with
  | done s' => cases stands
  | «at» place s' =>
      obtain ⟨rfl, suffix, head⟩ := stands
      cases place with
      | nil => cases head
      | cons c place => exact ⟨c, place, rfl, suffix, Option.some.inj head⟩

theorem run_follows (follows : StepFollows rt fc em fn body)
    (written : em.function_c fn = some body)
    (start : body.head?.map (·.addr) = some fn.entry) (s₀ : CpuState ρ) (n : Nat) :
    RunFollows rt fc em fn body s₀ n := by
  induction n with
  | zero => exact .inl ⟨_, _, .start, rfl, List.suffix_rfl, start⟩
  | succ n ih =>
      rcases ih with ⟨next, s, run, stands⟩ | ⟨m, before, s, run, left⟩ | ⟨m, before, silent⟩
      · cases next with
        | none =>
            refine .inr (.inl ⟨n, n.lt_succ_self, s, run, ?_⟩)
            rw [c_run_succ]
            cases h : c_run rt fc body n (.at body s₀) with
            | «at» place s' =>
                rw [h] at stands
                cases stands
            | done s' =>
                rw [h] at stands
                exact congrArg Config.done stands
        | some a =>
            obtain ⟨c, place, config, suffix, rfl⟩ := stands_at stands
            have emitted : c ∈ body := suffix.subset List.mem_cons_self
            obtain ⟨i, decoded⟩ := code_at written emitted
            cases specified : Guest.control em.tables i (c.enter rt fc s) with
            | none =>
                exact .inr (.inr ⟨n, n.lt_succ_self, c, emitted, i, s, run, decoded, specified⟩)
            | some ctl =>
                obtain ⟨next, s', moved, onward⟩ := follows c place suffix i s ctl decoded specified
                refine .inl ⟨next, s', .step run emitted decoded specified moved, ?_⟩
                rw [c_run_succ, config]
                exact onward
      · refine .inr (.inl ⟨m, before.trans n.lt_succ_self, s, run, ?_⟩)
        rw [c_run_succ, left]
        rfl
      · exact .inr (.inr ⟨m, before.trans n.lt_succ_self, silent⟩)

end Runs

theorem simulates_of_laidOut {em : Emitter} {fn : Ppc.Function} {dol : Dol}
    (image : FromImage em dol) (laid : LaidOut em fn) : Simulates em fn := by
  obtain ⟨body, written⟩ : ∃ body, em.function_c fn = some body :=
    Emitter.chunks_isSome laid.decoded
  have start : body.head?.map (·.addr) = some fn.entry := by
    rw [← List.head?_map, body_addrs written, laid.entry]
  refine ⟨body, written, start, fun ρ rt fc => ?_⟩
  have follows := chunk_follows rt fc image laid written
  exact ⟨follows, run_follows follows written start⟩

end SoaPort.Recomp
