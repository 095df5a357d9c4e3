import SoaPort.Ppc.Build

namespace SoaPort.Ppc

/-! A walk claims the entry it starts from. -/

namespace BasicBlock

theorem mem_words {b : BasicBlock} {a : Nat} :
    a ∈ b.words ↔ b.start ≤ a ∧ a < b.end ∧ (a - b.start) % 4 = 0 := by
  unfold words
  rw [List.mem_range']
  constructor
  · rintro ⟨k, inside, rfl⟩
    omega
  · rintro ⟨low, high, aligned⟩
    exact ⟨(a - b.start) / 4, by omega, by omega⟩

/-- A block that has words has its start. -/
theorem start_mem_words {b : BasicBlock} {a : Nat} (member : a ∈ b.words) :
    b.start ∈ b.words := by
  obtain ⟨low, high, _⟩ := mem_words.mp member
  exact mem_words.mpr ⟨le_rfl, lt_of_le_of_lt low high, by simp⟩

end BasicBlock

namespace Function

variable {fn : Function} {b c : BasicBlock}

@[simp] theorem set_block_entry (fn : Function) (b : BasicBlock) :
    (fn.set_block b).entry = fn.entry := by
  unfold set_block
  split <;> rfl

theorem mem_set_block (fn : Function) (b : BasicBlock) : b ∈ (fn.set_block b).blocks := by
  unfold set_block
  split
  · rename_i found
    obtain ⟨c, member, same⟩ := List.any_eq_true.mp found
    exact List.mem_map.mpr ⟨c, member, if_pos (of_decide_eq_true same)⟩
  · exact List.mem_append_right _ (List.mem_singleton_self b)

theorem set_block_keeps (member : c ∈ fn.blocks) (other : c.start ≠ b.start) :
    c ∈ (fn.set_block b).blocks := by
  unfold set_block
  split
  · exact List.mem_map.mpr ⟨c, member, if_neg other⟩
  · exact List.mem_append_left _ member

theorem claims_iff {a : Nat} : fn.claims a = true ↔ ∃ b ∈ fn.blocks, a ∈ b.words := by
  simp [claims]

end Function

section Walk

variable (dol : Dol) (entry : Nat) (seeds : Nat → Bool) (tables : List JumpTable)

/-- What the end of a block leaves alone. -/
structure Extends (r r' : Scan) : Prop where
  addr : r'.addr = r.addr
  entry : r'.fn.entry = r.fn.entry
  blocks : r'.fn.blocks = r.fn.blocks
  start : r'.block.start = r.block.start

theorem fall_on_extends (insn : Insn) {r r' : Scan} (so_far : Extends r r') :
    Extends r (fall_on insn r') := by
  unfold fall_on
  split
  · exact so_far
  · exact ⟨so_far.addr, so_far.entry, so_far.blocks, so_far.start⟩

theorem end_block_extends (insn : Insn) (r : Scan) :
    Extends r (end_block dol entry seeds tables insn r) := by
  unfold end_block
  dsimp only
  split
  · exact fall_on_extends insn ⟨rfl, rfl, rfl, rfl⟩
  · split <;> exact fall_on_extends insn ⟨rfl, rfl, rfl, rfl⟩
  · split
    · split
      · exact fall_on_extends insn ⟨rfl, rfl, rfl, rfl⟩
      · split <;> exact fall_on_extends insn ⟨rfl, rfl, rfl, rfl⟩
    · exact fall_on_extends insn ⟨rfl, rfl, rfl, rfl⟩

theorem note_call_keeps (insn : Insn) (fn : Function) :
    (note_call insn fn).entry = fn.entry ∧ (note_call insn fn).blocks = fn.blocks := by
  unfold note_call
  split
  · exact ⟨rfl, rfl⟩
  · split <;> exact ⟨rfl, rfl⟩

/-- What the scan of a block leaves alone, and how far it goes. -/
structure Scanned (addr : Nat) (fn : Function) (block : BasicBlock) (r : Scan) : Prop where
  forward : addr ≤ r.addr
  entry : r.fn.entry = fn.entry
  blocks : r.fn.blocks = fn.blocks
  start : r.block.start = block.start

theorem walk_block_scanned (seen : Nat → Bool) (budget addr : Nat) (fn : Function)
    (block : BasicBlock) :
    Scanned addr fn block (walk_block dol entry seeds tables seen budget addr fn block) := by
  induction budget generalizing addr fn with
  | zero => exact ⟨le_rfl, rfl, rfl, rfl⟩
  | succ budget ih =>
      rw [walk_block]
      cases CodeView.valid dol addr with
      | none => exact ⟨le_rfl, rfl, rfl, rfl⟩
      | some insn =>
          dsimp only
          generalize marked : (if block.start = entry ∧ opens_frame insn = true then
            { fn with has_frame := true } else fn) = fn'
          have same : fn'.entry = fn.entry ∧ fn'.blocks = fn.blocks := by
            rw [← marked]
            split <;> exact ⟨rfl, rfl⟩
          split
          · exact ⟨Nat.le_add_right _ _, same.1, same.2, rfl⟩
          · split
            · split
              · exact ⟨Nat.le_add_right _ _, same.1, same.2, rfl⟩
              · have rest := ih (addr + 4) fn'
                exact ⟨le_trans (Nat.le_add_right _ _) rest.forward, rest.entry.trans same.1,
                  rest.blocks.trans same.2, rest.start⟩
            · split
              · have rest := ih (addr + 4) (note_call insn fn')
                obtain ⟨kept_entry, kept_blocks⟩ := note_call_keeps insn fn'
                exact ⟨le_trans (Nat.le_add_right _ _) rest.forward,
                  rest.entry.trans (kept_entry.trans same.1),
                  rest.blocks.trans (kept_blocks.trans same.2), rest.start⟩
              · have rest := end_block_extends dol entry seeds tables insn
                  { addr := addr + 4, budget, fn := fn', block }
                refine ⟨?_, rest.entry.trans same.1, rest.blocks.trans same.2, rest.start⟩
                rw [rest.addr]
                exact Nat.le_add_right _ _

/-- The scan passes a valid first instruction. -/
theorem walk_block_passes (seen : Nat → Bool) (budget addr : Nat) (fn : Function)
    (block : BasicBlock) {insn : Insn} (valid : CodeView.valid dol addr = some insn) :
    addr < (walk_block dol entry seeds tables seen (budget + 1) addr fn block).addr := by
  rw [walk_block, valid]
  dsimp only
  split
  · exact Nat.lt_add_of_pos_right (by decide)
  · split
    · split
      · exact Nat.lt_add_of_pos_right (by decide)
      · exact lt_of_lt_of_le (Nat.lt_add_of_pos_right (by decide))
          (walk_block_scanned dol entry seeds tables seen budget (addr + 4) _ block).forward
    · split
      · exact lt_of_lt_of_le (Nat.lt_add_of_pos_right (by decide))
          (walk_block_scanned dol entry seeds tables seen budget (addr + 4) _ block).forward
      · rw [(end_block_extends dol entry seeds tables insn _).addr]
        exact Nat.lt_add_of_pos_right (by decide)

/-- The entry's block is there, and no later block takes its place. -/
structure Rooted (s : WalkState) : Prop where
  named : s.fn.entry = entry
  seen : entry ∈ s.seen
  block : ∃ b ∈ s.fn.blocks, b.start = entry ∧ entry ∈ b.words

theorem walk_step_rooted (s s' : WalkState) (rooted : Rooted entry s)
    (step : walk_step dol entry seeds tables s = some s') : Rooted entry s' := by
  unfold walk_step at step
  split at step
  · cases step
  · rename_i start pending _
    split at step
    · cases step
      exact ⟨rooted.named, rooted.seen, rooted.block⟩
    · rename_i fresh
      cases step
      have scanned := walk_block_scanned dol entry seeds tables
        (fun a => decide (a ∈ start :: s.seen)) s.budget start s.fn { start }
      obtain ⟨b, member, at_entry, inside⟩ := rooted.block
      have other : start ≠ entry := by
        rintro rfl
        exact fresh (.inl rooted.seen)
      refine ⟨?_, List.mem_cons_of_mem _ rooted.seen, b, ?_, at_entry, inside⟩
      · exact (Function.set_block_entry _ _).trans (scanned.entry.trans rooted.named)
      · apply Function.set_block_keeps
        · rw [scanned.blocks]
          exact member
        · rw [at_entry, scanned.start]
          exact fun same => other same.symm

theorem walk_entry (max_insns : Nat) : (_walk dol entry seeds tables max_insns).entry = entry := by
  refine Lib.whileSome_invariant (fun s : WalkState => s.fn.entry = entry) ?_ _ rfl
  intro s s' same step
  unfold walk_step at step
  split at step
  · cases step
  · split at step
    · cases step
      exact same
    · cases step
      exact (Function.set_block_entry _ _).trans
        ((walk_block_scanned dol entry seeds tables _ _ _ _ _).entry.trans same)

theorem walk_step_start (max_insns : Nat) {insn : Insn}
    (valid : CodeView.valid dol entry = some insn) :
    ∃ s, walk_step dol entry seeds tables
      { pending := [entry], seen := [], budget := max_insns + 1, fn := { entry := entry } } =
        some s ∧ Rooted entry s := by
  have contained := CodeView.contains_of_valid valid
  have scanned := walk_block_scanned dol entry seeds tables (fun a => decide (a ∈ [entry]))
    (max_insns + 1) entry { entry := entry } { start := entry }
  have passed := walk_block_passes dol entry seeds tables (fun a => decide (a ∈ [entry]))
    max_insns entry { entry := entry } { start := entry } valid
  unfold walk_step
  dsimp only
  rw [if_neg (by simp [contained])]
  refine ⟨_, rfl, ?_, List.mem_singleton_self entry, _, Function.mem_set_block _ _,
    scanned.start, ?_⟩
  · exact (Function.set_block_entry _ _).trans scanned.entry
  · refine BasicBlock.mem_words.mpr ⟨le_of_eq scanned.start, passed, ?_⟩
    have start := scanned.start
    dsimp only at start ⊢
    rw [start, Nat.sub_self]

theorem walk_claims_entry (max_insns : Nat) {insn : Insn}
    (valid : CodeView.valid dol entry = some insn) :
    (_walk dol entry seeds tables (max_insns + 1)).claims entry = true := by
  obtain ⟨s, step, rooted⟩ := walk_step_start dol entry seeds tables max_insns valid
  have final : Rooted entry (Lib.whileSome (walk_step dol entry seeds tables)
      (walk_fuel dol tables)
      { pending := [entry], seen := [], budget := max_insns + 1, fn := { entry := entry } }) := by
    rw [walk_fuel, Lib.whileSome, step]
    exact Lib.whileSome_invariant (Rooted entry) (walk_step_rooted dol entry seeds tables) _ rooted
  obtain ⟨b, member, _, inside⟩ := final.block
  exact Function.claims_iff.mpr ⟨b, member, inside⟩

end Walk

end SoaPort.Ppc
