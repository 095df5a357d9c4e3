import SoaPort.Ppc.Gaps

namespace SoaPort.Ppc

/-! The loop that fills the holes: it ends, and where it ends every word that
can begin a function is claimed. -/

theorem claimed_iff {functions : List Function} {a : Nat} :
    claimed functions a = true ↔ ∃ f ∈ functions, ∃ b ∈ f.blocks, a ∈ b.words := by
  simp [claimed, Function.claims_iff]

section SetFunction

variable {functions : List Function} {f fn : Function}

theorem mem_set_function (functions : List Function) (fn : Function) :
    fn ∈ set_function functions fn := by
  unfold set_function
  split
  · rename_i found
    obtain ⟨g, member, same⟩ := List.any_eq_true.mp found
    exact List.mem_map.mpr ⟨g, member, if_pos (of_decide_eq_true same)⟩
  · exact List.mem_append_right _ (List.mem_singleton_self fn)

theorem set_function_keeps (member : f ∈ functions) (other : f.entry ≠ fn.entry) :
    f ∈ set_function functions fn := by
  unfold set_function
  split
  · exact List.mem_map.mpr ⟨f, member, if_neg other⟩
  · exact List.mem_append_left _ member

theorem function_at_some {entry : Nat} (found : function_at functions entry = some fn) :
    fn ∈ functions ∧ fn.entry = entry := by
  unfold function_at at found
  have named := List.find?_some found
  exact ⟨List.mem_of_find?_eq_some found, of_decide_eq_true named⟩

theorem mem_of_set_function (member : f ∈ set_function functions fn) :
    f = fn ∨ f ∈ functions := by
  unfold set_function at member
  split at member
  · obtain ⟨g, old, same⟩ := List.mem_map.mp member
    split at same
    · exact .inl same.symm
    · exact .inr (same ▸ old)
  · rcases List.mem_append.mp member with old | new
    · exact .inr old
    · exact .inl (List.mem_singleton.mp new)

theorem set_function_nodup (distinct : (functions.map (·.entry)).Nodup) (fn : Function) :
    ((set_function functions fn).map (·.entry)).Nodup := by
  unfold set_function
  split
  · have same : (functions.map fun g => if g.entry = fn.entry then fn else g).map (·.entry) =
        functions.map (·.entry) := by
      rw [List.map_map]
      apply List.map_congr_left
      intro g _
      simp only [Function.comp]
      split
      · rename_i equal
        exact equal.symm
      · rfl
    rw [same]
    exact distinct
  · rename_i absent
    rw [List.map_append, List.nodup_append]
    refine ⟨distinct, List.nodup_singleton _, ?_⟩
    rintro a old b new rfl
    obtain ⟨g, member, same⟩ := List.mem_map.mp old
    rw [List.map_singleton, List.mem_singleton] at new
    exact absent (List.any_eq_true.mpr ⟨g, member, decide_eq_true (same.trans new)⟩)

end SetFunction

section Walks

variable (dol : Dol) (k : Nat) (hard : List Nat)

theorem walk_from_entry (e : Nat) : (walk_from dol k hard e).entry = e :=
  walk_entry ..

/-- Walk each entry of a list and enter the results. -/
def enter_walks (functions : List Function) (entries : List Nat) : List Function :=
  entries.foldl (fun fns e => set_function fns (walk_from dol k hard e)) functions

theorem enter_walks_keeps {functions : List Function} {entries : List Nat} {f : Function}
    (member : f ∈ functions) (other : f.entry ∉ entries) :
    f ∈ enter_walks dol k hard functions entries := by
  induction entries generalizing functions with
  | nil => exact member
  | cons e rest ih =>
      rw [List.mem_cons, not_or] at other
      refine ih (set_function_keeps member ?_) other.2
      rw [walk_from_entry]
      exact other.1

theorem enter_walks_mem {functions : List Function} {entries : List Nat} {e : Nat}
    (member : e ∈ entries) :
    walk_from dol k hard e ∈ enter_walks dol k hard functions entries := by
  induction entries generalizing functions with
  | nil => cases member
  | cons e' rest ih =>
      by_cases again : e ∈ rest
      · exact ih again
      · have here : e = e' := (List.mem_cons.mp member).resolve_right again
        subst here
        change walk_from dol k hard e ∈
          enter_walks dol k hard (set_function functions (walk_from dol k hard e)) rest
        refine enter_walks_keeps dol k hard (mem_set_function _ _) ?_
        rw [walk_from_entry]
        exact again

theorem mem_of_enter_walks {functions : List Function} {entries : List Nat} {f : Function}
    (member : f ∈ enter_walks dol k hard functions entries) :
    f ∈ functions ∨ ∃ e ∈ entries, f = walk_from dol k hard e := by
  induction entries generalizing functions with
  | nil => exact .inl member
  | cons e rest ih =>
      rcases ih member with old | ⟨e', later, same⟩
      · rcases mem_of_set_function old with new | old
        · exact .inr ⟨e, List.mem_cons_self, new⟩
        · exact .inl old
      · exact .inr ⟨e', List.mem_cons_of_mem e later, same⟩

theorem enter_walks_nodup {functions : List Function}
    (distinct : (functions.map (·.entry)).Nodup) (entries : List Nat) :
    ((enter_walks dol k hard functions entries).map (·.entry)).Nodup := by
  induction entries generalizing functions with
  | nil => exact distinct
  | cons e rest ih => exact ih (set_function_nodup distinct _)

end Walks

/-- Each entry that holds an instruction is claimed by its own function. -/
def Entered (dol : Dol) (entries : List Nat) (functions : List Function) : Prop :=
  ∀ e ∈ entries, (CodeView.valid dol e).isSome →
    ∃ f ∈ functions, f.entry = e ∧ ∃ b ∈ f.blocks, e ∈ b.words

theorem walk_from_claims (dol : Dol) (k : Nat) (hard : List Nat) {e : Nat}
    (valid : (CodeView.valid dol e).isSome) :
    ∃ b ∈ (walk_from dol (k + 1) hard e).blocks, e ∈ b.words := by
  obtain ⟨insn, found⟩ := Option.isSome_iff_exists.mp valid
  exact Function.claims_iff.mp (walk_claims_entry dol e _ _ k found)

/-! One pass. -/

/-- The functions with dead holes added: no block that had words is gone. -/
structure Absorbs (functions functions' : List Function) : Prop where
  entries : functions'.map (·.entry) = functions.map (·.entry)
  keeps : ∀ f ∈ functions, ∀ b ∈ f.blocks, ∀ a ∈ b.words,
    ∃ f' ∈ functions', f'.entry = f.entry ∧ b ∈ f'.blocks

theorem Absorbs.claimed {functions functions' : List Function}
    (absorbs : Absorbs functions functions') {a : Nat} (old : claimed functions a = true) :
    SoaPort.Ppc.claimed functions' a = true := by
  obtain ⟨f, member, b, block, inside⟩ := claimed_iff.mp old
  obtain ⟨f', member', _, block'⟩ := absorbs.keeps f member b block a inside
  exact claimed_iff.mpr ⟨f', member', b, block', inside⟩

theorem Absorbs.entered {dol : Dol} {entries : List Nat} {functions functions' : List Function}
    (absorbs : Absorbs functions functions') (entered : Entered dol entries functions) :
    Entered dol entries functions' := by
  intro e listed valid
  obtain ⟨f, member, named, b, block, inside⟩ := entered e listed valid
  obtain ⟨f', member', named', block'⟩ := absorbs.keeps f member b block e inside
  exact ⟨f', member', named'.trans named, b, block', inside⟩

section Pass

variable (dol : Dol) (main : Section) {functions : List Function}

/-- A dead hole is a gap, so its start is the start of no block with words. -/
theorem Absorbs.absorb {functions' : List Function} (absorbs : Absorbs functions functions')
    {gap : Nat × Nat} (clear : SoaPort.Ppc.claimed functions gap.1 = false) (owner : Nat) :
    Absorbs functions (functions'.map fun fn =>
      if fn.entry = owner then
        fn.set_block { start := gap.1, «end» := gap.2, terminator := .dead }
      else fn) where
  entries := by
    rw [← absorbs.entries, List.map_map]
    apply List.map_congr_left
    intro fn _
    simp only [Function.comp]
    split
    · exact Function.set_block_entry ..
    · rfl
  keeps f member b block a inside := by
    obtain ⟨f', member', named, block'⟩ := absorbs.keeps f member b block a inside
    have other : b.start ≠ gap.1 := by
      intro same
      have taken : SoaPort.Ppc.claimed functions gap.1 = true :=
        claimed_iff.mpr ⟨f, member, b, block, same ▸ BasicBlock.start_mem_words inside⟩
      rw [clear] at taken
      cases taken
    refine ⟨_, List.mem_map.mpr ⟨f', member', rfl⟩, ?_⟩
    split
    · exact ⟨(Function.set_block_entry ..).trans named, Function.set_block_keeps block' other⟩
    · exact ⟨named, block'⟩

/-- What a pass has done with the gaps seen so far. -/
structure PassInv (functions : List Function) (gaps seen : List (Nat × Nat))
    (s : List Function × List Nat × Nat) : Prop where
  absorbs : Absorbs functions s.1
  counted : s.2.2 ≠ 0 → ∃ gap ∈ gaps, SoaPort.Ppc.claimed s.1 gap.1 = true
  found : ∀ e ∈ s.2.1, ∃ gap ∈ gaps, gap_entry dol main (gap_words gap.1 gap.2) = some e
  complete : s.2.2 = 0 → ∀ gap ∈ seen, ∀ e,
    gap_entry dol main (gap_words gap.1 gap.2) = some e → e ∈ s.2.1

theorem mine_gap_inv (ends : Nat → List Nat) {gaps seen : List (Nat × Nat)}
    {s : List Function × List Nat × Nat} (inv : PassInv dol main functions gaps seen s)
    {gap : Nat × Nat} (listed : gap ∈ gaps) (nonempty : gap.1 < gap.2)
    (clear : SoaPort.Ppc.claimed functions gap.1 = false) :
    PassInv dol main functions gaps (seen ++ [gap]) (mine_gap dol main ends s gap) := by
  obtain ⟨functions', gap_starts, absorbed⟩ := s
  unfold mine_gap
  dsimp only
  cases owned : _interior_owner dol functions' (ends gap.1) gap.1 gap.2 with
  | some owner =>
      refine ⟨inv.absorbs.absorb clear owner, fun _ => ⟨gap, listed, ?_⟩, inv.found, ?_⟩
      · have claims := List.find?_some owned
        split at claims
        · cases claims
        · rename_i fn known
          obtain ⟨member, named⟩ := function_at_some known
          refine claimed_iff.mpr ⟨_, List.mem_map.mpr ⟨fn, member, if_pos named⟩, _,
            Function.mem_set_block _ _, ?_⟩
          exact BasicBlock.mem_words.mpr ⟨le_rfl, nonempty, by simp⟩
      · intro none_absorbed
        cases none_absorbed
  | none =>
      cases entry : gap_entry dol main (gap_words gap.1 gap.2) with
      | some e =>
          refine ⟨inv.absorbs, inv.counted, ?_, ?_⟩
          · intro e' member
            rcases List.mem_cons.mp member with rfl | old
            · exact ⟨gap, listed, entry⟩
            · exact inv.found e' old
          · intro none_absorbed g seen' e' opens
            rcases List.mem_append.mp seen' with old | new
            · exact List.mem_cons_of_mem e (inv.complete none_absorbed g old e' opens)
            · cases List.mem_singleton.mp new
              rw [entry] at opens
              cases opens
              exact List.mem_cons_self
      | none =>
          refine ⟨inv.absorbs, inv.counted, inv.found, ?_⟩
          intro none_absorbed g seen' e' opens
          rcases List.mem_append.mp seen' with old | new
          · exact inv.complete none_absorbed g old e' opens
          · cases List.mem_singleton.mp new
            rw [entry] at opens
            cases opens

theorem mine_gaps_inv (ends : Nat → List Nat) {gaps : List (Nat × Nat)}
    (todo seen : List (Nat × Nat)) {s : List Function × List Nat × Nat}
    (inv : PassInv dol main functions gaps seen s)
    (are_gaps : ∀ gap ∈ todo, gap ∈ gaps ∧ gap.1 < gap.2 ∧
      SoaPort.Ppc.claimed functions gap.1 = false) :
    PassInv dol main functions gaps (seen ++ todo)
      (todo.foldl (mine_gap dol main ends) s) := by
  induction todo generalizing seen s with
  | nil =>
      rw [List.append_nil]
      exact inv
  | cons gap todo ih =>
      obtain ⟨listed, nonempty, clear⟩ := are_gaps gap List.mem_cons_self
      have next := mine_gap_inv dol main ends inv listed nonempty clear
      have rest := ih (seen ++ [gap]) next fun g later => are_gaps g (List.mem_cons_of_mem _ later)
      rw [List.append_assoc] at rest
      exact rest

/-- The whole pass over the gaps. -/
theorem pass_inv (functions : List Function) :
    PassInv dol main functions (find_gaps dol functions 1) (find_gaps dol functions 1)
      ((find_gaps dol functions 1).foldl (mine_gap dol main (end_index functions))
        (functions, [], 0)) := by
  have start : PassInv dol main functions (find_gaps dol functions 1) [] (functions, [], 0) := by
    refine ⟨⟨rfl, ?_⟩, fun absurd => (absurd rfl).elim, by simp, by simp⟩
    exact fun f member b block _ _ => ⟨f, member, rfl, block⟩
  refine mine_gaps_inv dol main _ _ [] start ?_
  intro gap found
  obtain ⟨s, _, is_gap⟩ := find_gaps_isGap found
  exact ⟨found, is_gap.nonempty, is_gap.clear _ is_gap.start_mem⟩

end Pass

/-! The loop. -/

theorem gap_entry_some {dol : Dol} {main : Section} {list : List Nat} {e : Nat}
    (opens : gap_entry dol main list = some e) :
    e ∈ list ∧ (CodeView.valid dol e).isSome := by
  induction list with
  | nil => cases opens
  | cons a rest ih =>
      have later (opens : gap_entry dol main rest = some e) :
          e ∈ a :: rest ∧ (CodeView.valid dol e).isSome :=
        ⟨List.mem_cons_of_mem a (ih opens).1, (ih opens).2⟩
      rw [gap_entry] at opens
      split at opens
      · exact later opens
      · split at opens
        · exact later opens
        · rename_i known
          split at opens
          · cases opens
            exact ⟨List.mem_cons_self, by simpa [Option.isSome_iff_ne_none] using known⟩
          · cases opens

/-- In the main text any gap with an instruction that is no case label opens. -/
theorem gap_entry_opens {dol : Dol} {main : Section} {list : List Nat} {a : Nat}
    (inside : ∀ b ∈ list, main.contains b = true) (member : a ∈ list)
    (valid : (CodeView.valid dol a).isSome) (plain : a ∉ case_labels dol) :
    ∃ e, gap_entry dol main list = some e := by
  induction list with
  | nil => cases member
  | cons b rest ih =>
      rw [gap_entry]
      have later (skipped : a ≠ b) : ∃ e, gap_entry dol main rest = some e :=
        ih (fun c inner => inside c (List.mem_cons_of_mem b inner))
          ((List.mem_cons.mp member).resolve_left skipped)
      split
      · rename_i label
        exact later fun same => plain (same ▸ label)
      · split
        · rename_i invalid
          refine later fun same => ?_
          rw [same, Option.isSome_iff_ne_none] at valid
          exact valid (Option.isNone_iff_eq_none.mp invalid)
        · rw [if_pos (by simp [inside b List.mem_cons_self])]
          exact ⟨b, rfl⟩

section Loop

variable (dol : Dol) (main : Section) (orders : SetOrder) (k : Nat) (hard : List Nat)

/-- The invariant of the loop. -/
structure MinedOk (m : Mined) : Prop where
  entered : Entered dol (hard ++ m.soft) m.functions
  named : ∀ f ∈ m.functions, f.entry ∈ hard ++ m.soft
  distinct : (m.functions.map (·.entry)).Nodup

def text_words : List Nat := dol.text.flatMap (·.words)

/-- The pass goes on to claim a word of the text sections. -/
structure Progress (m m' : Mined) : Prop where
  keeps : ∀ a, claimed m.functions a = true → claimed m'.functions a = true
  claims : ∃ a ∈ text_words dol, claimed m.functions a = false ∧ claimed m'.functions a = true

theorem gap_word {functions : List Function} {gap : Nat × Nat}
    (found : gap ∈ find_gaps dol functions 1) {a : Nat} (member : a ∈ gap_words gap.1 gap.2) :
    a ∈ text_words dol ∧ claimed functions a = false := by
  obtain ⟨s, text, is_gap⟩ := find_gaps_isGap found
  exact ⟨List.mem_flatMap.mpr ⟨s, text, is_gap.mem_words member⟩, is_gap.clear a member⟩

/-- The new entries of a pass. -/
theorem pass_entries {m : Mined} {found : List Nat} {e : Nat}
    (member : e ∈ orders.order (found.dedup.filter fun a => a ∉ hard && a ∉ m.soft)) :
    e ∈ found ∧ e ∉ hard ++ m.soft := by
  rw [(orders.perm _).mem_iff, List.mem_filter, List.mem_dedup] at member
  simpa using member

/-- Walking new entries takes nothing away: their names are new. -/
theorem enter_walks_ok {m : Mined} (ok : MinedOk dol hard m) {functions : List Function}
    (absorbs : Absorbs m.functions functions) {entries gap_starts : List Nat}
    (perm : entries.Perm gap_starts) (fresh : ∀ e ∈ gap_starts, e ∉ hard ++ m.soft) :
    MinedOk dol hard ⟨enter_walks dol (k + 1) hard functions entries, m.soft ++ gap_starts⟩ ∧
      ∀ a, claimed m.functions a = true →
        claimed (enter_walks dol (k + 1) hard functions entries) a = true := by
  have same_names : ∀ f ∈ functions, f.entry ∈ hard ++ m.soft := by
    intro f member
    have listed : f.entry ∈ functions.map (·.entry) := List.mem_map.mpr ⟨f, member, rfl⟩
    rw [absorbs.entries] at listed
    obtain ⟨g, old, same⟩ := List.mem_map.mp listed
    rw [← same]
    exact ok.named g old
  have survives : ∀ f ∈ functions, f ∈ enter_walks dol (k + 1) hard functions entries := by
    intro f member
    exact enter_walks_keeps dol (k + 1) hard member fun again =>
      fresh f.entry (perm.mem_iff.mp again) (same_names f member)
  refine ⟨⟨?_, ?_, ?_⟩, ?_⟩
  · intro e listed valid
    rw [← List.append_assoc, List.mem_append] at listed
    rcases listed with old | new
    · obtain ⟨f, member, named, owns⟩ := absorbs.entered ok.entered e old valid
      exact ⟨f, survives f member, named, owns⟩
    · exact ⟨_, enter_walks_mem dol (k + 1) hard (perm.mem_iff.mpr new),
        walk_from_entry dol (k + 1) hard e, walk_from_claims dol k hard valid⟩
  · intro f member
    rw [← List.append_assoc]
    rcases mem_of_enter_walks dol (k + 1) hard member with old | ⟨e, new, rfl⟩
    · exact List.mem_append_left _ (same_names f old)
    · rw [walk_from_entry]
      exact List.mem_append_right _ (perm.mem_iff.mp new)
  · apply enter_walks_nodup
    rw [absorbs.entries]
    exact ok.distinct
  · intro a old
    obtain ⟨f, member, owns⟩ := claimed_iff.mp (absorbs.claimed old)
    exact claimed_iff.mpr ⟨f, survives f member, owns⟩

theorem mine_pass_progress {m m' : Mined} (ok : MinedOk dol hard m)
    (pass : mine_pass dol main orders (k + 1) hard m = some m') :
    MinedOk dol hard m' ∧ Progress dol m m' := by
  have inv := pass_inv dol main m.functions
  unfold mine_pass at pass
  generalize (find_gaps dol m.functions 1).foldl (mine_gap dol main (end_index m.functions))
    (m.functions, [], 0) = s at inv pass
  obtain ⟨functions, found, absorbed⟩ := s
  dsimp only at pass
  generalize starts : (found.dedup.filter fun a => a ∉ hard && a ∉ m.soft) = gap_starts at pass
  have fresh : ∀ e ∈ gap_starts, e ∈ found ∧ e ∉ hard ++ m.soft := by
    intro e member
    rw [← starts, List.mem_filter, List.mem_dedup] at member
    simpa using member
  split at pass
  · split at pass
    · rename_i some_absorbed
      cases pass
      have entered := enter_walks_ok dol k hard ok inv.absorbs (List.Perm.refl [])
        (by simp)
      rw [List.append_nil] at entered
      obtain ⟨gap, listed, taken⟩ := inv.counted some_absorbed
      obtain ⟨s, _, is_gap⟩ := find_gaps_isGap listed
      obtain ⟨word, clear⟩ := gap_word dol listed is_gap.start_mem
      exact ⟨entered.1, entered.2, gap.1, word, clear, taken⟩
    · cases pass
  · rename_i some_found
    cases pass
    obtain ⟨ok', keeps⟩ := enter_walks_ok dol k hard ok inv.absorbs (orders.perm gap_starts)
      fun e member => (fresh e member).2
    refine ⟨ok', keeps, ?_⟩
    obtain ⟨e, member⟩ := List.exists_mem_of_ne_nil _ some_found
    obtain ⟨gap, listed, opens⟩ := inv.found e (fresh e member).1
    obtain ⟨inside, valid⟩ := gap_entry_some opens
    obtain ⟨word, clear⟩ := gap_word dol listed inside
    obtain ⟨f, entered, _, owns⟩ := ok'.entered e
      (List.mem_append_right _ (List.mem_append_right _ member)) valid
    exact ⟨e, word, clear, claimed_iff.mpr ⟨f, entered, owns⟩⟩

/-- Where the loop ends, the gaps of the main text hold nothing that could
begin a function. -/
theorem mine_pass_done {m : Mined} (ok : MinedOk dol hard m)
    (pass : mine_pass dol main orders (k + 1) hard m = none) (text : main ∈ dol.text)
    {a : Nat} (member : a ∈ main.whole_words) (valid : (CodeView.valid dol a).isSome)
    (plain : a ∉ case_labels dol) : claimed m.functions a = true := by
  cases unclaimed : claimed m.functions a with
  | true => rfl
  | false =>
      have inv := pass_inv dol main m.functions
      unfold mine_pass at pass
      generalize (find_gaps dol m.functions 1).foldl (mine_gap dol main (end_index m.functions))
        (m.functions, [], 0) = s at inv pass
      obtain ⟨functions, found, absorbed⟩ := s
      dsimp only at pass
      split at pass
      · rename_i no_starts
        split at pass
        · cases pass
        · rename_i none_absorbed
          obtain ⟨gap, listed, is_gap, inside⟩ := find_gaps_complete text member unclaimed
          have in_main : ∀ b ∈ gap_words gap.1 gap.2, main.contains b = true :=
            fun b word => Section.contains_of_mem (is_gap.mem_words word)
          obtain ⟨e, opens⟩ := gap_entry_opens in_main inside valid plain
          have entry_found := inv.complete (not_not.mp none_absorbed) gap listed e opens
          have known : e ∈ hard ++ m.soft := by
            by_contra new
            rw [List.mem_append, not_or] at new
            have start : e ∈ found.dedup.filter fun a => a ∉ hard && a ∉ m.soft :=
              List.mem_filter.mpr ⟨List.mem_dedup.mpr entry_found, by simp [new]⟩
            rw [no_starts] at start
            cases start
          obtain ⟨word, opens_valid⟩ := gap_entry_some opens
          obtain ⟨f, entered, _, owns⟩ := ok.entered e known opens_valid
          have taken : claimed m.functions e = true := claimed_iff.mpr ⟨f, entered, owns⟩
          rw [is_gap.clear e word] at taken
          cases taken
      · cases pass

/-- The unclaimed words of the text sections, counted. -/
def unclaimed_words (m : Mined) : Nat :=
  (text_words dol).countP fun a => !claimed m.functions a

theorem Progress.lower {m m' : Mined} (progress : Progress dol m m') :
    unclaimed_words dol m' < unclaimed_words dol m := by
  obtain ⟨a, word, clear, taken⟩ := progress.claims
  apply Lib.countP_lt_of_mem word
  · intro b _ left
    cases old : claimed m.functions b with
    | false => rfl
    | true => simp [progress.keeps b old] at left
  · simp [clear]
  · simp [taken]

theorem unclaimed_words_le (m : Mined) : unclaimed_words dol m ≤ mine_fuel dol := by
  unfold unclaimed_words mine_fuel text_words
  calc
    _ ≤ (dol.text.flatMap (·.words)).length := List.countP_le_length
    _ = (dol.text.map (·.words.length)).sum := List.length_flatMap
    _ ≤ _ := Nat.le_succ _

theorem mined_ok {m : Mined} (ok : MinedOk dol hard m) :
    MinedOk dol hard (Lib.whileSome (mine_pass dol main orders (k + 1) hard) (mine_fuel dol) m) :=
  Lib.whileSome_invariant (MinedOk dol hard)
    (fun _ _ ok pass => (mine_pass_progress dol main orders k hard ok pass).1) _ ok

theorem mined_done {m : Mined} (ok : MinedOk dol hard m) :
    mine_pass dol main orders (k + 1) hard
      (Lib.whileSome (mine_pass dol main orders (k + 1) hard) (mine_fuel dol) m) = none :=
  Lib.whileSome_done (MinedOk dol hard) (unclaimed_words dol)
    (fun _ _ ok pass => (mine_pass_progress dol main orders k hard ok pass).1)
    (fun _ _ ok pass => (mine_pass_progress dol main orders k hard ok pass).2.lower) _ ok
    (unclaimed_words_le dol m)

end Loop

end SoaPort.Ppc
