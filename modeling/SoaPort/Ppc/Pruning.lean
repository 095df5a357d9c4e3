import SoaPort.Ppc.Mining

namespace SoaPort.Ppc

/-! The rounds, and what the pruning at the end of the last one takes away. -/

section Rounds

variable (dol : Dol) (main : Section) (orders : SetOrder) (k : Nat)

theorem round_start_ok (hard : List Nat) :
    MinedOk dol (round dol main orders (k + 1) hard).hard
      { functions := enter_walks dol (k + 1) hard
          ((hard.dedup.insertionSort (· ≤ ·)).map (walk_from dol (k + 1) hard))
          (round dol main orders (k + 1) hard).fresh
        soft := [] } := by
  have walked_names : ((hard.dedup.insertionSort (· ≤ ·)).map
      (walk_from dol (k + 1) hard)).map (·.entry) = hard.dedup.insertionSort (· ≤ ·) := by
    rw [List.map_map]
    exact (List.map_congr_left fun e _ => walk_from_entry dol (k + 1) hard e).trans (List.map_id _)
  have sorted_mem (e : Nat) : e ∈ hard.dedup.insertionSort (· ≤ ·) ↔ e ∈ hard := by
    rw [List.mem_insertionSort, List.mem_dedup]
  have fresh_new : ∀ e ∈ (round dol main orders (k + 1) hard).fresh, e ∉ hard := by
    intro e member
    have kept := List.mem_filter.mp ((orders.perm _).mem_iff.mp member)
    simp only [Bool.and_eq_true, decide_eq_true_eq] at kept
    exact kept.2.1
  refine ⟨?_, ?_, ?_⟩
  · intro e listed valid
    rw [List.append_nil] at listed
    rcases List.mem_append.mp listed with old | new
    · refine ⟨_, enter_walks_keeps dol (k + 1) hard
        (List.mem_map.mpr ⟨e, (sorted_mem e).mpr old, rfl⟩) ?_, walk_from_entry .., ?_⟩
      · rw [walk_from_entry]
        exact fun again => fresh_new e again old
      · exact walk_from_claims dol k hard valid
    · exact ⟨_, enter_walks_mem dol (k + 1) hard new, walk_from_entry ..,
        walk_from_claims dol k hard valid⟩
  · intro f member
    rw [List.append_nil]
    rcases mem_of_enter_walks dol (k + 1) hard member with old | ⟨e, new, rfl⟩
    · obtain ⟨e, listed, rfl⟩ := List.mem_map.mp old
      rw [walk_from_entry]
      exact List.mem_append_left _ ((sorted_mem e).mp listed)
    · rw [walk_from_entry]
      exact List.mem_append_right _ new
  · apply enter_walks_nodup
    rw [walked_names]
    exact (List.perm_insertionSort _ _).nodup_iff.mpr (List.nodup_dedup _)

/-- Before its pruning a round has lost nothing: every function has its own
entry, and every word of the main text that can begin one is claimed. -/
theorem round_mined (hard : List Nat) (text : main ∈ dol.text) :
    ((round dol main orders (k + 1) hard).mined.functions.map (·.entry)).Nodup ∧
      ∀ a ∈ main.whole_words, (CodeView.valid dol a).isSome → a ∉ case_labels dol →
        claimed (round dol main orders (k + 1) hard).mined.functions a = true := by
  have start := round_start_ok dol main orders k hard
  have ok := mined_ok dol main orders k _ start
  have done := mined_done dol main orders k _ start
  exact ⟨ok.distinct, fun a member valid plain =>
    mine_pass_done dol main orders k _ ok done text member valid plain⟩

theorem rounds_is_round (n : Nat) (hard : List Nat) :
    ∃ last, rounds dol main orders k n hard = round dol main orders k last := by
  induction n generalizing hard with
  | zero => exact ⟨hard, rfl⟩
  | succ n ih =>
      rw [rounds]
      split
      · exact ih _
      · exact ⟨hard, rfl⟩

end Rounds

theorem main_text_mem {dol : Dol} {main : Section} (largest : main_text dol = some main) :
    main ∈ dol.text := by
  have keeps (f : Option Section → Section → Option Section)
      (chooses : ∀ best s u, f best s = some u → u = s ∨ best = some u) (list : List Section)
      (best : Option Section) (known : ∀ s, best = some s → s ∈ dol.text)
      (all : ∀ s ∈ list, s ∈ dol.text) (s : Section) (result : list.foldl f best = some s) :
      s ∈ dol.text := by
    induction list generalizing best with
    | nil => exact known s result
    | cons t list ih =>
        refine ih _ ?_ (fun u later => all u (List.mem_cons_of_mem t later)) result
        intro u same
        rcases chooses best t u same with rfl | before
        · exact all u List.mem_cons_self
        · exact known u before
  refine keeps _ ?_ dol.text none (by simp) (fun _ member => member) main largest
  intro best s u same
  cases best with
  | none =>
      cases same
      exact .inl rfl
  | some b =>
      dsimp only at same
      split at same
      · cases same
        exact .inl rfl
      · exact .inr same

/-! The sweep. -/

/-- The reach of the sweep when it comes to the function at `entry`: the
furthest end of the functions kept before it. -/
def reach_at (soft : List Nat) (entry : Nat) : Nat → List Function → Nat
  | reach, [] => reach
  | reach, g :: rest =>
      if g.entry = entry then reach
      else if g.entry ∈ soft ∧ g.start < reach then reach_at soft entry reach rest
      else reach_at soft entry (max reach g.end) rest

theorem prune_sweep_subset {soft : List Nat} {reach e : Nat} {list : List Function}
    (member : e ∈ prune_sweep soft reach list) : e ∈ list.map (·.entry) := by
  induction list generalizing reach with
  | nil => cases member
  | cons g rest ih =>
      rw [prune_sweep] at member
      split at member
      · rcases List.mem_cons.mp member with rfl | later
        · exact List.mem_cons_self
        · exact List.mem_cons_of_mem _ (ih later)
      · exact List.mem_cons_of_mem _ (ih member)

/-- A function is pruned when it is soft and starts below the reach. -/
theorem mem_prune_sweep {soft : List Nat} {list : List Function}
    (distinct : (list.map (·.entry)).Nodup) (reach : Nat) {f : Function} (member : f ∈ list) :
    f.entry ∈ prune_sweep soft reach list ↔
      f.entry ∈ soft ∧ f.start < reach_at soft f.entry reach list := by
  induction list generalizing reach with
  | nil => cases member
  | cons g rest ih =>
      rw [List.map_cons, List.nodup_cons] at distinct
      rw [prune_sweep, reach_at]
      rcases List.mem_cons.mp member with rfl | later
      · rw [if_pos rfl]
        have absent (reach' : Nat) : f.entry ∉ prune_sweep soft reach' rest :=
          fun again => distinct.1 (prune_sweep_subset again)
        split
        · rename_i falls
          exact iff_of_true List.mem_cons_self falls
        · rename_i stays
          exact iff_of_false (absent _) stays
      · have other : g.entry ≠ f.entry := by
          intro same
          exact distinct.1 (same ▸ List.mem_map.mpr ⟨f, later, rfl⟩)
        rw [if_neg other]
        split
        · rw [List.mem_cons, or_iff_right other.symm]
          exact ih distinct.2 reach later
        · exact ih distinct.2 _ later

namespace Round

/-- A gap's function whose lowest block starts below the end of a function
kept before it. -/
def BelowReach (r : Round) (f : Function) : Prop :=
  f.entry ∈ r.mined.soft ∧
    f.start < reach_at r.mined.soft f.entry 0 (r.mined.functions.insertionSort extent_le)

theorem mem_pruned {r : Round} (distinct : (r.mined.functions.map (·.entry)).Nodup)
    {f : Function} (member : f ∈ r.mined.functions) : f.entry ∈ r.pruned ↔ r.BelowReach f := by
  have sorted := List.perm_insertionSort extent_le r.mined.functions
  exact mem_prune_sweep ((sorted.map _).nodup_iff.mpr distinct) 0 (sorted.mem_iff.mpr member)

theorem mem_functions {r : Round} (distinct : (r.mined.functions.map (·.entry)).Nodup)
    {f : Function} : f ∈ r.functions ↔ f ∈ r.mined.functions ∧ ¬ r.BelowReach f := by
  unfold functions
  rw [List.mem_filter]
  constructor
  · rintro ⟨member, kept⟩
    exact ⟨member, fun below => of_decide_eq_true kept ((mem_pruned distinct member).mpr below)⟩
  · rintro ⟨member, kept⟩
    exact ⟨member, decide_eq_true fun gone => kept ((mem_pruned distinct member).mp gone)⟩

end Round

/-- A word of the main text that holds an instruction and is no case label. -/
def CodeWord (dol : Dol) (main : Section) (a : Nat) : Prop :=
  a ∈ main.whole_words ∧ (CodeView.valid dol a).isSome ∧ a ∉ case_labels dol

/-- Every code word of the main text is in a block of a returned function. -/
def RecoversMain (dol : Dol) (orders : SetOrder) : Prop :=
  ∀ main functions, main_text dol = some main → build_iterative dol orders = some functions →
    ∀ a, CodeWord dol main a → claimed functions a = true

/-- Just before the last pruning, a gap's function that starts below the reach
holds no code word of its own: whatever it claims, a hard function or one at
or above the reach claims too. -/
def PrunesOnlyShared (dol : Dol) (orders : SetOrder) : Prop :=
  ∀ main r, main_text dol = some main → last_round dol orders = some r →
    ∀ f ∈ r.mined.functions, r.BelowReach f → ∀ a, CodeWord dol main a → f.claims a = true →
      ∃ g ∈ r.mined.functions, ¬ r.BelowReach g ∧ g.claims a = true

/-- `li r3, 0; blr`, then code nothing refers to: a conditional branch over a
`nop`, and a branch back to the `blr`. -/
def backward_leaf : Dol where
  sections := [{ file_offset := 256, address := 0x80003100, size := 20, is_text := true }]
  entry_point := 0x80003100
  data := List.replicate 256 0 ++
    [0x38, 0x60, 0x00, 0x00, 0x4E, 0x80, 0x00, 0x20, 0x41, 0x82, 0x00, 0x08,
      0x60, 0x00, 0x00, 0x00, 0x4B, 0xFF, 0xFF, 0xF4]

end SoaPort.Ppc
