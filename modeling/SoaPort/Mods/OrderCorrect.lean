import SoaPort.Mods.Order

namespace SoaPort.Mods

/-! When the order comes out right: how many moves it takes. -/

section Lengths

theorem sink_perm (plan : List Planned) (sorted : List Nat) (i : Nat) :
    (sink plan sorted i).Perm (i :: sorted) := by
  unfold sink
  dsimp only
  refine List.perm_middle.trans (.cons i ?_)
  rw [List.rdropWhile_append_rtakeWhile]

theorem foldl_sink_perm (plan : List Planned) (l sorted : List Nat) :
    (l.foldl (sink plan) sorted).Perm (sorted ++ l) := by
  induction l generalizing sorted with
  | nil => rw [List.append_nil, List.foldl_nil]
  | cons i l ih =>
      rw [List.foldl_cons]
      refine (ih (sink plan sorted i)).trans ?_
      exact ((sink_perm plan sorted i).append_right l).trans List.perm_middle.symm

/-- Every folder has its place. -/
theorem ranked_perm (plan : List Planned) : (ranked plan).Perm (List.range plan.length) := by
  unfold ranked
  dsimp only
  refine ((foldl_sink_perm plan _ []).append_right _).trans ?_
  simp only [List.nil_append, ← Option.not_isSome]
  exact List.filter_append_perm (fun i => (plan.getD i default).rank.isSome)
    (List.range plan.length)

theorem read_name_length (read : List Planned × Nat) (p : Str) :
    (read_name read p).1.length = read.1.length := by
  obtain ⟨plan, rank⟩ := read
  unfold read_name
  dsimp only
  split
  · split
    · rfl
    · split
      · rfl
      · exact List.length_modify _ _ _
  · rfl

theorem read_order_length (env : Option Str) (plan : List Planned) :
    (read_order env plan).length = plan.length := by
  have kept : ∀ (names : List Str) (read : List Planned × Nat),
      (names.foldl read_name read).1.length = read.1.length := by
    intro names
    induction names with
    | nil => exact fun _ => rfl
    | cons name names ih => exact fun read => (ih _).trans (read_name_length read name)
  unfold read_order
  split
  · rfl
  · rfl
  · exact kept _ _

theorem mark_bad_length (plan : List Planned) (pair : Nat × Nat) :
    (mark_bad plan pair).length = plan.length := by
  unfold mark_bad
  dsimp only
  split
  · rw [List.length_modify, List.length_modify]
  · rfl

theorem marked_length (plan : List Planned) : (marked plan).length = plan.length := by
  unfold marked
  generalize pairs (ranked plan) = l
  induction l generalizing plan with
  | nil => rfl
  | cons pair l ih => exact (ih _).trans (mark_bad_length plan pair)

end Lengths

section Relation

variable {plan : List Planned} {a b : Nat}

theorem getD_out {i : Nat} (out : plan.length ≤ i) : plan.getD i default = default := by
  rw [List.getD_eq_getElem?_getD, List.getElem?_eq_none out]
  rfl

theorem overrides_bounds (named : overrides plan a b = true) :
    a < plan.length ∧ b < plan.length := by
  unfold overrides in_list at named
  rw [Bool.and_eq_true] at named
  constructor
  · by_contra out
    have alone : ((default : Planned).overrides.splitOn ',') = [[]] := rfl
    rw [getD_out (Nat.le_of_not_lt out), alone] at named
    obtain ⟨named, listed⟩ := named
    simp at listed
    simp [listed] at named
  · by_contra out
    rw [getD_out (Nat.le_of_not_lt out : plan.length ≤ b)] at named
    exact absurd named.1 (by decide)

/-- A mod that is neither turned off nor marked bad. -/
def live (plan : List Planned) (a : Nat) : Prop :=
  (plan.getD a default).off = false ∧ (plan.getD a default).bad = false

/-- `a` overrides `b`, and both are loaded. -/
def live_overrides (plan : List Planned) (a b : Nat) : Prop :=
  live plan a ∧ live plan b ∧ overrides plan a b = true

theorem follows_iff : follows plan a b = true ↔
    (plan.getD a default).bad = false ∧ (plan.getD b default).bad = false ∧
      overrides plan a b = true := by
  unfold follows
  simp [and_assoc]

theorem follows_of_live (loaded : live_overrides plan a b) : follows plan a b = true :=
  follows_iff.mpr ⟨loaded.1.2, loaded.2.1.2, loaded.2.2⟩

end Relation

/-- The folders as they are planned before the list is read. -/
def planned (folders : List (Str × Str)) : List Planned :=
  folders.map fun (key, overrides) => { key, overrides, rank := none, off := false, bad := false }

/-- The order is right, without a circle reported, exactly when no mods that
are not marked bad, turned off or not, override each other in a circle, and
the chains of overrides that end behind all their other mods in the listed
order number at most the square of the folders. -/
theorem plan_order_correct (folders : List (Str × Str)) (env : Option Str) :
    let plan := read_order env (planned folders)
    let result := plan_order plan
    (Lib.Acyclic (live_overrides (marked plan)) →
      result.moved = false ∧ result.order.Perm (List.range folders.length) ∧
        ∀ a b, a ≠ b → live_overrides result.plan a b →
          result.order.idxOf b < result.order.idxOf a) ↔
    (Lib.Acyclic (live_overrides (marked plan)) →
      Lib.Acyclic (fun a b => follows (marked plan) a b = true) ∧
        (Lib.late_chains (fun a b => follows (marked plan) a b = true) (ranked plan)).card ≤
          folders.length ^ 2) := by
  intro plan result
  have length : plan.length = folders.length := by
    rw [read_order_length, planned, List.length_map]
  have listed : (ranked plan).Perm (List.range folders.length) := length ▸ ranked_perm plan
  have nodup : (ranked plan).Nodup := listed.nodup_iff.mpr List.nodup_range
  have fuel : (ranked plan).length ^ 2 + 1 = folders.length ^ 2 + 1 := by
    rw [listed.length_eq, List.length_range]
  have ran : Lib.passes (fun a b => follows (marked plan) a b = true) (folders.length ^ 2 + 1)
      (ranked plan) = (result.order, result.moved) := by
    rw [← fuel]
    rfl
  have order : result.order.Perm (List.range folders.length) := by
    have kept := Lib.passes_perm (R := fun a b => follows (marked plan) a b = true)
      (l := ranked plan) (folders.length ^ 2 + 1)
    rw [ran] at kept
    exact kept.trans listed
  have inside : ∀ a b, follows (marked plan) a b = true → a ∈ result.order ∧ b ∈ result.order := by
    intro a b edge
    obtain ⟨ha, hb⟩ := overrides_bounds (follows_iff.mp edge).2.2
    rw [marked_length, length] at ha hb
    exact ⟨order.mem_iff.mpr (List.mem_range.mpr ha), order.mem_iff.mpr (List.mem_range.mpr hb)⟩
  have settled : result.moved = false →
      result.order.Pairwise fun a b => ¬ follows (marked plan) a b = true := by
    intro ended
    have ordered := Lib.passes_pairwise (R := fun a b => follows (marked plan) a b = true)
      (l := ranked plan) (folders.length ^ 2 + 1) (by rw [ran]; exact ended)
    rwa [ran] at ordered
  constructor
  · intro right acyclic
    obtain ⟨ended, _⟩ := right acyclic
    have circle_free := Lib.acyclic_of_pairwise (settled ended) inside
    refine ⟨circle_free, Nat.lt_succ_iff.mp ?_⟩
    exact (Lib.passes_settle circle_free nodup _).mp (by rw [ran]; exact ended)
  · intro few acyclic
    obtain ⟨circle_free, count⟩ := few acyclic
    have ended : result.moved = false := by
      have settles := (Lib.passes_settle circle_free nodup _).mpr (Nat.lt_succ_iff.mpr count)
      rwa [ran] at settles
    refine ⟨ended, order, fun a b differ loaded => ?_⟩
    have edge := follows_of_live loaded
    obtain ⟨ha, hb⟩ := inside a b edge
    exact Lib.idxOf_lt_of_pairwise (settled ended) ha hb differ edge

/-- Six mods, each overriding all those after it. -/
def six : List (Str × Str) :=
  [("a".toList, "b,c,d,e,f".toList), ("b".toList, "c,d,e,f".toList), ("c".toList, "d,e,f".toList),
    ("d".toList, "e,f".toList), ("e".toList, "f".toList), ("f".toList, [])]

theorem acyclic_of_lt {plan : List Planned} (down : ∀ a < plan.length, ∀ b < plan.length,
    overrides plan a b = true → a < b) : Lib.Acyclic (live_overrides plan) := by
  have step : ∀ {a b}, live_overrides plan a b → a < b := by
    rintro a b ⟨_, _, named⟩
    obtain ⟨ha, hb⟩ := overrides_bounds named
    exact down a ha b hb named
  have path : ∀ {a b}, Relation.TransGen (fun x y => x ≠ y ∧ live_overrides plan x y) a b →
      a < b := by
    intro a b path
    induction path with
    | single edge => exact step edge.2
    | tail path edge ih => exact ih.trans (step edge.2)
  exact fun a circle => absurd (path circle) (lt_irrefl a)

/-- They override each other in no circle, a circle is reported, and the first
one loads before one that it overrides. -/
theorem six_unsettled :
    let result := plan_order (read_order none (planned six))
    Lib.Acyclic (live_overrides result.plan) ∧ result.moved = true ∧
      live_overrides result.plan 0 3 ∧ result.order.idxOf 0 < result.order.idxOf 3 := by
  refine ⟨acyclic_of_lt ?_, ?_, ⟨⟨?_, ?_⟩, ⟨?_, ?_⟩, ?_⟩, ?_⟩
  all_goals decide +kernel

end SoaPort.Mods
