import Mathlib.Data.Finset.Card
import Mathlib.Data.List.Chain
import Mathlib.Data.List.Perm.Subperm
import Mathlib.Data.List.Permutation
import Mathlib.Data.List.Sublists
import Mathlib.Logic.Relation

namespace SoaPort.Lib

/-! Ordering a list by moving the first element that stands too early just
behind the first one it has to follow, again and again. Every move undoes
exactly one chain of the relation, so the chains count the moves. -/

variable {α : Type} (R : α → α → Prop) [DecidableRel R]

/-- `a` put back into the list behind the first element it has to follow. -/
def place (a : α) : List α → Option (List α)
  | [] => none
  | b :: rest => if R a b then some (b :: a :: rest) else (place a rest).map (b :: ·)

/-- One move: the first element with one to follow after it. -/
def reorder : List α → Option (List α)
  | [] => none
  | a :: rest =>
      match place R a rest with
      | some moved => some moved
      | none => (reorder rest).map (a :: ·)

/-- At most `fuel` passes, and whether the last one still moved an element. -/
def passes : Nat → List α → List α × Bool
  | 0, l => (l, true)
  | fuel + 1, l =>
      match reorder R l with
      | none => (l, false)
      | some moved => passes fuel moved

/-- The relation goes round in no circle of distinct elements. -/
def Acyclic : Prop := ∀ a, ¬ Relation.TransGen (fun x y => x ≠ y ∧ R x y) a a

variable {R} {l l' : List α}

section Moves

theorem place_none {a : α} : place R a l = none ↔ ∀ b ∈ l, ¬ R a b := by
  induction l with
  | nil => simp [place]
  | cons b rest ih =>
      rw [place]
      split
      · rename_i follows
        simp [follows]
      · rename_i free
        simp [free, ih]

theorem place_some {a : α} (placed : place R a l = some l') :
    ∃ mid b post, l = mid ++ b :: post ∧ (∀ c ∈ mid, ¬ R a c) ∧ R a b ∧
      l' = mid ++ b :: a :: post := by
  induction l generalizing l' with
  | nil => cases placed
  | cons b rest ih =>
      rw [place] at placed
      split at placed
      · rename_i follows
        cases placed
        exact ⟨[], b, rest, rfl, by simp, follows, rfl⟩
      · rename_i free
        obtain ⟨inner, found, made⟩ := Option.map_eq_some_iff.mp placed
        obtain ⟨mid, c, post, split, before, follows, result⟩ := ih found
        refine ⟨b :: mid, c, post, by rw [split]; rfl, ?_, follows, by rw [← made, result]; rfl⟩
        intro x member
        rcases List.mem_cons.mp member with rfl | later
        · exact free
        · exact before x later

theorem reorder_none : reorder R l = none ↔ l.Pairwise fun x y => ¬ R x y := by
  induction l with
  | nil => simp [reorder]
  | cons a rest ih =>
      rw [reorder, List.pairwise_cons]
      cases placed : place R a rest with
      | none =>
          have free := place_none.mp placed
          simpa [ih] using fun _ => free
      | some moved =>
          obtain ⟨mid, b, post, rfl, _, follows, _⟩ := place_some placed
          simp only [reduceCtorEq, false_iff, not_and]
          intro free
          exact absurd follows (free b (by simp))

/-- A move, and what was found on the way to it. -/
structure Move (R : α → α → Prop) (l l' : List α) where
  pre : List α
  a : α
  mid : List α
  b : α
  post : List α
  old : l = pre ++ a :: (mid ++ b :: post)
  new : l' = pre ++ (mid ++ b :: a :: post)
  settled : pre.Pairwise fun x y => ¬ R x y
  clear : ∀ x ∈ pre, ∀ y ∈ a :: (mid ++ b :: post), ¬ R x y
  first : ∀ c ∈ mid, ¬ R a c
  follows : R a b

theorem reorder_some (moved : reorder R l = some l') : Nonempty (Move R l l') := by
  induction l generalizing l' with
  | nil => cases moved
  | cons a rest ih =>
      rw [reorder] at moved
      cases placed : place R a rest with
      | some inner =>
          rw [placed] at moved
          cases moved
          obtain ⟨mid, b, post, split, first, follows, made⟩ := place_some placed
          exact ⟨⟨[], a, mid, b, post, by rw [split]; rfl, by rw [made]; rfl, .nil, by simp, first,
            follows⟩⟩
      | none =>
          rw [placed] at moved
          obtain ⟨inner, found, made⟩ := Option.map_eq_some_iff.mp moved
          obtain ⟨⟨pre, x, mid, b, post, old, new, settled, clear, first, follows⟩⟩ := ih found
          have free := place_none.mp placed
          rw [old] at free
          refine ⟨⟨a :: pre, x, mid, b, post, by rw [old]; rfl, by rw [← made, new]; rfl, ?_, ?_,
            first, follows⟩⟩
          · exact .cons (fun y member => free y (List.mem_append_left _ member)) settled
          · intro u member y later
            rcases List.mem_cons.mp member with rfl | inside
            · exact free y (List.mem_append_right _ later)
            · exact clear u inside y later

omit [DecidableRel R] in
theorem Move.perm (m : Move R l l') : l'.Perm l := by
  obtain ⟨pre, a, mid, b, post, rfl, rfl, _, _, _, _⟩ := m
  refine List.Perm.append_left _ ?_
  have swap : (mid ++ b :: a :: post).Perm (mid ++ a :: b :: post) :=
    List.Perm.append_left _ (.swap _ _ _)
  exact swap.trans List.perm_middle

end Moves

/-! Chains that stand the wrong way round: written from the last element back,
with the last one behind all the others in the list. -/

def Late (R : α → α → Prop) (pos : α → Nat) : List α → Prop
  | z :: y :: rest => (z :: y :: rest).IsChain (fun u v => R v u) ∧ ∀ x ∈ y :: rest, pos x < pos z
  | _ => False

instance (pos : α → Nat) (c : List α) : Decidable (Late R pos c) := by
  unfold Late
  split <;> infer_instance

variable [DecidableEq α]

variable (R) in
/-- The chains of distinct elements of `l` that end later in `l` than they
pass anywhere else. -/
def late_chains (l : List α) : Finset (List α) :=
  (l.sublists.flatMap List.permutations).toFinset.filter (Late R l.idxOf)

section Positions

theorem mem_late_chains {c : List α} :
    c ∈ late_chains R l ↔ c.Subperm l ∧ Late R l.idxOf c := by
  rw [late_chains, Finset.mem_filter, List.mem_toFinset, List.mem_flatMap]
  refine and_congr_left fun _ => ⟨?_, ?_⟩
  · rintro ⟨sub, inside, permuted⟩
    exact ⟨sub, (List.mem_permutations.mp permuted).symm, List.mem_sublists.mp inside⟩
  · rintro ⟨sub, permuted, inside⟩
    exact ⟨sub, List.mem_sublists.mpr inside, List.mem_permutations.mpr permuted.symm⟩

theorem idxOf_at {s t : List α} {x : α} (absent : x ∉ s) : (s ++ x :: t).idxOf x = s.length := by
  rw [List.idxOf_append_of_notMem absent, List.idxOf_cons_self, Nat.add_zero]

theorem idxOf_after {s t : List α} {x y : α} (absent : x ∉ s) (differ : y ≠ x) :
    (s ++ y :: t).idxOf x = s.length + (t.idxOf x + 1) := by
  rw [List.idxOf_append_of_notMem absent, List.idxOf_cons_ne t differ]

omit [DecidableRel R] in
/-- The parts of a list around a move, as positions. -/
theorem Move.parts (m : Move R l l') (nodup : l.Nodup) :
    l.idxOf m.a = m.pre.length ∧ l.idxOf m.b = m.pre.length + (m.mid.length + 1) ∧
      (∀ x ∈ m.pre, l.idxOf x = m.pre.idxOf x ∧ l'.idxOf x = m.pre.idxOf x) ∧
      (∀ x ∈ m.mid, x ≠ m.a ∧ l.idxOf x = m.pre.length + (m.mid.idxOf x + 1) ∧
        l'.idxOf x = m.pre.length + m.mid.idxOf x) ∧
      (∀ x ∈ m.post, x ≠ m.a ∧ l.idxOf x = m.pre.length + (m.mid.length + (m.post.idxOf x + 1) + 1) ∧
        l'.idxOf x = l.idxOf x) ∧
      m.b ≠ m.a ∧ l'.idxOf m.a = m.pre.length + (m.mid.length + 1) ∧
      l'.idxOf m.b = m.pre.length + m.mid.length ∧ m.a ∉ m.pre := by
  obtain ⟨pre, a, mid, b, post, rfl, rfl, _, _, _, _⟩ := m
  dsimp only
  obtain ⟨_, later, across⟩ := List.nodup_append.mp nodup
  obtain ⟨aloneA, later⟩ := List.nodup_cons.mp later
  obtain ⟨_, tail, apart⟩ := List.nodup_append.mp later
  have aloneB := (List.nodup_cons.mp tail).1
  have outside : ∀ {y}, y ∈ a :: (mid ++ b :: post) → y ∉ pre :=
    fun inside before => across _ before _ inside rfl
  have apre : a ∉ pre := outside (by simp)
  have bpre : b ∉ pre := outside (by simp)
  have ab : a ≠ b := fun same => aloneA (by simp [same])
  have amid : a ∉ mid := fun inside => aloneA (by simp [inside])
  have bmid : b ∉ mid := fun inside => apart b inside b (by simp) rfl
  refine ⟨idxOf_at apre, ?_, ?_, ?_, ?_, ab.symm, ?_, ?_, apre⟩
  · rw [idxOf_after bpre ab, idxOf_at bmid]
  · intro x first
    exact ⟨List.idxOf_append_of_mem first, List.idxOf_append_of_mem first⟩
  · intro x early
    have differ : a ≠ x := fun same => amid (same ▸ early)
    have absent : x ∉ pre := outside (by simp [early])
    rw [idxOf_after absent differ, List.idxOf_append_of_notMem absent,
      List.idxOf_append_of_mem early, List.idxOf_append_of_mem early]
    exact ⟨differ.symm, rfl, rfl⟩
  · intro x last
    have differ : a ≠ x := fun same => aloneA (by simp [same, last])
    have bx : b ≠ x := fun same => aloneB (same ▸ last)
    have absent : x ∉ pre := outside (by simp [last])
    have xmid : x ∉ mid := fun early => apart x early x (by simp [last]) rfl
    rw [idxOf_after absent differ, List.idxOf_append_of_notMem absent, idxOf_after xmid bx,
      idxOf_after xmid bx, List.idxOf_cons_ne _ differ]
    exact ⟨differ.symm, rfl, by omega⟩
  · rw [List.idxOf_append_of_notMem apre, idxOf_after amid ab.symm, List.idxOf_cons_self]
  · rw [List.idxOf_append_of_notMem bpre, idxOf_at bmid]

omit [DecidableRel R] [DecidableEq α] in
theorem Move.mem (m : Move R l l') {x : α} :
    x ∈ l ↔ x ∈ m.pre ∨ x = m.a ∨ x ∈ m.mid ∨ x = m.b ∨ x ∈ m.post := by
  obtain ⟨pre, a, mid, b, post, rfl, rfl, _, _, _, _⟩ := m
  simp

omit [DecidableRel R] in
/-- Where a move leaves each element. -/
theorem Move.pos (m : Move R l l') (nodup : l.Nodup) {x : α} (member : x ∈ l) :
    l'.idxOf x =
      if x = m.a then l.idxOf m.b
      else if l.idxOf m.a < l.idxOf x ∧ l.idxOf x ≤ l.idxOf m.b then l.idxOf x - 1
      else l.idxOf x := by
  obtain ⟨posA, posB, before, between, after, differ, posA', posB', absent⟩ := m.parts nodup
  rw [posA, posB]
  rcases m.mem.mp member with first | rfl | early | rfl | last
  · have small := List.idxOf_lt_length_of_mem first
    obtain ⟨old, new⟩ := before x first
    have other : x ≠ m.a := by
      rintro rfl
      exact absent first
    rw [if_neg other, if_neg (by omega), old, new]
  · rw [if_pos rfl, posA']
  · have small := List.idxOf_lt_length_of_mem early
    obtain ⟨other, old, new⟩ := between x early
    rw [if_neg other, if_pos (by omega), new]
    omega
  · rw [if_neg differ, if_pos (by omega), posB']
    omega
  · obtain ⟨other, old, new⟩ := after x last
    rw [if_neg other, if_neg (by omega), new]

omit [DecidableRel R] in
theorem Move.lt (m : Move R l l') (nodup : l.Nodup) : l.idxOf m.a < l.idxOf m.b := by
  obtain ⟨posA, posB, _⟩ := m.parts nodup
  omega

omit [DecidableRel R] in
/-- Nothing before the element moved has an element to follow. -/
theorem Move.early (m : Move R l l') (nodup : l.Nodup) {x y : α} (hx : x ∈ l) (hy : y ∈ l)
    (first : l.idxOf x < l.idxOf m.a) (order : l.idxOf x < l.idxOf y) : ¬ R x y := by
  obtain ⟨posA, posB, before, between, after, _⟩ := m.parts nodup
  have inside : x ∈ m.pre := by
    rcases m.mem.mp hx with first | rfl | early | rfl | last
    · exact first
    · omega
    · have := (between x early).2.1
      omega
    · omega
    · have := (after x last).2.1
      omega
  rcases m.mem.mp hy with also | rfl | early | rfl | last
  · rw [(before x inside).1, (before y also).1] at order
    have sorted := List.pairwise_iff_getElem.mp m.settled _ _ (List.idxOf_lt_length_of_mem inside)
      (List.idxOf_lt_length_of_mem also) order
    rwa [List.getElem_idxOf, List.getElem_idxOf] at sorted
  all_goals exact m.clear x inside _ (by simp [*])

omit [DecidableRel R] in
theorem Move.between (m : Move R l l') (nodup : l.Nodup) {c : α} (member : c ∈ l)
    (after : l.idxOf m.a < l.idxOf c) (before : l.idxOf c < l.idxOf m.b) : ¬ R m.a c := by
  obtain ⟨posA, posB, first, _, last, _⟩ := m.parts nodup
  rcases m.mem.mp member with inside | rfl | early | rfl | inside
  · have := (first c inside).1
    have := List.idxOf_lt_length_of_mem inside
    omega
  · omega
  · exact m.first c early
  · omega
  · have := (last c inside).2.1
    omega

end Positions

section Count

omit [DecidableRel R] [DecidableEq α] in
theorem Late.shape {pos : α → Nat} {c : List α} (late : Late R pos c) :
    ∃ z y rest, c = z :: y :: rest ∧ (z :: y :: rest).IsChain (fun u v => R v u) ∧
      ∀ x ∈ y :: rest, pos x < pos z := by
  match c, late with
  | z :: y :: rest, late => exact ⟨z, y, rest, rfl, late.1, late.2⟩

omit [DecidableRel R] in
/-- A chain that leaves the moved element for one before `b` stays before it. -/
theorem Move.chain_early (m : Move R l l') (nodup : l.Nodup) {s t : List α}
    (chain : (s ++ m.a :: t).IsChain (fun u v => R v u))
    (inside : ∀ u ∈ s, u ∈ l ∧ u ≠ m.a ∧ l.idxOf u < l.idxOf m.b) :
    ∀ u ∈ s, l.idxOf u < l.idxOf m.a := by
  induction s with
  | nil => simp
  | cons u s ih =>
      have early := ih (by exact chain.tail) fun v member => inside v (List.mem_cons_of_mem u member)
      obtain ⟨member, other, before⟩ := inside u (List.mem_cons_self ..)
      intro v listed
      rcases List.mem_cons.mp listed with rfl | later
      · cases s with
        | nil =>
            have follows : R m.a v := (List.isChain_cons_cons.mp chain).1
            have apart : l.idxOf v ≠ l.idxOf m.a := fun same =>
              other ((List.idxOf_inj member).mp same)
            by_contra late
            exact m.between nodup member (by omega) before follows
        | cons w s =>
            have follows : R w v := (List.isChain_cons_cons.mp chain).1
            have first := early w (List.mem_cons_self ..)
            by_contra late
            exact m.early nodup (inside w (by simp)).1 member first (by omega) follows
      · exact early v later

omit [DecidableRel R] in
/-- A late chain through the moved element ends behind `b`, or goes straight
on to `b`. -/
theorem Move.chain_end (m : Move R l l') (nodup : l.Nodup) {z : α} {s t : List α}
    (chain : (z :: (s ++ m.a :: t)).IsChain (fun u v => R v u))
    (last : ∀ x ∈ s ++ m.a :: t, l.idxOf x < l.idxOf z)
    (members : ∀ x ∈ z :: (s ++ m.a :: t), x ∈ l) (distinct : (z :: (s ++ m.a :: t)).Nodup)
    (bound : l.idxOf z ≤ l.idxOf m.b) : s = [] ∧ z = m.b := by
  have behind : l.idxOf m.a < l.idxOf z := last m.a (by simp)
  have hz : z ∈ l := members z (by simp)
  cases s with
  | nil =>
      have follows : R m.a z := (List.isChain_cons_cons.mp chain).1
      refine ⟨rfl, (List.idxOf_inj hz).mp ?_⟩
      by_contra apart
      exact m.between nodup hz behind (by omega) follows
  | cons u s =>
      have follows : R u z := (List.isChain_cons_cons.mp chain).1
      have apart : m.a ∉ u :: s := by
        have disjoint := (List.nodup_append.mp (List.nodup_cons.mp distinct).2).2.2
        exact fun inside => disjoint _ inside m.a (by simp) rfl
      have first := m.chain_early nodup (s := u :: s) (by exact chain.tail) (fun v member =>
        ⟨members v (by simp only [List.mem_cons, List.mem_append] at member ⊢; tauto),
          fun same => apart (same ▸ member),
          lt_of_lt_of_le (last v (List.mem_append_left _ member)) bound⟩) u (by simp)
      exact absurd follows (m.early nodup (members u (by simp)) hz first (by omega))

/-- A chain that ends at the moved element, taken on to `b`; and back. -/
def grow (a b : α) (c : List α) : List α := if c.head? = some a then b :: c else c

def shrink (a b : α) (c : List α) : List α := if c.take 2 = [b, a] then c.tail else c

omit [DecidableRel R] [DecidableEq α] in
/-- In a relation without circles, `b` is on no chain to an element it follows. -/
theorem Acyclic.notMem (acyclic : Acyclic R) {a b : α} {t : List α} (follows : R a b)
    (chain : (a :: t).IsChain (fun u v => R v u)) (distinct : (a :: t).Nodup) (apart : a ≠ b) :
    b ∉ t := by
  intro inside
  have reach : ∀ {u : α} {t : List α}, (u :: t).IsChain (fun u v => R v u) → (u :: t).Nodup →
      ∀ v ∈ t, Relation.TransGen (fun x y => x ≠ y ∧ R x y) v u := by
    intro u t chain distinct
    induction t generalizing u with
    | nil => simp
    | cons w t ih =>
        obtain ⟨edge, rest⟩ := List.isChain_cons_cons.mp chain
        obtain ⟨alone, rest'⟩ := List.nodup_cons.mp distinct
        have first : Relation.TransGen (fun x y => x ≠ y ∧ R x y) w u :=
          .single ⟨fun same => alone (by simp [same]), edge⟩
        intro v member
        rcases List.mem_cons.mp member with rfl | later
        · exact first
        · exact (ih rest rest' v later).trans first
  exact acyclic a (.head ⟨apart, follows⟩ (reach chain distinct b inside))

omit [DecidableRel R] in
/-- Two other elements, or the moved one and another behind `b`, are in the
same order before and after a move. -/
theorem Move.lt_of_lt (m : Move R l l') (nodup : l.Nodup) {x z : α} (hx : x ∈ l) (hz : z ∈ l)
    (other : z ≠ m.a) (order : l'.idxOf x < l'.idxOf z) : l.idxOf x < l.idxOf z := by
  have lt := m.lt nodup
  rw [m.pos nodup hx, m.pos nodup hz, if_neg other] at order
  by_cases same : x = m.a
  · rw [if_pos same] at order
    rw [same]
    split at order <;> omega
  · have apart : l.idxOf z ≠ l.idxOf m.a := fun eq => other ((List.idxOf_inj hz).mp eq)
    have apart' : l.idxOf x ≠ l.idxOf m.a := fun eq => same ((List.idxOf_inj hx).mp eq)
    rw [if_neg same] at order
    split at order <;> split at order <;> omega

omit [DecidableRel R] in
theorem Move.lt_new (m : Move R l l') (nodup : l.Nodup) {x z : α} (hx : x ∈ l) (hz : z ∈ l)
    (other : z ≠ m.a) (behind : x = m.a → l.idxOf m.b < l.idxOf z)
    (order : l.idxOf x < l.idxOf z) : l'.idxOf x < l'.idxOf z := by
  have lt := m.lt nodup
  rw [m.pos nodup hx, m.pos nodup hz, if_neg other]
  by_cases same : x = m.a
  · have := behind same
    rw [if_pos same]
    split <;> omega
  · have apart : l.idxOf x ≠ l.idxOf m.a := fun eq => same ((List.idxOf_inj hx).mp eq)
    rw [if_neg same]
    split <;> split <;> omega

omit [DecidableRel R] in
/-- Before the moved element's new place is before `b`'s old one. -/
theorem Move.lt_b (m : Move R l l') (nodup : l.Nodup) {x : α} (hx : x ∈ l) (other : x ≠ m.a)
    (apart : x ≠ m.b) : l'.idxOf x < l'.idxOf m.a ↔ l.idxOf x < l.idxOf m.b := by
  have lt := m.lt nodup
  have differ : l.idxOf x ≠ l.idxOf m.b := fun eq => apart ((List.idxOf_inj hx).mp eq)
  have ha : m.a ∈ l := m.mem.mpr (.inr (.inl rfl))
  rw [m.pos nodup hx, m.pos nodup ha, if_pos rfl, if_neg other]
  split <;> omega

omit [DecidableRel R] in
theorem Move.b_lt_a (m : Move R l l') (nodup : l.Nodup) : l'.idxOf m.b < l'.idxOf m.a := by
  obtain ⟨_, _, _, _, _, _, posA, posB, _⟩ := m.parts nodup
  omega

omit [DecidableRel R] in
theorem Move.b_ne_a (m : Move R l l') (nodup : l.Nodup) : m.b ≠ m.a := by
  obtain ⟨_, _, _, _, _, differ, _⟩ := m.parts nodup
  exact differ

omit [DecidableEq α] in
theorem distinct_of_subperm {c : List α} (sub : c.Subperm l) (nodup : l.Nodup) : c.Nodup := by
  obtain ⟨d, permuted, inside⟩ := sub
  exact permuted.nodup_iff.mp (inside.nodup nodup)

theorem Move.grow_mem (m : Move R l l') (nodup : l.Nodup) (acyclic : Acyclic R) {c : List α}
    (late : c ∈ late_chains R l') : grow m.a m.b c ∈ (late_chains R l).erase [m.b, m.a] := by
  obtain ⟨sub, shape⟩ := mem_late_chains.mp late
  obtain ⟨z, y, rest, rfl, chain, last⟩ := shape.shape
  have sub : (z :: y :: rest).Subperm l := sub.trans m.perm.subperm
  have distinct := distinct_of_subperm sub nodup
  have member : ∀ x ∈ z :: y :: rest, x ∈ l := fun x inside => sub.subset inside
  rw [Finset.mem_erase, mem_late_chains]
  by_cases ends : z = m.a
  · subst ends
    have grown : grow m.a m.b (m.a :: y :: rest) = m.b :: m.a :: y :: rest := if_pos rfl
    have absent : m.b ∉ y :: rest := acyclic.notMem m.follows chain distinct (m.b_ne_a nodup).symm
    have fresh : m.b ∉ m.a :: y :: rest := fun inside =>
      (List.mem_cons.mp inside).elim (m.b_ne_a nodup) absent
    have hb : m.b ∈ l := m.mem.mpr (.inr (.inr (.inr (.inl rfl))))
    rw [grown]
    refine ⟨by simp, ?_, List.isChain_cons_cons.mpr ⟨m.follows, chain⟩, ?_⟩
    · refine List.subperm_of_subset (List.nodup_cons.mpr ⟨fresh, distinct⟩) fun x inside => ?_
      rcases List.mem_cons.mp inside with rfl | inside
      · exact hb
      · exact member x inside
    · intro x inside
      rcases List.mem_cons.mp inside with rfl | inside
      · exact m.lt nodup
      · have other : x ≠ m.a := fun same =>
          (List.nodup_cons.mp distinct).1 (same ▸ inside)
        have apart : x ≠ m.b := fun same => absent (same ▸ inside)
        exact (m.lt_b nodup (member x (List.mem_cons_of_mem _ inside)) other apart).mp
          (last x inside)
  · have kept : grow m.a m.b (z :: y :: rest) = z :: y :: rest := if_neg (by simpa using ends)
    rw [kept]
    refine ⟨?_, sub, chain, fun x inside => ?_⟩
    · intro same
      simp only [List.cons.injEq] at same
      have order := last y (by simp)
      rw [same.1, same.2.1] at order
      exact absurd order (Nat.lt_asymm (m.b_lt_a nodup))
    · exact m.lt_of_lt nodup (member x (List.mem_cons_of_mem _ inside)) (member z (by simp)) ends
        (last x inside)

/-- No chain ends at the moved element before the move. -/
theorem Move.head_ne (m : Move R l l') (nodup : l.Nodup) {z : α} {d : List α}
    (late : z :: d ∈ late_chains R l) : z ≠ m.a := by
  obtain ⟨sub, shape⟩ := mem_late_chains.mp late
  rintro rfl
  obtain ⟨_, y, rest, same, chain, last⟩ := shape.shape
  cases same
  exact m.early nodup (sub.subset (by simp)) (sub.subset (by simp)) (last y (by simp))
    (last y (by simp)) (List.isChain_cons_cons.mp chain).1

theorem Move.shrink_mem (m : Move R l l') (nodup : l.Nodup) {d : List α}
    (late : d ∈ (late_chains R l).erase [m.b, m.a]) : shrink m.a m.b d ∈ late_chains R l' := by
  obtain ⟨more, found⟩ := Finset.mem_erase.mp late
  obtain ⟨sub, shape⟩ := mem_late_chains.mp found
  obtain ⟨z, y, rest, rfl, chain, last⟩ := shape.shape
  have distinct := distinct_of_subperm sub nodup
  have member : ∀ x ∈ z :: y :: rest, x ∈ l := fun x inside => sub.subset inside
  have hz := member z (by simp)
  have other : z ≠ m.a := m.head_ne nodup found
  -- a chain not through the moved element, or ending behind `b`, is still late
  have stays : (m.a ∈ y :: rest → l.idxOf m.b < l.idxOf z) →
      z :: y :: rest ∈ late_chains R l' := by
    intro behind
    refine mem_late_chains.mpr ⟨sub.trans m.perm.symm.subperm, chain, fun x inside => ?_⟩
    exact m.lt_new nodup (member x (List.mem_cons_of_mem _ inside)) hz other
      (fun same => behind (same ▸ inside)) (last x inside)
  by_cases straight : (z :: y :: rest).take 2 = [m.b, m.a]
  · rw [shrink, if_pos straight]
    simp only [List.take_succ_cons, List.take_zero, List.cons.injEq, and_true] at straight
    obtain ⟨rfl, rfl⟩ := straight
    cases rest with
    | nil => exact absurd rfl more
    | cons w rest =>
        have sub' : (m.a :: w :: rest).Subperm l := (List.sublist_cons_self _ _).subperm.trans sub
        refine mem_late_chains.mpr ⟨sub'.trans m.perm.symm.subperm, chain.tail, fun x inside => ?_⟩
        obtain ⟨aloneB, rest'⟩ := List.nodup_cons.mp distinct
        have differ : x ≠ m.a := fun same => (List.nodup_cons.mp rest').1 (same ▸ inside)
        have apart : x ≠ m.b := fun same => aloneB (same ▸ List.mem_cons_of_mem _ inside)
        exact (m.lt_b nodup (member x (by simp [List.mem_cons.mp inside])) differ apart).mpr
          (last x (List.mem_cons_of_mem _ inside))
  · rw [shrink, if_neg straight]
    apply stays
    intro through
    by_contra bound
    obtain ⟨s, t, split⟩ := List.append_of_mem through
    rw [split] at chain last member distinct straight
    obtain ⟨rfl, rfl⟩ := m.chain_end nodup chain last member distinct (by omega)
    exact straight rfl

theorem Move.grow_shrink (m : Move R l l') (nodup : l.Nodup) {d : List α}
    (late : d ∈ late_chains R l) : grow m.a m.b (shrink m.a m.b d) = d := by
  obtain ⟨z, y, rest, rfl, _⟩ := (mem_late_chains.mp late).2.shape
  unfold shrink
  split
  · rename_i straight
    simp only [List.take_succ_cons, List.take_zero, List.cons.injEq, and_true] at straight
    obtain ⟨rfl, rfl⟩ := straight
    exact if_pos rfl
  · exact if_neg (by simpa using m.head_ne nodup late)

theorem Move.shrink_grow (m : Move R l l') (nodup : l.Nodup) {c : List α}
    (late : c ∈ late_chains R l') : shrink m.a m.b (grow m.a m.b c) = c := by
  obtain ⟨z, y, rest, rfl, _, last⟩ := (mem_late_chains.mp late).2.shape
  unfold grow
  split
  · rename_i ends
    rw [List.head?_cons, Option.some_inj] at ends
    subst ends
    exact if_pos rfl
  · refine if_neg fun straight => ?_
    simp only [List.take_succ_cons, List.take_zero, List.cons.injEq, and_true] at straight
    obtain ⟨rfl, rfl⟩ := straight
    exact absurd (last m.a (by simp)) (Nat.lt_asymm (m.b_lt_a nodup))

/-- A move undoes one late chain and makes no other. -/
theorem Move.card (m : Move R l l') (nodup : l.Nodup) (acyclic : Acyclic R) :
    (late_chains R l).card = (late_chains R l').card + 1 := by
  have first : [m.b, m.a] ∈ late_chains R l := by
    have ha : m.a ∈ l := m.mem.mpr (.inr (.inl rfl))
    have hb : m.b ∈ l := m.mem.mpr (.inr (.inr (.inr (.inl rfl))))
    refine mem_late_chains.mpr ⟨List.subperm_of_subset ?_ ?_, ?_, ?_⟩
    · simpa using m.b_ne_a nodup
    · simp [ha, hb]
    · simpa using m.follows
    · simpa using m.lt nodup
  rw [← Finset.card_erase_add_one first]
  congr 1
  refine Finset.card_nbij' (shrink m.a m.b) (grow m.a m.b) (fun d => m.shrink_mem nodup)
    (fun c => m.grow_mem nodup acyclic) (fun d late => ?_) fun c => m.shrink_grow nodup
  exact m.grow_shrink nodup (Finset.mem_of_mem_erase late)

/-- A list is settled when no chain is late. -/
theorem settled_iff (nodup : l.Nodup) :
    reorder R l = none ↔ (late_chains R l).card = 0 := by
  rw [reorder_none, Finset.card_eq_zero, Finset.eq_empty_iff_forall_notMem]
  constructor
  · intro settled c late
    obtain ⟨sub, shape⟩ := mem_late_chains.mp late
    obtain ⟨z, y, rest, rfl, chain, last⟩ := shape.shape
    have hy : y ∈ l := sub.subset (by simp)
    have hz : z ∈ l := sub.subset (by simp)
    have free := List.pairwise_iff_getElem.mp settled _ _ (List.idxOf_lt_length_of_mem hy)
      (List.idxOf_lt_length_of_mem hz) (last y (by simp))
    rw [List.getElem_idxOf, List.getElem_idxOf] at free
    exact free (List.isChain_cons_cons.mp chain).1
  · intro none_late
    rw [List.pairwise_iff_getElem]
    intro i j hi hj order follows
    refine none_late [l[j], l[i]] (mem_late_chains.mpr ⟨List.subperm_of_subset ?_ ?_, ?_, ?_⟩)
    · have differ : l[j] ≠ l[i] := fun same =>
        absurd ((List.Nodup.getElem_inj_iff nodup).mp same) (by omega)
      simpa using differ
    · simp
    · simpa using follows
    · simpa [nodup.idxOf_getElem] using order

end Count

section Passes

/-- The passes end in a settled list exactly when they outnumber the late
chains. -/
theorem passes_settle (acyclic : Acyclic R) (nodup : l.Nodup) (fuel : Nat) :
    (passes R fuel l).2 = false ↔ (late_chains R l).card < fuel := by
  induction fuel generalizing l with
  | zero => simp [passes]
  | succ fuel ih =>
      rw [passes]
      cases moved : reorder R l with
      | none => simp [(settled_iff nodup).mp moved]
      | some l' =>
          obtain ⟨m⟩ := reorder_some moved
          dsimp only
          rw [ih (m.perm.nodup_iff.mpr nodup), m.card nodup acyclic]
          omega

omit [DecidableEq α] in
theorem passes_perm (fuel : Nat) : (passes R fuel l).1.Perm l := by
  induction fuel generalizing l with
  | zero => exact .refl l
  | succ fuel ih =>
      rw [passes]
      cases moved : reorder R l with
      | none => exact .refl l
      | some l' =>
          obtain ⟨m⟩ := reorder_some moved
          exact ih.trans m.perm

omit [DecidableEq α] in
theorem passes_pairwise (fuel : Nat) (ended : (passes R fuel l).2 = false) :
    (passes R fuel l).1.Pairwise fun x y => ¬ R x y := by
  induction fuel generalizing l with
  | zero => cases ended
  | succ fuel ih =>
      rw [passes] at ended ⊢
      cases moved : reorder R l with
      | none => exact reorder_none.mp moved
      | some l' =>
          rw [moved] at ended
          exact ih ended

omit [DecidableRel R] in
/-- In a settled list an element stands behind each one it follows. -/
theorem idxOf_lt_of_pairwise (settled : l.Pairwise fun x y => ¬ R x y) {x y : α} (hx : x ∈ l)
    (hy : y ∈ l) (differ : x ≠ y) (follows : R x y) : l.idxOf y < l.idxOf x := by
  have apart : l.idxOf x ≠ l.idxOf y := fun same => differ ((List.idxOf_inj hx).mp same)
  by_contra ahead
  have free := List.pairwise_iff_getElem.mp settled _ _ (List.idxOf_lt_length_of_mem hx)
    (List.idxOf_lt_length_of_mem hy) (by omega)
  rw [List.getElem_idxOf, List.getElem_idxOf] at free
  exact free follows

omit [DecidableRel R] in
/-- Only a relation without circles can be settled. -/
theorem acyclic_of_pairwise (settled : l.Pairwise fun x y => ¬ R x y)
    (members : ∀ x y, R x y → x ∈ l ∧ y ∈ l) : Acyclic R := by
  have step : ∀ {x y}, x ≠ y ∧ R x y → l.idxOf y < l.idxOf x := fun {x y} edge =>
    idxOf_lt_of_pairwise settled (members x y edge.2).1 (members x y edge.2).2 edge.1 edge.2
  have down : ∀ {x y}, Relation.TransGen (fun x y => x ≠ y ∧ R x y) x y →
      l.idxOf y < l.idxOf x := by
    intro x y path
    induction path with
    | single edge => exact step edge
    | tail path edge ih => exact (step edge).trans ih
  exact fun a circle => absurd (down circle) (lt_irrefl _)

end Passes

end SoaPort.Lib
