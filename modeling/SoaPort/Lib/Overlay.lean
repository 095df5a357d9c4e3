import Mathlib.Data.List.Basic
import Mathlib.Tactic.Common

namespace SoaPort.Lib

/-! Changes of a span of a memory. -/

section Overlay

variable {β : Type}

/-- The `n` cells from `at_` on changed, each by its place in the span. -/
def overlay (at_ n : Nat) (change : Nat → β → β) (mem : Nat → β) : Nat → β := fun a =>
  if at_ ≤ a ∧ a < at_ + n then change (a - at_) (mem a) else mem a

def Apart (a n b m : Nat) : Prop := a + n ≤ b ∨ b + m ≤ a

theorem Apart.symm {a n b m : Nat} (apart : Apart a n b m) : Apart b m a n := Or.symm apart

variable {a n b m : Nat} {f g : Nat → β → β} {mem mem' : Nat → β}

theorem overlay_inside {i : Nat} (inside : i < n) :
    overlay a n f mem (a + i) = f i (mem (a + i)) := by
  rw [overlay, if_pos ⟨by omega, by omega⟩, Nat.add_sub_cancel_left]

theorem overlay_apart (apart : Apart a n b m) {i : Nat} (inside : i < m) :
    overlay a n f mem (b + i) = mem (b + i) := by
  have outside : ¬ (a ≤ b + i ∧ b + i < a + n) := by
    rintro ⟨low, high⟩
    rcases apart with below | above <;> omega
  rw [overlay, if_neg outside]

/-- What changes a span the same way does the same to the memory. -/
theorem overlay_congr (same : ∀ i < n, f i (mem (a + i)) = g i (mem (a + i))) :
    overlay a n f mem = overlay a n g mem := by
  funext x
  by_cases inside : a ≤ x ∧ x < a + n
  · have here := same (x - a) (by omega)
    rw [Nat.add_sub_cancel' inside.1] at here
    rw [overlay, overlay, if_pos inside, if_pos inside, here]
  · rw [overlay, overlay, if_neg inside, if_neg inside]

theorem overlay_comm (apart : Apart a n b m) :
    overlay a n f (overlay b m g mem) = overlay b m g (overlay a n f mem) := by
  funext x
  unfold overlay
  by_cases left : a ≤ x ∧ x < a + n
  · have right : ¬ (b ≤ x ∧ x < b + m) := by
      rintro ⟨low, high⟩
      rcases apart with below | above <;> omega
    simp only [if_pos left, if_neg right]
  · simp only [if_neg left]

end Overlay

/-! Operations in order, some of them held back. -/

section Held

variable {κ μ ι : Type} [DecidableEq ι] {act : κ → μ → μ} {key : κ → ι}

def run_ops (act : κ → μ → μ) (ops : List κ) (m : μ) : μ := ops.foldl (fun m c => act c m) m

theorem run_ops_append (ops more : List κ) (m : μ) :
    run_ops act (ops ++ more) m = run_ops act more (run_ops act ops m) :=
  List.foldl_append

/-- What no operation changes of a state is the same after them all. -/
theorem run_ops_keeps {σ : Type} (view : μ → σ) {ops : List κ}
    (keeps : ∀ c ∈ ops, ∀ m, view (act c m) = view m) (m : μ) :
    view (run_ops act ops m) = view m := by
  induction ops generalizing m with
  | nil => rfl
  | cons c ops ih =>
      have rest := ih (fun d member => keeps d (List.mem_cons_of_mem _ member)) (act c m)
      exact rest.trans (keeps c List.mem_cons_self m)

/-- An operation that commutes with all after it may go last. -/
theorem run_ops_last {p : κ} {before after : List κ}
    (apart : ∀ c ∈ after, ∀ m, act c (act p m) = act p (act c m)) (m : μ) :
    run_ops act (before ++ p :: after) m = act p (run_ops act (before ++ after) m) := by
  rw [run_ops_append, run_ops_append]
  generalize run_ops act before m = here
  induction after generalizing here with
  | nil => rfl
  | cons c after ih =>
      have first := apart c List.mem_cons_self here
      have rest := ih (fun d member => apart d (List.mem_cons_of_mem _ member)) (act c here)
      change run_ops act after (act c (act p here)) = act p (run_ops act after (act c here))
      rw [first]
      exact rest

/-- The operations but those held back. -/
def settled (key : κ → ι) (held : List ι) (ops : List κ) : List κ :=
  ops.filter fun c => key c ∉ held

theorem settled_sublist (held : List ι) (ops : List κ) : (settled key held ops).Sublist ops :=
  List.filter_sublist

theorem mem_settled {held : List ι} {ops : List κ} {c : κ} :
    c ∈ settled key held ops ↔ c ∈ ops ∧ key c ∉ held := by
  rw [settled, List.mem_filter, decide_eq_true_iff]

theorem settled_nil (ops : List κ) : settled key [] ops = ops := by
  rw [settled, List.filter_eq_self]
  intro c _
  exact decide_eq_true List.not_mem_nil

theorem settled_congr {held held' : List ι} {ops : List κ}
    (same : ∀ c ∈ ops, key c ∈ held ↔ key c ∈ held') :
    settled key held ops = settled key held' ops := by
  apply List.filter_congr
  intro c member
  rw [decide_eq_decide, same c member]

/-- One more operation, held back. -/
theorem settled_held {held : List ι} {ops : List κ} {p : κ} (fresh : ∀ c ∈ ops, key c ≠ key p) :
    settled key (held ++ [key p]) (ops ++ [p]) = settled key held ops := by
  have out : settled key (held ++ [key p]) [p] = [] := by
    rw [settled, List.filter_cons_of_neg, List.filter_nil]
    simp
  have rest : settled key (held ++ [key p]) ops = settled key held ops := by
    apply settled_congr
    intro c member
    simp [fresh c member]
  calc settled key (held ++ [key p]) (ops ++ [p])
      = settled key (held ++ [key p]) ops ++ settled key (held ++ [key p]) [p] :=
        List.filter_append ..
    _ = settled key held ops := by rw [out, rest, List.append_nil]

/-- Letting go of an operation that commutes with all after it is running it now. -/
theorem run_ops_release {held : List ι} {ops : List κ} {p : κ} {before after : List κ}
    (split : ops = before ++ p :: after) (fresh : ∀ c ∈ before ++ after, key c ≠ key p)
    (free : key p ∉ held) (apart : ∀ c ∈ after, ∀ m, act c (act p m) = act p (act c m)) (m : μ) :
    run_ops act (settled key held ops) m =
      act p (run_ops act (settled key (key p :: held) ops) m) := by
  have others : ∀ part : List κ, (∀ c ∈ part, key c ≠ key p) →
      settled key (key p :: held) part = settled key held part := by
    intro part different
    apply settled_congr
    intro c member
    simp [different c member]
  have left := others before fun c member => fresh c (List.mem_append_left _ member)
  have right := others after fun c member => fresh c (List.mem_append_right _ member)
  have kept : settled key held ops = settled key held before ++ p :: settled key held after := by
    simp [split, settled, free]
  have dropped : settled key (key p :: held) ops =
      settled key held before ++ settled key held after := by
    rw [← left, ← right, split]
    simp [settled]
  rw [kept, dropped]
  exact run_ops_last (fun c member => apart c (List.mem_of_mem_filter member)) m

end Held

end SoaPort.Lib
