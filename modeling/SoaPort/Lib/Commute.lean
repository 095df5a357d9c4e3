import Mathlib.Data.List.Perm.Basic

namespace SoaPort.Lib

/-! Steps that give a result and change a state; two of them commute when
either order leaves the same. -/

section Commute

variable {μ σ τ κ : Type}

structure Commute (f : μ → σ × μ) (g : μ → τ × μ) : Prop where
  state : ∀ m, (g (f m).2).2 = (f (g m).2).2
  left : ∀ m, (f (g m).2).1 = (f m).1
  right : ∀ m, (g (f m).2).1 = (g m).1

theorem Commute.symm {f : μ → σ × μ} {g : μ → τ × μ} (commute : Commute f g) : Commute g f :=
  ⟨fun m => (commute.state m).symm, commute.right, commute.left⟩

/-- Each cell's step in turn. -/
def run_cells (act : κ → μ → κ × μ) : List κ → μ → List κ × μ
  | [], m => ([], m)
  | c :: cells, m =>
      let (c, m) := act c m
      let (cells, m) := run_cells act cells m
      (c :: cells, m)

variable {act : κ → μ → κ × μ}

theorem run_cells_append (cells more : List κ) (m : μ) :
    run_cells act (cells ++ more) m =
      ((run_cells act cells m).1 ++ (run_cells act more (run_cells act cells m).2).1,
        (run_cells act more (run_cells act cells m).2).2) := by
  induction cells generalizing m with
  | nil => rfl
  | cons c cells ih =>
      rw [List.cons_append, run_cells, run_cells]
      dsimp only
      rw [ih, List.cons_append]

theorem run_cells_flatten (blocks : List (List κ)) (m : μ) :
    run_cells act blocks.flatten m =
      ((run_cells (run_cells act) blocks m).1.flatten, (run_cells (run_cells act) blocks m).2) := by
  induction blocks generalizing m with
  | nil => rfl
  | cons block blocks ih =>
      rw [List.flatten_cons, run_cells_append, ih, run_cells]
      rfl

/-- What no step changes of a cell is the same after them all. -/
theorem run_cells_map {f : κ → τ} (same : ∀ c m, f (act c m).1 = f c) (cells : List κ) (m : μ) :
    (run_cells act cells m).1.map f = cells.map f := by
  induction cells generalizing m with
  | nil => rfl
  | cons c cells ih =>
      rw [run_cells, List.map_cons, List.map_cons, ih, same]

theorem run_cells_congr {act' : κ → μ → κ × μ} {cells : List κ} {keeps : μ → Prop}
    (same : ∀ c ∈ cells, ∀ m, keeps m → act c m = act' c m ∧ keeps (act c m).2) {m : μ}
    (now : keeps m) :
    run_cells act cells m = run_cells act' cells m ∧ keeps (run_cells act cells m).2 := by
  induction cells generalizing m with
  | nil => exact ⟨rfl, now⟩
  | cons c cells ih =>
      obtain ⟨here, kept⟩ := same c List.mem_cons_self m now
      obtain ⟨rest, still⟩ := ih (fun d member => same d (List.mem_cons_of_mem _ member)) kept
      rw [run_cells, run_cells]
      dsimp only
      rw [← here, rest]
      exact ⟨rfl, rest ▸ still⟩

/-- A step that commutes with every cell's commutes with them all. -/
theorem Commute.cells {f : μ → σ × μ} {cells : List κ}
    (each : ∀ c ∈ cells, Commute f (act c)) : Commute f (run_cells act cells) := by
  induction cells with
  | nil => exact ⟨fun _ => rfl, fun _ => rfl, fun _ => rfl⟩
  | cons c cells ih =>
      have first := each c List.mem_cons_self
      have rest := ih fun d member => each d (List.mem_cons_of_mem _ member)
      constructor
      · intro m
        dsimp only [run_cells]
        rw [first.state, rest.state]
      · intro m
        dsimp only [run_cells]
        rw [rest.left, first.left]
      · intro m
        dsimp only [run_cells]
        rw [first.right, first.state, rest.right]

theorem Commute.blocks {as bs : List κ} (each : ∀ a ∈ as, ∀ b ∈ bs, Commute (act a) (act b)) :
    Commute (run_cells act as) (run_cells act bs) :=
  .symm (.cells fun a left => .symm (.cells fun b right => each a left b right))

/-- Cells whose steps commute may go in any order. -/
theorem run_cells_perm {cells cells' : List κ} (perm : cells'.Perm cells)
    (apart : cells.Pairwise fun a b => Commute (act a) (act b)) (m : μ) :
    (run_cells act cells' m).2 = (run_cells act cells m).2 ∧
      (run_cells act cells' m).1.Perm (run_cells act cells m).1 := by
  induction perm generalizing m with
  | nil => exact ⟨rfl, .nil⟩
  | cons c _ ih =>
      obtain ⟨state, results⟩ := ih (List.pairwise_cons.mp apart).2 (act c m).2
      exact ⟨state, results.cons _⟩
  | swap a b cells =>
      obtain ⟨first, _⟩ := List.pairwise_cons.mp apart
      have commute := first b List.mem_cons_self
      dsimp only [run_cells]
      rw [commute.state, commute.left, commute.right]
      exact ⟨rfl, .swap _ _ _⟩
  | trans _ second ih ih' =>
      have middle := (second.pairwise_iff fun commute => commute.symm).mpr apart
      obtain ⟨state, results⟩ := ih middle m
      obtain ⟨state', results'⟩ := ih' apart m
      exact ⟨state.trans state', results.trans results'⟩

end Commute

/-! A memory inside a state, and steps that touch only a part of it. -/

/-- A state that holds a memory, seen and put back. -/
structure Store (μ A β : Type) where
  view : μ → A → β
  put : μ → (A → β) → μ
  view_put : ∀ m v, view (put m v) = v
  put_view : ∀ m, put m (view m) = m
  put_put : ∀ m v w, put (put m v) w = put m w

section Local

variable {μ A β σ τ : Type} {store : Store μ A β} {F G : A → Prop}

/-- A step that reads and writes no memory but `F`'s. -/
structure Local (store : Store μ A β) (F : A → Prop) (f : μ → σ × μ) : Prop where
  rest : ∀ m, (f m).2 = store.put m (store.view (f m).2)
  keeps : ∀ m a, ¬ F a → store.view (f m).2 a = store.view m a
  result : ∀ m n, (∀ a, F a → store.view m a = store.view n a) → (f m).1 = (f n).1
  writes : ∀ m n, (∀ a, F a → store.view m a = store.view n a) →
    ∀ a, F a → store.view (f m).2 a = store.view (f n).2 a

theorem Local.of_pure {f : μ → σ × μ} {r : σ} (same : ∀ m, f m = (r, m)) : Local store F f where
  rest m := by
    rw [same, store.put_view]
  keeps m a _ := by
    rw [same]
  result m n _ := by
    rw [same, same]
  writes m n reads a inside := by
    rw [same, same]
    exact reads a inside

/-- A read of some of `F`'s memory. -/
theorem Local.of_read {f : μ → σ × μ} {g : (A → β) → σ} (same : ∀ m, f m = (g (store.view m), m))
    (depends : ∀ v w : A → β, (∀ a, F a → v a = w a) → g v = g w) : Local store F f where
  rest m := by
    rw [same, store.put_view]
  keeps m a _ := by
    rw [same]
  result m n reads := by
    rw [same, same]
    exact depends _ _ reads
  writes m n reads a inside := by
    rw [same, same]
    exact reads a inside

/-- A write of `F`'s memory, of what does not depend on it. -/
theorem Local.of_write {f : μ → σ × μ} {r : σ} {h : (A → β) → A → β}
    (same : ∀ m, f m = (r, store.put m (h (store.view m)))) (keeps : ∀ v a, ¬ F a → h v a = v a)
    (writes : ∀ v w a, F a → h v a = h w a) : Local store F f where
  rest m := by
    rw [same, store.view_put]
  keeps m a outside := by
    rw [same, store.view_put]
    exact keeps _ a outside
  result m n _ := by
    rw [same, same]
  writes m n _ a inside := by
    rw [same, same, store.view_put, store.view_put]
    exact writes _ _ a inside

theorem Local.widen {f : μ → σ × μ} (within : Local store F f) (wider : ∀ a, F a → G a) :
    Local store G f where
  rest := within.rest
  keeps m a outside := within.keeps m a fun inside => outside (wider a inside)
  result m n same := within.result m n fun a inside => same a (wider a inside)
  writes m n same a inside := by
    by_cases touched : F a
    · exact within.writes m n (fun a inside => same a (wider a inside)) a touched
    · rw [within.keeps m a touched, within.keeps n a touched]
      exact same a inside

theorem Local.bind {f : μ → σ × μ} {g : σ → μ → τ × μ} (first : Local store F f)
    (second : ∀ r, Local store F (g r)) : Local store F fun m => g (f m).1 (f m).2 where
  rest m := by
    have through := (second (f m).1).rest (f m).2
    rw [first.rest m, store.put_put] at through
    rw [← first.rest m] at through
    exact through
  keeps m a outside := by
    rw [(second (f m).1).keeps (f m).2 a outside, first.keeps m a outside]
  result m n same := by
    rw [first.result m n same]
    exact (second (f n).1).result _ _ fun a inside => first.writes m n same a inside
  writes m n same a inside := by
    rw [first.result m n same]
    exact (second (f n).1).writes _ _ (fun a inside => first.writes m n same a inside) a inside

/-- Steps on parts that do not meet commute. -/
theorem Local.commute {f : μ → σ × μ} {g : μ → τ × μ} (left : Local store F f)
    (right : Local store G g) (apart : ∀ a, F a → ¬ G a) : Commute f g := by
  have f_same : ∀ m a, F a → store.view (g m).2 a = store.view m a := fun m a inside =>
    right.keeps m a (apart a inside)
  have g_same : ∀ m a, G a → store.view (f m).2 a = store.view m a := fun m a inside =>
    left.keeps m a fun other => apart a other inside
  constructor
  · intro m
    rw [right.rest, left.rest (g m).2]
    have views : store.view (g (f m).2).2 = store.view (f (g m).2).2 := by
      funext a
      by_cases inside : F a
      · rw [right.keeps _ a (apart a inside)]
        exact left.writes m (g m).2 (fun b member => (f_same m b member).symm) a inside
      · by_cases other : G a
        · rw [left.keeps _ a inside]
          exact right.writes (f m).2 m (g_same m) a other
        · rw [right.keeps _ a other, left.keeps _ a inside, left.keeps _ a inside,
            right.keeps _ a other]
    rw [views, left.rest m, right.rest m, store.put_put, store.put_put]
  · intro m
    exact left.result _ _ (f_same m)
  · intro m
    exact right.result _ _ (g_same m)

end Local

end SoaPort.Lib
