import Mathlib
import SoaPort.Guest.Threads

namespace SoaPort.Guest

/-! Which thread each OSLoadContext goes on with. -/

/-- What was last stored at a context: a new thread's, or a thread's own at its
savepoint `k`. -/
inductive Stored where
  | created (c : OSContext)
  | saved (k : Nat) (c : OSContext)

abbrev Stores := Word → Option Stored

/-- The context OSSaveContext stores: the registers, and 1 in r3. -/
local instance registers_nonempty : NeZero 32 := ⟨by decide⟩

def saved_context (s : Regs) : OSContext :=
  { context_of s with gpr := Function.update s.gpr 3 1 }

/-- What is stored at each context after a step. -/
def track (m : Machine) (stored : Stores) : Step → Stores
  | .create ctx c => Function.update stored ctx (some (.created c))
  | .save => Function.update stored (m.s.gpr 3) (some (.saved m.saves (saved_context m.s)))
  | _ => stored

/-- The registers a context holds. -/
structure Loaded (c : OSContext) (s : Regs) : Prop where
  gpr : s.gpr = c.gpr
  cr : s.cr = c.cr
  lr : s.lr = c.lr
  ctr : s.ctr = c.ctr
  xer : s.xer = c.xer
  fpr : ∀ i, s.fpr i = (c.fpr i, c.psf i)
  fpscr : s.fpscr = c.fpscr
  msr : s.msr = c.srr1
  gqr : s.gqr = c.gqr

/-- The thread stored goes on at its SRR0, with the registers stored: a new one
at its entry, and a saved one at its savepoint, the return from OSSaveContext. -/
def Stored.GoesOn (m : Machine) : Stored → Prop
  | .created c => m.now = .entry c.srr0 ∧ Loaded c m.s
  | .saved k c => m.now = .back k ∧ c.srr0 = m.s.lr ∧ Loaded c m.s

/-- A load goes on with the thread last stored. -/
def Right (m : Machine) (stored : Stores) : Step → Prop
  | .load => ∀ st ∈ stored (m.s.gpr 3), ∃ m', m.step .load = some m' ∧ st.GoesOn m'
  | _ => True

/-- A load of a new thread's context is of one no started thread is known by;
and of a saved one, its SelectThread has not returned since, and no other
thread's context is found for its fiber. -/
def Met (m : Machine) (stored : Stores) : Step → Prop
  | .load => ∀ st ∈ stored (m.s.gpr 3),
      match st with
      | .created _ => ∀ i, by_ctx m (m.s.gpr 3) = some i → (m.g_threads i).started = false
      | .saved k _ => ∃ i f, by_ctx m (m.s.gpr 3) = some i ∧ (m.g_threads i).fiber = some f ∧
          (∃ frame ∈ m.stack f, frame.saved = some k) ∧ (f = m.fiber ∨ by_fiber m f = some i)
  | _ => True

/-- Threads created, saved and loaded at some contexts, and no delivery. -/
def Allowed (ctxs : Finset Word) (m : Machine) (stored : Stores) : Step → Prop
  | .guest _ | .select_returns => True
  | .create ctx c => ctx ∈ ctxs ∧ c.srr0 ≠ 0
  | .save => m.s.gpr 3 ∈ ctxs
  | .load => m.s.gpr 3 ∈ ctxs ∧ stored (m.s.gpr 3) ≠ none
  | _ => False

/-- A property of every step of a run. -/
def Throughout (P : Machine → Stores → Step → Prop) : Machine → Stores → List Step → Prop
  | _, _, [] => True
  | m, stored, e :: es =>
      P m stored e ∧ ∀ m', m.step e = some m' → Throughout P m' (track m stored e) es

variable {m m' : Machine} {stored : Stores} {ctxs : Finset Word}

/-! The table. -/

section Table

/-- The table has one entry at most for a context, each with a savepoint of
its own. -/
structure Table (ctxs : Finset Word) (g_threads : Fin MAX_THREADS → GuestThread) (saves : Nat) :
    Prop where
  unique : ∀ i j, (g_threads i).ctx = (g_threads j).ctx → (g_threads i).ctx ≠ 0 → i = j
  known : ∀ i, (g_threads i).ctx ≠ 0 → (g_threads i).ctx ∈ ctxs
  points : ∀ i k, (g_threads i).jmp = some k → k < saves
  apart : ∀ i j k, (g_threads i).jmp = some k → (g_threads j).jmp = some k → i = j

/-- The table keeps what was stored at each context. -/
structure Keeps (ctxs : Finset Word) (m : Machine) (stored : Stores) : Prop where
  quiet : m.g_irq_ctx = 0
  table : Table ctxs m.g_threads m.saves
  created : ∀ ctx c, stored ctx = some (.created c) →
    ctx ∈ ctxs ∧ m.contexts ctx = c ∧ c.srr0 ≠ 0
  saved : ∀ ctx k c, stored ctx = some (.saved k c) → ctx ∈ ctxs ∧
    ∃ i r, (m.g_threads i).ctx = ctx ∧ (m.g_threads i).started = true ∧
      (m.g_threads i).jmp = some k ∧ (m.g_threads i).saved = some r ∧ c = saved_context r

theorem by_ctx_some {ctx : Word} {i : Fin MAX_THREADS} (found : by_ctx m ctx = some i) :
    (m.g_threads i).ctx = ctx := by
  have here := List.find?_some found
  exact of_decide_eq_true here

theorem by_ctx_none {ctx : Word} (found : by_ctx m ctx = none) (i : Fin MAX_THREADS) :
    (m.g_threads i).ctx ≠ ctx := by
  have here := List.find?_eq_none.mp found i (List.mem_finRange i)
  exact fun same => here (decide_eq_true same)

theorem Keeps.at_ctx (keeps : Keeps ctxs m stored) {ctx : Word} {i : Fin MAX_THREADS}
    (here : (m.g_threads i).ctx = ctx) (some_ : ctx ≠ 0) : by_ctx m ctx = some i := by
  cases found : by_ctx m ctx with
  | none => exact absurd here (by_ctx_none found i)
  | some j =>
      have there := by_ctx_some found
      rw [keeps.table.unique i j (here.trans there.symm) (here ▸ some_)]

theorem by_fiber_ctx {f : Nat} {i : Fin MAX_THREADS} (found : by_fiber m f = some i) :
    (m.g_threads i).ctx ≠ 0 ∧ (m.g_threads i).fiber = some f := by
  have here := List.find?_some found
  rw [Bool.and_eq_true, decide_eq_true_eq, decide_eq_true_eq] at here
  exact here

/-- There is room for a context of those few. -/
theorem Keeps.room (keeps : Keeps ctxs m stored) (few : ctxs.card ≤ MAX_THREADS) {ctx : Word}
    (member : ctx ∈ ctxs) (none : by_ctx m ctx = none) : ∃ i n, alloc m ctx = some (i, n) := by
  rw [alloc]
  cases found : (List.finRange MAX_THREADS).find? fun i => decide ((m.g_threads i).ctx = 0) with
  | some i => exact ⟨i, _, rfl⟩
  | none =>
      have used : ∀ i, (m.g_threads i).ctx ≠ 0 := fun i zero =>
        List.find?_eq_none.mp found i (List.mem_finRange i) (decide_eq_true zero)
      have count : (Finset.univ : Finset (Fin MAX_THREADS)).card ≤ (ctxs.erase ctx).card := by
        refine Finset.card_le_card_of_injOn (fun i => (m.g_threads i).ctx) (fun i _ => ?_)
          fun i _ j _ same => keeps.table.unique i j same (used i)
        exact Finset.mem_erase.mpr ⟨by_ctx_none none i, keeps.table.known i (used i)⟩
      rw [Finset.card_univ, Fintype.card_fin, Finset.card_erase_of_mem member] at count
      have some := Finset.card_pos.mpr ⟨ctx, member⟩
      omega

end Table

/-! Loading a context. -/

section Load

/-- The frame of savepoint `k` is on the stack. -/
def Live (frames : List Frame) (k : Nat) : Prop := ∃ frame ∈ frames, frame.saved = some k

/-- A savepoint jumped to. -/
def resumed (m : Machine) (k : Nat) (saved : Regs) : Machine :=
  irq_abandon_delivery
    { m.with_frames (m.frames.dropWhile fun f => f.saved ≠ some k) with
      s := { saved with gpr := Function.update saved.gpr 3 1 }
      now := .back k }

theorem guest_resumed_live {i : Fin MAX_THREADS} {k : Nat} {saved : Regs}
    (jmp : (m.g_threads i).jmp = some k) (kept : (m.g_threads i).saved = some saved)
    (live : Live m.frames k) : guest_resumed m i = some (resumed m k saved) := by
  obtain ⟨frame, member, here⟩ := live
  simp only [guest_resumed, jmp, kept]
  split
  · rename_i gone
    have away := List.dropWhile_eq_nil_iff.mp gone frame member
    rw [decide_eq_true_eq] at away
    exact absurd here away
  · rfl

theorem guest_resumed_back {i : Fin MAX_THREADS} (back : guest_resumed m i = some m') :
    ∃ k saved, (m.g_threads i).jmp = some k ∧ (m.g_threads i).saved = some saved ∧
      Live m.frames k ∧ m' = resumed m k saved := by
  rw [guest_resumed] at back
  split at back
  · rename_i k saved jmp kept
    split at back
    · cases back
    · rename_i some_
      refine ⟨k, saved, jmp, kept, ?_, (Option.some.inj back).symm⟩
      by_contra gone
      refine some_ (List.dropWhile_eq_nil_iff.mpr fun frame member => ?_)
      exact decide_eq_true fun here => gone ⟨frame, member, here⟩
  · cases back

theorem loaded_saved (saved : Regs) :
    Loaded (saved_context saved) { saved with gpr := Function.update saved.gpr 3 1 } :=
  ⟨rfl, rfl, rfl, rfl, rfl, fun _ => rfl, rfl, rfl, rfl⟩

/-- A savepoint jumped to is the thread that saved there. -/
theorem resumed_goes_on (m : Machine) (k : Nat) (saved : Regs) :
    (Stored.saved k (saved_context saved)).GoesOn (resumed m k saved) :=
  ⟨rfl, rfl, loaded_saved saved⟩

/-- A load of a thread not started yet. -/
theorem load_new_eq {ctx : Word} {i : Fin MAX_THREADS} {n : Machine} (some_ : ctx ≠ 0)
    (entry : (m.contexts ctx).srr0 ≠ 0) (found : find_or_alloc m ctx = some (i, n)) :
    load_new m ctx = some (thread_entry { (n.with_thread i
      { n.g_threads i with started := true, fiber := some n.fibers }) with
        fiber := n.fibers, fibers := n.fibers + 1 } ctx) := by
  rw [load_new, if_neg (not_or.mpr ⟨some_, entry⟩), found]
  rfl

theorem find_or_alloc_contexts {ctx : Word} {i : Fin MAX_THREADS} {n : Machine}
    (found : find_or_alloc m ctx = some (i, n)) : n.contexts = m.contexts := by
  rw [find_or_alloc] at found
  split at found
  · cases found
    rfl
  · rw [alloc] at found
    split at found
    · cases found
      rfl
    · cases found

theorem thread_entry_goes_on {ctx : Word} {c : OSContext} (holds : m.contexts ctx = c) :
    (Stored.created c).GoesOn (thread_entry m ctx) := by
  subst holds
  exact ⟨rfl, ⟨rfl, rfl, rfl, rfl, rfl, fun _ => rfl, rfl, rfl, rfl⟩⟩

/-- Not in a handler, a load looks the context up. -/
theorem load_eq (quiet : m.g_irq_ctx = 0) :
    fn_802335C4 m =
      match by_ctx m (m.s.gpr 3) with
      | none => load_new m (m.s.gpr 3)
      | some i =>
          if (m.g_threads i).started then
            if (m.g_threads i).fiber = some m.fiber then guest_resumed m i
            else
              match (m.g_threads i).fiber with
              | none => none
              | some fiber => resume_self { m with fiber }
          else load_new m (m.s.gpr 3) := by
  rw [fn_802335C4, quiet]
  exact if_neg fun both => both.1 both.2

/-- A started thread is gone back to, never started. -/
theorem load_started (quiet : m.g_irq_ctx = 0) {i : Fin MAX_THREADS}
    (found : by_ctx m (m.s.gpr 3) = some i) (started : (m.g_threads i).started = true)
    (loaded : fn_802335C4 m = some m') : ∃ k, m'.now = .back k := by
  rw [load_eq quiet, found] at loaded
  dsimp only at loaded
  rw [if_pos started] at loaded
  split at loaded
  · obtain ⟨k, saved, _, _, _, rfl⟩ := guest_resumed_back loaded
    exact ⟨k, rfl⟩
  · split at loaded
    · cases loaded
    · rw [resume_self] at loaded
      split at loaded
      · cases loaded
      · obtain ⟨k, saved, _, _, _, rfl⟩ := guest_resumed_back loaded
        exact ⟨k, rfl⟩

theorem Keeps.find_or_alloc (keeps : Keeps ctxs m stored) (few : ctxs.card ≤ MAX_THREADS)
    {ctx : Word} (member : ctx ∈ ctxs) : ∃ i n, find_or_alloc m ctx = some (i, n) := by
  rw [Guest.find_or_alloc]
  cases found : by_ctx m ctx with
  | some i => exact ⟨i, m, rfl⟩
  | none => exact keeps.room few member found

theorem Keeps.load_created (keeps : Keeps ctxs m stored) (few : ctxs.card ≤ MAX_THREADS)
    (zero : 0 ∉ ctxs) {c : OSContext} (last : stored (m.s.gpr 3) = some (.created c)) :
    (∃ m', m.step .load = some m' ∧ (Stored.created c).GoesOn m') ↔
      ∀ i, by_ctx m (m.s.gpr 3) = some i → (m.g_threads i).started = false := by
  obtain ⟨member, holds, entry⟩ := keeps.created _ c last
  have some_ : m.s.gpr 3 ≠ 0 := fun none => zero (none ▸ member)
  constructor
  · rintro ⟨m', loaded, goes_on⟩ i found
    refine Bool.eq_false_iff.mpr fun started => ?_
    obtain ⟨k, back⟩ := load_started keeps.quiet found started loaded
    rw [goes_on.1] at back
    cases back
  · intro fresh
    obtain ⟨i, n, made⟩ := keeps.find_or_alloc few member
    have start := load_new_eq some_ (holds ▸ entry) made
    have loads : fn_802335C4 m = load_new m (m.s.gpr 3) := by
      rw [load_eq keeps.quiet]
      split
      · rfl
      · rename_i j found
        rw [fresh j found]
        rfl
    refine ⟨_, loads.trans start, thread_entry_goes_on ?_⟩
    change n.contexts (m.s.gpr 3) = c
    rw [find_or_alloc_contexts made, holds]

theorem Keeps.load_saved (keeps : Keeps ctxs m stored) (zero : 0 ∉ ctxs) {k : Nat} {c : OSContext}
    (last : stored (m.s.gpr 3) = some (.saved k c)) :
    (∃ m', m.step .load = some m' ∧ (Stored.saved k c).GoesOn m') ↔
      ∃ i f, by_ctx m (m.s.gpr 3) = some i ∧ (m.g_threads i).fiber = some f ∧
        Live (m.stack f) k ∧ (f = m.fiber ∨ by_fiber m f = some i) := by
  obtain ⟨member, i, saved, here, started, jmp, kept, rfl⟩ := keeps.saved _ k c last
  have some_ : m.s.gpr 3 ≠ 0 := fun none => zero (none ▸ member)
  have found := keeps.at_ctx here some_
  have load : m.step .load =
      if (m.g_threads i).fiber = some m.fiber then guest_resumed m i
      else
        match (m.g_threads i).fiber with
        | none => none
        | some fiber => resume_self { m with fiber } := by
    rw [Machine.step, load_eq keeps.quiet, found]
    exact if_pos started
  rw [load]
  constructor
  · rintro ⟨m', loaded, back, _, _⟩
    split at loaded
    · rename_i same
      obtain ⟨k', saved', jmp', _, live, rfl⟩ := guest_resumed_back loaded
      rw [jmp] at jmp'
      cases jmp'
      exact ⟨i, m.fiber, found, same, live, .inl rfl⟩
    · split at loaded
      · cases loaded
      · rename_i f fiber
        rw [resume_self] at loaded
        split at loaded
        · cases loaded
        · rename_i me mine
          obtain ⟨k', saved', jmp', _, live, rfl⟩ := guest_resumed_back loaded
          have same : k' = k := Now.back.inj back
          subst same
          have me_i : me = i := keeps.table.apart me i k' jmp' jmp
          subst me_i
          exact ⟨me, f, found, fiber, live, .inr mine⟩
  · rintro ⟨j, f, at_j, fiber, live, either⟩
    rw [found] at at_j
    cases at_j
    by_cases same : (m.g_threads i).fiber = some m.fiber
    · rw [if_pos same]
      rw [fiber] at same
      cases same
      exact ⟨_, guest_resumed_live jmp kept live, resumed_goes_on m k saved⟩
    · rw [if_neg same, fiber]
      dsimp only
      have mine : by_fiber { m with fiber := f } f = some i :=
        either.resolve_left fun equal => same (equal ▸ fiber)
      rw [resume_self, mine]
      exact ⟨_, guest_resumed_live (m := { m with fiber := f }) jmp kept live,
        resumed_goes_on _ k saved⟩

/-- A load goes on with the thread last stored exactly when it is met. -/
theorem Keeps.right_iff (keeps : Keeps ctxs m stored) (few : ctxs.card ≤ MAX_THREADS)
    (zero : 0 ∉ ctxs) (e : Step) : Right m stored e ↔ Met m stored e := by
  cases e with
  | load =>
      refine forall₂_congr fun st last => ?_
      cases st with
      | created c => exact keeps.load_created few zero last
      | saved k c => exact keeps.load_saved zero last
  | _ => exact Iff.rfl

end Load

/-! The table through a run. -/

section Steps

variable {ctx : Word} {i : Fin MAX_THREADS} {g_threads : Fin MAX_THREADS → GuestThread}
  {saves : Nat}

/-- An entry that is a context's, or free for one that has none. -/
def Own (g_threads : Fin MAX_THREADS → GuestThread) (ctx : Word) (i : Fin MAX_THREADS) : Prop :=
  (g_threads i).ctx = ctx ∨ (g_threads i).ctx = 0 ∧ ∀ j, (g_threads j).ctx ≠ ctx

theorem Table.others (table : Table ctxs g_threads saves) (own : Own g_threads ctx i)
    (some_ : ctx ≠ 0) {j : Fin MAX_THREADS} (other : j ≠ i) : (g_threads j).ctx ≠ ctx := by
  rcases own with here | ⟨_, none⟩
  · exact fun there => other (table.unique j i (there.trans here.symm) (there ▸ some_))
  · exact none j

/-- An entry set. -/
theorem Table.set (table : Table ctxs g_threads saves) (own : Own g_threads ctx i)
    (some_ : ctx ≠ 0) (member : ctx ∈ ctxs) {t : GuestThread} (named : t.ctx = ctx) {more : Nat}
    (grown : saves ≤ more)
    (jmp : ∀ k, t.jmp = some k → k < more ∧ ∀ j, j ≠ i → (g_threads j).jmp ≠ some k) :
    Table ctxs (Function.update g_threads i t) more := by
  constructor
  · intro a b same used
    by_cases at_a : a = i
    · by_cases at_b : b = i
      · exact at_a.trans at_b.symm
      · rw [at_a, Function.update_self, Function.update_of_ne at_b, named] at same
        exact absurd same.symm (table.others own some_ at_b)
    · by_cases at_b : b = i
      · rw [at_b, Function.update_self, Function.update_of_ne at_a, named] at same
        exact absurd same (table.others own some_ at_a)
      · rw [Function.update_of_ne at_a, Function.update_of_ne at_b] at same
        rw [Function.update_of_ne at_a] at used
        exact table.unique a b same used
  · intro a used
    by_cases at_a : a = i
    · rw [at_a, Function.update_self, named]
      exact member
    · rw [Function.update_of_ne at_a] at used ⊢
      exact table.known a used
  · intro a k point
    by_cases at_a : a = i
    · rw [at_a, Function.update_self] at point
      exact (jmp k point).1
    · rw [Function.update_of_ne at_a] at point
      exact Nat.lt_of_lt_of_le (table.points a k point) grown
  · intro a b k first second
    by_cases at_a : a = i
    · rw [at_a, Function.update_self] at first
      by_cases at_b : b = i
      · exact at_a.trans at_b.symm
      · rw [Function.update_of_ne at_b] at second
        exact absurd second ((jmp k first).2 b at_b)
    · rw [Function.update_of_ne at_a] at first
      by_cases at_b : b = i
      · rw [at_b, Function.update_self] at second
        exact absurd first ((jmp k second).2 a at_a)
      · rw [Function.update_of_ne at_b] at second
        exact table.apart a b k first second

/-- The entry for a context: its own as it was, or a free one cleared. -/
theorem find_or_alloc_own {n : Machine} (found : find_or_alloc m ctx = some (i, n)) :
    Own m.g_threads ctx i ∧ ∃ t, n = m.with_thread i t ∧ t.ctx = ctx ∧
      (t = m.g_threads i ∨ t.jmp = none) := by
  rw [find_or_alloc] at found
  split at found
  · rename_i j here
    cases found
    refine ⟨.inl (by_ctx_some here), m.g_threads i, ?_, by_ctx_some here, .inl rfl⟩
    rw [Machine.with_thread, Function.update_eq_self]
  · rename_i none
    rw [alloc] at found
    split at found
    · rename_i j free
      cases found
      have zero := List.find?_some free
      rw [decide_eq_true_eq] at zero
      exact ⟨.inr ⟨zero, by_ctx_none none⟩, _, rfl, rfl, .inr rfl⟩
    · cases found

theorem Keeps.same (keeps : Keeps ctxs m stored) (quiet : m'.g_irq_ctx = 0)
    (threads : m'.g_threads = m.g_threads) (saves : m'.saves = m.saves)
    (contexts : m'.contexts = m.contexts) : Keeps ctxs m' stored := by
  refine ⟨quiet, ?_, ?_, ?_⟩
  · rw [threads, saves]
    exact keeps.table
  · rw [contexts]
    exact keeps.created
  · rw [threads]
    exact keeps.saved

theorem Keeps.create (keeps : Keeps ctxs m stored) (member : ctx ∈ ctxs) {c : OSContext}
    (entry : c.srr0 ≠ 0) :
    Keeps ctxs { m with contexts := Function.update m.contexts ctx c }
      (Function.update stored ctx (some (.created c))) := by
  refine ⟨keeps.quiet, keeps.table, fun a d last => ?_, fun a k d last => ?_⟩
  · by_cases here : a = ctx
    · rw [here, Function.update_self] at last
      cases last
      rw [here]
      exact ⟨member, Function.update_self _ _ _, entry⟩
    · rw [Function.update_of_ne here] at last
      obtain ⟨inside, holds, some_⟩ := keeps.created a d last
      exact ⟨inside, (Function.update_of_ne here _ _).trans holds, some_⟩
  · by_cases here : a = ctx
    · rw [here, Function.update_self] at last
      cases last
    · rw [Function.update_of_ne here] at last
      exact keeps.saved a k d last

/-- What the call site's `setjmp` does to the table. -/
structure Pointed (m n : Machine) (ctx : Word) (i : Fin MAX_THREADS) (t : GuestThread) : Prop where
  own : Own m.g_threads ctx i
  named : t.ctx = ctx
  started : t.started = true
  jmp : t.jmp = some m.saves
  threads : n.g_threads = Function.update m.g_threads i t
  saves : n.saves = m.saves + 1
  irq : n.g_irq_ctx = m.g_irq_ctx
  contexts : n.contexts = m.contexts
  s : n.s = m.s

theorem guest_savepoint_pointed {n : Machine} (point : guest_savepoint m = some n) :
    ∃ i t, Pointed m n (m.s.gpr 3) i t := by
  rw [guest_savepoint] at point
  split at point
  · cases point
  · rename_i i n' found
    cases point
    obtain ⟨own, t, rfl, named, _⟩ := find_or_alloc_own found
    refine ⟨i, { t with fiber := some m.fiber, started := true, jmp := some m.saves }, own, named,
      rfl, rfl, ?_, rfl, rfl, rfl, rfl⟩
    change Function.update (Function.update m.g_threads i t) i
      { Function.update m.g_threads i t i with
        fiber := some m.fiber, started := true, jmp := some m.saves } = _
    rw [Function.update_self, Function.update_idem]

/-- What OSSaveContext leaves, the call wrapped. -/
structure Saves (m m' : Machine) (ctx : Word) (i : Fin MAX_THREADS) (t : GuestThread) : Prop where
  own : Own m.g_threads ctx i
  named : t.ctx = ctx
  started : t.started = true
  jmp : t.jmp = some m.saves
  saved : t.saved = some m.s
  threads : m'.g_threads = Function.update m.g_threads i t
  saves : m'.saves = m.saves + 1
  irq : m'.g_irq_ctx = m.g_irq_ctx
  contexts : m'.contexts = Function.update m.contexts ctx (saved_context m.s)

theorem Keeps.saving (keeps : Keeps ctxs m stored) (some_ : m.s.gpr 3 ≠ 0)
    (saved : save_call m = some m') : ∃ i t, Saves m m' (m.s.gpr 3) i t := by
  obtain ⟨n, point, rest⟩ := Option.bind_eq_some_iff.mp saved
  obtain ⟨i, t, own, named, started, jmp, threads, saves, irq, contexts, s⟩ :=
    guest_savepoint_pointed point
  have entry : n.g_threads i = t := by
    rw [threads, Function.update_self]
  have found : by_ctx n (n.s.gpr 3) = some i := by
    rw [s]
    cases here : by_ctx n (m.s.gpr 3) with
    | none => exact absurd (entry ▸ named) (by_ctx_none here i)
    | some j =>
        have at_j := by_ctx_some here
        by_cases other : j = i
        · rw [other]
        · rw [threads, Function.update_of_ne other] at at_j
          exact absurd at_j (keeps.table.others own some_ other)
  rw [fn_80233544, saving_thread, found] at rest
  cases rest
  refine ⟨i, { t with saved := some m.s }, own, named, started, jmp, rfl, ?_, saves, irq, ?_⟩
  · change Function.update n.g_threads i { n.g_threads i with saved := some n.s } = _
    rw [entry, s, threads, Function.update_idem]
  · change Function.update (Function.update n.contexts (n.s.gpr 3) (context_of n.s)) (n.s.gpr 3)
      { Function.update n.contexts (n.s.gpr 3) (context_of n.s) (n.s.gpr 3) with
        gpr := Function.update
          (Function.update n.contexts (n.s.gpr 3) (context_of n.s) (n.s.gpr 3)).gpr 3 1 } = _
    rw [Function.update_idem, Function.update_self, s, contexts]
    rfl

theorem Keeps.save (keeps : Keeps ctxs m stored) (zero : 0 ∉ ctxs) (member : m.s.gpr 3 ∈ ctxs)
    (saved : save_call m = some m') : Keeps ctxs m' (track m stored .save) := by
  have some_ : m.s.gpr 3 ≠ 0 := fun none => zero (none ▸ member)
  obtain ⟨i, t, own, named, started, jmp, kept, threads, saves, irq, contexts⟩ :=
    keeps.saving some_ saved
  refine ⟨irq.trans keeps.quiet, ?_, fun a c last => ?_, fun a k c last => ?_⟩
  · rw [threads, saves]
    refine keeps.table.set own some_ member named (Nat.le_succ _) fun k point => ?_
    rw [jmp] at point
    cases point
    exact ⟨Nat.lt_succ_self _, fun j _ there => Nat.lt_irrefl _ (keeps.table.points j _ there)⟩
  · rw [track] at last
    by_cases here : a = m.s.gpr 3
    · rw [here, Function.update_self] at last
      cases last
    · rw [Function.update_of_ne here] at last
      rw [contexts, Function.update_of_ne here]
      exact keeps.created a c last
  · rw [track] at last
    rw [threads]
    by_cases here : a = m.s.gpr 3
    · rw [here, Function.update_self] at last
      cases last
      rw [here]
      refine ⟨member, i, m.s, ?_⟩
      rw [Function.update_self]
      exact ⟨named, started, jmp, kept, rfl⟩
    · rw [Function.update_of_ne here] at last
      obtain ⟨inside, j, r, at_j, rest⟩ := keeps.saved a k c last
      refine ⟨inside, j, r, ?_⟩
      have apart : j ≠ i := by
        rintro rfl
        have used : a ≠ 0 := fun none => zero (none ▸ inside)
        rcases own with mine | ⟨free, _⟩
        · exact here (at_j.symm.trans mine)
        · exact used (at_j.symm.trans free)
      rw [Function.update_of_ne apart]
      exact ⟨at_j, rest⟩

theorem Keeps.resumed (keeps : Keeps ctxs m stored) {me : Fin MAX_THREADS}
    (back : guest_resumed m me = some m') : Keeps ctxs m' stored := by
  obtain ⟨k, saved, _, _, _, rfl⟩ := guest_resumed_back back
  exact keeps.same rfl rfl rfl rfl

/-- A thread started: its context was a new thread's. -/
theorem Keeps.started (keeps : Keeps ctxs m stored) (zero : 0 ∉ ctxs) {c : OSContext}
    (last : stored ctx = some (.created c)) (loaded : load_new m ctx = some m') :
    Keeps ctxs m' stored := by
  obtain ⟨member, holds, entry⟩ := keeps.created ctx c last
  have some_ : ctx ≠ 0 := fun none => zero (none ▸ member)
  rw [load_new, if_neg (not_or.mpr ⟨some_, holds ▸ entry⟩)] at loaded
  split at loaded
  · cases loaded
  · rename_i i n found
    cases loaded
    obtain ⟨own, t, rfl, named, was⟩ := find_or_alloc_own found
    have threads : ∀ d : GuestThread, Function.update (Function.update m.g_threads i t) i d =
        Function.update m.g_threads i d := fun d => Function.update_idem _ _ _
    have entry_i : Function.update m.g_threads i t i = t := Function.update_self _ _ _
    refine ⟨rfl, ?_, keeps.created, fun a k d saved => ?_⟩
    · change Table ctxs (Function.update (Function.update m.g_threads i t) i _) m.saves
      rw [threads]
      refine keeps.table.set own some_ member ?_ (Nat.le_refl _) fun k point => ?_
      · change (Function.update m.g_threads i t i).ctx = ctx
        rw [entry_i, named]
      · change (Function.update m.g_threads i t i).jmp = some k at point
        rw [entry_i] at point
        rcases was with same | none
        · rw [same] at point
          exact ⟨keeps.table.points i k point,
            fun j other there => other (keeps.table.apart j i k there point)⟩
        · rw [none] at point
          cases point
    · obtain ⟨inside, j, r, at_j, rest⟩ := keeps.saved a k d saved
      refine ⟨inside, j, r, ?_⟩
      have apart : j ≠ i := by
        rintro rfl
        have used : a ≠ 0 := fun none => zero (none ▸ inside)
        rcases own with mine | ⟨free, _⟩
        · rw [at_j.symm.trans mine, last] at saved
          cases saved
        · exact used (at_j.symm.trans free)
      change (Function.update (Function.update m.g_threads i t) i _ j).ctx = a ∧ _
      rw [threads, Function.update_of_ne apart]
      refine ⟨at_j, ?_⟩
      change (Function.update (Function.update m.g_threads i t) i _ j).started = true ∧
        (Function.update (Function.update m.g_threads i t) i _ j).jmp = some k ∧
        (Function.update (Function.update m.g_threads i t) i _ j).saved = some r ∧ _
      rw [threads, Function.update_of_ne apart]
      exact rest

/-- A context with no started thread in the table was a new thread's. -/
theorem Keeps.not_started (keeps : Keeps ctxs m stored) (zero : 0 ∉ ctxs)
    (some_ : stored ctx ≠ none)
    (fresh : ∀ i, by_ctx m ctx = some i → (m.g_threads i).started = false) :
    ∃ c, stored ctx = some (.created c) := by
  cases last : stored ctx with
  | none => exact absurd last some_
  | some st =>
      cases st with
      | created c => exact ⟨c, rfl⟩
      | saved k c =>
          obtain ⟨member, i, _, here, started, _⟩ := keeps.saved ctx k c last
          have used : ctx ≠ 0 := fun none => zero (none ▸ member)
          rw [fresh i (keeps.at_ctx here used)] at started
          cases started

theorem Keeps.load (keeps : Keeps ctxs m stored) (zero : 0 ∉ ctxs)
    (some_ : stored (m.s.gpr 3) ≠ none) (loaded : fn_802335C4 m = some m') :
    Keeps ctxs m' stored := by
  rw [load_eq keeps.quiet] at loaded
  split at loaded
  · rename_i none
    obtain ⟨c, last⟩ := keeps.not_started zero some_ fun i found => by
      rw [none] at found
      cases found
    exact keeps.started zero last loaded
  · rename_i i found
    split at loaded
    · split at loaded
      · exact keeps.resumed loaded
      · split at loaded
        · cases loaded
        · rw [resume_self] at loaded
          split at loaded
          · cases loaded
          · refine Keeps.resumed ?_ loaded
            exact keeps.same keeps.quiet rfl rfl rfl
    · rename_i idle
      obtain ⟨c, last⟩ := keeps.not_started zero some_ fun j there => by
        rw [found] at there
        cases there
        exact Bool.eq_false_iff.mpr idle
      exact keeps.started zero last loaded

theorem Keeps.step (keeps : Keeps ctxs m stored) (zero : 0 ∉ ctxs) {e : Step}
    (allowed : Allowed ctxs m stored e) (stepped : m.step e = some m') :
    Keeps ctxs m' (track m stored e) := by
  cases e with
  | guest f =>
      cases stepped
      exact keeps.same keeps.quiet rfl rfl rfl
  | create ctx c =>
      cases stepped
      exact keeps.create allowed.1 allowed.2
  | save => exact keeps.save zero allowed stepped
  | select_returns =>
      rw [Machine.step, select_returns] at stepped
      split at stepped
      · cases stepped
        exact keeps.same keeps.quiet rfl rfl rfl
      · cases stepped
  | load => exact keeps.load zero allowed.2 stepped
  | _ => exact allowed.elim

end Steps

/-! Whole runs. -/

section Runs

theorem Keeps.run_iff (keeps : Keeps ctxs m stored) (few : ctxs.card ≤ MAX_THREADS)
    (zero : 0 ∉ ctxs) {es : List Step} (allowed : Throughout (Allowed ctxs) m stored es) :
    Throughout Right m stored es ↔ Throughout Met m stored es := by
  induction es generalizing m stored with
  | nil => exact Iff.rfl
  | cons e es ih =>
      obtain ⟨now, later⟩ := allowed
      refine and_congr (keeps.right_iff few zero e) (forall₂_congr fun m' stepped => ?_)
      exact ih (keeps.step zero now stepped) (later m' stepped)

theorem init_keeps (s : Regs) (contexts : Word → OSContext) :
    Keeps ctxs (.init s contexts) fun _ => none := by
  refine ⟨rfl, ⟨fun _ _ _ used => absurd rfl used, fun _ used => absurd rfl used, ?_, ?_⟩, ?_, ?_⟩
  · exact fun _ _ none => nomatch none
  · exact fun _ _ _ none => nomatch none
  · exact fun _ _ none => nomatch none
  · exact fun _ _ _ none => nomatch none

/-- Every load of a run goes on with the thread last stored there exactly when
every load is met. -/
theorem threads_iff (s : Regs) (contexts : Word → OSContext) (es : List Step)
    (few : ctxs.card ≤ MAX_THREADS) (zero : 0 ∉ ctxs)
    (allowed : Throughout (Allowed ctxs) (.init s contexts) (fun _ => none) es) :
    Throughout Right (.init s contexts) (fun _ => none) es ↔
      Throughout Met (.init s contexts) (fun _ => none) es :=
  (init_keeps s contexts).run_iff few zero allowed

theorem Throughout.step {P : Machine → Stores → Step → Prop} {e : Step} {es : List Step}
    (now : P m stored e) (stepped : m.step e = some m')
    (later : Throughout P m' (track m stored e) es) : Throughout P m stored (e :: es) := by
  refine ⟨now, fun n other => ?_⟩
  rw [stepped] at other
  cases other
  exact later

/-- A thread that switches to a new one, which switches back. -/
def back_and_forth : List Step :=
  [.create 0x80002000 { no_context with srr0 := 0x80003000 }, with_r3 0x80001000, .save,
    with_r3 0x80002000, .load, with_r3 0x80001000, .load, .select_returns]

theorem threads_iff_held :
    Throughout Right (.init zeros fun _ => no_context) (fun _ => none) back_and_forth ↔
      Throughout Met (.init zeros fun _ => no_context) (fun _ => none) back_and_forth := by
  refine @threads_iff {0x80001000, 0x80002000} zeros _ back_and_forth (by decide) (by decide) ?_
  refine .step (e := .create _ _) ⟨by decide, by decide⟩ rfl ?_
  refine .step (e := .guest _) trivial rfl ?_
  refine .step (e := .save) (show (0x80001000 : Word) ∈ _ by decide) rfl ?_
  refine .step (e := .guest _) trivial rfl ?_
  refine .step (e := .load) ⟨show (0x80002000 : Word) ∈ _ by decide, Option.some_ne_none _⟩ rfl ?_
  refine .step (e := .guest _) trivial rfl ?_
  refine .step (e := .load) ⟨show (0x80001000 : Word) ∈ _ by decide, Option.some_ne_none _⟩ rfl ?_
  exact .step (e := .select_returns) trivial rfl trivial

/-- What a run leaves, with what is stored at each context. -/
def tracked (m : Machine) (stored : Stores) : List Step → Option (Machine × Stores)
  | [] => some (m, stored)
  | e :: es => (m.step e).bind fun m' => tracked m' (track m stored e) es

theorem Throughout.last {P : Machine → Stores → Step → Prop} {e : Step} {es : List Step}
    {stored' : Stores} (all : Throughout P m stored (es ++ [e]))
    (ran : tracked m stored es = some (m', stored')) : P m' stored' e := by
  induction es generalizing m stored with
  | nil =>
      cases ran
      exact all.1
  | cons d es ih =>
      obtain ⟨n, stepped, rest⟩ := Option.bind_eq_some_iff.mp ran
      exact ih (all.2 n stepped) rest

/-- A thread parked at its savepoint, and another created at its context. -/
def created_again : List Step :=
  [.create 0x80002000 { no_context with srr0 := 0x80003000 }, with_r3 0x80001000, .save,
    with_r3 0x80002000, .load, with_r3 0x80002000, .save, with_r3 0x80001000, .load,
    .create 0x80002000 { no_context with srr0 := 0x80005000 }, with_r3 0x80002000]

theorem old_savepoint_resumed :
    ¬ Throughout Right (.init zeros fun _ => no_context) (fun _ => none)
      (created_again ++ [.load]) := by
  intro all
  obtain ⟨m', stored', ran, last, loaded⟩ : ∃ m' stored',
      tracked (.init zeros fun _ => no_context) (fun _ => none) created_again =
        some (m', stored') ∧
      stored' (m'.s.gpr 3) = some (.created { no_context with srr0 := 0x80005000 }) ∧
      ∃ n, m'.step .load = some n ∧ n.now = .back 1 := ⟨_, _, rfl, rfl, _, rfl, rfl⟩
  obtain ⟨n, stepped, back⟩ := loaded
  obtain ⟨n', stepped', entry, _⟩ := all.last ran _ last
  rw [stepped] at stepped'
  cases stepped'
  rw [back] at entry
  cases entry

end Runs

end SoaPort.Guest
