import SoaPort.Disc.FstCorrect
import Mathlib.Algebra.BigOperators.Intervals
import Mathlib.Algebra.BigOperators.Ring.Finset

namespace SoaPort.Disc

open SoaPort.Lib

/-! How many entries the rebuilt table takes. -/

section Weights

variable (t : Table)

/-- The files added to directory `d`. -/
def added_in (d : Nat) : Nat :=
  (List.range' t.count (t.e.length - t.count)).countP fun i => (t.e[i]?.bind Ent.add_dir) = some d

/-- What the entries from `i` up to `j` take, with what is added to them. -/
def weight (i j : Nat) : Nat := ∑ d ∈ Finset.Ico i j, (1 + added_in t d)

variable {t}

theorem weight_split {i j k : Nat} (low : i ≤ j) (high : j ≤ k) :
    weight t i k = weight t i j + weight t j k :=
  (Finset.sum_Ico_consecutive _ low high).symm

theorem weight_step {i j : Nat} (low : i < j) :
    weight t i j = 1 + added_in t i + weight t (i + 1) j :=
  Finset.sum_eq_sum_Ico_succ_bot low _

theorem weight_none (i : Nat) : weight t i i = 0 := by
  rw [weight, Finset.Ico_self, Finset.sum_empty]

/-- Each of a list's members is counted at the one place it names. -/
theorem sum_countP {n : Nat} {f : Nat → Option Nat} {l : List Nat}
    (named : ∀ i ∈ l, ∃ d < n, f i = some d) :
    ∑ d ∈ Finset.Ico 0 n, l.countP (fun i => f i = some d) = l.length := by
  induction l with
  | nil => simp
  | cons i rest ih =>
      obtain ⟨⟨d, low, is⟩, others⟩ := List.forall_mem_cons.mp named
      simp only [List.countP_cons, Finset.sum_add_distrib, List.length_cons, is, decide_eq_true_eq,
        Option.some.injEq]
      rw [ih others, Finset.sum_ite_eq, if_pos (Finset.mem_Ico.mpr ⟨Nat.zero_le d, low⟩)]

/-- The whole table takes as many as there are. -/
theorem weight_all (sound : t.Sound) : weight t 0 t.count = t.e.length := by
  have low := sound.count_le
  have named : ∀ i ∈ List.range' t.count (t.e.length - t.count),
      ∃ d < t.count, (t.e[i]?.bind Ent.add_dir) = some d := by
    intro i member
    have range := List.mem_range'_1.mp member
    obtain ⟨x, at_⟩ : ∃ x, t.e[i]? = some x :=
      ⟨_, List.getElem?_eq_getElem (by omega)⟩
    obtain ⟨-, d, in_, inside, -⟩ := sound.added i x at_ range.1
    refine ⟨d, inside, ?_⟩
    rw [at_]
    exact in_
  have added : ∑ d ∈ Finset.Ico 0 t.count, added_in t d = t.e.length - t.count := by
    have counted := sum_countP named
    rw [List.length_range'] at counted
    exact counted
  rw [weight, Finset.sum_add_distrib, added, Finset.sum_const, Nat.card_Ico, nsmul_one, Nat.cast_id]
  omega

/-- Nothing is added to a file. -/
theorem added_in_file (sound : t.Sound) {i : Nat} {x : Ent} (at_ : t.e[i]? = some x)
    (file : x.dir = false) : added_in t i = 0 := by
  apply List.countP_eq_zero.mpr
  intro j member
  have range := List.mem_range'_1.mp member
  have low := sound.count_le
  obtain ⟨y', there⟩ : ∃ y', t.e[j]? = some y' :=
    ⟨_, List.getElem?_eq_getElem (by omega)⟩
  obtain ⟨-, d, in_, -, dir⟩ := sound.added j y' there range.1
  rw [there]
  change ¬ decide (y'.add_dir = some i) = true
  rw [in_, decide_eq_true_iff]
  intro same
  cases same
  obtain ⟨y, here, is_dir⟩ := dir
  cases at_.symm.trans here
  exact absurd (file.symm.trans is_dir) (by decide)

end Weights

section Emission

variable {t : Table}

theorem emit_entry_some {m : Emit} {i a b : Nat} {x : Ent} (at_ : t.e[i]? = some x)
    (room : m.n < t.e.length) : ∃ m', emit_entry t m i a b = some m' ∧ m'.n = m.n + 1 := by
  rw [emit_entry, at_]
  change ∃ m', (if m.n < t.e.length then some _ else none) = some m' ∧ _
  rw [if_pos room]
  exact ⟨_, rfl, rfl⟩

theorem emit_entry_grows {m m' : Emit} {i a b : Nat} (emitted : emit_entry t m i a b = some m') :
    m'.n = m.n + 1 ∧ m'.n ≤ t.e.length := by
  obtain ⟨x, -, goes⟩ := Option.bind_eq_some_iff.mp emitted
  split at goes
  next room =>
    cases goes
    exact ⟨rfl, room⟩
  · cases goes

theorem emit_added_some (d : Nat) {m : Emit} (room : m.n + added_in t d ≤ t.e.length) :
    ∃ m', emit_added t d m = some m' ∧ m'.n = m.n + added_in t d := by
  have each : ∀ l : List Nat, (∀ i ∈ l, i < t.e.length) → ∀ m : Emit,
      m.n + l.countP (fun i => (t.e[i]?.bind Ent.add_dir) = some d) ≤ t.e.length →
      ∃ m', l.foldlM (fun m i => do
        let x ← t.e[i]?
        if x.add_dir = some d then emit_entry t m i x.a x.b else some m) m = some m' ∧
          m'.n = m.n + l.countP (fun i => (t.e[i]?.bind Ent.add_dir) = some d) := by
    intro l
    induction l with
    | nil => exact fun _ m _ => ⟨m, rfl, rfl⟩
    | cons i rest ih =>
        intro inside m room
        obtain ⟨low, others⟩ := List.forall_mem_cons.mp inside
        have at_ : t.e[i]? = some t.e[i] := List.getElem?_eq_getElem low
        rw [List.countP_cons, at_] at room ⊢
        rw [List.foldlM_cons, at_]
        change ∃ m', ((if t.e[i].add_dir = some d then emit_entry t m i t.e[i].a t.e[i].b
          else some m) >>= _) = some m' ∧ _
        cases Decidable.em (t.e[i].add_dir = some d) with
        | inl here =>
            have mark : decide ((some t.e[i]).bind Ent.add_dir = some d) = true :=
              decide_eq_true here
            rw [if_pos here]
            rw [mark] at room ⊢
            change m.n + (rest.countP _ + 1) ≤ _ at room
            change ∃ m' : Emit, _ ∧ m'.n = m.n + (rest.countP _ + 1)
            obtain ⟨m1, emitted, count⟩ := emit_entry_some (a := t.e[i].a) (b := t.e[i].b) at_
              (show m.n < t.e.length by omega)
            obtain ⟨m2, more, total⟩ := ih others m1 (by omega)
            rw [emitted]
            exact ⟨m2, more, by omega⟩
        | inr elsewhere =>
            have mark : decide ((some t.e[i]).bind Ent.add_dir = some d) = false :=
              decide_eq_false elsewhere
            rw [if_neg elsewhere]
            rw [mark] at room ⊢
            change m.n + (rest.countP _ + 0) ≤ _ at room
            change ∃ m' : Emit, _ ∧ m'.n = m.n + (rest.countP _ + 0)
            obtain ⟨m2, more, total⟩ := ih others m (by omega)
            exact ⟨m2, more, by omega⟩
  apply each _ _ m room
  intro i member
  have range := List.mem_range'_1.mp member
  omega

/-- Each directory's range ends inside the ranges it lies in. -/
def Table.Nested (t : Table) : Prop :=
  ∀ d x i y, t.e[d]? = some x → x.dir = true → t.e[i]? = some y → y.dir = true →
    0 < d → d < i → i < x.b → y.b ≤ x.b

/-- The first entry past a directory's own. -/
def Table.dir_end (t : Table) (d : Nat) (x : Ent) : Nat := if d = 0 then t.count else x.b

/-- In a nested table every entry is emitted once, and the table takes them all. By
induction on the fuel, a directory before the entries in it. -/
theorem emit_some (sound : t.Sound) (nested : t.Nested) (fuel : Nat) :
    (∀ m d parent x, t.e[d]? = some x → x.dir = true → d < t.count →
      2 * (t.count - d) ≤ fuel + 1 →
      m.n + (1 + weight t (d + 1) (t.dir_end d x) + added_in t d) ≤ t.e.length →
      ∃ m', emit_dir t fuel m d parent = some m' ∧
        m'.n = m.n + (1 + weight t (d + 1) (t.dir_end d x) + added_in t d)) ∧
    ∀ m i end_ me, 0 < i → i ≤ end_ → end_ ≤ t.count → 2 * (t.count - i) ≤ fuel →
      (∀ j y, t.e[j]? = some y → y.dir = true → i ≤ j → j < end_ → y.b ≤ end_) →
      m.n + weight t i end_ ≤ t.e.length →
      ∃ m', emit_entries t fuel m i end_ me = some m' ∧ m'.n = m.n + weight t i end_ := by
  induction fuel with
  | zero =>
      refine ⟨fun m d parent x _ _ low room => by omega, ?_⟩
      intro m i end_ me pos start bound fuel _ _
      have done : i = end_ := by omega
      rw [done, weight_none, emit_entries, if_neg (lt_irrefl end_)]
      exact ⟨m, rfl, rfl⟩
  | succ fuel ih =>
      obtain ⟨ih_dir, ih_entries⟩ := ih
      constructor
      · intro m d parent x at_ dir low enough room
        have inside : d < t.dir_end d x ∧ t.dir_end d x ≤ t.count := by
          rw [Table.dir_end]
          split
          · omega
          · exact sound.range d x at_ low (by omega) dir
        have within : ∀ j y, t.e[j]? = some y → y.dir = true → d + 1 ≤ j →
            j < t.dir_end d x → y.b ≤ t.dir_end d x := by
          intro j y there is_dir after before
          have bound := (sound.range j y there (by omega) (by omega) is_dir).2
          rw [Table.dir_end] at before ⊢
          split at before
          next root => rwa [if_pos root]
          next other =>
            rw [if_neg other]
            exact nested d x j y at_ dir there is_dir (by omega) (by omega) before
        obtain ⟨m1, first, count1⟩ := emit_entry_some (m := m)
          (a := if d = 0 then 0 else parent) (b := 0) at_ (by omega)
        obtain ⟨m2, own, count2⟩ := ih_entries m1 (d + 1) (t.dir_end d x) m.n (by omega)
          (by omega) (by omega) (by omega) within (by omega)
        obtain ⟨m3, added, count3⟩ := emit_added_some (t := t) d (m := m2) (by omega)
        rw [emit_dir, at_]
        change ∃ m', (emit_entry t m d (if d = 0 then 0 else parent) 0 >>= fun m1 =>
          emit_entries t fuel m1 (d + 1) (t.dir_end d x) m.n >>= fun m2 =>
            emit_added t d m2 >>= _) = some m' ∧ _
        rw [first]
        change ∃ m', (emit_entries t fuel m1 (d + 1) (t.dir_end d x) m.n >>= fun m2 =>
          emit_added t d m2 >>= _) = some m' ∧ _
        rw [own]
        change ∃ m', (emit_added t d m2 >>= _) = some m' ∧ _
        rw [added]
        refine ⟨_, rfl, ?_⟩
        change m3.n = _
        omega
      · intro m i end_ me pos start bound enough within room
        rw [emit_entries]
        split
        next goes =>
          obtain ⟨x, at_⟩ := sound.entry (i := i) (by omega)
          rw [at_]
          change ∃ m', (if x.dir = true then emit_dir t fuel m i me >>= fun m' =>
              emit_entries t fuel m' x.b end_ me
            else emit_entry t m i x.a x.b >>= fun m' =>
              emit_entries t fuel m' (i + 1) end_ me) = some m' ∧ _
          have step := weight_step (t := t) goes
          split
          next dir =>
            obtain ⟨further, inside⟩ := sound.range i x at_ (by omega) pos dir
            have ends := within i x at_ dir (le_refl i) goes
            have split_ := weight_split (t := t) (i := i + 1) further ends
            have own : t.dir_end i x = x.b := if_neg (by omega)
            obtain ⟨m1, emitted, count1⟩ := ih_dir m i me x at_ dir (by omega) (by omega)
              (by rw [own]; omega)
            rw [own] at count1
            obtain ⟨m2, more, count2⟩ := ih_entries m1 x.b end_ me (by omega) ends bound
              (by omega) (fun j y there is_dir low high => within j y there is_dir (by omega) high)
              (by omega)
            rw [emitted]
            exact ⟨m2, more, by omega⟩
          next file =>
            have none_ := added_in_file sound at_ (Bool.eq_false_iff.mpr file)
            obtain ⟨m1, emitted, count1⟩ :=
              emit_entry_some (m := m) (a := x.a) (b := x.b) at_ (by omega)
            obtain ⟨m2, more, count2⟩ := ih_entries m1 (i + 1) end_ me (by omega) goes bound
              (by omega) (fun j y there is_dir low high => within j y there is_dir (by omega) high)
              (by omega)
            rw [emitted]
            exact ⟨m2, more, by omega⟩
        next done =>
          have same : i = end_ := by omega
          rw [same, weight_none]
          exact ⟨m, rfl, rfl⟩

/-- A nested table comes out whole. -/
theorem serialise_some (sound : t.Sound) (nested : t.Nested) :
    ∃ out, serialise t = some (some out) := by
  obtain ⟨x, at_, dir⟩ := sound.root
  have all := weight_all sound
  have step := weight_step (t := t) sound.some_
  have whole : t.dir_end 0 x = t.count := if_pos rfl
  obtain ⟨m, emitted, count⟩ := (emit_some sound nested (2 * t.count + 2)).1 ⟨[], 0⟩ 0 0 x at_ dir
    sound.some_ (by omega) (by rw [whole]; change 0 + _ ≤ _; omega)
  have total : m.n = t.e.length := by
    rw [count, whole]
    change 0 + _ = _
    omega
  refine ⟨m.out ++ t.str, ?_⟩
  rw [serialise, emitted]
  change some (if m.n = t.e.length then some (m.out ++ t.str) else none) = _
  rw [if_pos total]

/-! A table that is not nested overflows. -/

/-- The directories from `i` up to `stop` end by it, each inside those it lies in. -/
def Table.Tight (t : Table) (i stop : Nat) : Prop :=
  ∀ d x, t.e[d]? = some x → x.dir = true → i ≤ d → d < stop →
    x.b ≤ stop ∧ ∀ j y, t.e[j]? = some y → y.dir = true → d < j → j < x.b → y.b ≤ x.b

theorem tight_none (i : Nat) : t.Tight i i := by
  intro d x _ _ low high
  omega

theorem Table.Tight.file {i stop : Nat} {x : Ent} (at_ : t.e[i]? = some x) (file : x.dir = false)
    (rest : t.Tight (i + 1) stop) : t.Tight i stop := by
  intro d y there dir low high
  rcases Nat.eq_or_lt_of_le low with rfl | later
  · cases at_.symm.trans there
    exact absurd (file.symm.trans dir) (by decide)
  · exact rest d y there dir later high

theorem Table.Tight.dir {i stop : Nat} {x : Ent} (at_ : t.e[i]? = some x) (ends : x.b ≤ stop)
    (own : t.Tight (i + 1) x.b) (rest : t.Tight x.b stop) : t.Tight i stop := by
  intro d y there dir low high
  rcases Nat.eq_or_lt_of_le low with rfl | later
  · cases at_.symm.trans there
    refine ⟨ends, fun j z here is_dir after before => ?_⟩
    exact (own j z here is_dir after before).1
  · cases Nat.lt_or_ge d x.b with
    | inl inside =>
        obtain ⟨bound, nested⟩ := own d y there dir later inside
        exact ⟨le_trans bound ends, nested⟩
    | inr past => exact rest d y there dir past high

theorem emit_added_plain (plain : t.e.length = t.count) (d : Nat) (m : Emit) :
    emit_added t d m = some m := by
  rw [emit_added, plain, Nat.sub_self]
  rfl

/-- Emission that ends has taken every entry it went past at least once, and if each only
once then the ranges are tight. By induction on the fuel, as it is emitted. -/
theorem emit_tight (sound : t.Sound) (plain : t.e.length = t.count) (fuel : Nat) :
    (∀ m d parent m' x, t.e[d]? = some x → x.dir = true → d < t.count →
      emit_dir t fuel m d parent = some m' →
      ∃ stop, t.dir_end d x ≤ stop ∧ stop ≤ t.count ∧ m.n + (stop - d) ≤ m'.n ∧
        m'.n ≤ t.count ∧ (m'.n = m.n + (stop - d) → t.Tight (d + 1) stop)) ∧
    ∀ m i end_ me m', 0 < i → i ≤ t.count → end_ ≤ t.count → m.n ≤ t.count →
      emit_entries t fuel m i end_ me = some m' →
      ∃ stop, i ≤ stop ∧ end_ ≤ stop ∧ stop ≤ t.count ∧ m.n + (stop - i) ≤ m'.n ∧
        m'.n ≤ t.count ∧ (m'.n = m.n + (stop - i) → t.Tight i stop) := by
  induction fuel with
  | zero =>
      constructor
      · intro m d parent m' x _ _ _ emitted
        rw [emit_dir] at emitted
        cases emitted
      intro m i end_ me m' pos low bound room emitted
      rw [emit_entries] at emitted
      split at emitted
      · cases emitted
      · cases emitted
        exact ⟨i, le_refl _, by omega, low, by omega, room, fun _ => tight_none i⟩
  | succ fuel ih =>
      obtain ⟨ih_dir, ih_entries⟩ := ih
      constructor
      · intro m d parent m' x at_ dir low emitted
        have inside : d < t.dir_end d x ∧ t.dir_end d x ≤ t.count := by
          rw [Table.dir_end]
          split
          · omega
          · exact sound.range d x at_ low (by omega) dir
        rw [emit_dir, at_] at emitted
        change (emit_entry t m d (if d = 0 then 0 else parent) 0 >>= fun m1 =>
          emit_entries t fuel m1 (d + 1) (t.dir_end d x) m.n >>= fun m2 =>
            emit_added t d m2 >>= _) = some m' at emitted
        obtain ⟨m1, first, emitted⟩ := Option.bind_eq_some_iff.mp emitted
        obtain ⟨m2, own, emitted⟩ := Option.bind_eq_some_iff.mp emitted
        obtain ⟨m3, added, emitted⟩ := Option.bind_eq_some_iff.mp emitted
        cases (emit_added_plain plain d m2).symm.trans added
        obtain ⟨count, room⟩ := emit_entry_grows first
        obtain ⟨stop, start, ends, bound, grows, within, tight⟩ :=
          ih_entries m1 (d + 1) (t.dir_end d x) m.n m2 (by omega) (by omega) inside.2
            (by omega) own
        cases emitted
        refine ⟨stop, ends, bound, ?_, within, fun equal => tight ?_⟩
        · change _ ≤ m2.n
          omega
        · change m2.n = _ at equal
          omega
      · intro m i end_ me m' pos low bound room emitted
        rw [emit_entries] at emitted
        split at emitted
        next goes =>
          obtain ⟨x, at_, emitted⟩ := Option.bind_eq_some_iff.mp emitted
          split at emitted
          next dir =>
            obtain ⟨further, inside⟩ := sound.range i x at_ (by omega) pos dir
            obtain ⟨m1, own, more⟩ := Option.bind_eq_some_iff.mp emitted
            have ends_at : t.dir_end i x = x.b := if_neg (by omega)
            obtain ⟨stop1, past1, low1, grows1, room1, tight1⟩ :=
              ih_dir m i me m1 x at_ dir (by omega) own
            rw [ends_at] at past1
            obtain ⟨stop, start, ends, low2, grows, room2, tight2⟩ :=
              ih_entries m1 x.b end_ me m' (by omega) inside bound room1 more
            refine ⟨stop, by omega, ends, low2, by omega, room2, ?_⟩
            intro equal
            -- no entry is left over between the directory's end and where it stopped
            have exact_ : stop1 = x.b := by omega
            subst exact_
            exact Table.Tight.dir at_ start (tight1 (by omega)) (tight2 (by omega))
          next file =>
            obtain ⟨m1, own, more⟩ := Option.bind_eq_some_iff.mp emitted
            obtain ⟨count, room1⟩ := emit_entry_grows own
            obtain ⟨stop, start, ends, low2, grows, room2, tight⟩ :=
              ih_entries m1 (i + 1) end_ me m' (by omega) (by omega) bound (by omega) more
            refine ⟨stop, by omega, ends, low2, by omega, room2, ?_⟩
            intro equal
            exact Table.Tight.file at_ (Bool.eq_false_iff.mpr file) (tight (by omega))
        next done =>
          cases emitted
          exact ⟨i, le_refl _, by omega, low, by omega, room, fun _ => tight_none i⟩

/-- Without added files, only a nested table is emitted inside the room for it. -/
theorem nested_of_serialise (sound : t.Sound) (plain : t.e.length = t.count)
    {out : Option (List Byte)} (emitted : serialise t = some out) : t.Nested := by
  obtain ⟨x, at_, dir⟩ := sound.root
  obtain ⟨m, emitted, -⟩ := Option.bind_eq_some_iff.mp emitted
  obtain ⟨stop, past, bound, grows, room, tight⟩ :=
    (emit_tight sound plain _).1 ⟨[], 0⟩ 0 0 m x at_ dir sound.some_ emitted
  have whole : t.dir_end 0 x = t.count := if_pos rfl
  change 0 + (stop - 0) ≤ m.n at grows
  have ends : stop = t.count := by omega
  subst ends
  have ranges := tight (by
    change m.n = 0 + (t.count - 0)
    omega)
  intro d y j z there is_dir here inner pos after before
  have low : d < t.count := by
    rw [← plain]
    exact (List.getElem?_eq_some_iff.mp there).1
  exact (ranges d y there is_dir pos low).2 j z here inner after before

end Emission

end SoaPort.Disc
