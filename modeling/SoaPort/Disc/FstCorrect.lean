import SoaPort.Disc.Overlay
import Mathlib.Data.List.Basic
import Mathlib.Algebra.BigOperators.Group.List.Basic

namespace SoaPort.Disc

open SoaPort.Lib

/-! Strings in a table. -/

theorem takeWhile_ends {p : List Byte} (ends : 0#8 ∈ p) (q : List Byte) :
    (p ++ q).takeWhile (· ≠ 0#8) = p.takeWhile (· ≠ 0#8) := by
  induction p with
  | nil => cases ends
  | cons b rest ih =>
      cases Decidable.em (b = 0#8) with
      | inl zero => simp [zero]
      | inr other =>
          have later : 0#8 ∈ rest := by
            rcases List.mem_cons.mp ends with here | later
            · exact absurd here.symm other
            · exact later
          simpa [other] using ih later

theorem cstr_append {str : List Byte} {at_ : Nat} {s : List Byte} (there : cstr str at_ = some s)
    (more : List Byte) : cstr (str ++ more) at_ = some s := by
  rw [cstr] at there ⊢
  split at there
  next ends =>
    have low : at_ ≤ str.length := by
      by_contra high
      rw [List.drop_eq_nil_of_le (by omega)] at ends
      cases ends
    rw [List.drop_append_of_le_length low, if_pos (List.mem_append_left _ ends),
      takeWhile_ends ends]
    exact there
  · cases there

/-- A table that ends in a zero has a string at every place. -/
theorem cstr_of_ends {str : List Byte} {at_ : Nat} (inside : at_ ≤ str.length) :
    ∃ s, cstr (str ++ [0#8]) at_ = some s := by
  refine ⟨_, if_pos ?_⟩
  rw [List.drop_append_of_le_length inside]
  exact List.mem_append_right _ (List.mem_singleton.mpr rfl)

/-! Tables that code may follow. -/

/-- A directory of the table. -/
def Table.IsDir (t : Table) (d : Nat) : Prop := ∃ x, t.e[d]? = some x ∧ x.dir = true

structure Table.Sound (t : Table) : Prop where
  some_ : 0 < t.count
  count_le : t.count ≤ t.e.length
  root : t.IsDir 0
  named : ∀ i x, t.e[i]? = some x → 0 < i → ∃ s, cstr t.str x.name = some s
  range : ∀ i x, t.e[i]? = some x → i < t.count → 0 < i → x.dir = true →
    i < x.b ∧ x.b ≤ t.count
  base : ∀ i x, t.e[i]? = some x → i < t.count → x.add_dir = none
  added : ∀ i x, t.e[i]? = some x → t.count ≤ i → x.dir = false ∧
    ∃ d, x.add_dir = some d ∧ d < t.count ∧ t.IsDir d

theorem parse_eq {fst : List Byte} {t : Table} (parsed : parse fst = .ok t) :
    t = ⟨(be32 fst 8).toNat, (List.range (be32 fst 8).toNat).map (ent_at fst),
        fst.drop ((be32 fst 8).toNat * FST_ENTRY % 2 ^ 32)⟩ ∧
      fst.getD 0 0#8 ≠ 0#8 ∧ (be32 fst 8).toNat ≠ 0 ∧
      ∀ i < (be32 fst 8).toNat, check_ent (be32 fst 8).toNat
        (fst.drop ((be32 fst 8).toNat * FST_ENTRY % 2 ^ 32)) i (ent_at fst i) = none := by
  rw [parse] at parsed
  split at parsed
  · cases parsed
  next root =>
  split at parsed
  · cases parsed
  next counted =>
  split at parsed
  · cases parsed
  next whole =>
  cases parsed
  refine ⟨rfl, ?_, ?_, ?_⟩
  · exact fun zero => root (.inr zero)
  · exact fun zero => counted (.inl zero)
  · intro i low
    exact List.findSome?_eq_none_iff.mp whole i (List.mem_range.mpr low)

theorem parse_sound {fst : List Byte} {t : Table} (parsed : parse fst = .ok t) :
    t.Sound ∧ t.e.length = t.count := by
  obtain ⟨rfl, root, some_, checked⟩ := parse_eq parsed
  have length : ((List.range (be32 fst 8).toNat).map (ent_at fst)).length =
      (be32 fst 8).toNat := by
    rw [List.length_map, List.length_range]
  have entry : ∀ i x, ((List.range (be32 fst 8).toNat).map (ent_at fst))[i]? = some x →
      i < (be32 fst 8).toNat ∧ x = ent_at fst i := by
    intro i x at_
    have low : i < (be32 fst 8).toNat := by
      rw [← length]
      exact (List.getElem?_eq_some_iff.mp at_).1
    rw [List.getElem?_map, List.getElem?_range low] at at_
    exact ⟨low, (Option.some.inj at_).symm⟩
  refine ⟨⟨Nat.pos_of_ne_zero some_, Nat.le_of_eq length.symm, ?_, ?_, ?_, ?_, ?_⟩, length⟩
  · refine ⟨ent_at fst 0, ?_, ?_⟩
    · change ((List.range _).map _)[0]? = _
      rw [List.getElem?_map, List.getElem?_range (Nat.pos_of_ne_zero some_)]
      rfl
    · exact decide_eq_true root
  · intro i x at_ pos
    obtain ⟨low, rfl⟩ := entry i x at_
    have named := checked i low
    rw [check_ent] at named
    split at named
    · cases named
    next ok =>
      cases name : cstr (fst.drop ((be32 fst 8).toNat * FST_ENTRY % 2 ^ 32)) (ent_at fst i).name with
      | some s => exact ⟨s, rfl⟩
      | none => exact absurd ⟨by omega, name⟩ ok
  · intro i x at_ low pos dir
    obtain ⟨-, rfl⟩ := entry i x at_
    have ranged := checked i low
    rw [check_ent] at ranged
    split at ranged
    · cases ranged
    split at ranged
    · cases ranged
    next ok =>
      change i < (ent_at fst i).b ∧ (ent_at fst i).b ≤ (be32 fst 8).toNat
      by_contra bad
      exact ok ⟨dir, by omega, by omega⟩
  · intro i x at_ _
    obtain ⟨-, rfl⟩ := entry i x at_
    rfl
  · intro i x at_ high
    have low : i < (be32 fst 8).toNat := (entry i x at_).1
    change (be32 fst 8).toNat ≤ i at high
    omega

/-! Walks. -/

section Walks

variable {t : Table} (sound : t.Sound)

include sound

theorem Table.Sound.entry {i : Nat} (low : i < t.count) : ∃ x, t.e[i]? = some x :=
  ⟨_, List.getElem?_eq_getElem (lt_of_lt_of_le low sound.count_le)⟩

theorem Table.Sound.name {i : Nat} {x : Ent} (at_ : t.e[i]? = some x) (pos : 0 < i) :
    ∃ s, name_of t i = some s := by
  obtain ⟨s, named⟩ := sound.named i x at_ pos
  refine ⟨s, ?_⟩
  rw [name_of, at_]
  exact named

/-- The next entry of a directory's own lies further on, inside the table. -/
theorem Table.Sound.next {i : Nat} {x : Ent} (at_ : t.e[i]? = some x) (low : i < t.count)
    (pos : 0 < i) : i < (if x.dir then x.b else i + 1) ∧
      (if x.dir then x.b else i + 1) ≤ t.count := by
  split
  next dir => exact sound.range i x at_ low pos dir
  · omega

theorem walk_dir_within (s : List Byte) {fuel i end_ : Nat} (room : end_ ≤ i + fuel)
    (pos : 0 < i) (inside : end_ ≤ t.count) :
    ∃ r, walk_dir t s fuel i end_ = some r ∧ ∀ j, r = some j → 0 < j ∧ j < t.count := by
  induction fuel generalizing i with
  | zero =>
      rw [walk_dir, if_neg (by omega)]
      exact ⟨none, rfl, nofun⟩
  | succ fuel ih =>
      rw [walk_dir]
      split
      next low =>
        obtain ⟨x, at_⟩ := sound.entry (i := i) (by omega)
        obtain ⟨name, named⟩ := sound.name at_ pos
        obtain ⟨further, _⟩ := sound.next at_ (by omega) pos
        rw [at_, named]
        change ∃ r, (if ieq name s = true then some (some i)
          else walk_dir t s fuel (if x.dir then x.b else i + 1) end_) = some r ∧ _
        split
        · refine ⟨some i, rfl, ?_⟩
          rintro j ⟨⟩
          omega
        · exact ih (by omega) (by omega)
      next high => exact ⟨none, rfl, nofun⟩

theorem Table.Sound.end_le {d : Nat} {x : Ent} (at_ : t.e[d]? = some x) (low : d < t.count)
    (dir : x.dir = true) : (if d = 0 then t.count else x.b) ≤ t.count := by
  split
  · exact le_refl _
  · exact (sound.range d x at_ low (by omega) dir).2

theorem walk_from_within (path : List (List Byte)) {d : Nat} (low : d < t.count)
    (dir : t.IsDir d) : ∃ r, walk_from t d path = some r ∧ ∀ i, r = some i → i < t.count := by
  induction path generalizing d with
  | nil =>
      refine ⟨some d, rfl, ?_⟩
      rintro i ⟨⟩
      exact low
  | cons s rest ih =>
      obtain ⟨x, at_, is_dir⟩ := dir
      have bound := sound.end_le at_ low is_dir
      have room : (if d = 0 then t.count else x.b) ≤ d + 1 + (t.count + 1) := by omega
      obtain ⟨r, found, inside⟩ := walk_dir_within sound s room (Nat.succ_pos d) bound
      rw [walk_from, at_]
      change ∃ r, (walk_dir t s (t.count + 1) (d + 1) (if d = 0 then t.count else x.b) >>= _) =
        some r ∧ _
      rw [found]
      cases r with
      | none => exact ⟨none, rfl, nofun⟩
      | some j =>
          have low := (inside j rfl).2
          obtain ⟨y, there⟩ := sound.entry low
          change ∃ r, (t.e[j]? >>= _) = some r ∧ _
          rw [there]
          change ∃ r, (if rest = [] then some (some j)
            else if y.dir then walk_from t j rest else some none) = some r ∧ _
          split
          · refine ⟨some j, rfl, ?_⟩
            rintro i ⟨⟩
            exact low
          split
          next is_dir => exact ih low ⟨y, there, is_dir⟩
          · exact ⟨none, rfl, nofun⟩

/-- A walk stays inside a sound table. -/
theorem walk_within (path : List Byte) :
    ∃ r, walk t path = some r ∧ ∀ i, r = some i → i < t.count := by
  rw [walk]
  split
  · refine ⟨some 0, rfl, ?_⟩
    rintro i ⟨⟩
    exact sound.some_
  · exact walk_from_within sound (components path) sound.some_ sound.root

end Walks

/-! The paths of added files. -/

section Paths

/-- A name and the slash after it. -/
def name_length (t : Table) (d : Nat) : Nat := ((name_of t d).getD []).length + 1

theorem put_some {p : Path} (room : p.used ≤ NAME_MAX_DISC * 2) (s : List Byte) :
    ∃ q, p.put s = some q ∧ q.used = p.used + s.length := by
  rw [Path.put, if_neg (by omega)]
  exact ⟨_, rfl, rfl⟩

/-- Names that fit together are put one after another inside the array. -/
theorem put_dirs_some {t : Table} {dirs : List Nat} (named : ∀ d ∈ dirs, ∃ s, name_of t d = some s)
    {p : Path} (room : p.used + (dirs.map (name_length t)).sum ≤ NAME_MAX_DISC * 2) :
    ∃ q, put_dirs t dirs p = some q ∧ q.used = p.used + (dirs.map (name_length t)).sum := by
  induction dirs generalizing p with
  | nil => exact ⟨p, rfl, rfl⟩
  | cons d rest ih =>
      obtain ⟨⟨s, name⟩, others⟩ := List.forall_mem_cons.mp named
      rw [List.map_cons, List.sum_cons] at room ⊢
      obtain ⟨q, put, used⟩ := put_some (p := p) (by omega) (s ++ [0x2F#8])
      have length : name_length t d = (s ++ [0x2F#8]).length := by
        rw [name_length, name, List.length_append]
        rfl
      obtain ⟨last, puts, all⟩ := ih others (p := q) (by omega)
      refine ⟨last, ?_, by omega⟩
      rw [put_dirs, List.foldlM_cons, name]
      change (p.put (s ++ [0x2F#8]) >>= _) = _
      rw [put]
      exact puts

/-- A directory some line can add to. -/
def Table.Addable (t : Table) (d : Nat) : Prop :=
  ∃ path, valid_path path = true ∧ walk_to_dir t (dirname path) = some (some d)

/-- Following parent links from any directory lines can add to stays among the table's
directories, and their names fit the path's array. -/
def Table.Linked (t : Table) : Prop :=
  ∀ d, t.Addable d → ∃ dirs, links t 32 d = some dirs ∧ (∀ x ∈ dirs, t.IsDir x) ∧
    (dirs.map (name_length t)).sum ≤ NAME_MAX_DISC * 2

/-- The directories and every name of a base table, under what a build has changed. -/
structure Table.Over (base t : Table) : Prop where
  count_eq : t.count = base.count
  same : ∀ i x, base.e[i]? = some x → i < base.count → ∃ y, t.e[i]? = some y ∧ y.dir = x.dir ∧
    y.name = x.name ∧ (x.dir = true → y = x)
  str : ∃ more, t.str = base.str ++ more

variable {base t : Table}

theorem Table.Over.refl (t : Table) : t.Over t :=
  ⟨rfl, fun _ x at_ _ => ⟨x, at_, rfl, rfl, fun _ => rfl⟩, [], (List.append_nil _).symm⟩

theorem Table.Over.dir (above : base.Over t) {d : Nat} {x : Ent} (low : d < base.count)
    (at_ : base.e[d]? = some x) (dir : x.dir = true) : t.e[d]? = some x := by
  obtain ⟨y, there, -, -, same⟩ := above.same d x at_ low
  rw [there, same dir]

theorem Table.Over.name (above : base.Over t) {d : Nat} (low : d < base.count)
    {s : List Byte} (named : name_of base d = some s) : name_of t d = some s := by
  rw [name_of] at named ⊢
  cases at_ : base.e[d]? with
  | none =>
      rw [at_] at named
      cases named
  | some x =>
      rw [at_] at named
      obtain ⟨y, there, -, name, -⟩ := above.same d x at_ low
      obtain ⟨more, str⟩ := above.str
      rw [there, str]
      change cstr _ y.name = _
      rw [name]
      exact cstr_append named more

theorem links_over (above : base.Over t) (low : ∀ d, base.IsDir d → d < base.count)
    {fuel d : Nat} {dirs : List Nat} (linked : links base fuel d = some dirs)
    (all : ∀ x ∈ dirs, base.IsDir x) : links t fuel d = some dirs := by
  induction fuel generalizing d dirs with
  | zero => exact linked
  | succ fuel ih =>
      rw [links] at linked ⊢
      split at linked
      next goes =>
        rw [if_pos goes]
        cases at_ : base.e[d]? with
        | none =>
            rw [at_] at linked
            cases linked
        | some x =>
            rw [at_] at linked
            change (links base fuel x.a >>= fun rest => some (d :: rest)) = _ at linked
            cases more : links base fuel x.a with
            | none =>
                rw [more] at linked
                cases linked
            | some rest =>
                rw [more] at linked
                cases linked
                obtain ⟨here, others⟩ := List.forall_mem_cons.mp all
                obtain ⟨y, there, is_dir⟩ := here
                cases at_.symm.trans there
                rw [above.dir (low d ⟨x, at_, is_dir⟩) at_ is_dir]
                change (links t fuel x.a >>= fun rest => some (d :: rest)) = _
                rw [ih more others]
                rfl
      next stops =>
        rw [if_neg stops]
        exact linked

/-- A sound table, under a build that has kept its directories and names. -/
structure Table.Build (base t : Table) : Prop where
  base_sound : base.Sound
  base_length : base.e.length = base.count
  sound : t.Sound
  above : base.Over t
  in_ : ∀ i x d, t.e[i]? = some x → t.count ≤ i → x.add_dir = some d → base.Addable d

theorem Table.Build.low (build : base.Build t) {d : Nat} (dir : base.IsDir d) :
    d < base.count := by
  obtain ⟨x, at_, -⟩ := dir
  rw [← build.base_length]
  exact (List.getElem?_eq_some_iff.mp at_).1

/-- A build starts from the base table itself. -/
theorem Table.Build.start {t : Table} (sound : t.Sound) (length : t.e.length = t.count) :
    t.Build t := by
  refine ⟨sound, length, sound, .refl t, ?_⟩
  intro i x d at_ high
  have low := (List.getElem?_eq_some_iff.mp at_).1
  omega

theorem links_pos {t : Table} {fuel d : Nat} {dirs : List Nat} (linked : links t fuel d = some dirs) :
    ∀ x ∈ dirs, 0 < x := by
  induction fuel generalizing d dirs with
  | zero =>
      cases linked
      exact nofun
  | succ fuel ih =>
      rw [links] at linked
      split at linked
      next goes =>
        obtain ⟨x, -, more⟩ := Option.bind_eq_some_iff.mp linked
        obtain ⟨rest, tail, whole⟩ := Option.bind_eq_some_iff.mp more
        cases whole
        exact List.forall_mem_cons.mpr ⟨goes.1, ih tail⟩
      · cases linked
        exact nofun

theorem added_path_within (build : base.Build t) (linked : base.Linked) {i : Nat}
    (low : t.count ≤ i) (high : i < t.e.length) : ∃ full, added_path t i = some full := by
  have at_ : t.e[i]? = some t.e[i] := List.getElem?_eq_getElem high
  obtain ⟨-, d, in_, -⟩ := build.sound.added i _ at_ low
  obtain ⟨dirs, followed, all, fits⟩ := linked d (build.in_ i _ d at_ low in_)
  have positive := links_pos followed
  have names : ∀ x ∈ dirs, ∃ s, name_of base x = some s ∧ name_of t x = some s := by
    intro x member
    obtain ⟨y, there, -⟩ := all x member
    obtain ⟨s, named⟩ := build.base_sound.name there (positive x member)
    exact ⟨s, named, build.above.name (build.low (all x member)) named⟩
  have lengths : dirs.map (name_length t) = dirs.map (name_length base) := by
    apply List.map_congr_left
    intro x member
    obtain ⟨s, before, after⟩ := names x member
    rw [name_length, name_length, before, after]
  have room : 0 + (dirs.reverse.map (name_length t)).sum ≤ NAME_MAX_DISC * 2 := by
    rw [Nat.zero_add, List.map_reverse, List.sum_reverse, lengths]
    exact fits
  have named : ∀ x ∈ dirs.reverse, ∃ s, name_of t x = some s := by
    intro x member
    exact (names x (List.mem_reverse.mp member)).imp fun _ both => both.2
  obtain ⟨p, puts, used⟩ := put_dirs_some named (p := ⟨0, []⟩) room
  obtain ⟨s, named⟩ := build.sound.name at_ (lt_of_lt_of_le build.sound.some_ low)
  obtain ⟨q, put, -⟩ := put_some (p := p) (used ▸ room) s
  refine ⟨q.text, ?_⟩
  rw [added_path, at_]
  change (links t 32 (t.e[i].add_dir.getD 0) >>= _) = _
  rw [in_]
  change (links t 32 d >>= _) = _
  rw [links_over build.above (fun d dir => build.low dir) followed all]
  change (put_dirs t dirs.reverse ⟨0, []⟩ >>= _) = _
  rw [puts]
  change (name_of t i >>= fun s => p.put s >>= _) = _
  rw [named]
  change (p.put s >>= _) = _
  rw [put]
  rfl

theorem added_loop_within (build : base.Build t) (linked : base.Linked) (path : List Byte)
    {l : List Nat} (inside : ∀ i ∈ l, t.count ≤ i ∧ i < t.e.length) :
    ∃ r, added_loop t path l = some r ∧ ∀ i, r = some i → i < t.e.length := by
  induction l with
  | nil => exact ⟨none, rfl, nofun⟩
  | cons i rest ih =>
      obtain ⟨⟨low, high⟩, others⟩ := List.forall_mem_cons.mp inside
      obtain ⟨full, written⟩ := added_path_within build linked low high
      rw [added_loop, written]
      change ∃ r, (if ieq full path = true then some (some i) else added_loop t path rest) =
        some r ∧ _
      split
      · refine ⟨some i, rfl, ?_⟩
        rintro j ⟨⟩
        exact high
      · exact ih others

/-- A lookup stays inside, among the base entries and the added ones. -/
theorem find_within (build : base.Build t) (linked : base.Linked) (path : List Byte) :
    ∃ r, find t path = some r ∧ ∀ i, r = some i → i < t.e.length := by
  obtain ⟨r, walked, inside⟩ := walk_within build.sound path
  rw [find, walked]
  cases r with
  | some i =>
      refine ⟨some i, rfl, ?_⟩
      rintro j ⟨⟩
      exact lt_of_lt_of_le (inside i rfl) build.sound.count_le
  | none =>
      apply added_loop_within build linked path
      intro i member
      have range := List.mem_range'_1.mp member
      omega

end Paths

end SoaPort.Disc
