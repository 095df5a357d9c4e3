import SoaPort.Disc.Overlay
import SoaPort.Disc.FstCorrect
import Mathlib.Algebra.BigOperators.Group.Finset.Basic
import Mathlib.Algebra.Order.BigOperators.Group.Finset
import Mathlib.Order.Interval.Finset.Nat

namespace SoaPort.Disc

open SoaPort.Lib

/-! The directories an entry lies in. -/

/-- The table's entry `c` is a directory whose range goes past `i`. -/
def holds (t : Table) (i c : Nat) : Bool :=
  match t.e[c]? with
  | some x => x.dir && decide (i < x.b)
  | none => false

theorem holds_iff {t : Table} {i c : Nat} :
    holds t i c = true ↔ ∃ x, t.e[c]? = some x ∧ x.dir = true ∧ i < x.b := by
  rw [holds]
  cases t.e[c]? with
  | none => simp
  | some x => simp

/-- The directories holding entry `i` past `d`. -/
def holders (t : Table) (d i : Nat) : Finset Nat := (Finset.Ico (d + 1) i).filter fun c => holds t i c = true

/-- The entry's own place among the directories holding it: every path down to it fits. -/
structure Fits (t : Table) (i : Nat) : Prop where
  depth : (holders t 0 i).card ≤ 32
  length : ∑ c ∈ holders t 0 i, name_length t c < PATH_MAX_DISC

theorem holders_cons {t : Table} {d i next : Nat} (after : d < next) (before : next < i)
    (held : holds t i next = true) :
    insert next (holders t next i) ⊆ holders t d i ∧ next ∉ holders t next i := by
  constructor
  · intro c member
    rcases Finset.mem_insert.mp member with rfl | later
    · exact Finset.mem_filter.mpr ⟨Finset.mem_Ico.mpr ⟨after, before⟩, held⟩
    · obtain ⟨range, holds_⟩ := Finset.mem_filter.mp later
      obtain ⟨low, high⟩ := Finset.mem_Ico.mp range
      exact Finset.mem_filter.mpr ⟨Finset.mem_Ico.mpr ⟨by omega, high⟩, holds_⟩
  · intro member
    have low := (Finset.mem_Ico.mp (Finset.mem_filter.mp member).1).1
    omega

section Chain

variable {t : Table} (sound : t.Sound)

include sound

theorem holding_within (i : Nat) {fuel x end_ : Nat} (room : end_ ≤ x + fuel) (pos : 0 < x)
    (inside : end_ ≤ t.count) :
    ∃ r, holding t i fuel x end_ = some r ∧
      ∀ c, r = some c → x ≤ c ∧ c < i ∧ c < t.count ∧ holds t i c = true := by
  induction fuel generalizing x with
  | zero =>
      rw [holding, if_neg (by omega)]
      exact ⟨none, rfl, nofun⟩
  | succ fuel ih =>
      rw [holding]
      split
      next goes =>
        obtain ⟨y, at_⟩ := sound.entry (i := x) (by omega)
        obtain ⟨further, _⟩ := sound.next at_ (by omega) pos
        rw [at_]
        change ∃ r, (if y.dir = true ∧ i < y.b ∧ x < i then some (some x)
          else holding t i fuel (if y.dir then y.b else x + 1) end_) = some r ∧ _
        split
        next here =>
          refine ⟨some x, rfl, ?_⟩
          rintro c ⟨⟩
          exact ⟨le_refl _, here.2.2, by omega, holds_iff.mpr ⟨y, at_, here.1, here.2.1⟩⟩
        · obtain ⟨r, found, held⟩ :=
            ih (x := if y.dir then y.b else x + 1) (by omega) (by omega)
          refine ⟨r, found, fun c is => ?_⟩
          obtain ⟨low, high⟩ := held c is
          exact ⟨by omega, high⟩
      · exact ⟨none, rfl, nofun⟩

/-- The chain stays in its array, and its names take no more than those of the directories
holding the entry. -/
theorem chain_within (i : Nat) {fuel d depth : Nat} (room : i ≤ d + fuel) (low : d < t.count)
    (dir : t.IsDir d) (fits : depth + (holders t d i).card ≤ 32) :
    ∃ dirs, chain t i fuel d depth = some dirs ∧ (∀ c ∈ dirs, 0 < c ∧ t.IsDir c) ∧
      (dirs.map (name_length t)).sum ≤ ∑ c ∈ holders t d i, name_length t c := by
  induction fuel generalizing d depth with
  | zero =>
      rw [chain, if_neg (by omega)]
      exact ⟨[], rfl, nofun, Nat.zero_le _⟩
  | succ fuel ih =>
      rw [chain]
      split
      next goes =>
        obtain ⟨x, at_, is_dir⟩ := dir
        have bound := sound.end_le at_ low is_dir
        have room : (if d = 0 then t.count else x.b) ≤ d + 1 + (t.count + 1) := by omega
        obtain ⟨r, found, held⟩ := holding_within sound i room (Nat.succ_pos d) bound
        rw [at_]
        change ∃ dirs, (holding t i (t.count + 1) (d + 1) (if d = 0 then t.count else x.b) >>= _) =
          some dirs ∧ _
        rw [found]
        cases r with
        | none => exact ⟨[], rfl, nofun, Nat.zero_le _⟩
        | some next =>
            obtain ⟨after, before, inside, holds_⟩ := held next rfl
            obtain ⟨subset, fresh⟩ := holders_cons after before holds_
            have fewer := Finset.card_le_card subset
            rw [Finset.card_insert_of_notMem fresh] at fewer
            have shorter : ∑ c ∈ insert next (holders t next i), name_length t c ≤
                ∑ c ∈ holders t d i, name_length t c :=
              Finset.sum_le_sum_of_subset subset
            rw [Finset.sum_insert fresh] at shorter
            obtain ⟨y, there, next_dir, -⟩ := holds_iff.mp holds_
            have deeper : depth + 1 + (holders t next i).card ≤ 32 := by omega
            obtain ⟨rest, more, dirs, sums⟩ := ih (by omega) inside ⟨y, there, next_dir⟩ deeper
            change ∃ dirs, (if 32 ≤ depth then none
              else chain t i fuel next (depth + 1) >>= fun rest => some (next :: rest)) =
                some dirs ∧ _
            rw [if_neg (by omega), more]
            refine ⟨next :: rest, rfl, ?_, ?_⟩
            · exact List.forall_mem_cons.mpr ⟨⟨by omega, y, there, next_dir⟩, dirs⟩
            · rw [List.map_cons, List.sum_cons]
              omega
      · exact ⟨[], rfl, nofun, Nat.zero_le _⟩

/-- The path of an entry whose directories fit is written inside its array. -/
theorem file_path_within {i : Nat} {x : Ent} (at_ : t.e[i]? = some x) (pos : 0 < i)
    (fits : Fits t i) : ∃ path, file_path t i = some path := by
  have depth : 0 + (holders t 0 i).card ≤ 32 := by
    rw [Nat.zero_add]
    exact fits.depth
  have reach : i ≤ 0 + (i + 1) := by omega
  obtain ⟨dirs, chained, held, sums⟩ :=
    chain_within sound i reach sound.some_ sound.root depth
  have named : ∀ d ∈ dirs, ∃ s, name_of t d = some s := by
    intro d member
    obtain ⟨positive, y, there, -⟩ := held d member
    exact sound.name there positive
  have room : 0 + (dirs.map (name_length t)).sum ≤ NAME_MAX_DISC * 2 := by
    have short := fits.length
    simp only [PATH_MAX_DISC] at short
    simp only [NAME_MAX_DISC]
    omega
  obtain ⟨p, puts, used⟩ := put_dirs_some named (p := ⟨0, []⟩) room
  obtain ⟨s, name⟩ := sound.name at_ pos
  obtain ⟨q, put, -⟩ := put_some (p := p) (used ▸ room) s
  refine ⟨q.text, ?_⟩
  rw [file_path, chained]
  change (put_dirs t dirs ⟨0, []⟩ >>= _) = _
  rw [puts]
  change (name_of t i >>= fun s => p.put s >>= _) = _
  rw [name]
  change (p.put s >>= _) = _
  rw [put]
  rfl

end Chain

/-! A table the index accepts. -/

section Index

variable {t : Table}

/-- The open directories are `dirs`, and their paths as long as the names down to them. -/
def Stacked (t : Table) : List Nat → List Opened → Prop
  | [], [] => True
  | c :: dirs, o :: opened =>
      (∃ x, t.e[c]? = some x ∧ x.dir = true ∧ o.next = x.b) ∧
        o.path.length = ((c :: dirs).map (name_length t)).sum ∧ Stacked t dirs opened
  | _, _ => False

theorem Stacked.length {dirs : List Nat} {opened : List Opened} (stacked : Stacked t dirs opened) :
    opened.length = dirs.length ∧ (prefix_of opened).length = (dirs.map (name_length t)).sum := by
  induction opened generalizing dirs with
  | nil =>
      cases dirs with
      | nil => exact ⟨rfl, rfl⟩
      | cons c dirs => cases stacked
  | cons o opened ih =>
      cases dirs with
      | nil => cases stacked
      | cons c dirs =>
          obtain ⟨-, path, rest⟩ := stacked
          exact ⟨congrArg (· + 1) (ih rest).1, path⟩

/-- Closing directories leaves those that go past the entry. -/
theorem Stacked.still_open {dirs : List Nat} {opened : List Opened}
    (stacked : Stacked t dirs opened) (i : Nat) :
    ∃ left, Stacked t left (still_open opened i) ∧ left <:+ dirs ∧
      ∀ c ∈ dirs, holds t i c = true → c ∈ left := by
  induction opened generalizing dirs with
  | nil =>
      cases dirs with
      | nil => exact ⟨[], trivial, List.suffix_refl _, fun c member _ => member⟩
      | cons c dirs => cases stacked
  | cons o opened ih =>
      cases dirs with
      | nil => cases stacked
      | cons c dirs =>
          obtain ⟨⟨x, at_, dir, next⟩, path, rest⟩ := stacked
          rw [SoaPort.Disc.still_open, List.dropWhile_cons]
          split
          next closed =>
            obtain ⟨left, kept, suffix, all⟩ := ih rest
            refine ⟨left, kept, suffix.trans (List.suffix_cons c dirs), ?_⟩
            intro d member held
            rcases List.mem_cons.mp member with rfl | later
            · obtain ⟨y, there, -, past⟩ := holds_iff.mp held
              cases at_.symm.trans there
              have ends := of_decide_eq_true closed
              omega
            · exact all d later held
          next => exact ⟨c :: dirs, ⟨⟨x, at_, dir, next⟩, path, rest⟩, List.suffix_refl _,
              fun d member _ => member⟩

/-- What the index keeps before entry `i`: every directory still going is open. -/
structure Reads (t : Table) (i : Nat) (opened : List Opened) : Prop where
  room : opened.length ≤ 32
  stack : ∃ dirs, Stacked t dirs opened ∧ dirs.Nodup ∧ (∀ c ∈ dirs, c < i) ∧
    ∀ c x, t.e[c]? = some x → x.dir = true → 0 < c → c < i → i ≤ x.b → c ∈ dirs

/-- The table the index reads is the one the build parses. -/
structure SameTable (fst : List Byte) (t : Table) : Prop where
  count : t.count = (be32 fst 8).toNat
  str : t.str = fst.drop (t.count * FST_ENTRY % 2 ^ 32)
  entry : ∀ i < t.count, t.e[i]? = some (ent_at fst i)

theorem parse_same {fst : List Byte} (parsed : parse fst = .ok t) : SameTable fst t := by
  obtain ⟨rfl, -⟩ := parse_eq parsed
  refine ⟨rfl, rfl, fun i low => ?_⟩
  change ((List.range _).map _)[i]? = _
  rw [List.getElem?_map, List.getElem?_range low]
  rfl

theorem index_entry_reads {fst : List Byte} (same : SameTable fst t) {i : Nat} (pos : 0 < i)
    (low : i < t.count) {st st' : Index} (reads : Reads t i st.opened)
    (step : index_entry fst t.count st i = some st') :
    Fits t i ∧ Reads t (i + 1) st'.opened := by
  obtain ⟨room, dirs, stacked, nodup, before, all⟩ := reads
  obtain ⟨left, kept, suffix, going⟩ := stacked.still_open i
  obtain ⟨length, path_length⟩ := kept.length
  have at_ := same.entry i low
  have fewer : (still_open st.opened i).length ≤ 32 :=
    le_trans (List.dropWhile_suffix _).length_le room
  have nodup := suffix.sublist.nodup nodup
  have held : holders t 0 i ⊆ left.toFinset := by
    intro c member
    obtain ⟨range, holds_⟩ := Finset.mem_filter.mp member
    obtain ⟨positive, inside⟩ := Finset.mem_Ico.mp range
    obtain ⟨x, there, dir, past⟩ := holds_iff.mp holds_
    exact List.mem_toFinset.mpr
      (going c (all c x there dir positive inside (Nat.le_of_lt past)) holds_)
  have sums : ∑ c ∈ holders t 0 i, name_length t c ≤ (prefix_of (still_open st.opened i)).length := by
    rw [path_length, ← List.sum_toFinset _ nodup]
    exact Finset.sum_le_sum_of_subset held
  have depth : (holders t 0 i).card ≤ 32 := by
    have count := Finset.card_le_card held
    rw [List.toFinset_card_of_nodup nodup] at count
    omega
  have within : ∀ c ∈ left, c < i + 1 := fun c member =>
    Nat.lt_succ_of_lt (before c (suffix.subset member))
  rw [index_entry] at step
  dsimp only at step
  split at step
  · cases step
  next name named =>
  have entry_name : name_of t i = some name := by
    rw [name_of, at_, same.str]
    exact named
  split at step
  · cases step
  next short =>
  have fits : Fits t i := by
    refine ⟨depth, ?_⟩
    rw [List.length_append] at short
    omega
  refine ⟨fits, ?_⟩
  split at step
  next dir =>
    have is_dir : (ent_at fst i).dir = true := decide_eq_true dir
    split at step
    · cases step
    next ranged =>
    cases step
    refine ⟨?_, i :: left, ⟨⟨_, at_, is_dir, rfl⟩, ?_, kept⟩, ?_, ?_, ?_⟩
    · rw [List.length_cons]
      omega
    · rw [List.map_cons, List.sum_cons, ← path_length, name_length, entry_name]
      change (_ ++ _ ++ [_]).length = name.length + 1 + _
      rw [List.length_append, List.length_append, List.length_singleton]
      omega
    · refine List.nodup_cons.mpr ⟨fun member => ?_, nodup⟩
      exact absurd (before i (suffix.subset member)) (lt_irrefl i)
    · exact List.forall_mem_cons.mpr ⟨Nat.lt_succ_self i, within⟩
    · intro c x there dir positive inside past
      rcases Nat.eq_or_lt_of_le (Nat.le_of_lt_succ inside) with rfl | earlier
      · exact List.mem_cons_self
      · refine List.mem_cons_of_mem _ (going c ?_ (holds_iff.mpr ⟨x, there, dir, past⟩))
        exact all c x there dir positive earlier (by omega)
  next file =>
    cases step
    refine ⟨fewer, left, kept, nodup, within, ?_⟩
    intro c x there dir positive inside past
    rcases Nat.eq_or_lt_of_le (Nat.le_of_lt_succ inside) with rfl | earlier
    · cases at_.symm.trans there
      exact absurd (of_decide_eq_true dir) file
    · refine going c ?_ (holds_iff.mpr ⟨x, there, dir, past⟩)
      exact all c x there dir positive earlier (by omega)

/-- Every entry of a table the index accepts fits. -/
theorem index_fits {fst : List Byte} {ext : List Extent} (accepted : index_fst fst = some ext)
    (parsed : parse fst = .ok t) {i : Nat} (pos : 0 < i) (low : i < t.count) : Fits t i := by
  have same := parse_same parsed
  have run : ∀ m j st st', 0 < j → j + m ≤ t.count → Reads t j st.opened →
      (List.range' j m).foldlM (index_entry fst t.count) st = some st' →
      ∀ k, j ≤ k → k < j + m → Fits t k := by
    intro m
    induction m with
    | zero =>
        intro j st st' _ _ _ _ k low high
        omega
    | succ m ih =>
        intro j st st' positive inside reads goes k low high
        rw [List.range'_succ, List.foldlM_cons] at goes
        obtain ⟨next, step, rest⟩ := Option.bind_eq_some_iff.mp goes
        obtain ⟨fits, more⟩ := index_entry_reads same positive (by omega) reads step
        rcases Nat.eq_or_lt_of_le low with rfl | later
        · exact fits
        · exact ih (j + 1) next st' (by omega) (by omega) more rest k later (by omega)
  rw [index_fst] at accepted
  split at accepted
  · cases accepted
  obtain ⟨st', goes, -⟩ := Option.map_eq_some_iff.mp accepted
  rw [← same.count] at goes
  have start : Reads t 1 [] := by
    refine ⟨Nat.zero_le _, [], trivial, List.nodup_nil, nofun, ?_⟩
    intro c x _ _ positive inside
    omega
  exact run (t.count - 1) 1 ⟨[], []⟩ st' Nat.one_pos (by omega) start goes i pos (by omega)

end Index

end SoaPort.Disc
