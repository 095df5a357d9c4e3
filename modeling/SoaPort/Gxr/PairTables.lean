import SoaPort.Gxr.Pairs
import SoaPort.Lib.Chain
import Mathlib.Data.List.Nodup
import Mathlib.Data.List.Perm.Subperm

namespace SoaPort.Gxr

open SoaPort.Lib

/-! A frame's draws under their keys. -/

section Pool

variable {K : Type}

/-- A pool's members are draws of its key, each once. -/
structure Pooled (a : List (Draw K)) (pool : Key K → List Nat) : Prop where
  member : ∀ key, ∀ r ∈ pool key, ∃ d, a[r]? = some d ∧ d.key = key
  nodup : ∀ key, (pool key).Nodup

theorem Pooled.low {a : List (Draw K)} {pool : Key K → List Nat} (pooled : Pooled a pool)
    {key : Key K} {r : Nat} (member : r ∈ pool key) : r < a.length := by
  obtain ⟨d, at_, -⟩ := pooled.member key r member
  exact (List.getElem?_eq_some_iff.mp at_).1

theorem Pooled.apart {a : List (Draw K)} {pool : Key K → List Nat} (pooled : Pooled a pool)
    {key other : Key K} (ne : key ≠ other) {r : Nat} (member : r ∈ pool key) : r ∉ pool other := by
  intro there
  obtain ⟨d, at_, is⟩ := pooled.member key r member
  obtain ⟨d', at', is'⟩ := pooled.member other r there
  cases at_.symm.trans at'
  exact ne (is.symm.trans is')

variable [DecidableEq K]

theorem pool_from_snoc (pool : Key K → List Nat) (i : Nat) (a : List (Draw K)) (d : Draw K) :
    pool_from pool i (a ++ [d]) =
      Function.update (pool_from pool i a) d.key (pool_from pool i a d.key ++ [i + a.length]) := by
  induction a generalizing pool i with
  | nil => rfl
  | cons first a ih =>
      rw [List.cons_append, pool_from, ih, pool_from, List.length_cons]
      rw [Nat.add_assoc, Nat.add_comm 1]

theorem pool_of_snoc (a : List (Draw K)) (d : Draw K) :
    pool_of (a ++ [d]) = Function.update (pool_of a) d.key (pool_of a d.key ++ [a.length]) := by
  rw [pool_of, pool_from_snoc, Nat.zero_add]
  rfl

theorem pool_of_pooled (a : List (Draw K)) : Pooled a (pool_of a) := by
  induction a using List.reverseRecOn with
  | nil => exact ⟨nofun, fun _ => List.nodup_nil⟩
  | append_singleton a d ih =>
      rw [pool_of_snoc]
      have old : ∀ key, ∀ r ∈ pool_of a key, ∃ e, (a ++ [d])[r]? = some e ∧ e.key = key := by
        intro key r member
        obtain ⟨e, at_, is⟩ := ih.member key r member
        refine ⟨e, ?_, is⟩
        rw [List.getElem?_append_left (ih.low member)]
        exact at_
      constructor
      · intro key r member
        by_cases same : key = d.key
        · subst same
          rw [Function.update_self] at member
          rcases List.mem_append.mp member with earlier | now
          · exact old _ r earlier
          · rw [List.mem_singleton.mp now]
            exact ⟨d, List.getElem?_concat_length, rfl⟩
        · rw [Function.update_of_ne same] at member
          exact old key r member
      · intro key
        by_cases same : key = d.key
        · subst same
          rw [Function.update_self]
          refine List.nodup_append.mpr ⟨ih.nodup _, List.nodup_singleton _, ?_⟩
          intro r member s now
          rw [List.mem_singleton.mp now]
          exact Nat.ne_of_lt (ih.low member)
        · rw [Function.update_of_ne same]
          exact ih.nodup key

end Pool

/-! The key table and its chains. -/

section Recorded

variable {K : Type} [DecidableEq K] {hash : Key K → BitVec 64} {S : Key K → Prop}

/-- The frame's slot for a key leads through its records `l`; or no slot is the key's. -/
def Listed (hash : Key K → BitVec 64) (F : PairFrame) (key : Key K) (l : List Nat) : Prop :=
  (∃ i, pair_slot F (hash key) key.count = some i ∧ (F.slot i).count ≠ 0 ∧
      Chain (fun r => (F.record r).next) PAIR_NONE (F.slot i).head l) ∨
    l = [] ∧ ∀ i, pair_slot F (hash key) key.count = some i → (F.slot i).count = 0

/-- What a frame has recorded of its draws `a`, whose keys are among `S`. -/
structure Recorded (hash : Key K → BitVec 64) (S : Key K → Prop) (F : PairFrame)
    (a : List (Draw K)) : Prop where
  keys : ∀ d ∈ a, S d.key
  nrec : F.nrec = a.length
  npos : F.npos = (a.map fun d => d.key.count).sum
  idx : ∀ r < a.length, (F.record r).idx = r
  own : ∀ i, (F.slot i).count ≠ 0 → ∃ d ∈ a, (F.slot i).key = hash d.key ∧
    (F.slot i).count = d.key.count ∧ pair_slot F (hash d.key) d.key.count = some i
  listed : ∀ key, S key → Listed hash F key (pool_of a key)
  tail : ∀ key i, S key → pair_slot F (hash key) key.count = some i → (F.slot i).count ≠ 0 →
    (pool_of a key).getLast? = some (F.slot i).tail

theorem pair_home_lt (key : BitVec 64) : pair_home key < PAIR_SLOTS := by
  have masked := Nat.and_le_right (n := (key ^^^ key >>> 32).toNat % 2 ^ 32) (m := PAIR_SLOTS - 1)
  exact lt_of_le_of_lt masked (by decide)

theorem slot_stops_iff {F : PairFrame} {key : BitVec 64} {count i : Nat} :
    slot_stops F key count i = true ↔
      (F.slot i).count = 0 ∨ (F.slot i).key = key ∧ (F.slot i).count = count := by
  rw [slot_stops, decide_eq_true_iff]

theorem pair_slot_stops {F : PairFrame} {key : BitVec 64} {count i : Nat}
    (found : pair_slot F key count = some i) :
    (F.slot i).count = 0 ∨ (F.slot i).key = key ∧ (F.slot i).count = count :=
  slot_stops_iff.mp (probe_stops found)

/-- With room for its records, a frame's table has a slot for any key. -/
theorem Recorded.slot_found {F : PairFrame} {a : List (Draw K)} (recorded : Recorded hash S F a)
    (room : a.length < PAIR_DRAWS) (key : BitVec 64) (count : Nat) :
    ∃ i, pair_slot F key count = some i := by
  cases missed : pair_slot F key count with
  | some i => exact ⟨i, rfl⟩
  | none =>
      have full := probe_full (pair_home_lt key) missed
      have covered : List.range PAIR_SLOTS ⊆
          a.map fun d => (pair_slot F (hash d.key) d.key.count).getD 0 := by
        intro i member
        have taken : (F.slot i).count ≠ 0 := by
          intro empty
          have goes := full i (List.mem_range.mp member)
          rw [slot_stops_iff.mpr (.inl empty)] at goes
          cases goes
        obtain ⟨d, there, -, -, found⟩ := recorded.own i taken
        refine List.mem_map.mpr ⟨d, there, ?_⟩
        rw [found]
        rfl
      have fits := (List.nodup_range.subperm covered).length_le
      rw [List.length_range, List.length_map] at fits
      simp only [PAIR_SLOTS] at fits
      simp only [PAIR_DRAWS] at room
      omega

/-! A draw recorded. -/

section Record

variable {F : PairFrame} {i : Nat} {key : BitVec 64} {prim : BitVec 8} {count : Nat}
  {ortho : BitVec 8} {idx : Nat}

variable (prim ortho idx) in
theorem record_slot_self (found : pair_slot F key count = some i) :
    let sl := (pair_record F i key prim count ortho idx).slot i
    sl.key = key ∧ sl.count = count ∧ sl.tail = F.nrec ∧
      sl.head = if (F.slot i).count = 0 then F.nrec else (F.slot i).head := by
  have stops := pair_slot_stops found
  dsimp only [pair_record]
  rw [Function.update_self]
  split
  · exact ⟨rfl, rfl, rfl, rfl⟩
  next taken =>
    obtain ⟨same_key, same_count⟩ := stops.resolve_left taken
    exact ⟨same_key, same_count, rfl, rfl⟩

theorem record_slot_other {j : Nat} (other : j ≠ i) :
    (pair_record F i key prim count ortho idx).slot j = F.slot j :=
  Function.update_of_ne other _ _

/-- The chain's next is the new record's for the tail it had, and none for the new one. -/
theorem record_next :
    (fun r => ((pair_record F i key prim count ortho idx).record r).next) =
      if (F.slot i).count = 0 then
        Function.update (fun r => (F.record r).next) F.nrec PAIR_NONE
      else
        Function.update (Function.update (fun r => (F.record r).next) F.nrec PAIR_NONE)
          (F.slot i).tail F.nrec := by
  funext r
  dsimp only [pair_record]
  split
  · by_cases same : r = F.nrec
    · rw [same, Function.update_self, Function.update_self]
    · rw [Function.update_of_ne same, Function.update_of_ne same]
  · by_cases last : r = (F.slot i).tail
    · rw [last, Function.update_self, Function.update_self]
    · rw [Function.update_of_ne last, Function.update_of_ne last]
      by_cases same : r = F.nrec
      · rw [same, Function.update_self, Function.update_self]
      · rw [Function.update_of_ne same, Function.update_of_ne same]

theorem record_idx (r : Nat) :
    ((pair_record F i key prim count ortho idx).record r).idx =
      if r = F.nrec then idx else (F.record r).idx := by
  have kept : ∀ s, (Function.update F.record F.nrec
      ⟨key, count, F.npos, PAIR_NONE, idx, (F.record F.nrec).cen, prim, ortho⟩ s).idx =
        if s = F.nrec then idx else (F.record s).idx := by
    intro s
    by_cases same : s = F.nrec
    · rw [same, Function.update_self, if_pos rfl]
    · rw [Function.update_of_ne same, if_neg same]
  dsimp only [pair_record]
  split
  · exact kept r
  · by_cases last : r = (F.slot i).tail
    · rw [last, Function.update_self]
      exact kept _
    · rw [Function.update_of_ne last]
      exact kept r

variable (prim ortho idx) in
/-- A search that finds what it found, with one slot more taken for another key. -/
theorem record_search {k : BitVec 64} {n j : Nat} (found : pair_slot F key count = some i)
    (search : pair_slot F k n = some j) (goes : j ≠ i ∨ k = key ∧ n = count)
    (counted : count ≠ 0) :
    pair_slot (pair_record F i key prim count ortho idx) k n = some j := by
  obtain ⟨same_key, same_count, -⟩ :=
    record_slot_self prim ortho idx found
  refine probe_less ?_ search ?_
  · intro m stops
    by_cases here : m = i
    · subst here
      have taken : ¬ ((pair_record F m key prim count ortho idx).slot m).count = 0 := by
        rw [same_count]
        exact counted
      have stops := (slot_stops_iff.mp stops).resolve_left taken
      rw [same_key, same_count] at stops
      rw [← stops.1, ← stops.2]
      exact probe_stops found
    · rw [slot_stops, record_slot_other here] at stops
      exact stops
  · by_cases here : j = i
    · subst here
      obtain ⟨is_key, is_count⟩ := goes.resolve_left (not_not_intro rfl)
      exact slot_stops_iff.mpr (.inr ⟨same_key.trans is_key.symm, same_count.trans is_count.symm⟩)
    · rw [slot_stops, record_slot_other here]
      exact probe_stops search

end Record

/-- Two keys of the draws have two hashes. -/
def Distinct (hash : Key K → BitVec 64) (S : Key K → Prop) : Prop :=
  ∀ k k', S k → S k' → hash k = hash k' → k = k'

omit [DecidableEq K] in
/-- A slot taken is found for one key only. -/
theorem same_slot (distinct : Distinct hash S) {F : PairFrame} {k k' : Key K} (k_in : S k)
    (k'_in : S k') {i : Nat} (found : pair_slot F (hash k) k.count = some i)
    (found' : pair_slot F (hash k') k'.count = some i) (taken : (F.slot i).count ≠ 0) :
    k = k' := by
  have first := ((pair_slot_stops found).resolve_left taken).1
  have second := ((pair_slot_stops found').resolve_left taken).1
  exact distinct k k' k_in k'_in (first.symm.trans second)

theorem Recorded.members {F : PairFrame} {a : List (Draw K)} (recorded : Recorded hash S F a)
    (room : a.length < PAIR_DRAWS) {key : Key K} {r : Nat} (member : r ∈ pool_of a key) :
    r < F.nrec ∧ r ≠ PAIR_NONE := by
  have low := (pool_of_pooled a).low member
  rw [recorded.nrec]
  simp only [PAIR_DRAWS] at room
  simp only [PAIR_NONE]
  omega

/-- A draw more in the frame's record. -/
theorem Recorded.record (distinct : Distinct hash S) {F : PairFrame} {a : List (Draw K)}
    (recorded : Recorded hash S F a) (room : a.length < PAIR_DRAWS) {d : Draw K} (d_in : S d.key)
    {i : Nat} (found : pair_slot F (hash d.key) d.key.count = some i) :
    Recorded hash S (pair_record F i (hash d.key) d.prim d.key.count d.ortho a.length)
      (a ++ [d]) := by
  have counted : d.key.count ≠ 0 := Nat.ne_of_gt d.some_
  have pooled := pool_of_pooled a
  have nrec := recorded.nrec
  obtain ⟨self_key, self_count, self_tail, self_head⟩ :=
    record_slot_self d.prim d.ortho a.length found
  have mine := record_search d.prim d.ortho a.length found found
    (.inr ⟨rfl, rfl⟩) counted
  -- the slot of another key keeps its place and is not this one's
  have others : ∀ (k : Key K) (j : Nat), S k → k ≠ d.key →
      pair_slot F (hash k) k.count = some j → (F.slot j).count ≠ 0 →
      j ≠ i ∧ pair_slot (pair_record F i (hash d.key) d.prim d.key.count d.ortho a.length)
        (hash k) k.count = some j := by
    intro k j k_in ne search taken
    have apart : j ≠ i := by
      rintro rfl
      exact ne (same_slot distinct k_in d_in search found taken)
    exact ⟨apart, record_search _ _ _ found search (.inl apart) counted⟩
  have back : ∀ (k : Key K) (j : Nat), S k → k ≠ d.key →
      pair_slot (pair_record F i (hash d.key) d.prim d.key.count d.ortho a.length)
        (hash k) k.count = some j →
      ((pair_record F i (hash d.key) d.prim d.key.count d.ortho a.length).slot j).count ≠ 0 →
      j ≠ i ∧ pair_slot F (hash k) k.count = some j := by
    intro k j k_in ne search taken
    have is_key := ((pair_slot_stops search).resolve_left taken).1
    have apart : j ≠ i := by
      rintro rfl
      exact ne (distinct k d.key k_in d_in (is_key.symm.trans self_key))
    rw [record_slot_other apart] at taken is_key
    obtain ⟨e, member, e_key, -, e_search⟩ := recorded.own j taken
    have same := distinct e.key k (recorded.keys e member) k_in (e_key.symm.trans is_key)
    rw [same] at e_search
    exact ⟨apart, e_search⟩
  have own : ∀ j, ((pair_record F i (hash d.key) d.prim d.key.count d.ortho a.length).slot j).count ≠ 0 →
      ∃ e ∈ a ++ [d],
        ((pair_record F i (hash d.key) d.prim d.key.count d.ortho a.length).slot j).key = hash e.key ∧
        ((pair_record F i (hash d.key) d.prim d.key.count d.ortho a.length).slot j).count =
          e.key.count ∧
        pair_slot (pair_record F i (hash d.key) d.prim d.key.count d.ortho a.length)
          (hash e.key) e.key.count = some j := by
    intro j taken
    by_cases here : j = i
    · subst here
      exact ⟨d, List.mem_append_right _ (List.mem_singleton.mpr rfl), self_key, self_count, mine⟩
    · rw [record_slot_other here] at taken ⊢
      obtain ⟨e, member, is_key, is_count, search⟩ := recorded.own j taken
      have ne : e.key ≠ d.key := by
        intro same
        rw [same] at search
        exact here (Option.some.inj (search.symm.trans found))
      exact ⟨e, List.mem_append_left _ member, is_key, is_count,
        (others e.key j (recorded.keys e member) ne search taken).2⟩
  refine ⟨?_, ?_, ?_, ?_, own, ?_, ?_⟩
  · intro e member
    rcases List.mem_append.mp member with earlier | now
    · exact recorded.keys e earlier
    · rw [List.mem_singleton.mp now]
      exact d_in
  · change F.nrec + 1 = (a ++ [d]).length
    rw [nrec, List.length_append]
    rfl
  · change F.npos + d.key.count = _
    rw [recorded.npos, List.map_append, List.sum_append, List.map_singleton, List.sum_singleton]
  · intro r low
    rw [record_idx, nrec]
    split
    next last => exact last.symm
    · rw [List.length_append, List.length_singleton] at low
      exact recorded.idx r (by omega)
  · intro k k_in
    rw [pool_of_snoc]
    by_cases same : k = d.key
    · subst same
      rw [Function.update_self]
      refine .inl ⟨i, mine, by rw [self_count]; exact counted, ?_⟩
      rw [self_head, record_next]
      have fresh : F.nrec ∉ pool_of a d.key := fun member =>
        absurd (recorded.members room member).1 (lt_irrefl _)
      have is : F.nrec ≠ PAIR_NONE := by
        rw [nrec]
        simp only [PAIR_DRAWS] at room
        simp only [PAIR_NONE]
        omega
      by_cases empty : (F.slot i).count = 0
      · rw [if_pos empty, if_pos empty]
        have none_ : pool_of a d.key = [] := by
          rcases recorded.listed d.key d_in with ⟨j, search, taken, -⟩ | ⟨none_, -⟩
          · cases search.symm.trans found
            exact absurd empty taken
          · exact none_
        rw [none_, nrec]
        refine ⟨rfl, nrec ▸ is, ?_⟩
        rw [Function.update_self]
        rfl
      · rw [if_neg empty, if_neg empty]
        rcases recorded.listed d.key d_in with ⟨j, search, -, chain⟩ | ⟨-, absent⟩
        · cases search.symm.trans found
          have last := recorded.tail d.key i d_in found empty
          obtain ⟨before, ends⟩ := List.getLast?_eq_some_iff.mp last
          rw [ends] at chain fresh ⊢
          have nodup := pooled.nodup d.key
          rw [ends] at nodup
          rw [← nrec]
          exact (chain.update fresh _).snoc nodup is (Function.update_self _ _ _) fresh
        · exact absurd (absent i found) empty
    · rw [Function.update_of_ne same]
      rcases recorded.listed k k_in with ⟨j, search, taken, chain⟩ | ⟨none_, absent⟩
      · obtain ⟨apart, search'⟩ := others k j k_in same search taken
        refine .inl ⟨j, search', by rw [record_slot_other apart]; exact taken, ?_⟩
        rw [record_slot_other apart, record_next]
        refine chain.congr fun r member => ?_
        have old := (recorded.members room member).1
        split
        · exact Function.update_of_ne (Nat.ne_of_lt old) _ _
        next busy =>
          have last := recorded.tail d.key i d_in found busy
          have not_tail : r ≠ (F.slot i).tail := by
            rintro rfl
            exact pooled.apart same member (List.mem_of_getLast? last)
          rw [Function.update_of_ne not_tail]
          exact Function.update_of_ne (Nat.ne_of_lt old) _ _
      · refine .inr ⟨none_, fun j search' => ?_⟩
        by_contra taken
        obtain ⟨apart, search⟩ := back k j k_in same search' taken
        rw [record_slot_other apart] at taken
        exact taken (absent j search)
  · intro k j k_in search' taken
    rw [pool_of_snoc]
    by_cases same : k = d.key
    · subst same
      cases search'.symm.trans mine
      rw [Function.update_self, List.getLast?_concat, self_tail, nrec]
    · obtain ⟨apart, search⟩ := back k j k_in same search' taken
      rw [record_slot_other apart] at taken ⊢
      rw [Function.update_of_ne same]
      exact recorded.tail k j k_in search taken

end Recorded

end SoaPort.Gxr
