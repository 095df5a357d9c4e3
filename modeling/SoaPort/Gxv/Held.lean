import Mathlib.Data.List.Nodup
import Mathlib.Data.List.GetD
import SoaPort.Gxv.Slots

namespace SoaPort.Gxv

open SoaPort.Lib

/-! What two slots hold for guest RAM, and what of it the host and the GPU
each keep. Guest RAM is that of running, in command order, the copies taken
but those a slot still holds. -/

def pending (work : Bool → Work) : List Land := (work false).land ++ (work true).land

def seqs (lands : List Land) : List Nat := lands.map fun L => L.copy.seq

theorem mem_pending {work : Bool → Work} {L : Land} :
    L ∈ pending work ↔ ∃ t, L ∈ (work t).land := by
  rw [pending, List.mem_append]
  constructor
  · rintro (left | right)
    · exact ⟨false, left⟩
    · exact ⟨true, right⟩
  · rintro ⟨_ | _, member⟩
    · exact .inl member
    · exact .inr member

theorem mem_seqs {lands : List Land} {n : Nat} :
    n ∈ seqs lands ↔ ∃ L ∈ lands, L.copy.seq = n :=
  List.mem_map

/-- A copy's region: over RAM's bytes its texels too, once the GPU has run it. -/
def Land.holds (L : Land) (ran : Bool) (ram dest : Nat → UInt8) : Prop :=
  ∀ j < L.copy.extent, dest (L.dest_at + j) =
    if ran then L.copy.texels j (ram (L.copy.guest + j)) else ram (L.copy.guest + j)

def Copy.apart (C D : Copy) : Prop := Apart C.guest C.extent D.guest D.extent

/-- A landing told: guest RAM was that of some of the copies, every one below
its number among them. -/
def Told.right (ram0 : Nat → UInt8) (accepted : List Copy) (d : Told) : Prop :=
  ∃ landed : List Copy, landed.Sublist accepted ∧ (∀ C ∈ accepted, C.seq < d.n → C ∈ landed) ∧
    d.ram = run_ops Copy.run landed ram0

/-- What is still to land, `lands`, kept from guest RAM. -/
structure Settled (ram0 : Nat → UInt8) (lands : List Land) (l : Landing) : Prop where
  ordered : l.accepted.Pairwise fun C D => C.seq < D.seq
  numbered : ∀ C ∈ l.accepted, C.seq ≤ l.seq_cur
  taken : ∀ L ∈ lands, L.copy ∈ l.accepted
  once : (seqs lands).Nodup
  alone : ∀ L ∈ lands, ∀ C ∈ l.accepted, L.copy.seq < C.seq → L.copy.apart C
  ram : l.ram = run_ops Copy.run (settled Copy.seq (seqs lands) l.accepted) ram0
  said : ∀ L ∈ lands, l.landed_said ≤ L.copy.seq
  said_cur : l.landed_said ≤ l.seq_cur
  told : ∀ d ∈ l.told, d.n ≤ l.landed_said ∧ d.right ram0 l.accepted
  rising : l.told.Pairwise fun d e => d.n < e.n

/-- Slot `t`'s copies, each in a region of its own that holds its bytes. -/
structure Regions (t : Bool) (W : Work) (ram dest : Nat → UInt8) : Prop where
  rested : W.inflight = false → W.ran = 0
  passes : W.passes = W.land.map Land.pass
  first : ∀ L ∈ W.land, W.land_first ≤ L.copy.seq
  inside : ∀ L ∈ W.land,
    half DEST_BYTES t ≤ L.dest_at ∧ L.dest_at + L.copy.extent ≤ half_end DEST_BYTES t
  packed : W.land.Pairwise fun L M => L.dest_at + L.copy.extent ≤ M.dest_at
  bytes : ∀ i (L : Land), W.land[i]? = some L → L.holds (decide (i < W.ran)) ram dest

structure Held (c : Config) (ram0 : Nat → UInt8) (work : Bool → Work) (l : Landing) : Prop where
  settled : Settled ram0 (pending work) l
  regions : ∀ t, Regions t (work t) l.ram l.dest
  one_slot : c.two_slots = false → (work true).land = []

variable {c : Config} {ram0 : Nat → UInt8} {work : Bool → Work} {l : Landing}

theorem halves_apart (size : Nat) {t u : Bool} (different : t ≠ u) :
    half_end size t ≤ half size u ∨ half_end size u ≤ half size t := by
  cases t <;> cases u <;> simp [half, half_end] at different ⊢

/-- Two copies of which one is still to land share no byte. -/
theorem Settled.lands_apart {lands : List Land} (held : Settled ram0 lands l) {L M : Land}
    (left : L ∈ lands) (right : M ∈ lands) (different : L.copy.seq ≠ M.copy.seq) : L.copy.apart M.copy := by
  rcases Nat.lt_or_gt_of_ne different with before | after
  · exact held.alone L left M.copy (held.taken M right) before
  · exact (held.alone M right L.copy (held.taken L left) after).symm

/-! The GPU's passes. -/

theorem Land.holds_congr {L : Land} {ran : Bool} {ram ram' dest dest' : Nat → UInt8}
    (holds : L.holds ran ram dest)
    (ram_same : ∀ j < L.copy.extent, ram' (L.copy.guest + j) = ram (L.copy.guest + j))
    (dest_same : ∀ j < L.copy.extent, dest' (L.dest_at + j) = dest (L.dest_at + j)) :
    L.holds ran ram' dest' := by
  intro j inside
  rw [dest_same j inside, ram_same j inside]
  exact holds j inside

/-- A pass over a region seeded and not yet run. -/
theorem Land.holds_run {L : Land} {ram dest : Nat → UInt8} (holds : L.holds false ram dest) :
    L.holds true ram (L.pass.run dest) := by
  intro j inside
  have seed := holds j inside
  rw [if_neg Bool.false_ne_true] at seed
  rw [if_pos rfl, ← seed]
  exact overlay_inside inside

theorem run_passes_holds {lands : List Land} {ram : Nat → UInt8}
    (packed : lands.Pairwise fun L M => L.dest_at + L.copy.extent ≤ M.dest_at) (n : Nat)
    {r : Nat} {dest : Nat → UInt8}
    (holds : ∀ i (L : Land), lands[i]? = some L → L.holds (decide (i < r)) ram dest) :
    ∀ i (L : Land), lands[i]? = some L → L.holds (decide (i < r + n)) ram
      (run_ops Pass.run (((lands.map Land.pass).drop r).take n) dest) := by
  induction n generalizing r dest with
  | zero => exact holds
  | succ n ih =>
      by_cases more : r < lands.length
      · have next : (lands.map Land.pass).drop r =
            lands[r].pass :: (lands.map Land.pass).drop (r + 1) := by
          rw [List.drop_eq_getElem_cons (by simpa using more), List.getElem_map]
        rw [next, List.take_succ_cons]
        have stepped : ∀ i (L : Land), lands[i]? = some L →
            L.holds (decide (i < r + 1)) ram (lands[r].pass.run dest) := by
          intro i L here
          obtain ⟨inside, rfl⟩ := List.getElem?_eq_some_iff.mp here
          by_cases this : i = r
          · subst this
            have before := holds i _ here
            rw [decide_eq_false (Nat.lt_irrefl i)] at before
            rw [decide_eq_true (Nat.lt_succ_self i)]
            exact Land.holds_run before
          · have same : decide (i < r + 1) = decide (i < r) := by
              rw [decide_eq_decide]
              omega
            rw [same]
            apply Land.holds_congr (holds i _ here) fun _ _ => rfl
            intro j within
            apply overlay_apart _ within
            rcases Nat.lt_or_gt_of_ne this with before | after
            · exact .inr (List.pairwise_iff_getElem.mp packed i r inside more before)
            · exact .inl (List.pairwise_iff_getElem.mp packed r i more inside after)
        have rest := ih stepped
        rw [Nat.add_right_comm] at rest
        exact rest
      · have none : (lands.map Land.pass).drop r = [] := by
          apply List.drop_eq_nil_of_le
          rw [List.length_map]
          omega
        intro i L here
        obtain ⟨inside, _⟩ := List.getElem?_eq_some_iff.mp here
        have same : decide (i < r + (n + 1)) = decide (i < r) := by
          rw [decide_eq_decide]
          omega
        rw [none, same]
        exact holds i L here

/-- What no pass of a slot's reaches keeps its bytes. -/
theorem run_passes_apart {lands : List Land} {r n b m : Nat} (dest : Nat → UInt8)
    (apart : ∀ L ∈ lands, Apart L.dest_at L.copy.extent b m) {j : Nat} (inside : j < m) :
    run_ops Pass.run (((lands.map Land.pass).drop r).take n) dest (b + j) = dest (b + j) := by
  apply run_ops_keeps fun mem : Nat → UInt8 => mem (b + j)
  intro p member mem
  obtain ⟨L, here, rfl⟩ := List.mem_map.mp (List.mem_of_mem_drop (List.mem_of_mem_take member))
  exact overlay_apart (apart L here) inside

/-! What the GPU and the host do, one at a time. -/

def Work.run_more (W : Work) (n : Nat) : Work :=
  { W with ran := min (W.ran + n) (W.passes.length + 1) }

def Work.submitted (W : Work) : Work := { W with inflight := true }

def Work.finished (W : Work) : Work :=
  { W with inflight := false, land := [], passes := [], ran := 0 }

theorem update_land {t : Bool} {W : Work} (same : W.land = (work t).land) (u : Bool) :
    (Function.update work t W u).land = (work u).land := by
  by_cases here : u = t
  · subst here
    rw [Function.update_self, same]
  · rw [Function.update_of_ne here]

theorem pending_update {t : Bool} {W : Work} (same : W.land = (work t).land) :
    pending (Function.update work t W) = pending work := by
  rw [pending, pending, update_land same, update_land same]

theorem Regions.lands_apart {t u : Bool} {V W : Work} {ram dest : Nat → UInt8}
    (here : Regions t V ram dest) (there : Regions u W ram dest) (different : t ≠ u) {L M : Land}
    (left : L ∈ V.land) (right : M ∈ W.land) :
    Apart L.dest_at L.copy.extent M.dest_at M.copy.extent := by
  have low := here.inside L left
  have high := there.inside M right
  rcases halves_apart DEST_BYTES different with below | above
  · exact .inl (by omega)
  · exact .inr (by omega)

theorem Regions.congr {t : Bool} {W : Work} {ram ram' dest dest' : Nat → UInt8}
    (regions : Regions t W ram dest)
    (same : ∀ L ∈ W.land, ∀ ran : Bool, L.holds ran ram dest → L.holds ran ram' dest') :
    Regions t W ram' dest' :=
  { regions with
    bytes := fun i L here => same L (List.mem_of_getElem? here) _ (regions.bytes i L here) }

theorem regions_update {t : Bool} {W : Work} {ram dest : Nat → UInt8}
    (here : Regions t W ram dest) (rest : ∀ u, u ≠ t → Regions u (work u) ram dest) :
    ∀ u, Regions u (Function.update work t W u) ram dest :=
  (Function.forall_update_iff work fun u V => Regions u V ram dest).mpr ⟨here, rest⟩

/-- `n` more of what slot `t` was submitted with, run. -/
theorem Held.gpu_run (held : Held c ram0 work l) {t : Bool} (busy : (work t).inflight = true)
    (n : Nat) :
    Held c ram0 (Function.update work t ((work t).run_more n))
      { l with dest := run_ops Pass.run (((work t).passes.drop (work t).ran).take n) l.dest } := by
  have own := held.regions t
  constructor
  · rw [pending_update (W := (work t).run_more n) rfl]
    exact { held.settled with }
  · apply regions_update
    · refine { own with rested := ?_, bytes := ?_ }
      · intro rests
        cases busy.symm.trans rests
      · intro i L here
        obtain ⟨inside, _⟩ := List.getElem?_eq_some_iff.mp here
        have ran := run_passes_holds own.packed n own.bytes i L here
        have same : decide (i < ((work t).run_more n).ran) = decide (i < (work t).ran + n) := by
          rw [decide_eq_decide]
          change i < min ((work t).ran + n) ((work t).passes.length + 1) ↔ _
          rw [own.passes, List.length_map]
          change i < (work t).land.length at inside
          omega
        rw [same, own.passes]
        exact ran
    · intro u different
      apply (held.regions u).congr
      intro L member ran holds
      apply Land.holds_congr holds fun _ _ => rfl
      intro j inside
      rw [own.passes]
      apply run_passes_apart _ _ inside
      intro M other
      exact own.lands_apart (held.regions u) different.symm other member
  · intro one
    rw [update_land (W := (work t).run_more n) rfl]
    exact held.one_slot one

theorem Held.submit (held : Held c ram0 work l) (t : Bool) :
    Held c ram0 (Function.update work t (work t).submitted) l := by
  constructor
  · rw [pending_update (W := (work t).submitted) rfl]
    exact held.settled
  · apply regions_update
    · refine { held.regions t with rested := ?_ }
      intro rests
      cases rests
    · intro u _
      exact held.regions u
  · intro one
    rw [update_land (W := (work t).submitted) rfl]
    exact held.one_slot one

/-! A slot's copies landed. -/

theorem Land.land_run {L : Land} {ram dest : Nat → UInt8} (ready : L.holds true ram dest) :
    L.land dest ram = L.copy.run ram :=
  overlay_congr ready

theorem Copy.run_comm {C D : Copy} (apart : C.apart D) (ram : Nat → UInt8) :
    D.run (C.run ram) = C.run (D.run ram) :=
  (overlay_comm apart).symm

theorem Settled.land_one {L : Land} {rest : List Land} {dest : Nat → UInt8}
    (held : Settled ram0 (L :: rest) l) (ready : L.holds true l.ram dest) :
    Settled ram0 rest { l with ram := L.land dest l.ram } := by
  have later : ∀ M ∈ rest, M ∈ L :: rest := fun M => List.mem_cons_of_mem L
  obtain ⟨free, once⟩ := List.nodup_cons.mp held.once
  refine { held with taken := ?_, once, alone := ?_, ram := ?_, said := ?_ }
  · exact fun M member => held.taken M (later M member)
  · exact fun M member => held.alone M (later M member)
  · obtain ⟨before, after, split⟩ := List.append_of_mem (held.taken L List.mem_cons_self)
    have ordered := held.ordered
    rw [split, List.pairwise_append, List.pairwise_cons] at ordered
    obtain ⟨_, ⟨above, _⟩, below⟩ := ordered
    have fresh : ∀ C ∈ before ++ after, C.seq ≠ L.copy.seq := by
      intro C member
      rcases List.mem_append.mp member with left | right
      · exact Nat.ne_of_lt (below C left L.copy List.mem_cons_self)
      · exact Nat.ne_of_gt (above C right)
    have apart : ∀ C ∈ after, ∀ m, C.run (L.copy.run m) = L.copy.run (C.run m) := by
      intro C member m
      apply Copy.run_comm
      apply held.alone L List.mem_cons_self C _ (above C member)
      rw [split]
      exact List.mem_append_right _ (List.mem_cons_of_mem _ member)
    calc L.land dest l.ram
        = L.copy.run (run_ops Copy.run (settled Copy.seq (L.copy.seq :: seqs rest) l.accepted)
            ram0) := by
          rw [Land.land_run ready, held.ram]
          rfl
      _ = run_ops Copy.run (settled Copy.seq (seqs rest) l.accepted) ram0 :=
          (run_ops_release split fresh free apart ram0).symm
  · exact fun M member => held.said M (later M member)

/-- The copies a landed one is apart from are as ready as they were. -/
theorem Settled.land_keeps {L M : Land} {lands : List Land} {ran : Bool} {dest : Nat → UInt8}
    (held : Settled ram0 lands l) (left : L ∈ lands) (right : M ∈ lands)
    (different : L.copy.seq ≠ M.copy.seq) (holds : M.holds ran l.ram dest) :
    M.holds ran (L.land dest l.ram) dest := by
  apply Land.holds_congr holds _ fun _ _ => rfl
  intro j inside
  exact overlay_apart (held.lands_apart left right different) inside

/-- Copies landed one after another leave guest RAM that of running them too,
and the rest as ready as they were. -/
theorem Settled.land {lands rest : List Land} {dest : Nat → UInt8}
    (held : Settled ram0 (lands ++ rest) l) (ready : ∀ L ∈ lands, L.holds true l.ram dest) :
    Settled ram0 rest { l with ram := run_ops (Land.land dest) lands l.ram } ∧
      ∀ M ∈ rest, ∀ ran : Bool, M.holds ran l.ram dest →
        M.holds ran (run_ops (Land.land dest) lands l.ram) dest := by
  induction lands generalizing l with
  | nil => exact ⟨held, fun _ _ _ holds => holds⟩
  | cons L lands ih =>
      have landed := held.land_one (ready L List.mem_cons_self)
      have free := (List.nodup_cons.mp held.once).1
      have kept : ∀ M ∈ lands ++ rest, ∀ ran : Bool, M.holds ran l.ram dest →
          M.holds ran (L.land dest l.ram) dest := by
        intro M member ran holds
        apply held.land_keeps List.mem_cons_self (List.mem_cons_of_mem _ member) _ holds
        intro same
        exact free (mem_seqs.mpr ⟨M, member, same.symm⟩)
      obtain ⟨settled, others⟩ := ih landed fun M member =>
        kept M (List.mem_append_left _ member) true (ready M (List.mem_cons_of_mem _ member))
      refine ⟨settled, ?_⟩
      intro M member ran holds
      exact others M member ran (kept M (List.mem_append_right _ member) ran holds)

theorem Settled.congr {lands lands' : List Land} (held : Settled ram0 lands l)
    (perm : lands'.Perm lands) : Settled ram0 lands' l := by
  have same : ∀ L, L ∈ lands' ↔ L ∈ lands := fun L => perm.mem_iff
  have names : (seqs lands').Perm (seqs lands) := perm.map _
  refine { held with taken := ?_, once := names.nodup_iff.mpr held.once, alone := ?_, ram := ?_, said := ?_ }
  · exact fun L member => held.taken L ((same L).mp member)
  · exact fun L member => held.alone L ((same L).mp member)
  · rw [held.ram]
    congr 1
    apply settled_congr
    intro C _
    rw [names.mem_iff]
  · exact fun L member => held.said L ((same L).mp member)

theorem pending_perm (work : Bool → Work) (t : Bool) :
    (pending work).Perm ((work t).land ++ (work !t).land) := by
  cases t
  · exact .rfl
  · exact List.perm_append_comm

theorem pending_finished (t : Bool) :
    pending (Function.update work t (work t).finished) = (work !t).land := by
  cases t
  · rw [pending, Function.update_self, Function.update_of_ne Bool.noConfusion]
    rfl
  · rw [pending, Function.update_self, Function.update_of_ne Bool.noConfusion]
    exact List.append_nil _

/-- Slot `t`, all of it run, landed. -/
theorem Held.finish (held : Held c ram0 work l) (t : Bool)
    (done : (work t).land.length ≤ (work t).ran) :
    Held c ram0 (Function.update work t (work t).finished)
      { l with ram := run_ops (Land.land l.dest) (work t).land l.ram } := by
  have own := held.regions t
  have ready : ∀ L ∈ (work t).land, L.holds true l.ram l.dest := by
    intro L member
    obtain ⟨i, inside, rfl⟩ := List.getElem_of_mem member
    have holds := own.bytes i _ (List.getElem?_eq_getElem inside)
    rw [decide_eq_true (by omega)] at holds
    exact holds
  obtain ⟨settled, kept⟩ := (held.settled.congr (pending_perm work t).symm).land ready
  constructor
  · rw [pending_finished]
    exact settled
  · apply regions_update
    · constructor
      · intro _
        rfl
      · rfl
      · intro L member
        cases member
      · intro L member
        cases member
      · exact .nil
      · intro i L here
        cases here
    · intro u different
      apply (held.regions u).congr
      intro L member ran holds
      apply kept L _ ran holds
      rw [← Bool.eq_not_of_ne different]
      exact member
  · intro one
    by_cases last : true = t
    · rw [← last, Function.update_self]
      rfl
    · rw [Function.update_of_ne last]
      exact held.one_slot one

/-! A landing told, a copy taken, and a command begun. -/

theorem Told.right_more {d : Told} {accepted : List Copy} {C : Copy}
    (right : d.right ram0 accepted) (late : d.n ≤ C.seq) : d.right ram0 (accepted ++ [C]) := by
  obtain ⟨landed, part, all, ram⟩ := right
  refine ⟨landed, part.trans (List.sublist_append_left ..), ?_, ram⟩
  intro D member below
  rcases List.mem_append.mp member with old | new
  · exact all D old below
  · rw [List.mem_singleton.mp new] at below
    omega

theorem Settled.say {lands : List Land} {n : Nat} (held : Settled ram0 lands l)
    (low : ∀ L ∈ lands, n ≤ L.copy.seq) (cur : n ≤ l.seq_cur) (more : l.landed_said < n) :
    Settled ram0 lands { l with landed_said := n, told := l.told ++ [⟨n, l.ram⟩] } := by
  refine { held with said := low, said_cur := cur, told := ?_, rising := ?_ }
  · intro d member
    rcases List.mem_append.mp member with old | new
    · obtain ⟨before, right⟩ := held.told d old
      exact ⟨Nat.le_trans before (Nat.le_of_lt more), right⟩
    · rw [List.mem_singleton.mp new]
      refine ⟨Nat.le_refl n, _, settled_sublist (seqs lands) l.accepted, ?_, held.ram⟩
      intro C member below
      apply mem_settled.mpr ⟨member, _⟩
      intro waiting
      obtain ⟨L, here, same⟩ := mem_seqs.mp waiting
      have bound := low L here
      have below : C.seq < n := below
      omega
  · apply List.pairwise_append.mpr ⟨held.rising, List.pairwise_singleton .., _⟩
    intro d old e new
    rw [List.mem_singleton.mp new]
    exact Nat.lt_of_le_of_lt (held.told d old).1 more

/-- A copy of the command being run, apart from all still to land. -/
theorem Settled.record {lands : List Land} {L : Land} (held : Settled ram0 lands l)
    (here : L.copy.seq = l.seq_cur) (new : ∀ C ∈ l.accepted, C.seq < l.seq_cur)
    (apart : ∀ M ∈ lands, M.copy.apart L.copy) (dest : Nat → UInt8) :
    Settled ram0 (lands ++ [L]) { l with dest, accepted := l.accepted ++ [L.copy] } := by
  have late : ∀ C ∈ l.accepted, C.seq < L.copy.seq := by
    intro C member
    rw [here]
    exact new C member
  constructor
  · apply List.pairwise_append.mpr ⟨held.ordered, List.pairwise_singleton .., _⟩
    intro C old D new
    rw [List.mem_singleton.mp new]
    exact late C old
  · intro C member
    rcases List.mem_append.mp member with old | new
    · exact held.numbered C old
    · rw [List.mem_singleton.mp new]
      exact Nat.le_of_eq here
  · intro M member
    rcases List.mem_append.mp member with old | new
    · exact List.mem_append_left _ (held.taken M old)
    · rw [List.mem_singleton.mp new]
      exact List.mem_append_right _ List.mem_cons_self
  · rw [seqs, List.map_append]
    apply List.nodup_append.mpr ⟨held.once, List.nodup_singleton .., _⟩
    intro n old m new same
    obtain ⟨M, member, rfl⟩ := List.mem_map.mp old
    have again : m = L.copy.seq := List.mem_singleton.mp new
    have before := late M.copy (held.taken M member)
    omega
  · intro M member C taken before
    rcases List.mem_append.mp member with old | new <;> rcases List.mem_append.mp taken with was | is
    · exact held.alone M old C was before
    · rw [List.mem_singleton.mp is]
      exact apart M old
    · rw [List.mem_singleton.mp new] at before
      exact absurd (late C was) (by omega)
    · rw [List.mem_singleton.mp new, List.mem_singleton.mp is] at before
      omega
  · change l.ram = _
    rw [held.ram, seqs, seqs, List.map_append]
    congr 1
    apply (settled_held _).symm
    intro C member
    exact Nat.ne_of_lt (late C member)
  · intro M member
    rcases List.mem_append.mp member with old | new
    · exact held.said M old
    · rw [List.mem_singleton.mp new, here]
      exact held.said_cur
  · exact held.said_cur
  · intro d member
    obtain ⟨before, right⟩ := held.told d member
    refine ⟨before, Told.right_more right ?_⟩
    rw [here]
    exact Nat.le_trans before held.said_cur
  · exact held.rising

theorem Settled.number {lands : List Land} (held : Settled ram0 lands l) {n : Nat}
    (later : l.seq_cur ≤ n) : Settled ram0 lands { l with seq_cur := n } :=
  { held with
    numbered := fun C member => Nat.le_trans (held.numbered C member) later
    said_cur := Nat.le_trans held.said_cur later }

/-- The host's work on slot `t` for a copy at `at_`. -/
def Work.recorded (W : Work) (seq : Nat) (L : Land) : Work :=
  { W with
    land := W.land ++ [L]
    land_first := if W.land.isEmpty then seq else W.land_first
    passes := W.passes ++ [L.pass] }

theorem Held.record (held : Held c ram0 work l) {t : Bool} {L : Land}
    (slots : c.two_slots = false → t = false) (rests : (work t).inflight = false)
    (here : L.copy.seq = l.seq_cur) (new : ∀ C ∈ l.accepted, C.seq < l.seq_cur)
    (apart : ∀ M ∈ pending work, M.copy.apart L.copy)
    (low : half DEST_BYTES t ≤ L.dest_at) (room : L.dest_at + L.copy.extent ≤ half_end DEST_BYTES t)
    (after : ∀ M ∈ (work t).land, M.dest_at + M.copy.extent ≤ L.dest_at) :
    Held c ram0 (Function.update work t ((work t).recorded l.seq_cur L))
      { l with
        dest := overlay L.dest_at L.copy.extent (fun i _ => l.ram (L.copy.guest + i)) l.dest
        accepted := l.accepted ++ [L.copy] } := by
  have own := held.regions t
  let dest := overlay L.dest_at L.copy.extent (fun i _ => l.ram (L.copy.guest + i)) l.dest
  have kept : ∀ M : Land, Apart L.dest_at L.copy.extent M.dest_at M.copy.extent →
      ∀ j < M.copy.extent, dest (M.dest_at + j) = l.dest (M.dest_at + j) :=
    fun M apart j bound => overlay_apart apart bound
  have seeded : ∀ j < L.copy.extent, dest (L.dest_at + j) = l.ram (L.copy.guest + j) :=
    fun j bound => overlay_inside bound
  have inside : ∀ i (M : Land), ((work t).land ++ [L])[i]? = some M →
      (work t).land[i]? = some M ∨ i = (work t).land.length ∧ M = L := by
    intro i M found
    rcases Nat.lt_or_ge i (work t).land.length with old | last
    · rw [List.getElem?_append_left old] at found
      exact .inl found
    · rw [List.getElem?_append_right last] at found
      obtain ⟨bound, rfl⟩ := List.getElem?_eq_some_iff.mp found
      have one : i = (work t).land.length := by
        have := List.length_singleton (a := L)
        omega
      exact .inr ⟨one, List.getElem_singleton bound⟩
  constructor
  · apply (held.settled.record here new apart _).congr
    cases t
    · rw [pending, pending, Function.update_self, Function.update_of_ne Bool.noConfusion]
      change ((work false).land ++ [L] ++ (work true).land).Perm _
      rw [List.append_assoc, List.append_assoc]
      exact List.perm_append_comm.append_left _
    · rw [pending, pending, Function.update_self, Function.update_of_ne Bool.noConfusion]
      change ((work false).land ++ ((work true).land ++ [L])).Perm _
      rw [List.append_assoc]
  · apply regions_update
    · constructor
      · exact own.rested
      · change (work t).passes ++ [L.pass] = ((work t).land ++ [L]).map Land.pass
        rw [own.passes, List.map_append, List.map_singleton]
      · intro M member
        change (if (work t).land.isEmpty then l.seq_cur else (work t).land_first) ≤ M.copy.seq
        rcases List.mem_append.mp member with old | last
        · rw [if_neg (by simp [List.ne_nil_of_mem old])]
          exact own.first M old
        · rw [List.mem_singleton.mp last, here]
          split
          · exact Nat.le_refl _
          · rename_i some_
            obtain ⟨M, old⟩ := List.exists_mem_of_ne_nil _ (by simpa using some_)
            have first := own.first M old
            have before := held.settled.numbered M.copy
              (held.settled.taken M (mem_pending.mpr ⟨t, old⟩))
            exact Nat.le_trans first before
      · intro M member
        rcases List.mem_append.mp member with old | last
        · exact own.inside M old
        · rw [List.mem_singleton.mp last]
          exact ⟨low, room⟩
      · apply List.pairwise_append.mpr ⟨own.packed, List.pairwise_singleton .., _⟩
        intro M old N last
        rw [List.mem_singleton.mp last]
        exact after M old
      · intro i M found
        have still : ((work t).recorded l.seq_cur L).ran = 0 := own.rested rests
        rw [still, decide_eq_false (Nat.not_lt_zero i)]
        rcases inside i M found with old | ⟨_, rfl⟩
        · have holds := own.bytes i M old
          rw [own.rested rests, decide_eq_false (Nat.not_lt_zero i)] at holds
          apply Land.holds_congr holds fun _ _ => rfl
          exact kept M (.inr (after M (List.mem_of_getElem? old)))
        · exact seeded
    · intro u different
      apply (held.regions u).congr
      intro M member ran holds
      apply Land.holds_congr holds fun _ _ => rfl
      apply kept
      have other := (held.regions u).inside M member
      have halves := halves_apart DEST_BYTES different
      rw [Apart]
      omega
  · intro one
    rw [Function.update_of_ne (by rw [slots one]; exact Bool.noConfusion)]
    exact held.one_slot one

end SoaPort.Gxv
