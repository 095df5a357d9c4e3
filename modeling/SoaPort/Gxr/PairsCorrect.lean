import SoaPort.Gxr.PairTables
import Mathlib.Algebra.BigOperators.Group.List.Basic

namespace SoaPort.Gxr

open SoaPort.Lib

/-! Centres and distances. -/

theorem foldl_add (l : List α) (f : α → Rat) (x : Rat) :
    l.foldl (fun s a => s + f a) x = x + (l.map f).sum := by
  induction l generalizing x with
  | nil => exact (add_zero x).symm
  | cons a l ih => rw [List.foldl_cons, ih, List.map_cons, List.sum_cons, add_assoc]

theorem pair_centre_eq {K : Type} (d : Draw K) : pair_centre d.key.count d.clip = centre d.clip := by
  funext i
  rw [pair_centre, centre, foldl_add, zero_add, d.counted]

theorem pair_dist_eq (p c : Vec4) : pair_dist p c = dist p c := by
  rw [pair_dist, dist, foldl_add, zero_add]

theorem nearest_congr {d e : Nat → Rat} {l : List Nat} (same : ∀ i ∈ l, d i = e i) (k : Nat)
    (best : Option (Nat × Rat)) : nearest d l k best = nearest e l k best := by
  induction l generalizing k best with
  | nil => rfl
  | cons i rest ih =>
      obtain ⟨here, others⟩ := List.forall_mem_cons.mp same
      rw [nearest, nearest, here]
      exact ih others (k + 1) _

/-! The look along a chain. -/

section Look

/-- What stands before a place of the chain. -/
def Prev (q : List Nat) : Nat → Nat → Prop
  | 0, prev => prev = PAIR_NONE
  | k + 1, prev => q[k]? = some prev

/-- The record at place `m` of the chain `q`, the one before it, and the distance. -/
def Names (q : List Nat) : Option Best → Option (Nat × Rat) → Prop
  | none, none => True
  | some b, some (m, d) => b.d = d ∧ q[m]? = some b.record ∧ Prev q m b.prev
  | _, _ => False

/-- The look finds what fifopair's numbering names. -/
theorem look_nearest {P : PairFrame} {cen : Vec4} {q : List Nat} (n : Nat) {before l : List Nat}
    {r prev : Nat} {best : Option Best} {named : Option (Nat × Rat)} (whole : q = before ++ l)
    (chain : Chain (fun r => (P.record r).next) PAIR_NONE r l)
    (prev_is : Prev q before.length prev) (names : Names q best named) :
    Names q (pair_look P cen n r prev best)
      (nearest (fun i => pair_dist (P.record i).cen cen) (l.take n) before.length named) := by
  induction n generalizing before l r prev best named with
  | zero =>
      rw [List.take_zero]
      exact names
  | succ n ih =>
      cases l with
      | nil =>
          rw [pair_look, if_pos (show r = PAIR_NONE from chain), List.take_nil]
          exact names
      | cons first l =>
          obtain ⟨rfl, there, more⟩ := chain
          have at_ : q[before.length]? = some r := by
            rw [whole, List.getElem?_append_right (le_refl _), Nat.sub_self]
            rfl
          rw [pair_look, if_neg there, List.take_succ_cons, nearest]
          have length : (before ++ [r]).length = before.length + 1 := by
            rw [List.length_append]
            rfl
          have further : q = (before ++ [r]) ++ l := by
            rw [whole, List.append_assoc]
            rfl
          have after : Prev q (before ++ [r]).length r := by
            rw [length]
            exact at_
          have now : Names q (some ⟨r, prev, pair_dist (P.record r).cen cen⟩)
              (some (before.length, pair_dist (P.record r).cen cen)) := ⟨rfl, at_, prev_is⟩
          have kept : Names q
              (some (pair_nearer r prev (pair_dist (P.record r).cen cen) best))
              (some (nearer (pair_dist (P.record r).cen cen) before.length named)) := by
            cases best with
            | none =>
                cases named with
                | none => exact now
                | some named => cases names
            | some b =>
                cases named with
                | none => cases names
                | some named =>
                    obtain ⟨m, d⟩ := named
                    obtain ⟨same, rest⟩ := names
                    rw [nearer, pair_nearer, same]
                    split
                    · exact now
                    · exact ⟨same, rest⟩
          have rest := ih further more after kept
          rw [length] at rest
          exact rest

theorem nearest_some (d : Nat → Rat) (l : List Nat) (k : Nat) (best : Nat × Rat) :
    ∃ found, nearest d l k (some best) = some found := by
  induction l generalizing k best with
  | nil => exact ⟨best, rfl⟩
  | cons i rest ih => exact ih _ _

end Look

/-! The frame before, as its draws are taken. -/

section Before

variable {K : Type} [DecidableEq K] {hash : Key K → BitVec 64} {S : Key K → Prop}

/-- Each draw's record has its centre. -/
def Centred (F : PairFrame) (a : List (Draw K)) : Prop :=
  ∀ r d, a[r]? = some d → (F.record r).cen = centre d.clip

/-- The frame before: its draws not yet taken are in its chains, as fifopair's pool has
them. -/
structure Before (hash : Key K → BitVec 64) (S : Key K → Prop) (P : PairFrame)
    (a : List (Draw K)) (pool : Key K → List Nat) : Prop where
  room : a.length ≤ PAIR_DRAWS
  idx : ∀ r < a.length, (P.record r).idx = r
  centred : Centred P a
  pooled : Pooled a pool
  listed : ∀ key, S key → Listed hash P key (pool key)

omit [DecidableEq K] in
theorem Before.some_ {P : PairFrame} {a : List (Draw K)} {pool : Key K → List Nat}
    (before : Before hash S P a pool) {key : Key K} {r : Nat} (member : r ∈ pool key) :
    r ≠ PAIR_NONE := by
  have low := before.pooled.low member
  have room := before.room
  simp only [PAIR_DRAWS] at room
  simp only [PAIR_NONE]
  omega

theorem pair_slot_congr {F F' : PairFrame}
    (same : ∀ i, (F'.slot i).key = (F.slot i).key ∧ (F'.slot i).count = (F.slot i).count)
    (key : BitVec 64) (count : Nat) : pair_slot F' key count = pair_slot F key count := by
  have stops : slot_stops F' key count = slot_stops F key count := by
    funext i
    rw [slot_stops, slot_stops, (same i).1, (same i).2]
  rw [pair_slot, pair_slot, stops]

section Unlink

variable {P : PairFrame} {i : Nat} {best : Best}

variable (P i best) in
/-- The tail is the only thing a chain's end changes. -/
theorem unlink_past : (pair_unlink P i best).record = (pair_past P i best).record ∧
    ∀ j, ((pair_unlink P i best).slot j).key = ((pair_past P i best).slot j).key ∧
      ((pair_unlink P i best).slot j).count = ((pair_past P i best).slot j).count ∧
      ((pair_unlink P i best).slot j).head = ((pair_past P i best).slot j).head := by
  rw [pair_unlink]
  dsimp only
  split
  · refine ⟨rfl, fun j => ?_⟩
    by_cases here : j = i
    · subst here
      dsimp only
      rw [Function.update_self]
      exact ⟨rfl, rfl, rfl⟩
    · dsimp only
      rw [Function.update_of_ne here]
      exact ⟨rfl, rfl, rfl⟩
  · exact ⟨rfl, fun j => ⟨rfl, rfl, rfl⟩⟩

theorem past_keys (j : Nat) : ((pair_past P i best).slot j).key = (P.slot j).key ∧
    ((pair_past P i best).slot j).count = (P.slot j).count := by
  rw [pair_past]
  dsimp only
  split
  · by_cases here : j = i
    · subst here
      dsimp only
      rw [Function.update_self]
      exact ⟨rfl, rfl⟩
    · dsimp only
      rw [Function.update_of_ne here]
      exact ⟨rfl, rfl⟩
  · exact ⟨rfl, rfl⟩

theorem past_head (j : Nat) : ((pair_past P i best).slot j).head =
    if j = i ∧ best.prev = PAIR_NONE then (P.record best.record).next else (P.slot j).head := by
  rw [pair_past]
  dsimp only
  split
  next first =>
    by_cases here : j = i
    · subst here
      dsimp only
      rw [Function.update_self, if_pos ⟨rfl, first⟩]
    · dsimp only
      rw [Function.update_of_ne here, if_neg (fun both => here both.1)]
  next later => rw [if_neg (fun both => later both.2)]

theorem past_next : (fun r => ((pair_past P i best).record r).next) =
    if best.prev = PAIR_NONE then fun r => (P.record r).next
    else Function.update (fun r => (P.record r).next) best.prev (P.record best.record).next := by
  rw [pair_past]
  dsimp only
  split
  · rfl
  · funext r
    by_cases here : r = best.prev
    · subst here
      dsimp only
      rw [Function.update_self, Function.update_self]
    · dsimp only
      rw [Function.update_of_ne here, Function.update_of_ne here]

theorem past_record (r : Nat) : ((pair_past P i best).record r).idx = (P.record r).idx ∧
    ((pair_past P i best).record r).cen = (P.record r).cen := by
  rw [pair_past]
  dsimp only
  split
  · exact ⟨rfl, rfl⟩
  · by_cases here : r = best.prev
    · subst here
      dsimp only
      rw [Function.update_self]
      exact ⟨rfl, rfl⟩
    · dsimp only
      rw [Function.update_of_ne here]
      exact ⟨rfl, rfl⟩

theorem unlink_search (key : BitVec 64) (count : Nat) :
    pair_slot (pair_unlink P i best) key count = pair_slot P key count := by
  apply pair_slot_congr
  intro j
  obtain ⟨key, count, -⟩ := (unlink_past P i best).2 j
  exact ⟨key.trans (past_keys j).1, count.trans (past_keys j).2⟩

end Unlink

/-- The draw at a place of its key's pool is taken. -/
theorem Before.unlink (distinct : Distinct hash S) {P : PairFrame} {a : List (Draw K)}
    {pool : Key K → List Nat} (before : Before hash S P a pool) {key : Key K} (key_in : S key)
    {i : Nat} (found : pair_slot P (hash key) key.count = some i) (taken : (P.slot i).count ≠ 0)
    {best : Best} {m : Nat} {d : Rat} (names : Names (pool key) (some best) (some (m, d))) :
    Before hash S (pair_unlink P i best) a
      (Function.update pool key ((pool key).eraseIdx m)) := by
  obtain ⟨-, at_, prev⟩ := names
  have past := unlink_past P i best
  have pooled := before.pooled
  have sublist : ∀ k, (Function.update pool key ((pool key).eraseIdx m) k).Sublist (pool k) := by
    intro k
    by_cases same : k = key
    · subst same
      rw [Function.update_self]
      exact List.eraseIdx_sublist _ _
    · rw [Function.update_of_ne same]
  refine ⟨before.room, ?_, ?_, ⟨?_, ?_⟩, ?_⟩
  · intro r low
    rw [past.1, (past_record r).1]
    exact before.idx r low
  · intro r e there
    rw [past.1, (past_record r).2]
    exact before.centred r e there
  · intro k r member
    exact pooled.member k r ((sublist k).subset member)
  · intro k
    exact (sublist k).nodup (pooled.nodup k)
  · intro k k_in
    by_cases same : k = key
    · subst same
      rcases before.listed k k_in with ⟨j, search, -, chain⟩ | ⟨-, absent⟩
      · cases search.symm.trans found
        refine .inl ⟨i, (unlink_search _ _).trans found, ?_, ?_⟩
        · rw [(past.2 i).2.1, (past_keys i).2]
          exact taken
        · rw [past.1, past_next, (past.2 i).2.2, past_head, Function.update_self]
          cases m with
          | zero =>
              obtain ⟨q, whole⟩ : ∃ q, pool k = best.record :: q := by
                cases q_is : pool k with
                | nil =>
                    rw [q_is] at at_
                    cases at_
                | cons r q =>
                    rw [q_is] at at_
                    cases at_
                    exact ⟨q, rfl⟩
              rw [if_pos (show best.prev = PAIR_NONE from prev), if_pos ⟨rfl, prev⟩]
              rw [whole] at chain ⊢
              exact chain.2.2
          | succ m =>
              obtain ⟨front, rest, whole, erased⟩ := split_pair prev at_
              have there : best.prev ≠ PAIR_NONE := before.some_ (List.mem_of_getElem? prev)
              rw [if_neg there, if_neg (fun both => there both.2), erased]
              have nodup := pooled.nodup k
              rw [whole] at chain nodup
              exact chain.unlink nodup
      · exact absurd (absent i found) taken
    · rw [Function.update_of_ne same]
      rcases before.listed k k_in with ⟨j, search, busy, chain⟩ | ⟨none_, absent⟩
      · have apart : j ≠ i := by
          rintro rfl
          exact same (same_slot distinct k_in key_in search found busy)
        refine .inl ⟨j, (unlink_search _ _).trans search, ?_, ?_⟩
        · rw [(past.2 j).2.1, (past_keys j).2]
          exact busy
        · have other : ¬ (j = i ∧ best.prev = PAIR_NONE) := fun both => apart both.1
          rw [past.1, past_next, (past.2 j).2.2, past_head, if_neg other]
          refine chain.congr fun r member => ?_
          split
          · rfl
          next later =>
            refine Function.update_of_ne ?_ _ _
            rintro rfl
            cases m with
            | zero => exact later prev
            | succ m => exact pooled.apart same member (List.mem_of_getElem? prev)
      · refine .inr ⟨none_, fun j search => ?_⟩
        rw [unlink_search] at search
        rw [(past.2 j).2.1, (past_keys j).2]
        exact absent j search

end Before

/-! One draw. -/

section Draws

variable {K : Type} [DecidableEq K] {hash : Key K → BitVec 64} {S : Key K → Prop}

theorem with_cen_next (F : PairFrame) (r : Nat) (cen : Vec4) :
    (fun s => ((with_cen F r cen).record s).next) = fun s => (F.record s).next := by
  funext s
  rw [with_cen]
  dsimp only
  by_cases here : s = r
  · rw [here, Function.update_self]
  · rw [Function.update_of_ne here]

theorem Recorded.with_cen {F : PairFrame} {a : List (Draw K)} (recorded : Recorded hash S F a)
    (r : Nat) (cen : Vec4) : Recorded hash S (with_cen F r cen) a := by
  refine ⟨recorded.keys, recorded.nrec, recorded.npos, ?_, recorded.own, ?_, recorded.tail⟩
  · intro s low
    rw [SoaPort.Gxr.with_cen]
    dsimp only
    by_cases here : s = r
    · rw [here, Function.update_self]
      exact recorded.idx r (here ▸ low)
    · rw [Function.update_of_ne here]
      exact recorded.idx s low
  · intro key key_in
    rcases recorded.listed key key_in with ⟨i, found, taken, chain⟩ | absent
    · refine .inl ⟨i, found, taken, ?_⟩
      rw [with_cen_next]
      exact chain
    · exact .inr absent

theorem record_cen {F : PairFrame} {i : Nat} {key : BitVec 64} {prim : BitVec 8} {count : Nat}
    {ortho : BitVec 8} {idx : Nat} (r : Nat) :
    ((pair_record F i key prim count ortho idx).record r).cen = (F.record r).cen := by
  have kept : ∀ s, (Function.update F.record F.nrec
      ⟨key, count, F.npos, PAIR_NONE, idx, (F.record F.nrec).cen, prim, ortho⟩ s).cen =
        (F.record s).cen := by
    intro s
    by_cases same : s = F.nrec
    · rw [same, Function.update_self]
    · rw [Function.update_of_ne same]
  dsimp only [pair_record]
  split
  · exact kept r
  · by_cases last : r = (F.slot i).tail
    · rw [last, Function.update_self]
      exact kept _
    · rw [Function.update_of_ne last]
      exact kept r

/-- Between two draws: those so far are this frame's record, and the frame before has the
pool that is left. -/
structure Mid (hash : Key K → BitVec 64) (S : Key K → Prop) (g : Pairs) (a b : List (Draw K))
    (pool : Key K → List Nat) : Prop where
  cur : Recorded hash S g.cur b
  centred : Centred g.cur b
  before : Before hash S (g.g_pair (!g.g_pair_cur)) a pool
  ndraw : g.g_pair_ndraw = b.length
  recording : g.mode_record = true
  lerping : g.mode_lerp = true

variable {g : Pairs} {a b : List (Draw K)} {pool : Key K → List Nat}

theorem set_cur_cur (g : Pairs) (F : PairFrame) : (g.set_cur F).cur = F :=
  Function.update_self _ _ _

theorem set_cur_other (g : Pairs) (F : PairFrame) :
    (g.set_cur F).g_pair (!g.g_pair_cur) = g.g_pair (!g.g_pair_cur) :=
  Function.update_of_ne (Bool.not_ne_self _) _ _

/-- The state once the draw is claimed, in slot `i`. -/
def claimed (hash : Key K → BitVec 64) (g : Pairs) (i : Nat) (d : Draw K) : Pairs :=
  { g with g_pair_ndraw := g.g_pair_ndraw + 1 }.set_cur
    (pair_record g.cur i (hash d.key) d.prim d.key.count d.ortho g.g_pair_ndraw)

theorem Mid.claim_eq (mid : Mid hash S g a b pool) {d : Draw K} {i : Nat}
    (found : pair_slot g.cur (hash d.key) d.key.count = some i) (room : b.length < PAIR_DRAWS)
    (verts : (b.map fun d => d.key.count).sum + d.key.count ≤ PAIR_VERTS) :
    pair_claim g (hash d.key) d.prim d.key.count d.ortho =
      (claimed hash g i d, ⟨g.cur.npos, PAIR_NONE, g.cur.nrec, g.g_pair_ndraw⟩) := by
  have fits : g.cur.nrec < PAIR_DRAWS ∧ g.cur.npos + d.key.count ≤ PAIR_VERTS := by
    rw [mid.cur.nrec, mid.cur.npos]
    exact ⟨room, verts⟩
  rw [pair_claim]
  dsimp only
  rw [if_pos mid.recording]
  have chosen : (if g.cur.nrec < PAIR_DRAWS ∧ g.cur.npos + d.key.count ≤ PAIR_VERTS then
      pair_slot g.cur (hash d.key) d.key.count else none) = some i := by
    rw [if_pos fits, found]
  split
  next none_ => exact absurd (chosen.symm.trans none_) (Option.some_ne_none i)
  next j some_ =>
    cases Option.some.inj (chosen.symm.trans some_)
    rfl

/-- A draw claimed, with its centre kept. -/
theorem Mid.claimed (distinct : Distinct hash S) (mid : Mid hash S g a b pool) {d : Draw K}
    (d_in : S d.key) {i : Nat} (found : pair_slot g.cur (hash d.key) d.key.count = some i)
    (room : b.length < PAIR_DRAWS) :
    Mid hash S ((claimed hash g i d).set_cur
      (with_cen (claimed hash g i d).cur g.cur.nrec (centre d.clip))) a (b ++ [d]) pool := by
  have cur : (SoaPort.Gxr.claimed hash g i d).cur =
      pair_record g.cur i (hash d.key) d.prim d.key.count d.ortho b.length := by
    rw [← mid.ndraw]
    exact set_cur_cur _ _
  have recorded := mid.cur.record distinct room d_in found
  rw [cur, mid.cur.nrec]
  refine ⟨?_, ?_, ?_, ?_, mid.recording, mid.lerping⟩
  · rw [set_cur_cur]
    exact recorded.with_cen _ _
  · rw [set_cur_cur]
    intro r e there
    rw [with_cen]
    dsimp only
    by_cases last : r = b.length
    · subst last
      rw [Function.update_self]
      rw [List.getElem?_concat_length] at there
      cases there
      rfl
    · rw [Function.update_of_ne last, record_cen]
      have low : r < b.length := by
        have inside := (List.getElem?_eq_some_iff.mp there).1
        rw [List.length_append, List.length_singleton] at inside
        omega
      rw [List.getElem?_append_left low] at there
      exact mid.centred r e there
  · change Before hash S (((SoaPort.Gxr.claimed hash g i d).set_cur _).g_pair
      (!(SoaPort.Gxr.claimed hash g i d).g_pair_cur)) a pool
    rw [set_cur_other]
    change Before hash S (({ g with g_pair_ndraw := g.g_pair_ndraw + 1 }.set_cur _).g_pair
      (!g.g_pair_cur)) a pool
    rw [set_cur_other]
    exact mid.before
  · change g.g_pair_ndraw + 1 = _
    rw [mid.ndraw, List.length_append]
    rfl

theorem match_one_none {d : Draw K} (none_ : pool d.key = []) :
    match_one a pool d = (pool, none) := by
  rw [match_one, none_]
  rfl

theorem match_one_some {d : Draw K} {m : Nat} {far_ : Rat}
    (found : nearest (far a d) ((pool d.key).take LOOK) 0 none = some (m, far_)) :
    match_one a pool d =
      (Function.update pool d.key ((pool d.key).eraseIdx m), (pool d.key)[m]?) := by
  rw [match_one, found]

omit [DecidableEq K] in
/-- The frame before's centres measure as fifopair does. -/
theorem Before.far {P : PairFrame} (before : Before hash S P a pool) (d : Draw K) :
    ∀ r ∈ (pool d.key).take LOOK,
      SoaPort.Gxr.far a d r = pair_dist (P.record r).cen (centre d.clip) := by
  intro r member
  obtain ⟨e, there, -⟩ := before.pooled.member d.key r (List.mem_of_mem_take member)
  rw [SoaPort.Gxr.far, there, before.centred r e there, pair_dist_eq]

omit [DecidableEq K] in
/-- The look names the draw fifopair finds. -/
theorem Before.look {P : PairFrame} (before : Before hash S P a pool) {d : Draw K} {head : Nat}
    (chain : Chain (fun r => (P.record r).next) PAIR_NONE head (pool d.key))
    (there : head ≠ PAIR_NONE) :
    ∃ best m far_, pair_look P (centre d.clip) PAIR_LOOK head PAIR_NONE none = some best ∧
      nearest (SoaPort.Gxr.far a d) ((pool d.key).take LOOK) 0 none = some (m, far_) ∧
      Names (pool d.key) (some best) (some (m, far_)) := by
  have none_ : Names (pool d.key) none none := trivial
  have names : Names (pool d.key)
      (pair_look P (centre d.clip) PAIR_LOOK head PAIR_NONE none)
      (nearest (fun i => pair_dist (P.record i).cen (centre d.clip)) ((pool d.key).take LOOK) 0
        none) :=
    look_nearest PAIR_LOOK (List.nil_append _).symm chain rfl none_
  rw [← nearest_congr (before.far d)] at names
  obtain ⟨⟨m, far_⟩, found⟩ : ∃ found,
      nearest (SoaPort.Gxr.far a d) ((pool d.key).take LOOK) 0 none = some found := by
    cases q_is : pool d.key with
    | nil =>
        rw [q_is] at chain
        exact absurd chain there
    | cons r q => exact nearest_some _ _ _ _
  rw [found] at names
  cases looked : pair_look P (centre d.clip) PAIR_LOOK head PAIR_NONE none with
  | none =>
      rw [looked] at names
      cases names
  | some best =>
      rw [looked] at names
      exact ⟨best, m, far_, rfl, found, names⟩

/-- Only the counts have changed. -/
theorem Mid.same (mid : Mid hash S g a b pool) {g' : Pairs} (pair : g'.g_pair = g.g_pair)
    (cur : g'.g_pair_cur = g.g_pair_cur) (ndraw : g'.g_pair_ndraw = g.g_pair_ndraw)
    (recording : g'.mode_record = g.mode_record) (lerping : g'.mode_lerp = g.mode_lerp) :
    Mid hash S g' a b pool := by
  have frame : g'.cur = g.cur := by rw [Pairs.cur, Pairs.cur, pair, cur]
  refine ⟨frame ▸ mid.cur, frame ▸ mid.centred, ?_, ndraw.trans mid.ndraw,
    recording.trans mid.recording, lerping.trans mid.lerping⟩
  rw [pair, cur]
  exact mid.before

/-- A match taken out of the frame before. -/
theorem Mid.unlink (mid : Mid hash S g a b pool) {P : PairFrame} {left : Key K → List Nat}
    (before : Before hash S P a left) {g' : Pairs}
    (pair : g'.g_pair = Function.update g.g_pair (!g.g_pair_cur) P)
    (cur : g'.g_pair_cur = g.g_pair_cur) (ndraw : g'.g_pair_ndraw = g.g_pair_ndraw)
    (recording : g'.mode_record = g.mode_record) (lerping : g'.mode_lerp = g.mode_lerp) :
    Mid hash S g' a b left := by
  have frame : g'.cur = g.cur := by
    rw [Pairs.cur, Pairs.cur, pair, cur]
    exact Function.update_of_ne (Bool.not_ne_self _).symm _ _
  refine ⟨frame ▸ mid.cur, frame ▸ mid.centred, ?_, ndraw.trans mid.ndraw,
    recording.trans mid.recording, lerping.trans mid.lerping⟩
  rw [pair, cur, Function.update_self]
  exact before

/-- The match of a draw, and the pool it leaves. -/
theorem Mid.take (distinct : Distinct hash S) (mid : Mid hash S g a b pool) {d : Draw K}
    (d_in : S d.key) (c : PairClaim) :
    Mid hash S (pair_take g c (hash d.key) d.key.count d.ortho (centre d.clip)).1 a b
        (match_one a pool d).1 ∧
      (pair_take g c (hash d.key) d.key.count d.ortho (centre d.clip)).1.g_pair_list =
        g.g_pair_list ++ ((match_one a pool d).2.map fun i => (i, c.idx)).toList := by
  have before := mid.before
  rw [pair_take]
  dsimp only
  rcases before.listed d.key d_in with ⟨i, found, taken, chain⟩ | ⟨none_, absent⟩
  · rw [found]
    dsimp only
    by_cases ends : ((g.g_pair (!g.g_pair_cur)).slot i).head = PAIR_NONE
    · rw [if_pos (.inr ends)]
      have none_ : pool d.key = [] := by
        cases q_is : pool d.key with
        | nil => rfl
        | cons r q =>
            rw [q_is] at chain
            exact absurd (chain.1.symm.trans ends) chain.2.1
      rw [match_one_none none_]
      exact ⟨mid.same rfl rfl rfl rfl rfl, (List.append_nil _).symm⟩
    · have goes : ¬ (((g.g_pair (!g.g_pair_cur)).slot i).count = 0 ∨
          ((g.g_pair (!g.g_pair_cur)).slot i).head = PAIR_NONE) := not_or.mpr ⟨taken, ends⟩
      obtain ⟨best, m, far_, looked, nearest_, names⟩ := before.look chain ends
      have unlinked := before.unlink distinct d_in found taken names
      have at_ := names.2.1
      have low := before.pooled.low (List.mem_of_getElem? at_)
      rw [if_neg goes, looked, match_one_some nearest_, at_]
      dsimp only
      rw [before.idx _ low]
      split
      · exact ⟨mid.unlink unlinked rfl rfl rfl rfl rfl, rfl⟩
      · exact ⟨mid.unlink unlinked rfl rfl rfl rfl rfl, rfl⟩
  · rw [match_one_none none_]
    cases found : pair_slot (g.g_pair (!g.g_pair_cur)) (hash d.key) d.key.count with
    | none => exact ⟨mid.same rfl rfl rfl rfl rfl, (List.append_nil _).symm⟩
    | some i =>
        dsimp only
        rw [if_pos (.inl (absent i found))]
        exact ⟨mid.same rfl rfl rfl rfl rfl, (List.append_nil _).symm⟩

theorem Mid.draw (distinct : Distinct hash S) (mid : Mid hash S g a b pool) {d : Draw K}
    (d_in : S d.key) (room : b.length < PAIR_DRAWS)
    (verts : (b.map fun d => d.key.count).sum + d.key.count ≤ PAIR_VERTS) :
    Mid hash S (pair_draw hash g d) a (b ++ [d]) (match_one a pool d).1 ∧
      (pair_draw hash g d).g_pair_list =
        g.g_pair_list ++ ((match_one a pool d).2.map fun i => (i, b.length)).toList := by
  obtain ⟨i, found⟩ := mid.cur.slot_found room (hash d.key) d.key.count
  have ready := mid.claimed distinct d_in found room
  have there : g.cur.nrec ≠ PAIR_NONE := by
    rw [mid.cur.nrec]
    simp only [PAIR_DRAWS] at room
    simp only [PAIR_NONE]
    omega
  rw [pair_draw, mid.claim_eq found room verts]
  dsimp only
  rw [pair_match]
  dsimp only
  rw [if_neg there, pair_centre_eq]
  have lerps := ready.lerping
  rw [lerps, if_neg Bool.noConfusion, ← mid.ndraw]
  exact ready.take distinct d_in ⟨g.cur.npos, PAIR_NONE, g.cur.nrec, g.g_pair_ndraw⟩

/-- A frame's draws: the pairs are fifopair's. -/
theorem Mid.draws (distinct : Distinct hash S) (mid : Mid hash S g a b pool)
    {draws : List (Draw K)} (keys : ∀ d ∈ draws, S d.key)
    (room : (b ++ draws).length ≤ PAIR_DRAWS)
    (verts : ((b ++ draws).map fun d => d.key.count).sum ≤ PAIR_VERTS) :
    (∃ left, Mid hash S (draws.foldl (pair_draw hash) g) a (b ++ draws) left) ∧
      (draws.foldl (pair_draw hash) g).g_pair_list =
        g.g_pair_list ++ match_from a pool b.length draws := by
  induction draws generalizing g b pool with
  | nil =>
      rw [List.append_nil]
      exact ⟨⟨pool, mid⟩, (List.append_nil _).symm⟩
  | cons d draws ih =>
      obtain ⟨d_in, others⟩ := List.forall_mem_cons.mp keys
      rw [List.map_append, List.sum_append, List.map_cons, List.sum_cons] at verts
      rw [List.length_append, List.length_cons] at room
      obtain ⟨next, pairs⟩ := mid.draw distinct d_in (by omega) (by omega)
      have split_ : b ++ d :: draws = (b ++ [d]) ++ draws := (List.append_cons b d draws)
      have rest := ih next others ?_ ?_
      · rw [List.foldl_cons, split_]
        refine ⟨rest.1, ?_⟩
        rw [rest.2, pairs, match_from, List.append_assoc]
        congr 1
        rw [List.length_append, List.length_singleton]
        generalize match_one a pool d = taken
        obtain ⟨left, found⟩ := taken
        cases found with
        | none => rfl
        | some i => rfl
      · rw [List.length_append, List.length_append, List.length_singleton]
        omega
      · rw [List.map_append, List.map_append, List.sum_append, List.sum_append, List.map_singleton,
          List.sum_singleton]
        omega

theorem reset_recorded (F : PairFrame) : Recorded hash S (pair_reset F) ([] : List (Draw K)) where
  keys := nofun
  nrec := rfl
  npos := rfl
  idx := nofun
  own _ taken := absurd rfl taken
  listed _ _ := .inr ⟨rfl, fun _ _ => rfl⟩
  tail _ _ _ _ taken := absurd rfl taken

/-- The screen copy makes this frame the one before, with all its draws to take. -/
theorem Mid.rotate (mid : Mid hash S g a b pool) (room : b.length ≤ PAIR_DRAWS) :
    Mid hash S (pair_rotate g) b [] (pool_of b) ∧
      (pair_rotate g).g_pair_list = g.g_pair_list := by
  refine ⟨⟨?_, nofun, ?_, rfl, mid.recording, mid.lerping⟩, rfl⟩
  · rw [pair_rotate, set_cur_cur]
    exact reset_recorded _
  · have other : (pair_rotate g).g_pair (!(pair_rotate g).g_pair_cur) = g.cur := by
      change Function.update g.g_pair (!g.g_pair_cur) _ (!!g.g_pair_cur) = _
      rw [Bool.not_not]
      exact Function.update_of_ne (Bool.not_ne_self _).symm _ _
    rw [other]
    refine ⟨room, mid.cur.idx, mid.centred, pool_of_pooled b, mid.cur.listed⟩

theorem pair_start_mid (record : Nat → PairRec) : Mid hash S (pair_start record) [] [] (pool_of []) :=
  ⟨reset_recorded _, nofun, ⟨Nat.zero_le _, nofun, nofun, pool_of_pooled [],
    (reset_recorded _).listed⟩, rfl, rfl, rfl⟩

theorem Mid.frames (distinct : Distinct hash S) (mid : Mid hash S g a [] (pool_of a))
    {frames : List (List (Draw K))} (keys : ∀ f ∈ frames, ∀ d ∈ f, S d.key)
    (room : ∀ f ∈ frames, f.length ≤ PAIR_DRAWS)
    (verts : ∀ f ∈ frames, (f.map fun d => d.key.count).sum ≤ PAIR_VERTS) :
    (frames.foldl (pair_frame hash) g).g_pair_list =
      g.g_pair_list ++ (List.zipWith match_ (a :: frames) frames).flatten := by
  induction frames generalizing g a with
  | nil => exact (List.append_nil _).symm
  | cons f frames ih =>
      obtain ⟨f_keys, keys⟩ := List.forall_mem_cons.mp keys
      obtain ⟨f_room, room⟩ := List.forall_mem_cons.mp room
      obtain ⟨f_verts, verts⟩ := List.forall_mem_cons.mp verts
      obtain ⟨⟨left, drawn⟩, pairs⟩ := mid.draws distinct f_keys f_room f_verts
      obtain ⟨next, same⟩ := drawn.rotate f_room
      rw [List.foldl_cons, List.zipWith_cons_cons, List.flatten_cons, ← List.append_assoc]
      have step : (pair_frame hash g f).g_pair_list = g.g_pair_list ++ match_ a f :=
        same.trans pairs
      rw [← step]
      exact ih next keys room verts

end Draws

/-! fifopair takes each draw once. -/

section Once

variable {K : Type} [DecidableEq K] {a : List (Draw K)} {pool : Key K → List Nat}

theorem match_one_left (pooled : Pooled a pool) (d : Draw K) :
    Pooled a (match_one a pool d).1 ∧
      (∀ key, (match_one a pool d).1 key ⊆ pool key) ∧
      ∀ i, (match_one a pool d).2 = some i →
        i ∈ pool d.key ∧ ∀ key, i ∉ (match_one a pool d).1 key := by
  cases found : nearest (far a d) ((pool d.key).take LOOK) 0 none with
  | none =>
      rw [match_one, found]
      exact ⟨pooled, fun key => List.Subset.refl _, nofun⟩
  | some best =>
      obtain ⟨m, far_⟩ := best
      rw [match_one_some found]
      have sublist : ∀ k,
          (Function.update pool d.key ((pool d.key).eraseIdx m) k).Sublist (pool k) := by
        intro k
        by_cases same : k = d.key
        · subst same
          rw [Function.update_self]
          exact List.eraseIdx_sublist _ _
        · rw [Function.update_of_ne same]
      refine ⟨⟨fun k r member => pooled.member k r ((sublist k).subset member),
        fun k => (sublist k).nodup (pooled.nodup k)⟩, fun k => (sublist k).subset, ?_⟩
      intro i at_
      have member := List.mem_of_getElem? at_
      refine ⟨member, fun k there => ?_⟩
      by_cases same : k = d.key
      · subst same
        dsimp only at there
        rw [Function.update_self] at there
        obtain ⟨low, rfl⟩ := List.getElem?_eq_some_iff.mp at_
        rw [← (pooled.nodup d.key).erase_getElem m low] at there
        exact (pooled.nodup d.key).not_mem_erase there
      · exact pooled.apart (Ne.symm same) member ((sublist k).subset there)

theorem match_from_once (pooled : Pooled a pool) (j : Nat) (b : List (Draw K)) :
    ((match_from a pool j b).map Prod.fst).Nodup ∧
      ∀ i ∈ (match_from a pool j b).map Prod.fst, ∃ key, i ∈ pool key := by
  induction b generalizing pool j with
  | nil => exact ⟨List.nodup_nil, nofun⟩
  | cons d b ih =>
      obtain ⟨left, fewer, taken⟩ := match_one_left pooled d
      rw [match_from]
      generalize match_one a pool d = one at left fewer taken
      obtain ⟨rest, found⟩ := one
      obtain ⟨nodup, later⟩ := ih left (j + 1)
      have inside : ∀ i ∈ (match_from a rest (j + 1) b).map Prod.fst, ∃ key, i ∈ pool key := by
        intro i member
        obtain ⟨key, there⟩ := later i member
        exact ⟨key, fewer key there⟩
      cases found with
      | none => exact ⟨nodup, inside⟩
      | some i =>
          obtain ⟨here, gone⟩ := taken i rfl
          dsimp only
          rw [List.map_cons]
          refine ⟨List.nodup_cons.mpr ⟨fun again => ?_, nodup⟩,
            List.forall_mem_cons.mpr ⟨⟨d.key, here⟩, inside⟩⟩
          obtain ⟨key, there⟩ := later i again
          exact gone key there

theorem match_once (a b : List (Draw K)) : ((match_ a b).map Prod.fst).Nodup :=
  (match_from_once (pool_of_pooled a) 0 b).1

end Once

/-- Over any frames inside the arenas, each frame's pairs are those fifopair gives for it
and the frame before, and each draw before is paired once. -/
theorem pairs_of_frames {K : Type} [DecidableEq K] (hash : Key K → BitVec 64)
    (record : Nat → PairRec) (frames : List (List (Draw K)))
    (distinct : ∀ d ∈ frames.flatten, ∀ d' ∈ frames.flatten,
      hash d.key = hash d'.key → d.key = d'.key)
    (room : ∀ f ∈ frames, f.length ≤ PAIR_DRAWS)
    (verts : ∀ f ∈ frames, (f.map fun d => d.key.count).sum ≤ PAIR_VERTS) :
    (frames.foldl (pair_frame hash) (pair_start record)).g_pair_list =
        (List.zipWith match_ ([] :: frames) frames).flatten ∧
      ∀ a b : List (Draw K), ((match_ a b).map Prod.fst).Nodup := by
  let S : Key K → Prop := fun key => ∃ d ∈ frames.flatten, d.key = key
  have apart : Distinct hash S := by
    rintro _ _ ⟨d, member, rfl⟩ ⟨d', member', rfl⟩
    exact distinct d member d' member'
  have keys : ∀ f ∈ frames, ∀ d ∈ f, S d.key := fun f f_in d d_in =>
    ⟨d, List.mem_flatten.mpr ⟨f, f_in, d_in⟩, rfl⟩
  have start : Mid hash S (pair_start record) [] [] (pool_of []) := pair_start_mid record
  exact ⟨start.frames apart keys room verts, match_once⟩

/-- A draw of one point. -/
def point (key : Nat) (x : Rat) : Draw Nat where
  key := ⟨1, key⟩
  prim := 0xB8
  ortho := 0
  clip := [fun _ => x]
  counted := rfl
  some_ := Nat.one_pos

/-- Two points of a key that swap places are paired across. -/
theorem swapped_points_pair :
    ([[point 7 0, point 7 5], [point 7 4, point 7 1, point 9 0]].foldl
        (pair_frame fun key => BitVec.ofNat 64 key.rest)
        (pair_start fun _ => ⟨0, 0, 0, 0, 0, fun _ => 0, 0, 0⟩)).g_pair_list = [(1, 0), (0, 1)] := by
  refine (pairs_of_frames (fun key => BitVec.ofNat 64 key.rest) _
    [[point 7 0, point 7 5], [point 7 4, point 7 1, point 9 0]] ?_ ?_ ?_).1.trans ?_
  · decide
  · decide
  · decide
  · decide +kernel

end SoaPort.Gxr
