import Mathlib
import SoaPort.Debug.Actions

namespace SoaPort.Debug

open SoaPort.Lib

/-! The items of a text as they are written. -/

structure Written where
  kind : Kind
  map : Nat
  frame : Int
deriving DecidableEq

/-- NAME[:ARG]@FRAME, the frame the number it writes. -/
def written (item : Text) : Option Written :=
  match strrchr_at item with
  | none => none
  | some (before, after) =>
      match integer after with
      | none => none
      | some frame =>
          let (kind, map) := kind_of (before.dropWhile (· = ' '))
          if kind = .ACT_NONE then none else some ⟨kind, map, frame⟩

def Action.written (action : Action) : Written := ⟨action.kind, action.map, action.frame.toNat⟩

/-- The items between commas. -/
def pieces (text : Text) : List Text := (text.splitOn ',').filter (· ≠ [])

/-- The item written is the one read, but for how its frame is kept. -/
theorem read_item_written (limit : Nat) (item : Text) :
    (∃ w, written item = some w ∧
      read_item limit item = .ok ⟨w.kind, w.map, BitVec.ofNat 32 (wrapped limit w.frame)⟩) ∨
    ∃ why, written item = none ∧ read_item limit item = .error why := by
  rw [written, read_item]
  cases strrchr_at item with
  | none => exact .inr ⟨_, rfl, rfl⟩
  | some parts =>
      obtain ⟨before, after⟩ := parts
      dsimp only
      cases whole : integer after with
      | none =>
          right
          by_cases empty : after = []
          · rw [if_pos empty]
            exact ⟨_, rfl, rfl⟩
          · rw [if_neg empty]
            cases read : strtoul limit after with
            | none => exact ⟨_, rfl, rfl⟩
            | some number =>
                obtain ⟨v, rest⟩ := number
                cases rest with
                | nil => exact absurd read (integer_none whole v)
                | cons c rest => exact ⟨_, rfl, rfl⟩
      | some frame =>
          have some_ : after ≠ [] := by
            rintro rfl
            cases whole
          rw [if_neg some_, integer_some whole]
          dsimp only
          generalize kind_of (before.dropWhile (· = ' ')) = named
          obtain ⟨kind, map⟩ := named
          cases kind with
          | ACT_NONE => exact .inr ⟨_, rfl, rfl⟩
          | _ => exact .inl ⟨_, rfl, rfl⟩

theorem frame_kept {limit : Nat} (wide : 2 ^ 32 ≤ limit + 1) (z : Int) :
    ((BitVec.ofNat 32 (wrapped limit z)).toNat : Int) = z ↔ 0 ≤ z ∧ z < 2 ^ 32 := by
  rw [BitVec.toNat_ofNat, wrapped]
  constructor
  · intro same
    have low := Nat.mod_lt (if z.natAbs > limit then limit
      else if z < 0 then limit + 1 - z.natAbs else z.natAbs) (by decide : 0 < 2 ^ 32)
    omega
  · rintro ⟨positive, low⟩
    rw [if_neg (by omega), if_neg (by omega), Nat.mod_eq_of_lt (by omega)]
    omega

/-! The items read one by one. -/

section Parse

variable {limit : Nat}

theorem parse_items_filter (l : List Text) (sched : Schedule) (n : Nat) :
    parse_items limit l sched n = parse_items limit (l.filter (· ≠ [])) sched n := by
  induction l generalizing sched n with
  | nil => rfl
  | cons item l ih =>
      rw [List.filter_cons]
      by_cases empty : item = []
      · rw [parse_items, if_pos empty, if_neg (by simpa using empty)]
        exact ih sched n
      · rw [if_pos (by simpa using empty), parse_items, parse_items, if_neg empty, if_neg empty]
        split
        · rfl
        · split
          · rfl
          · exact ih _ _

/-- How a parse ends: with every item scheduled, or at the first that is not one or has no
room, the ones before it scheduled. -/
inductive Ended (limit : Nat) (l : List Text) (sched : Schedule) :
    Schedule × Except Refusal Nat → Prop
  | all (actions : List Action) (read : l.map (read_item limit) = actions.map .ok)
      (s : Schedule) (scheduled : s.g_sched = sched.g_sched ++ actions) (n : Nat) :
      Ended limit l sched (s, .ok n)
  | cut (actions : List Action) (item : Text) (rest : List Text) (front : List Text)
      (whole : l = front ++ item :: rest) (read : front.map (read_item limit) = actions.map .ok)
      (s : Schedule) (scheduled : s.g_sched = sched.g_sched ++ actions)
      (stops : written item = none ∨ s.g_sched.length = SCHEDULE_MAX) (why : Refusal) :
      Ended limit l sched (s, .error why)

theorem parse_items_ended {l : List Text} (some_ : ∀ item ∈ l, item ≠ []) (sched : Schedule)
    (n : Nat) : Ended limit l sched (parse_items limit l sched n) := by
  induction l generalizing sched n with
  | nil => exact .all [] rfl sched (List.append_nil _).symm n
  | cons item l ih =>
      obtain ⟨here, others⟩ := List.forall_mem_cons.mp some_
      rw [parse_items, if_neg here]
      rcases read_item_written limit item with ⟨w, is, read⟩ | ⟨why, is, read⟩
      · generalize Action.mk w.kind w.map (BitVec.ofNat 32 (wrapped limit w.frame)) = action at read
        rw [read]
        dsimp only
        split
        next full => exact .cut [] item l [] rfl rfl sched (List.append_nil _).symm (.inr full) _
        next room =>
          generalize ended : parse_items limit l _ (n + 1) = result
          have rest := ended ▸ ih others (sched.append action room) (n + 1)
          cases rest with
          | all actions all_read s scheduled n =>
              refine .all (action :: actions) ?_ s ?_ n
              · rw [List.map_cons, List.map_cons, read, all_read]
              · rw [scheduled]
                exact List.append_assoc _ _ _
          | cut actions item' rest front whole front_read s scheduled stops why =>
              refine .cut (action :: actions) item' rest (item :: front) ?_ ?_ s ?_ stops why
              · rw [whole]
                rfl
              · rw [List.map_cons, List.map_cons, read, front_read]
              · rw [scheduled]
                exact List.append_assoc _ _ _
      · rw [read]
        exact .cut [] item l [] rfl rfl sched (List.append_nil _).symm (.inl is) why

end Parse

/-! An item with more text after it. -/

section Longer

theorem integer_append {s r : Text} {z z' : Int} (whole : integer s = some z)
    (longer : integer (s ++ r) = some z') :
    z' = z ∨ z.natAbs * 10 ≤ z'.natAbs ∧ (z < 0 → z' < 0) := by
  rw [integer] at whole longer
  dsimp only at whole longer
  have kept : (s ++ r).dropWhile isspace = s.dropWhile isspace ++ r := by
    rw [List.dropWhile_append, if_neg]
    intro empty
    rw [List.isEmpty_iff.mp empty] at whole
    cases whole
  rw [kept] at longer
  generalize s.dropWhile isspace = t at whole longer
  have scanned : signed (t ++ r) = ((signed t).1, (signed t).2 ++ r) := by
    cases t with
    | nil => cases whole
    | cons c t =>
        rw [List.cons_append]
        unfold signed
        split
        · rename_i same
          cases same
          rfl
        · rename_i same
          cases same
          rfl
        · rename_i not_minus not_plus
          split
          · rename_i same
            cases same
            exact absurd rfl (not_minus _)
          · rename_i same
            cases same
            exact absurd rfl (not_plus _)
          · rfl
  rw [scanned] at longer
  generalize signed t = pair at whole longer
  obtain ⟨negative, digits⟩ := pair
  dsimp only at whole longer
  split at whole
  · cases whole
  split at longer
  · cases longer
  cases whole
  cases longer
  cases r with
  | nil =>
      left
      rw [List.append_nil]
  | cons c r =>
      right
      rw [Nat.ofDigitChars_append, Nat.ofDigitChars_eq_ofDigitChars_zero (l := c :: r)]
      generalize Nat.ofDigitChars 10 digits 0 = value
      have grows : value * 10 ≤ 10 ^ (c :: r).length * value := by
        rw [List.length_cons, Nat.pow_succ, Nat.mul_comm value 10, Nat.mul_comm _ 10, Nat.mul_assoc]
        exact Nat.mul_le_mul_left 10 (Nat.le_mul_of_pos_left value (Nat.pow_pos (by decide)))
      generalize 10 ^ (c :: r).length * value = scaled at grows
      generalize Nat.ofDigitChars 10 (c :: r) 0 = more
      cases negative with
      | true =>
          simp only [if_true, Int.natAbs_neg, Int.natAbs_natCast]
          omega
      | false =>
          simp only [Bool.false_eq_true, if_false, Int.natAbs_natCast]
          omega

theorem map_of_at {t : Text} (mapped : map_of t ≠ 0) : '@' ∉ t := by
  rw [map_of] at mapped
  split at mapped
  next h d o l short =>
    have plain : '@' ∉ [h, d, o, l] := by
      intro at_
      split at mapped
      · exact mapped rfl
      next letter =>
        split at mapped
        · exact mapped rfl
        next digits =>
          simp only [List.mem_cons, List.not_mem_nil, or_false] at at_
          rcases at_ with rfl | rfl | rfl | rfl
          · exact digits (.inl (by decide))
          · exact digits (.inr (.inl (by decide)))
          · exact digits (.inr (.inr (by decide)))
          · exact letter (.inl (by decide))
    by_cases five : t.head? = some 'a' ∧ t.length = 5
    · rw [if_pos five] at short
      cases t with
      | nil => exact List.not_mem_nil
      | cons c t =>
          cases five.1
          intro at_
          rcases List.mem_cons.mp at_ with here | there
          · exact absurd here (by decide)
          · exact plain (short ▸ there)
    · rw [if_neg five] at short
      exact short ▸ plain
  · exact absurd rfl mapped

/-- No action's name has an '@'. -/
theorem kind_of_at {name : Text} (known : (kind_of name).1 ≠ .ACT_NONE) : '@' ∉ name := by
  rw [kind_of] at known
  split at known
  next warp =>
    by_cases mapped : map_of (name.drop 5) ≠ 0
    · intro member
      rw [← List.take_append_drop 5 name, warp] at member
      rcases List.mem_append.mp member with here | there
      · exact absurd here (by decide)
      · exact map_of_at mapped there
    · simp only [if_neg mapped] at known
      exact absurd rfl known
  · cases found : k_name.find? fun k => k.2 = name with
    | none =>
        rw [found] at known
        exact absurd rfl known
    | some k =>
        have is : k.2 = name := by simpa using List.find?_some found
        rw [← is]
        have plain : ∀ k ∈ k_name, '@' ∉ k.2 := by decide
        exact plain k (List.mem_of_find?_eq_some found)

theorem strrchr_at_eq {item before after : Text} (split_ : strrchr_at item = some (before, after)) :
    item = before ++ '@' :: after ∧ '@' ∉ after := by
  rw [strrchr_at] at split_
  split at split_
  next member =>
    cases split_
    have whole := List.takeWhile_append_dropWhile (p := (· ≠ '@')) (l := item.reverse)
    cases dropped : item.reverse.dropWhile (· ≠ '@') with
    | nil =>
        have all := List.all_eq_true.mp (all_of_dropWhile_nil dropped) '@'
          (List.mem_reverse.mpr member)
        exact absurd all (by decide)
    | cons c rest =>
        have is : c = '@' := by simpa using dropWhile_head dropped
        subst is
        refine ⟨?_, ?_⟩
        · rw [dropped] at whole
          have back := congrArg List.reverse whole
          rw [List.reverse_reverse, List.reverse_append, List.reverse_cons, List.append_assoc] at back
          exact back.symm
        · intro at_
          have taken := List.mem_takeWhile_imp (List.mem_reverse.mp at_)
          exact absurd taken (by decide)
  · cases split_

theorem strrchr_at_some {item : Text} (member : '@' ∈ item) :
    ∃ before after, strrchr_at item = some (before, after) := by
  rw [strrchr_at, if_pos member]
  exact ⟨_, _, rfl⟩

/-- The '@' of an action's item is its only one. -/
theorem bare_before {before : Text} (known : (kind_of (before.dropWhile (· = ' '))).1 ≠ .ACT_NONE) :
    '@' ∉ before := by
  have name := kind_of_at known
  intro member
  rw [← List.takeWhile_append_dropWhile (p := (· = ' ')) (l := before)] at member
  rcases List.mem_append.mp member with space | rest
  · exact absurd (List.mem_takeWhile_imp space) (by decide)
  · exact name rest

theorem split_once {before before' after after' : Text}
    (whole : before ++ '@' :: after = before' ++ '@' :: after') (bare : '@' ∉ before)
    (bare' : '@' ∉ before') : before = before' ∧ after = after' := by
  have stops : ∀ {b : Text}, '@' ∉ b → ∀ x ∈ b, decide (x ≠ '@') = true := by
    intro b bare x member
    rw [decide_eq_true_iff]
    rintro rfl
    exact bare member
  have ends : ∀ {a : Text}, ∀ y ∈ ('@' :: a).head?, decide (y ≠ '@') = false := by
    rintro a y ⟨⟩
    rfl
  obtain ⟨taken, dropped⟩ := span_append (stops bare) (ends (a := after))
  obtain ⟨taken', dropped'⟩ := span_append (stops bare') (ends (a := after'))
  rw [whole] at taken dropped
  exact ⟨taken.symm.trans taken', (List.cons.inj (dropped.symm.trans dropped')).2⟩

/-- Text after an item leaves its action, and its frame grows by a digit or stays. -/
theorem written_append {item r : Text} {w w' : Written} (short : written item = some w)
    (longer : written (item ++ r) = some w') :
    w'.kind = w.kind ∧ w'.map = w.map ∧
      (w'.frame = w.frame ∨
        w.frame.natAbs * 10 ≤ w'.frame.natAbs ∧ (w.frame < 0 → w'.frame < 0)) := by
  rw [written] at short longer
  cases split_ : strrchr_at item with
  | none =>
      rw [split_] at short
      cases short
  | some parts =>
      obtain ⟨before, after⟩ := parts
      obtain ⟨whole, plain⟩ := strrchr_at_eq split_
      rw [split_] at short
      dsimp only at short
      cases frame_is : integer after with
      | none =>
          rw [frame_is] at short
          cases short
      | some frame =>
          rw [frame_is] at short
          dsimp only at short
          split at short
          · cases short
          next known =>
          cases short
          have inside : '@' ∈ item ++ r := by
            rw [whole]
            exact List.mem_append_left _ (List.mem_append_right _ List.mem_cons_self)
          obtain ⟨before', after', split'⟩ := strrchr_at_some inside
          obtain ⟨whole', -⟩ := strrchr_at_eq split'
          rw [split'] at longer
          dsimp only at longer
          cases frame_is' : integer after' with
          | none =>
              rw [frame_is'] at longer
              cases longer
          | some frame' =>
              rw [frame_is'] at longer
              dsimp only at longer
              split at longer
              · cases longer
              next known' =>
              cases longer
              rw [whole, List.append_assoc, List.cons_append] at whole'
              obtain ⟨rfl, rfl⟩ := split_once whole' (bare_before known) (bare_before known')
              exact ⟨rfl, rfl, integer_append frame_is frame_is'⟩

end Longer

/-! A text's items and those of what was copied of it. -/

section Cut

/-- Text after a text lengthens its last item and adds more. -/
theorem splitOn_append (a b : Text) : ∃ init last first more,
    a.splitOn ',' = init ++ [last] ∧ b.splitOn ',' = first :: more ∧
      (a ++ b).splitOn ',' = init ++ (last ++ first) :: more := by
  obtain ⟨first, more, rest⟩ := List.exists_cons_of_ne_nil (List.splitOn_ne_nil ',' b)
  induction a with
  | nil => exact ⟨[], [], first, more, rfl, rest, rest⟩
  | cons c a ih =>
      obtain ⟨init, last, first', more', whole, tail, longer⟩ := ih
      rw [List.cons_append, List.splitOn_cons_eq_if_modifyHead, List.splitOn_cons_eq_if_modifyHead,
        whole, longer]
      split
      · exact ⟨[] :: init, last, first', more', rfl, tail, rfl⟩
      · cases init with
        | nil => exact ⟨[], c :: last, first', more', rfl, tail, rfl⟩
        | cons i init => exact ⟨(c :: i) :: init, last, first', more', rfl, tail, rfl⟩

/-- What is kept of a frame is no more than the frame. -/
theorem kept_le (limit : Nat) {z : Int} (positive : 0 ≤ z) :
    ((BitVec.ofNat 32 (wrapped limit z)).toNat : Int) ≤ z := by
  have small : wrapped limit z ≤ z.natAbs := by
    rw [wrapped, if_neg (by omega : ¬ z < 0)]
    split
    · omega
    · exact le_refl _
  have low := Nat.mod_le (wrapped limit z) (2 ^ 32)
  rw [BitVec.toNat_ofNat]
  omega

/-- An item cut short and scheduled is the whole item only when it is written the same. -/
theorem written_of_longer {limit : Nat} {item r : Text} {w : Written}
    (short : written item = some w)
    (longer : written (item ++ r) =
      some ⟨w.kind, w.map, (BitVec.ofNat 32 (wrapped limit w.frame)).toNat⟩) :
    w = ⟨w.kind, w.map, (BitVec.ofNat 32 (wrapped limit w.frame)).toNat⟩ := by
  obtain ⟨-, -, grows⟩ := written_append short longer
  have same : ((BitVec.ofNat 32 (wrapped limit w.frame)).toNat : Int) = w.frame := by
    rcases grows with same | ⟨more, sign⟩
    · exact same
    · dsimp only at more sign
      have positive : 0 ≤ w.frame := by omega
      have kept := kept_le limit positive
      omega
  rw [same]

end Cut

/-! What a parse leaves. -/

section Parsed

variable {limit : Nat} {sched : Schedule} {text : Text}

/-- A refusal leaves the schedule as it was; otherwise the text's items are what it has
more. -/
def Honest (limit : Nat) (sched : Schedule) (text : Text) : Prop :=
  match actions_parse limit sched text with
  | (after, .error _) => after.g_sched = sched.g_sched
  | (after, .ok _) => ∃ actions : List Action, after.g_sched = sched.g_sched ++ actions ∧
      (pieces text).map written = actions.map fun action => some action.written

/-- The first item is not one, or has no room. -/
def StopsAtOnce (sched : Schedule) (text : Text) : Prop :=
  ∃ item rest, pieces (text.take 511) = item :: rest ∧
    (written item = none ∨ sched.g_sched.length = SCHEDULE_MAX)

/-- Every item is one, with a 32-bit frame, there is room for them all, and what is past
the copy writes none and changes none. -/
structure Fits (sched : Schedule) (text : Text) : Prop where
  room : sched.g_sched.length + (pieces (text.take 511)).length ≤ SCHEDULE_MAX
  items : ∀ item ∈ pieces (text.take 511),
    ∃ w, written item = some w ∧ 0 ≤ w.frame ∧ w.frame < 2 ^ 32
  cut : (pieces text).map written = (pieces (text.take 511)).map written

theorem actions_parse_ended (limit : Nat) (sched : Schedule) (text : Text) :
    Ended limit (pieces (text.take 511)) sched (actions_parse limit sched text) := by
  rw [actions_parse, parse_items_filter]
  apply parse_items_ended
  intro item member
  exact of_decide_eq_true (List.mem_filter.mp member).2

/-- What is read is what is written, with the frame as it is kept. -/
theorem read_written {item : Text} {action : Action} (read : read_item limit item = .ok action) :
    ∃ w, written item = some w ∧
      action.written = ⟨w.kind, w.map, (BitVec.ofNat 32 (wrapped limit w.frame)).toNat⟩ := by
  rcases read_item_written limit item with ⟨w, is, reads⟩ | ⟨why, -, reads⟩
  · cases reads.symm.trans read
    exact ⟨w, is, rfl⟩
  · cases reads.symm.trans read

theorem written_kept (wide : 2 ^ 32 ≤ limit + 1) (w : Written) :
    w = ⟨w.kind, w.map, (BitVec.ofNat 32 (wrapped limit w.frame)).toNat⟩ ↔
      0 ≤ w.frame ∧ w.frame < 2 ^ 32 := by
  rw [← frame_kept wide w.frame]
  constructor
  · exact fun same => (congrArg Written.frame same).symm
  · intro same
    rw [same]

/-- Items read whose frames fit are written as they are kept. -/
theorem written_of_fits (wide : 2 ^ 32 ≤ limit + 1) {l : List Text} {actions : List Action}
    (read : l.map (read_item limit) = actions.map .ok)
    (items : ∀ item ∈ l, ∃ w, written item = some w ∧ 0 ≤ w.frame ∧ w.frame < 2 ^ 32) :
    l.map written = actions.map fun action => some action.written := by
  induction l generalizing actions with
  | nil =>
      cases actions with
      | nil => rfl
      | cons action actions => cases read
  | cons item l ih =>
      cases actions with
      | nil => cases read
      | cons action actions =>
          obtain ⟨here, rest⟩ := List.cons.inj read
          obtain ⟨⟨w, is, fits⟩, others⟩ := List.forall_mem_cons.mp items
          obtain ⟨w', is', kept⟩ := read_written here
          cases is.symm.trans is'
          rw [List.map_cons, List.map_cons, ih rest others, is, kept,
            ← (written_kept wide w).mpr fits]

/-- And the other way. -/
theorem fits_of_written (wide : 2 ^ 32 ≤ limit + 1) {l : List Text} {actions : List Action}
    (read : l.map (read_item limit) = actions.map .ok)
    (same : l.map written = actions.map fun action => some action.written) :
    ∀ item ∈ l, ∃ w, written item = some w ∧ 0 ≤ w.frame ∧ w.frame < 2 ^ 32 := by
  induction l generalizing actions with
  | nil => exact nofun
  | cons item l ih =>
      cases actions with
      | nil => cases read
      | cons action actions =>
          obtain ⟨here, rest⟩ := List.cons.inj read
          obtain ⟨first, others⟩ := List.cons.inj same
          obtain ⟨w, is, kept⟩ := read_written here
          refine List.forall_mem_cons.mpr ⟨⟨w, is, ?_⟩, ih rest others⟩
          apply (written_kept wide w).mp
          rw [← kept]
          exact Option.some.inj (is.symm.trans first)

/-- The items scheduled are the text's only if they are the copy's. -/
theorem cut_of_written {cut past : Text} {actions : List Action}
    (read : (pieces cut).map (read_item limit) = actions.map .ok)
    (same : (pieces (cut ++ past)).map written = actions.map fun action => some action.written) :
    (pieces cut).map written = actions.map fun action => some action.written := by
  obtain ⟨init, last, first, more, whole, -, longer⟩ := splitOn_append cut past
  have count : (pieces cut).length = (pieces (cut ++ past)).length := by
    have read := congrArg List.length read
    have same := congrArg List.length same
    simp only [List.length_map] at read same
    omega
  rw [pieces, whole, List.filter_append] at read count ⊢
  rw [pieces, longer, List.filter_append] at same count
  rw [List.map_append] at read same ⊢
  by_cases empty : last = []
  · subst empty
    have none_ : ([[]] : List Text).filter (· ≠ []) = [] := rfl
    rw [none_] at count read ⊢
    simp only [List.length_append, List.length_nil] at count
    have gone : (([] ++ first) :: more).filter (· ≠ []) = [] := by
      apply List.eq_nil_of_length_eq_zero
      exact (Nat.add_left_cancel count).symm
    rw [gone] at same
    exact same
  · have kept : [last].filter (· ≠ []) = [last] := by
      rw [List.filter_cons, if_pos (by simpa using empty)]
      rfl
    have longer_kept : ((last ++ first) :: more).filter (· ≠ []) =
        (last ++ first) :: more.filter (· ≠ []) := by
      rw [List.filter_cons, if_pos (by simp [empty])]
    rw [kept] at count read ⊢
    rw [longer_kept] at same count
    simp only [List.length_append, List.length_cons, List.length_nil] at count
    have gone : more.filter (· ≠ []) = [] := by
      apply List.eq_nil_of_length_eq_zero
      omega
    rw [gone] at same
    obtain ⟨front, back, rfl, front_read, back_read⟩ := List.map_eq_append_iff.mp read.symm
    rw [List.map_append] at same ⊢
    have lengths : ((init.filter (· ≠ [])).map written).length =
        (front.map fun action => some action.written).length := by
      have := congrArg List.length front_read
      simp only [List.length_map] at this ⊢
      exact this.symm
    obtain ⟨fronts, backs⟩ := List.append_inj same lengths
    rw [fronts]
    congr 1
    cases back with
    | nil => cases back_read
    | cons action back =>
        obtain ⟨here, rest⟩ := List.cons.inj back_read
        cases back with
        | cons other back => cases rest
        | nil =>
            obtain ⟨w, is, is_kept⟩ := read_written here.symm
            have long : written (last ++ first) = some action.written :=
              (List.cons.inj backs).1
            rw [is_kept] at long
            have same := written_of_longer is long
            change [written last] = [some action.written]
            rw [is, is_kept, ← same]

/-- A whole text read has its items scheduled only if they fit. -/
theorem all_iff (wide : 2 ^ 32 ≤ limit + 1) {actions : List Action} {s : Schedule}
    (read : (pieces (text.take 511)).map (read_item limit) = actions.map .ok)
    (scheduled : s.g_sched = sched.g_sched ++ actions) :
    (pieces text).map written = actions.map (fun action => some action.written) ↔
      StopsAtOnce sched text ∨ Fits sched text := by
  have count : (pieces (text.take 511)).length = actions.length := by
    simpa using congrArg List.length read
  have room : sched.g_sched.length + actions.length ≤ SCHEDULE_MAX := by
    rw [← List.length_append, ← scheduled]
    exact s.fits
  constructor
  · intro same
    have whole : (pieces (text.take 511 ++ text.drop 511)).map written =
        actions.map fun action => some action.written := by
      rw [List.take_append_drop]
      exact same
    have cut := cut_of_written read whole
    exact .inr ⟨by rw [count]; exact room, fits_of_written wide read cut, same.trans cut.symm⟩
  · rintro (⟨item, rest, first, stops⟩ | fits)
    · rw [first] at read count
      rcases stops with none_ | full
      · cases actions with
        | nil => cases read
        | cons action actions =>
            obtain ⟨w, is, -⟩ := read_written (List.cons.inj read).1
            cases none_.symm.trans is
      · rw [List.length_cons] at count
        omega
    · exact fits.cut.trans (written_of_fits wide read fits.items)

/-- A refused text leaves the schedule alone only if the first item is refused. -/
theorem refused_iff {actions : List Action} {item : Text} {rest front : List Text} {s : Schedule}
    (whole : pieces (text.take 511) = front ++ item :: rest)
    (read : front.map (read_item limit) = actions.map .ok)
    (scheduled : s.g_sched = sched.g_sched ++ actions)
    (stops : written item = none ∨ s.g_sched.length = SCHEDULE_MAX) :
    s.g_sched = sched.g_sched ↔ StopsAtOnce sched text ∨ Fits sched text := by
  have count : front.length = actions.length := by
    simpa using congrArg List.length read
  have total : s.g_sched.length = sched.g_sched.length + actions.length := by
    rw [scheduled, List.length_append]
  have fits := s.fits
  constructor
  · intro same
    have none_ : front = [] := by
      apply List.eq_nil_of_length_eq_zero
      rw [same] at total
      omega
    rw [none_] at whole
    rw [same] at stops
    exact .inl ⟨item, rest, whole, stops⟩
  · rintro (⟨first, others, starts, why⟩ | room)
    · suffices none_ : actions = [] by rw [scheduled, none_, List.append_nil]
      rcases why with none_ | full
      · cases actions with
        | nil => rfl
        | cons action actions =>
            cases front with
            | nil => cases read
            | cons item' front =>
                obtain ⟨w, is, -⟩ := read_written (List.cons.inj read).1
                cases (List.cons.inj (starts.symm.trans whole)).1
                cases none_.symm.trans is
      · apply List.eq_nil_of_length_eq_zero
        omega
    · exfalso
      rcases stops with none_ | full
      · obtain ⟨w, is, -⟩ := room.items item (by rw [whole]; simp)
        cases none_.symm.trans is
      · have enough := room.room
        rw [whole, List.length_append, List.length_cons] at enough
        omega

/-- A parse is honest exactly when its first item stops it, or all its items fit. -/
theorem honest_iff (wide : 2 ^ 32 ≤ limit + 1) :
    Honest limit sched text ↔ StopsAtOnce sched text ∨ Fits sched text := by
  have ended := actions_parse_ended limit sched text
  rw [Honest]
  generalize actions_parse limit sched text = result at ended
  cases ended with
  | all actions read s scheduled n =>
      rw [← all_iff wide read scheduled]
      constructor
      · rintro ⟨actions', grown, same⟩
        rw [← List.append_cancel_left (scheduled.symm.trans grown)] at same
        exact same
      · exact fun same => ⟨actions, scheduled, same⟩
  | cut actions item rest front whole read s scheduled stops why =>
      exact refused_iff whole read scheduled stops

end Parsed

/-- Two items that fit, with a 64-bit `unsigned long`. -/
theorem two_items_honest :
    Honest (2 ^ 64 - 1) ⟨[], Nat.zero_le _⟩ "fade@120,warp:116c@900".toList := by
  apply (honest_iff (by decide)).mpr
  right
  exact {
    room := by decide
    items := by
      intro item member
      have two : pieces ("fade@120,warp:116c@900".toList.take 511) =
          ["fade@120".toList, "warp:116c@900".toList] := by decide
      rw [two] at member
      rcases List.mem_cons.mp member with rfl | second
      · exact ⟨⟨.ACT_FADE, 0, 120⟩, by decide, by decide, by decide⟩
      · cases List.mem_singleton.mp second
        exact ⟨⟨.ACT_WARP, 116 * 256 + 99, 900⟩, by decide, by decide, by decide⟩
    cut := by rw [List.take_of_length_le (by decide)]
  }

/-- The second item is refused and the first stays scheduled. -/
theorem refused_scheduled :
    ¬ Honest (2 ^ 64 - 1) ⟨[], Nat.zero_le _⟩ "fade@1,nonsense@2".toList := by
  intro honest
  have after : (actions_parse (2 ^ 64 - 1) ⟨[], Nat.zero_le _⟩ "fade@1,nonsense@2".toList) =
      (⟨[⟨.ACT_FADE, 0, 1⟩], by decide⟩, .error .not_an_action) := by
    decide
  rw [Honest, after] at honest
  cases honest

end SoaPort.Debug
