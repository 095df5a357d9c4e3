import Mathlib.Data.List.Basic

namespace SoaPort.Lib

/-! A value read at times that only go forward, kept as its changes, and read
back with a cursor. -/

section Changes

variable {α ε : Type} [DecidableEq α]

/-- The reads that change the value read last. -/
def changes (last : α) : List (Nat × α) → List (Nat × α)
  | [] => []
  | (t, v) :: reads => if v = last then changes last reads else (t, v) :: changes v reads

/-- The value after the reads. -/
def final (last : α) (reads : List (Nat × α)) : α := reads.foldl (fun _ read => read.2) last

/-- Reads in order of time, with one value at each time. -/
def Timed (reads : List (Nat × α)) : Prop :=
  reads.Pairwise fun a b => a.1 ≤ b.1 ∧ (a.1 = b.1 → a.2 = b.2)

/-- One entry, if it is due. -/
def step_cursor (time : ε → Nat) (t : Nat) : List ε → Option ε × List ε
  | [] => (none, [])
  | e :: entries => if time e ≤ t then (some e, entries) else (none, e :: entries)

/-- Every entry due: the last of them, and what is not due yet. -/
def advance (time : ε → Nat) (t : Nat) (at_ : Option ε) : List ε → Option ε × List ε
  | [] => (at_, [])
  | e :: entries => if time e ≤ t then advance time t (some e) entries else (at_, e :: entries)

/-- Every entry due, and what is not due yet. -/
def take_due (time : ε → Nat) (t : Nat) : List ε → List ε × List ε
  | [] => ([], [])
  | e :: entries =>
      if time e ≤ t then (e :: (take_due time t entries).1, (take_due time t entries).2)
      else ([], e :: entries)

variable {last v : α} {t : Nat} {reads more : List (Nat × α)}

theorem changes_append (last : α) (reads more : List (Nat × α)) :
    changes last (reads ++ more) = changes last reads ++ changes (final last reads) more := by
  induction reads generalizing last with
  | nil => rfl
  | cons read reads ih =>
      obtain ⟨t, v⟩ := read
      rw [List.cons_append, changes, changes]
      split
      · rename_i same
        rw [ih, final, final, List.foldl_cons, same]
      · rw [ih, List.cons_append]
        rfl

theorem changes_cons (last : α) (read : Nat × α) (reads : List (Nat × α)) :
    changes last (read :: reads) = changes last [read] ++ changes read.2 reads :=
  changes_append last [read] reads

theorem changes_sublist (last : α) (reads : List (Nat × α)) :
    List.Sublist (changes last reads) reads := by
  induction reads generalizing last with
  | nil => exact .slnil
  | cons read reads ih =>
      obtain ⟨t, v⟩ := read
      rw [changes]
      split
      · exact (ih last).cons _
      · exact (ih v).cons_cons _

theorem changes_subset (last : α) (reads : List (Nat × α)) : ∀ e ∈ changes last reads, e ∈ reads :=
  fun _ member => (changes_sublist last reads).subset member

theorem changes_forward (last : α) (timed : Timed reads) :
    ((changes last reads).map (·.1)).Pairwise (· ≤ ·) :=
  List.pairwise_map.mpr ((timed.sublist (changes_sublist last reads)).imp fun both => both.1)

/-- A change comes later than a read it follows. -/
theorem changes_later (timed : Timed ((t, v) :: reads)) : ∀ e ∈ changes v reads, t < e.1 := by
  induction reads generalizing t with
  | nil => simp [changes]
  | cons read reads ih =>
      obtain ⟨s, w⟩ := read
      obtain ⟨first, rest⟩ := List.pairwise_cons.mp timed
      obtain ⟨order, same⟩ := first (s, w) List.mem_cons_self
      intro e member
      rw [changes] at member
      split at member
      · refine ih (List.pairwise_cons.mpr ⟨fun a inside => first a (by simp [inside]), ?_⟩) e member
        exact (List.pairwise_cons.mp rest).2
      · rename_i other
        have later : t < s := Nat.lt_of_le_of_ne order fun equal => other (same equal).symm
        rcases List.mem_cons.mp member with rfl | next
        · exact later
        · have inside := changes_subset w reads e next
          exact Nat.lt_of_lt_of_le later ((List.pairwise_cons.mp rest).1 e inside).1

/-- The last change is the value after the reads. -/
theorem changes_last (last : α) (reads : List (Nat × α)) :
    ((changes last reads).getLast?.map (·.2)).getD last = final last reads := by
  induction reads generalizing last with
  | nil => rfl
  | cons read reads ih =>
      obtain ⟨t, v⟩ := read
      rw [changes]
      split
      · rename_i same
        rw [ih, final, final, List.foldl_cons, same]
      · have after := ih v
        rw [List.getLast?_cons]
        cases known : (changes v reads).getLast? with
        | none => rw [known] at after; exact after
        | some e => rw [known] at after; exact after

/-- The changes of the reads, with entries after every read, all in order. -/
structure Extends (last : α) (reads entries : List (Nat × α)) : Prop where
  split : ∃ extra, entries = changes last reads ++ extra ∧
    ∀ e ∈ extra, ∀ read ∈ reads, read.1 < e.1
  forward : (entries.map (·.1)).Pairwise (· ≤ ·)

/-- A cursor among the entries of the reads to come, with others after them. -/
structure Follows (time : ε → Nat) (value : ε → α) (current : α) (entries : List ε)
    (reads : List (Nat × α)) : Prop where
  timed : Timed reads
  split : ∃ due extra, entries = due ++ extra ∧
    due.map (fun e => (time e, value e)) = changes current reads ∧
    ∀ e ∈ extra, ∀ read ∈ reads, read.1 < time e

variable {time : ε → Nat} {value : ε → α} {current : α} {entries : List ε}

/-- Entries at one time after every read. -/
theorem Extends.at_end (timed : Timed reads) (now : ∀ e ∈ more, e.1 = t)
    (after : ∀ read ∈ reads, read.1 < t) : Extends last reads (changes last reads ++ more) := by
  refine ⟨⟨more, rfl, fun e member read inside => ?_⟩, ?_⟩
  · rw [now e member]
    exact after read inside
  · rw [List.map_append]
    refine List.pairwise_append.mpr ⟨changes_forward last timed, ?_, fun a left b right => ?_⟩
    · refine List.pairwise_map.mpr (List.pairwise_of_forall_mem_list fun a left b right => ?_)
      exact Nat.le_of_eq ((now a left).trans (now b right).symm)
    · obtain ⟨x, inside, rfl⟩ := List.mem_map.mp left
      obtain ⟨y, beyond, rfl⟩ := List.mem_map.mp right
      rw [now y beyond]
      exact Nat.le_of_lt (after x (changes_subset last reads x inside))

theorem Extends.changes (timed : Timed reads) : Extends last reads (changes last reads) := by
  refine ⟨⟨[], (List.append_nil _).symm, fun e none => ?_⟩, changes_forward last timed⟩
  cases none

/-- One entry more, after the last. -/
theorem Extends.push {entries : List (Nat × α)} (extends_ : Extends last reads entries)
    (after : ∀ read ∈ reads, read.1 < t) (next : ∀ e ∈ entries.getLast?, e.1 ≤ t) (v : α) :
    Extends last reads (entries ++ [(t, v)]) := by
  obtain ⟨⟨extra, split, later⟩, forward⟩ := extends_
  refine ⟨⟨extra ++ [(t, v)], by rw [split, List.append_assoc], fun e member read inside => ?_⟩, ?_⟩
  · rcases List.mem_append.mp member with known | here
    · exact later e known read inside
    · rw [List.mem_singleton.mp here]
      exact after read inside
  · rw [List.map_append]
    refine List.pairwise_append.mpr ⟨forward, List.pairwise_singleton _ _, fun a left b right => ?_⟩
    rw [List.mem_singleton.mp right]
    rcases List.eq_nil_or_concat' entries with empty | ⟨before, e, split⟩
    · rw [empty] at left
      cases left
    · rw [split] at left forward next
      rw [List.map_append] at left forward
      have bound : e.1 ≤ t := next e List.getLast?_concat
      rcases List.mem_append.mp left with inside | here
      · exact Nat.le_trans ((List.pairwise_append.mp forward).2.2 a inside e.1 (by simp)) bound
      · rw [List.mem_singleton.mp here]
        exact bound

theorem Follows.of_extends (timed : Timed reads)
    (made : Extends current reads (entries.map fun e => (time e, value e))) :
    Follows time value current entries reads := by
  obtain ⟨⟨extra, split, after⟩, _⟩ := made
  obtain ⟨due, beyond, rfl, first, rfl⟩ := List.map_eq_append_iff.mp split
  exact ⟨timed, due, beyond, rfl, first,
    fun e member read inside => after _ (List.mem_map_of_mem member) read inside⟩

/-- At a read, the entry due is the one the read made, if it changed the value. -/
theorem Follows.next (follows : Follows time value current entries ((t, v) :: reads)) :
    (v = current ∧ (∀ e ∈ entries.head?, t < time e) ∧ Follows time value v entries reads) ∨
      ∃ e rest, entries = e :: rest ∧ time e = t ∧ value e = v ∧
        (∀ e ∈ rest.head?, t < time e) ∧ Follows time value v rest reads := by
  obtain ⟨timed, due, extra, rfl, made, after⟩ := follows
  have rest_timed := (List.pairwise_cons.mp timed).2
  have later : ∀ due' : List ε, due'.map (fun e => (time e, value e)) = changes v reads →
      ∀ e ∈ (due' ++ extra).head?, t < time e := by
    intro due' same e first
    rcases List.mem_append.mp (List.mem_of_mem_head? first) with inside | beyond
    · have made' : (time e, value e) ∈ changes v reads := by
        rw [← same]
        exact List.mem_map_of_mem inside
      exact changes_later timed _ made'
    · exact after e beyond (t, v) List.mem_cons_self
  rw [changes] at made
  split at made
  · rename_i same
    subst same
    exact .inl ⟨rfl, later due made, rest_timed, due, extra, rfl, made,
      fun e beyond read inside => after e beyond read (by simp [inside])⟩
  · cases due with
    | nil => cases made
    | cons e due =>
        obtain ⟨head, tail⟩ := List.cons.inj made
        obtain ⟨when, what⟩ := Prod.mk.inj head
        exact .inr ⟨e, due ++ extra, rfl, when, what, later due tail, rest_timed, due, extra, rfl,
          tail, fun e beyond read inside => after e beyond read (by simp [inside])⟩

/-- A read of the value read last leaves the cursor where it was. -/
theorem Follows.same (follows : Follows time value current entries ((t, current) :: reads)) :
    Follows time value current entries reads := by
  obtain ⟨timed, due, extra, rfl, made, after⟩ := follows
  rw [changes, if_pos rfl] at made
  exact ⟨(List.pairwise_cons.mp timed).2, due, extra, rfl, made,
    fun e beyond read inside => after e beyond read (by simp [inside])⟩

/-- One entry a read is enough. -/
theorem Follows.step (follows : Follows time value current entries ((t, v) :: reads)) :
    ((step_cursor time t entries).1.map value).getD current = v ∧
      Follows time value v (step_cursor time t entries).2 reads := by
  rcases follows.next with ⟨rfl, later, next⟩ | ⟨e, rest, rfl, rfl, rfl, _, next⟩
  · cases entries with
    | nil => exact ⟨rfl, next⟩
    | cons e rest =>
        have early : ¬ time e ≤ t := Nat.not_le.mpr (later e rfl)
        rw [step_cursor, if_neg early]
        exact ⟨rfl, next⟩
  · rw [step_cursor, if_pos (Nat.le_refl _)]
    exact ⟨rfl, next⟩

theorem advance_stop (at_ : Option ε) (later : ∀ e ∈ entries.head?, t < time e) :
    advance time t at_ entries = (at_, entries) := by
  cases entries with
  | nil => rfl
  | cons e rest => rw [advance, if_neg (Nat.not_le.mpr (later e rfl))]

/-- The entry in effect gives the value read. -/
theorem Follows.advance (follows : Follows time value current entries ((t, v) :: reads))
    {initial : α} {at_ : Option ε} (now : (at_.map value).getD initial = current) :
    ((Lib.advance time t at_ entries).1.map value).getD initial = v ∧
      Follows time value v (Lib.advance time t at_ entries).2 reads := by
  rcases follows.next with ⟨rfl, later, next⟩ | ⟨e, rest, rfl, rfl, rfl, later, next⟩
  · rw [advance_stop at_ later]
    exact ⟨now, next⟩
  · rw [Lib.advance, if_pos (Nat.le_refl _), advance_stop (some e) later]
    exact ⟨rfl, next⟩

end Changes

/-! The first value of each time, given to every read at that time. -/

section Latch

variable {α : Type}

def latch (latched : Option (Nat × α)) (t : Nat) (live : α) : α :=
  match latched with
  | some (s, v) => if s = t then v else live
  | none => live

/-- What reads give, from what is true at each. -/
def latch_reads : Option (Nat × α) → List (Nat × α) → List (Nat × α)
  | _, [] => []
  | latched, (t, live) :: samples =>
      (t, latch latched t live) :: latch_reads (some (t, latch latched t live)) samples

/-- What a read gives was true at a read of its time. -/
theorem latch_reads_subset (latched : Option (Nat × α)) (samples : List (Nat × α)) :
    ∀ read ∈ latch_reads latched samples, read ∈ samples ∨ latched = some read := by
  induction samples generalizing latched with
  | nil => exact fun _ member => absurd member List.not_mem_nil
  | cons sample samples ih =>
      obtain ⟨t, live⟩ := sample
      have first : (t, latch latched t live) = (t, live) ∨ latched = some (t, latch latched t live) := by
        cases latched with
        | none => exact .inl rfl
        | some known =>
            obtain ⟨s, v⟩ := known
            dsimp only [latch]
            split
            · rename_i same
              exact .inr (by rw [same])
            · exact .inl rfl
      intro read member
      rcases List.mem_cons.mp member with rfl | later
      · rcases first with same | same
        · exact .inl (by rw [same]; exact List.mem_cons_self)
        · exact .inr same
      · rcases ih _ read later with inside | same
        · exact .inl (List.mem_cons_of_mem _ inside)
        · rw [← Option.some.inj same]
          rcases first with same | same
          · exact .inl (by rw [same]; exact List.mem_cons_self)
          · exact .inr same

theorem latch_reads_times (latched : Option (Nat × α)) (samples : List (Nat × α)) :
    (latch_reads latched samples).map (·.1) = samples.map (·.1) := by
  induction samples generalizing latched with
  | nil => rfl
  | cons sample samples ih => rw [latch_reads, List.map_cons, List.map_cons, ih]

theorem latch_reads_after {t : Nat} {v : α} {samples : List (Nat × α)}
    (forward : (samples.map (·.1)).Pairwise (· ≤ ·)) (after : ∀ s ∈ samples, t ≤ s.1) :
    ∀ read ∈ latch_reads (some (t, v)) samples, t ≤ read.1 ∧ (t = read.1 → v = read.2) := by
  induction samples generalizing t v with
  | nil => exact fun _ member => absurd member List.not_mem_nil
  | cons sample samples ih =>
      obtain ⟨s, live⟩ := sample
      obtain ⟨first, rest⟩ := List.pairwise_cons.mp forward
      have here : t ≤ s := after (s, live) List.mem_cons_self
      have later := ih (v := latch (some (t, v)) s live) rest
        fun a member => first a.1 (List.mem_map_of_mem member)
      intro read member
      rcases List.mem_cons.mp member with rfl | inside
      · refine ⟨here, fun same => ?_⟩
        exact (if_pos same).symm
      · obtain ⟨order, same⟩ := later read inside
        refine ⟨Nat.le_trans here order, fun equal => ?_⟩
        have now : t = s := Nat.le_antisymm here (equal ▸ order)
        rw [← same (now.symm.trans equal)]
        exact (if_pos now).symm

theorem latch_reads_timed {latched : Option (Nat × α)} {samples : List (Nat × α)}
    (forward : (samples.map (·.1)).Pairwise (· ≤ ·)) : Timed (latch_reads latched samples) := by
  induction samples generalizing latched with
  | nil => exact .nil
  | cons sample samples ih =>
      obtain ⟨first, rest⟩ := List.pairwise_cons.mp forward
      exact List.pairwise_cons.mpr
        ⟨latch_reads_after rest fun a member => first a.1 (List.mem_map_of_mem member), ih rest⟩

end Latch

/-! Entries handed out when due. -/

section Due

variable {ε : Type} {time : ε → Nat}

/-- What each time hands out. -/
def deliver (time : ε → Nat) : List Nat → List ε → List (Nat × ε)
  | [], _ => []
  | t :: times, entries =>
      (take_due time t entries).1.map (fun e => (t, e)) ++
        deliver time times (take_due time t entries).2

/-- Entries made at the times, in order, are handed out once each, at the time
each was made. -/
theorem deliver_all {times : List Nat} (forward : times.Pairwise (· ≤ ·)) {entries : List ε}
    (order : entries.Pairwise fun a b => time a ≤ time b) (made : ∀ e ∈ entries, time e ∈ times) :
    deliver time times entries = entries.map fun e => (time e, e) := by
  induction times generalizing entries with
  | nil =>
      cases entries with
      | nil => rfl
      | cons e entries => cases made e List.mem_cons_self
  | cons t times ih =>
      obtain ⟨first, rest⟩ := List.pairwise_cons.mp forward
      have none_early : ∀ e ∈ entries, t ≤ time e := by
        intro e member
        rcases List.mem_cons.mp (made e member) with same | later
        · exact Nat.le_of_eq same.symm
        · exact first _ later
      have taken : (take_due time t entries).1.map (fun e => (t, e)) ++
          deliver time times (take_due time t entries).2 = entries.map fun e => (time e, e) := by
        induction entries with
        | nil => exact ih rest .nil fun e member => absurd member List.not_mem_nil
        | cons e entries again =>
            obtain ⟨head, tail⟩ := List.pairwise_cons.mp order
            rw [take_due]
            split
            · rename_i due
              have now : time e = t := Nat.le_antisymm due (none_early e List.mem_cons_self)
              rw [List.map_cons, List.map_cons, List.cons_append, now,
                again tail (fun d member => made d (by simp [member]))
                  fun d member => none_early d (by simp [member])]
            · rename_i not_due
              refine ih rest order fun d member => ?_
              rcases List.mem_cons.mp (made d member) with same | later
              · rcases List.mem_cons.mp member with rfl | inside
                · exact absurd (Nat.le_of_eq same) not_due
                · exact absurd (Nat.le_trans (head d inside) (Nat.le_of_eq same)) not_due
              · exact later
      exact taken

end Due

end SoaPort.Lib
