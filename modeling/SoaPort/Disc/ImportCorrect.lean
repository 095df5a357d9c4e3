import SoaPort.Disc.Import

namespace SoaPort.Disc.Import

open Lib

/-! What a copy leaves: the whole file when it says so, and else no .tmp of its own. -/

section Correct

variable {c : ImportCopy} {o : Os c}

/-! Short writes. -/

theorem put_whole {ws ws' : List Write} {b wrote : List Byte} {failed : Option String}
    (ran : put ws b = some (failed, wrote, ws')) (fine : failed = none) : wrote = b := by
  induction ws generalizing b wrote with
  | nil =>
      rw [put] at ran
      split at ran
      · rename_i empty
        cases ran
        exact empty.symm
      · cases ran
  | cons w ws ih =>
      unfold put at ran
      split at ran
      · rename_i empty
        cases ran
        exact empty.symm
      · cases w with
        | interrupted => exact ih ran
        | failed errno =>
            cases ran
            cases fine
        | zero eio =>
            cases ran
            cases fine
        | gave k =>
            obtain ⟨⟨e, later, left⟩, went, made⟩ := Option.map_eq_some_iff.mp ran
            cases made
            rw [ih went]
            exact List.take_append_drop _ _

/-! What asking and waiting leave alone. -/

/-- The same copy but for its clock, its questions and the stream's place. -/
structure Same (s s' : Copying) : Prop where
  fs : s'.fs = s.fs
  touched : s'.touched = s.touched
  done : s'.done = s.done
  made : s'.made = s.made
  peeked : s'.peeked = s.peeked
  peeks : s'.peeks = s.peeks

theorem Same.refl (s : Copying) : Same s s := ⟨rfl, rfl, rfl, rfl, rfl, rfl⟩

theorem Same.trans {s t u : Copying} (first : Same s t) (second : Same t u) : Same s u where
  fs := second.fs.trans first.fs
  touched := second.touched.trans first.touched
  done := second.done.trans first.done
  made := second.made.trans first.made
  peeked := second.peeked.trans first.peeked
  peeks := second.peeks.trans first.peeks

theorem stop_same (s : Copying) (now : Bool) :
    Same s (stop c o s now).2 ∧ (stop c o s now).2.pos = s.pos := by
  unfold stop
  dsimp only
  split
  · exact ⟨⟨rfl, rfl, rfl, rfl, rfl, rfl⟩, rfl⟩
  · split <;> exact ⟨⟨rfl, rfl, rfl, rfl, rfl, rfl⟩, rfl⟩

/-- Where a read begins. -/
def place (o : Os c) (s : Copying) : Nat := if o.kind = .IMPORT_FILE then s.done else s.pos

/-- A read gives the bytes at its place, none only at the end, and a stream moves past them. -/
structure Took (o : Os c) (s s' : Copying) (b : List Byte) : Prop where
  next : b <+: o.content.drop (place o s)
  pos : o.kind ≠ .IMPORT_FILE → s'.pos = s.pos + b.length
  ends : b = [] → o.content.length ≤ place o s

theorem take_took {want : Nat} (some_want : 0 < want) (answer : Answer) (waits : List Wait)
    (s : Copying) :
    Same s (take c o want answer waits s).2 ∧
      ∀ b, (take c o want answer waits s).1 = .bytes b →
        Took o s (take c o want answer waits s).2 b := by
  induction waits generalizing s with
  | nil =>
      cases answer with
      | failed errno => exact ⟨Same.refl s, fun b read => by cases read⟩
      | gave k =>
          have ends : ∀ {from_ : Nat}, (o.content.drop from_).take (min want (k + 1)) = [] →
              o.content.length ≤ from_ := by
            intro from_ none_
            rcases List.take_eq_nil_iff.mp none_ with zero | empty
            · omega
            · exact List.drop_eq_nil_iff.mp empty
          rw [take]
          dsimp only
          split
          · rename_i file
            refine ⟨Same.refl s, fun b read => ?_⟩
            cases read
            refine ⟨?_, fun stream => absurd file stream, fun none_ => ?_⟩
            · rw [place, if_pos file]
              exact List.take_prefix _ _
            · rw [place, if_pos file]
              exact ends none_
          · rename_i stream
            refine ⟨⟨rfl, rfl, rfl, rfl, rfl, rfl⟩, fun b read => ?_⟩
            cases read
            refine ⟨?_, fun _ => rfl, fun none_ => ?_⟩
            · rw [place, if_neg stream]
              exact List.take_prefix _ _
            · rw [place, if_neg stream]
              exact ends none_
  | cons wait waits ih =>
      cases wait with
      | poll_interrupted => exact ih s
      | interrupted => exact ih s
      | silent =>
          rw [take]
          split
          · exact ih s
          · obtain ⟨same, pos⟩ := stop_same (o := o) s true
            cases asked : stop c o s true with
            | mk stopped s' =>
                rw [asked] at same pos
                cases stopped with
                | true => exact ⟨same, fun b read => by cases read⟩
                | false =>
                    obtain ⟨later, took⟩ := ih s'
                    refine ⟨same.trans later, fun b read => ?_⟩
                    have there := took b read
                    have same_place : place o s' = place o s := by
                      rw [place, place, same.done, pos]
                    refine ⟨?_, fun stream => ?_, fun none_ => ?_⟩
                    · rw [← same_place]
                      exact there.next
                    · rw [← pos]
                      exact there.pos stream
                    · rw [← same_place]
                      exact there.ends none_

theorem want_some (s : Copying) : 0 < want c s := by
  have step : 0 < STEP := by decide
  unfold want
  extract_lets full short
  have some_short : 0 < short := by
    unfold short
    split
    · rename_i before
      simp only [Bool.and_eq_true, decide_eq_true_eq] at before
      omega
    · exact step
  split
  · omega
  · exact some_short

/-! The .tmp, as the copy goes. -/

/-- The copy changes its .tmp alone. -/
structure Apart (c : ImportCopy) (fs : Folder) (s : Copying) : Prop where
  others : ∀ path, path ≠ tmp_path c → s.fs path = fs path
  touched : ∀ path ∈ s.touched, path = tmp_path c

/-- The .tmp holds the descriptor's first `done` bytes, and was shown to `peek` at most once. -/
structure Holding (o : Os c) (fs : Folder) (s : Copying) : Prop extends Apart c fs s where
  made : s.made = true
  tmp : s.fs (tmp_path c) = some ⟨o.content.take s.done, 0o600⟩
  inside : s.done ≤ o.content.length
  under : s.done ≤ c.limit
  held : held_to c ≥ 0 → (s.done : Int) ≤ held_to c
  unpeeked : s.peeked = false → s.peeks = []
  accepted : s.peeked = true → c.peek.isSome → ∃ n, s.peeks = [⟨o.content.take n, n, none⟩]

variable {fs : Folder} {s s' : Copying}

theorem Apart.same (apart : Apart c fs s) (same : Same s s') : Apart c fs s' where
  others path other := by rw [same.fs]; exact apart.others path other
  touched path changed := apart.touched path (by rw [← same.touched]; exact changed)

theorem Holding.same (holding : Holding o fs s) (same : Same s s') : Holding o fs s' where
  toApart := holding.toApart.same same
  made := same.made.trans holding.made
  tmp := by rw [same.fs, same.done]; exact holding.tmp
  inside := by rw [same.done]; exact holding.inside
  under := by rw [same.done]; exact holding.under
  held := by rw [same.done]; exact holding.held
  unpeeked := by rw [same.peeked, same.peeks]; exact holding.unpeeked
  accepted := by rw [same.peeked, same.peeks]; exact holding.accepted

/-- A change at the .tmp alone. -/
theorem Apart.change (apart : Apart c fs s) (file : Option File)
    (fs_eq : s'.fs = Function.update s.fs (tmp_path c) file)
    (touched_eq : s'.touched = s.touched ++ [tmp_path c]) : Apart c fs s' where
  others path other := by
    rw [fs_eq, Function.update_of_ne other]
    exact apart.others path other
  touched path changed := by
    rw [touched_eq, List.mem_append, List.mem_singleton] at changed
    rcases changed with before | here
    · exact apart.touched path before
    · exact here

/-- A peek sees the bytes there are. -/
theorem look_eq (holding : Holding o fs s) (unpeeked : s.peeked = false) :
    ∃ answer, look c s = (answer, { s with
      peeked := true, peeks := [⟨o.content.take s.done, s.done, answer⟩] }) := by
  unfold look
  rw [holding.tmp, holding.unpeeked unpeeked]
  exact ⟨_, rfl⟩

theorem look_apart (apart : Apart c fs s) : Apart c fs (look c s).2 := ⟨apart.1, apart.2⟩

theorem look_holding (holding : Holding o fs s) (unpeeked : s.peeked = false)
    (went : (look c s).1 = none) : Holding o fs (look c s).2 := by
  obtain ⟨answer, shown⟩ := look_eq holding unpeeked
  rw [shown] at went ⊢
  dsimp only at went
  subst went
  exact {
    toApart := ⟨holding.others, holding.touched⟩
    made := holding.made
    tmp := holding.tmp
    inside := holding.inside
    under := holding.under
    held := holding.held
    unpeeked := fun no => by cases no
    accepted := fun _ _ => ⟨s.done, rfl⟩ }

/-- The peek, where it is due. -/
theorem look_due (holding : Holding o fs s) {due : Bool} (first : due = true → s.peeked = false)
    {said : Option String} (looked : (if due then look c s else (none, s)) = (said, s')) :
    s'.pos = s.pos ∧ s'.done = s.done ∧ s'.made = true ∧ Apart c fs s' ∧
      (said = none → Holding o fs s') := by
  cases due with
  | false =>
      cases looked
      exact ⟨rfl, rfl, holding.made, holding.toApart, fun _ => holding⟩
  | true =>
      rw [if_pos rfl] at looked
      have apart := look_apart holding.toApart
      have went := look_holding holding (first rfl)
      have still : (look c s).2.pos = s.pos ∧ (look c s).2.done = s.done ∧
          (look c s).2.made = s.made := ⟨rfl, rfl, rfl⟩
      rw [looked] at apart went still
      exact ⟨still.1, still.2.1, still.2.2.trans holding.made, apart, went⟩

theorem room_left_same (s : Copying) :
    Same s (room_left c o s).2 ∧ (room_left c o s).2.pos = s.pos := by
  unfold room_left
  dsimp only
  split
  · split
    · exact ⟨⟨rfl, rfl, rfl, rfl, rfl, rfl⟩, rfl⟩
    · split <;> exact ⟨⟨rfl, rfl, rfl, rfl, rfl, rfl⟩, rfl⟩
  · exact ⟨Same.refl s, rfl⟩

/-- The next bytes appended. -/
theorem append_holding (holding : Holding o fs s) {bytes : List Byte}
    (next : bytes <+: o.content.drop s.done) (under : s.done + bytes.length ≤ c.limit)
    (held : held_to c ≥ 0 → (s.done + bytes.length : Int) ≤ held_to c) (writes : List Write) :
    Holding o fs { s with
      fs := Folder.append s.fs (tmp_path c) bytes
      touched := s.touched ++ [tmp_path c]
      writes
      done := s.done + bytes.length } where
  toApart := holding.toApart.change _ rfl rfl
  made := holding.made
  tmp := by
    obtain ⟨rest, split⟩ := next
    change Function.update _ _ _ _ = _
    rw [Function.update_self, holding.tmp, List.take_add, ← split, List.take_left]
    rfl
  inside := by
    have short := next.length_le
    have inside := holding.inside
    rw [List.length_drop] at short
    change s.done + bytes.length ≤ _
    omega
  under := under
  held := by
    intro given
    have small := held given
    change ((s.done + bytes.length : Nat) : Int) ≤ _
    omega
  unpeeked := holding.unpeeked
  accepted := holding.accepted

/-- After some bytes: they all follow those there were, or the copy is left. -/
def After (o : Os c) (fs : Folder) (s : Copying) (bytes : List Byte) :
    Option Leave → Copying → Prop
  | none, s' => Holding o fs s' ∧ s'.pos = s.pos ∧ s'.done = s.done + bytes.length
  | some leave, s' => Apart c fs s' ∧ s'.made = true ∧ leave ≠ .at_end

theorem after_put_after {t : Copying} (holding : Holding o fs t) {bytes : List Byte}
    (pos : t.pos = s.pos) (done : t.done = s.done + bytes.length) :
    After o fs s bytes (after_put c o t).1 (after_put c o t).2 := by
  unfold after_put
  cases looked : (if (!t.peeked && decide (t.done ≥ c.peek_at)) = true then look c t
      else (none, t)) with
  | mk said u =>
      obtain ⟨pos_u, done_u, made_u, apart_u, went⟩ := look_due holding (by simp +contextual) looked
      cases said with
      | some said => exact ⟨apart_u, made_u, by simp⟩
      | none =>
          obtain ⟨same, pos'⟩ := stop_same (o := o) u false
          have holding' := (went rfl).same same
          dsimp only
          cases asked : stop c o u false with
          | mk stopped s' =>
              rw [asked] at same pos' holding'
              cases stopped with
              | true => exact ⟨holding'.toApart, holding'.made, by simp⟩
              | false =>
                  exact ⟨holding', pos'.trans (pos_u.trans pos),
                    same.done.trans (done_u.trans done)⟩

theorem copy_bytes_after (holding : Holding o fs s) {bytes : List Byte}
    (next : bytes <+: o.content.drop s.done) {left : Option Leave}
    (ran : copy_bytes c o s bytes = some (left, s')) : After o fs s bytes left s' := by
  unfold copy_bytes at ran
  split at ran
  · cases ran
    exact ⟨holding.toApart, holding.made, by simp⟩
  rename_i under
  split at ran
  · cases ran
    exact ⟨holding.toApart, holding.made, by simp⟩
  rename_i fits
  obtain ⟨same, pos⟩ := room_left_same (o := o) s
  cases room : room_left c o s with
  | mk full s₁ =>
      rw [room] at ran same pos
      dsimp only at same pos
      have holding₁ := holding.same same
      cases full with
      | some why =>
          cases ran
          exact ⟨holding₁.toApart, holding₁.made, by simp⟩
      | none =>
          obtain ⟨⟨failed, wrote, writes⟩, put_eq, made⟩ := Option.map_eq_some_iff.mp ran
          cases failed with
          | some errno =>
              cases made
              exact ⟨holding₁.toApart.change _ rfl rfl, holding₁.made, by simp⟩
          | none =>
              have whole := put_whole put_eq rfl
              subst whole
              have next₁ : wrote <+: o.content.drop s₁.done := by rwa [same.done]
              have appended := append_holding holding₁ next₁ (by rw [same.done]; omega)
                (fun given => by rw [same.done]; omega) writes
              have after := after_put_after (s := s) appended pos
                (show s₁.done + wrote.length = _ by rw [same.done])
              rw [show after_put c o _ = (left, s') from made] at after
              exact after

/-! The reads. -/

/-- How the loop leaves the copy. -/
structure Left (o : Os c) (fs : Folder) (leave : Leave) (s : Copying) : Prop
    extends Apart c fs s where
  made : s.made = true
  ended : leave = .at_end → Holding o fs s ∧ s.done = o.content.length

theorem copy_loop_left (holding : Holding o fs s) (pos : o.kind ≠ .IMPORT_FILE → s.pos = s.done)
    {reads : List Read} {leave : Leave} (ran : copy_loop c o reads s = some (leave, s')) :
    Left o fs leave s' := by
  induction reads generalizing s with
  | nil => cases ran
  | cons read reads ih =>
      rw [copy_loop] at ran
      obtain ⟨same, took⟩ := take_took (o := o) (want_some s) read.answer read.waits s
      have here : place o s = s.done := by
        unfold place
        split
        · rfl
        · rename_i stream
          exact pos stream
      cases asked : take c o (want c s) read.answer read.waits s with
      | mk taken s₁ =>
          rw [asked] at ran same took
          have holding₁ := holding.same same
          cases taken with
          | cancelled =>
              cases ran
              exact ⟨holding₁.toApart, holding₁.made, fun other => by cases other⟩
          | failed errno =>
              cases ran
              exact ⟨holding₁.toApart, holding₁.made, fun other => by cases other⟩
          | bytes b =>
              have read_ := took b rfl
              have next := read_.next
              rw [here, ← same.done] at next
              cases b with
              | nil =>
                  cases ran
                  refine ⟨holding₁.toApart, holding₁.made, fun _ => ⟨holding₁, ?_⟩⟩
                  have ends := read_.ends rfl
                  rw [here, ← same.done] at ends
                  exact Nat.le_antisymm holding₁.inside ends
              | cons first rest =>
                  dsimp only at ran
                  cases step : copy_bytes c o s₁ (first :: rest) with
                  | none =>
                      rw [step] at ran
                      cases ran
                  | some went =>
                      obtain ⟨left, s₂⟩ := went
                      rw [step] at ran
                      have after := copy_bytes_after holding₁ next step
                      cases left with
                      | some gone =>
                          cases ran
                          exact ⟨after.1, after.2.1, fun other => absurd other after.2.2⟩
                      | none =>
                          obtain ⟨holding₂, pos₂, done₂⟩ := after
                          refine ih holding₂ (fun stream => ?_) ran
                          rw [pos₂, done₂, read_.pos stream, same.done, pos stream]

/-- From an empty .tmp, the head is its first bytes. -/
theorem copy_all_left (holding : Holding o fs s) (none_ : s.done = 0)
    (pos : s.pos = c.head.length) {reads : List Read} {leave : Leave}
    (ran : copy_all c o reads s = some (leave, s')) : Left o fs leave s' := by
  unfold copy_all at ran
  split at ran
  · rename_i empty
    refine copy_loop_left holding (fun _ => ?_) ran
    rw [pos, empty, none_]
    rfl
  · have next : c.head <+: o.content.drop s.done := by
      rw [none_, List.drop_zero]
      exact o.taken
    cases step : copy_bytes c o s c.head with
    | none =>
        rw [step] at ran
        cases ran
    | some went =>
        obtain ⟨left, s₁⟩ := went
        rw [step] at ran
        have after := copy_bytes_after holding next step
        cases left with
        | some gone =>
            cases ran
            exact ⟨after.1, after.2.1, fun other => absurd other after.2.2⟩
        | none =>
            obtain ⟨holding₁, pos₁, done₁⟩ := after
            refine copy_loop_left holding₁ (fun _ => ?_) ran
            rw [pos₁, done₁, pos, none_, Nat.zero_add]

/-! What is left. -/

/-- A copy said to be made is the descriptor's bytes whole, within the limit and of the size
held to, and was accepted by its one peek; any other leaves no .tmp it made. -/
structure Right (o : Os c) (fs : Folder) (result : Result) (s : Copying) : Prop
    extends Apart c fs s where
  whole : ∀ copied, result = .IMPORT_OK copied →
    s.fs (tmp_path c) = some ⟨o.content, 0o444⟩ ∧ copied = o.content.length ∧
      o.content.length ≤ c.limit ∧
      (held_to c ≥ 0 → (o.content.length : Int) = held_to c) ∧
      (c.peek.isSome → ∃ n, s.peeks = [⟨o.content.take n, n, none⟩])
  gone : (∀ copied, result ≠ .IMPORT_OK copied) → s.made = true → s.fs (tmp_path c) = none
  final : s.fs (final_path c) = fs (final_path c) ∧ final_path c ∉ s.touched

theorem final_apart : final_path c ≠ tmp_path c := by
  intro same
  have length := congrArg String.length same
  rw [tmp_path, String.length_append] at length
  have suffix : ".tmp".length = 4 := rfl
  omega

theorem Apart.final (apart : Apart c fs s) :
    s.fs (final_path c) = fs (final_path c) ∧ final_path c ∉ s.touched :=
  ⟨apart.others _ final_apart, fun changed => final_apart (apart.touched _ changed)⟩

theorem fail_right (apart : Apart c fs s) {result : Result}
    (failed : ∀ copied, result ≠ .IMPORT_OK copied) :
    Right o fs (fail c s result).1 (fail c s result).2 := by
  have after : Apart c fs (fail c s result).2 := by
    unfold fail
    dsimp only
    split
    · exact apart.change none rfl rfl
    · exact apart
  refine ⟨after, fun copied said => absurd said (failed copied), fun _ made => ?_, after.final⟩
  unfold fail at made ⊢
  dsimp only at made ⊢
  split at made
  · rw [if_pos ‹_›]
    exact Function.update_self _ _ _
  · rename_i unmade
    exact absurd made unmade

theorem refuse_right (apart : Apart c fs s) (why : String) :
    Right o fs (refuse c s why).1 (refuse c s why).2 :=
  fail_right apart (by simp)

theorem finish_right (holding : Holding o fs s) (ended : s.done = o.content.length) :
    Right o fs (finish c o s).1 (finish c o s).2 := by
  unfold finish
  split
  · exact refuse_right holding.toApart _
  rename_i full
  cases looked : (if (!s.peeked) = true then look c s else (none, s)) with
  | mk said t =>
      obtain ⟨_, done, made, apart, went⟩ := look_due holding (by simp) looked
      cases said with
      | some said => exact refuse_right apart _
      | none =>
          dsimp only
          split
          · exact refuse_right apart _
          split
          · exact refuse_right apart _
          have moded : Apart c fs (t.chmod (tmp_path c) 0o444) := apart.change _ rfl rfl
          split
          · exact refuse_right moded _
          have holding' := went rfl
          have seen : t.peeked = true := by
            rw [show t = (if (!s.peeked) = true then look c s else (none, s)).2 by rw [looked]]
            split
            · rfl
            · rename_i before
              simpa using before
          refine ⟨moded, fun copied said => ?_, fun failed => absurd rfl (failed _), moded.final⟩
          cases said
          refine ⟨?_, done.trans ended, ?_, fun given => ?_, fun some_ => ?_⟩
          · change Function.update _ _ _ _ = _
            rw [Function.update_self, holding'.tmp, done, ended, List.take_length]
            rfl
          · rw [← ended]
            exact holding.under
          · have held := holding.held given
            omega
          · exact holding'.accepted seen some_

theorem leave_right {left : Leave} (was : Left o fs left s) :
    Right o fs (leave c o s left).1 (leave c o s left).2 := by
  cases left with
  | at_end =>
      obtain ⟨holding, ended⟩ := was.ended rfl
      exact finish_right holding ended
  | refused why => exact refuse_right was.toApart why
  | peek_refused said => exact refuse_right was.toApart _
  | cancelled => exact fail_right was.toApart (by simp)

theorem start_apart (writes : List Write) : Apart c fs (start c fs writes) where
  others path _ := rfl
  touched path changed := by cases changed

theorem create_apart (writes : List Write) : Apart c fs (create c o (start c fs writes)).2 := by
  have start_ : Apart c fs (start c fs writes) := start_apart writes
  unfold create
  split
  · exact start_
  · exact start_.change none rfl rfl
  · refine start_.change (some ⟨[], 0o600⟩) ?_ rfl
    exact Function.update_idem _ _ _

/-- The .tmp just made holds nothing yet. -/
theorem create_holding {writes : List Write}
    (made : (create c o (start c fs writes)).1 = none) :
    Holding o fs (create c o (start c fs writes)).2 ∧
      (create c o (start c fs writes)).2.done = 0 ∧
      (create c o (start c fs writes)).2.pos = c.head.length := by
  have apart : Apart c fs (create c o (start c fs writes)).2 := create_apart writes
  unfold create at made apart ⊢
  cases how : o.create with
  | unlink_failed errno =>
      rw [how] at made
      cases made
  | open_failed errno =>
      rw [how] at made
      cases made
  | made =>
    rw [how] at apart
    refine ⟨?_, rfl, rfl⟩
    exact {
      toApart := apart
      made := rfl
      tmp := Function.update_self _ _ _
      inside := Nat.zero_le _
      under := Nat.zero_le _
      held := fun given => given
      unpeeked := fun _ => rfl
      accepted := fun none_ some_ => by
        change c.peek.isNone = true at none_
        rw [Option.isNone_iff_eq_none.mp none_] at some_
        cases some_ }

end Correct

/-- For every answer of the system, a copy that says it was made holds exactly the descriptor's
bytes, was peeked at once and accepted; on any other result its .tmp is gone, and nothing but
the .tmp was ever touched. -/
theorem import_copy_right (c : ImportCopy) (o : Os c) (fs : Folder) (reads : List Read)
    (writes : List Write) :
    match import_copy c o fs reads writes with
    | none => True
    | some (result, s) => Right o fs result s := by
  have apart : Apart c fs (start c fs writes) := start_apart writes
  unfold import_copy
  dsimp only
  split
  · trivial
  rename_i result s ran
  split at ran
  · cases ran
    exact refuse_right apart _
  split at ran
  · cases ran
    exact refuse_right apart _
  split at ran
  · cases ran
    exact refuse_right apart _
  split at ran
  · cases ran
    exact refuse_right apart _
  split at ran
  · cases ran
    exact refuse_right apart _
  split at ran
  · cases ran
    exact refuse_right apart _
  have apart_made : Apart c fs (create c o (start c fs writes)).2 := create_apart writes
  have held := @create_holding c o fs writes
  cases made : create c o (start c fs writes) with
  | mk failed s₁ =>
      rw [made] at ran apart_made held
      cases failed with
      | some errno =>
          cases ran
          exact refuse_right apart_made _
      | none =>
          obtain ⟨holding, none_, pos⟩ := held rfl
          dsimp only at ran holding none_ pos
          split at ran
          · cases ran
            exact refuse_right holding.toApart _
          obtain ⟨same, pos₂⟩ := stop_same (o := o) s₁ true
          cases asked : stop c o s₁ true with
          | mk stopped s₂ =>
              rw [asked] at ran same pos₂
              have holding₂ := holding.same same
              cases stopped with
              | true =>
                  cases ran
                  exact fail_right holding₂.toApart (by simp)
              | false =>
                  obtain ⟨⟨left, s₃⟩, went, left_eq⟩ := Option.map_eq_some_iff.mp ran
                  have was := copy_all_left holding₂ (same.done.trans none_) (pos₂.trans pos) went
                  have right := leave_right was
                  dsimp only at left_eq
                  rw [left_eq] at right
                  exact right

end SoaPort.Disc.Import
