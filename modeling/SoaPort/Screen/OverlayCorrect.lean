import SoaPort.Screen.Overlay
import SoaPort.Lib.TripleBuffer
import Mathlib.Data.List.Forall2

namespace SoaPort.Screen

open SoaPort.Lib

/-! The hand-over as a triple buffer of lists. -/

/-- The list published last into the shared word; frame 1 counts as an empty one. -/
def newest (t : TripleBuffer (List Shown)) : List Shown := t.published.getLast?.getD []

/-- Each side's frame is the buffer's slot for it, and a slot that holds a list has it. -/
structure Slots (o : Overlay) (t : TripleBuffer (List Shown)) : Prop where
  run : Relation.ReflTransGen TripleBuffer.Step .start t
  back : o.g_back = t.back
  shared : o.g_shared = t.word
  front : o.g_front = t.front
  holds : ∀ i l, t.holds i = some l → (o.g_frame i).list = l
  untaken : t.published = [] → (o.g_frame t.front).n = 0

/-- The lists published end with the newest, and its length is kept to the next. -/
structure Handed (s : State) (t : TripleBuffer (List Shown)) : Prop where
  latest : s.log.lists.getLast? = some (newest t)
  last_n : s.o.guest ≠ .hand → s.o.g_last_n = (newest t).length

/-- What was seen are lists published, `at_` their places in order, each no older than the
newest when it was taken; the frame being drawn is the list at `f`. -/
structure Shows (s : State) (at_ : List Nat) (f : Nat) : Prop where
  seen : List.Forall₂ (fun i v => s.log.lists[i]? = some v.items ∧ v.began ≤ i + 1) at_ s.log.seen
  order : at_.Pairwise (· ≤ ·)
  before : ∀ i ∈ at_, i ≤ f
  front : s.log.lists[f]? = some (s.o.g_frame s.o.g_front).list

/-- What the window thread knows at its place. -/
def Watches (s : State) (t : TripleBuffer (List Shown)) : Window → Prop
  | .out => True
  | .fresh => t.fresh = true ∧ s.log.began ≤ s.log.lists.length
  | .draw i =>
      i ≤ (s.o.g_frame s.o.g_front).n ∧
        s.log.items = (List.range i).map (s.o.g_frame s.o.g_front).shown

structure Hand (s : State) (t : TripleBuffer (List Shown)) (at_ : List Nat) (f : Nat) : Prop where
  slots : Slots s.o t
  handed : Handed s t
  shows_ : Shows s at_ f
  watches : Watches s t s.o.window

section Hand

variable {s : State} {t : TripleBuffer (List Shown)} {at_ : List Nat} {f : Nat}

theorem Slots.valid {o : Overlay} (slots : Slots o t) : t.Valid :=
  TripleBuffer.run_valid slots.run TripleBuffer.start_valid

theorem Slots.settled {o : Overlay} (slots : Slots o t) : t.Settled :=
  TripleBuffer.run_settled slots.run fun _ some_ => absurd rfl some_

theorem Slots.look {o : Overlay} (slots : Slots o t) (w : Window) :
    Slots { o with window := w } t :=
  ⟨slots.run, slots.back, slots.shared, slots.front, slots.holds, slots.untaken⟩

theorem Handed.look (handed : Handed s t) (w : Window) {log : Log}
    (lists : log.lists = s.log.lists) : Handed ⟨{ s.o with window := w }, log⟩ t :=
  ⟨lists ▸ handed.latest, handed.last_n⟩

theorem Shows.look (shows_ : Shows s at_ f) (w : Window) {log : Log}
    (lists : log.lists = s.log.lists) (seen : log.seen = s.log.seen) :
    Shows ⟨{ s.o with window := w }, log⟩ at_ f := by
  refine ⟨?_, shows_.order, shows_.before, ?_⟩
  · rw [lists, seen]
    exact shows_.seen
  · rw [lists]
    exact shows_.front

/-- A change `F` to the frame being built, alone. -/
structure Builds (F : Frame → Frame) (o o' : Overlay) : Prop where
  self : o'.g_frame o.g_back = F (o.g_frame o.g_back)
  other : ∀ i, i ≠ o.g_back → o'.g_frame i = o.g_frame i
  back : o'.g_back = o.g_back
  shared : o'.g_shared = o.g_shared
  front : o'.g_front = o.g_front
  window : o'.window = o.window

/-- The frame being built is nobody else's. -/
theorem Hand.build (hand : Hand s t at_ f) {F : Frame → Frame} {s' : State}
    (builds : Builds F s.o s'.o)
    (lists : s'.log.lists = s.log.lists) (seen : s'.log.seen = s.log.seen)
    (began : s'.log.began = s.log.began) (items : s'.log.items = s.log.items)
    (last_n : s'.o.guest ≠ .hand → s'.o.g_last_n = (newest t).length) :
    Hand s' t.begin_ at_ f := by
  have valid := hand.slots.valid
  have apart : s.o.g_front ≠ s.o.g_back := by
    rw [hand.slots.front, hand.slots.back]
    exact valid.back_front.symm
  have drawn : s'.o.g_frame s'.o.g_front = s.o.g_frame s.o.g_front := by
    rw [builds.front]
    exact builds.other _ apart
  refine ⟨⟨hand.slots.run.tail (.begin_ t), builds.back.trans hand.slots.back,
    builds.shared.trans hand.slots.shared, builds.front.trans hand.slots.front, ?_, ?_⟩,
    ⟨lists ▸ hand.handed.latest, last_n⟩, ⟨?_, hand.shows_.order, hand.shows_.before, ?_⟩, ?_⟩
  · intro i l holds
    change Function.update t.holds t.back none i = some l at holds
    by_cases same : i = t.back
    · subst same
      rw [Function.update_self] at holds
      cases holds
    · rw [Function.update_of_ne same] at holds
      rw [builds.other i (hand.slots.back ▸ same)]
      exact hand.slots.holds i l holds
  · intro none_
    change (s'.o.g_frame t.front).n = 0
    rw [builds.other _ (by rw [hand.slots.back]; exact valid.back_front.symm)]
    exact hand.slots.untaken none_
  · rw [lists, seen]
    exact hand.shows_.seen
  · rw [lists, drawn]
    exact hand.shows_.front
  · rw [builds.window]
    have watches := hand.watches
    cases at_w : s.o.window with
    | out => trivial
    | fresh =>
        rw [at_w] at watches
        refine ⟨watches.1, ?_⟩
        rw [began, lists]
        exact watches.2
    | draw i =>
        rw [at_w] at watches
        change i ≤ (s'.o.g_frame s'.o.g_front).n ∧ s'.log.items = _
        rw [drawn, items]
        exact watches

/-- A list more is published. -/
theorem Shows.publish (shows_ : Shows s at_ f) (l : List Shown) {s' : State}
    (lists : s'.log.lists = s.log.lists ++ [l]) (seen : s'.log.seen = s.log.seen)
    (front : (s'.o.g_frame s'.o.g_front).list = (s.o.g_frame s.o.g_front).list) :
    Shows s' at_ f := by
  have inside : ∀ {i : Nat} {x : List Shown}, s.log.lists[i]? = some x →
      s'.log.lists[i]? = some x := by
    intro i x there
    rw [lists, List.getElem?_append_left (List.getElem?_eq_some_iff.mp there).1]
    exact there
  refine ⟨?_, shows_.order, shows_.before, ?_⟩
  · rw [seen]
    exact shows_.seen.imp fun i v both => ⟨inside both.1, both.2⟩
  · rw [front]
    exact inside shows_.front

/-- What a take leaves is the newest list: it is the one published last. -/
theorem Shows.took (shows_ : Shows s at_ f) {s' : State} (lists : s'.log.lists = s.log.lists)
    {began : Nat} (newest_ : s.log.lists.getLast? = some (s'.o.g_frame s'.o.g_front).list)
    (early : began ≤ s.log.lists.length)
    (seen : s'.log.seen = s.log.seen ++ [⟨began, (s'.o.g_frame s'.o.g_front).list⟩]) :
    Shows s' (at_ ++ [s.log.lists.length - 1]) (s.log.lists.length - 1) := by
  have last : s.log.lists[s.log.lists.length - 1]? = some (s'.o.g_frame s'.o.g_front).list := by
    rw [← List.getLast?_eq_getElem?]
    exact newest_
  have inside := (List.getElem?_eq_some_iff.mp last).1
  have old : f ≤ s.log.lists.length - 1 := by
    have := (List.getElem?_eq_some_iff.mp shows_.front).1
    omega
  refine ⟨?_, ?_, ?_, ?_⟩
  · rw [seen, lists]
    refine List.rel_append shows_.seen (.cons ⟨last, ?_⟩ .nil)
    change began ≤ _
    omega
  · refine List.pairwise_append.mpr ⟨shows_.order, List.pairwise_singleton _ _, ?_⟩
    intro i member j now
    rw [List.mem_singleton.mp now]
    exact le_trans (shows_.before i member) old
  · intro i member
    rcases List.mem_append.mp member with earlier | now
    · exact le_trans (shows_.before i earlier) old
    · exact Nat.le_of_eq (List.mem_singleton.mp now)
  · rw [lists]
    exact last

/-- A draw to its end shows the list of its frame. -/
theorem Shows.drew (shows_ : Shows s at_ f) {s' : State} (lists : s'.log.lists = s.log.lists)
    (front : (s'.o.g_frame s'.o.g_front).list = (s.o.g_frame s.o.g_front).list)
    (seen : s'.log.seen = s.log.seen ++ [⟨0, (s.o.g_frame s.o.g_front).list⟩]) :
    Shows s' (at_ ++ [f]) f := by
  refine ⟨?_, ?_, ?_, ?_⟩
  · rw [seen, lists]
    exact List.rel_append shows_.seen (.cons ⟨shows_.front, Nat.zero_le _⟩ .nil)
  · refine List.pairwise_append.mpr ⟨shows_.order, List.pairwise_singleton _ _, ?_⟩
    intro i member j now
    rw [List.mem_singleton.mp now]
    exact shows_.before i member
  · intro i member
    rcases List.mem_append.mp member with earlier | now
    · exact shows_.before i earlier
    · exact Nat.le_of_eq (List.mem_singleton.mp now)
  · rw [lists, front]
    exact shows_.front

/-- The middle frame, when it is fresh, has the newest list. -/
theorem Hand.mid (hand : Hand s t at_ f) (fresh : t.fresh = true) :
    (s.o.g_frame t.mid).list = newest t := by
  obtain ⟨l, latest, holds⟩ := hand.slots.valid.latest fresh
  rw [newest, latest]
  exact hand.slots.holds _ _ holds

/-- The frame being drawn has the newest list when nothing fresh waits. -/
theorem Hand.drawn (hand : Hand s t at_ f) (stale : t.fresh = false) :
    (s.o.g_frame s.o.g_front).list = newest t := by
  rw [hand.slots.front]
  cases latest : t.published.getLast? with
  | none =>
      rw [newest, latest]
      have none_ : t.published = [] := List.getLast?_eq_none_iff.mp latest
      rw [Frame.list, hand.slots.untaken none_]
      rfl
  | some l =>
      rw [newest, latest]
      exact hand.slots.holds _ _ (hand.slots.settled.front hand.slots.valid stale latest)

theorem newest_publish (t : TripleBuffer (List Shown)) (l : List Shown) :
    newest (t.publish l) = l := by
  rw [newest]
  change (t.published ++ [l]).getLast?.getD [] = l
  rw [List.getLast?_concat]
  rfl

theorem frame_length (f : Frame) : f.list.length = f.n := by
  rw [Frame.list, List.length_map, List.length_range]

/-- The exchange in `overlay_publish`. -/
theorem Hand.exchange (hand : Hand s t at_ f) (last_n : s.o.g_last_n = (s.o.g_frame s.o.g_back).n)
    {s' : State} (frames : s'.o.g_frame = s.o.g_frame) (back : s'.o.g_back = s.o.g_shared &&& 3)
    (shared : s'.o.g_shared = s.o.g_back ||| FRESH) (front : s'.o.g_front = s.o.g_front)
    (same_n : s'.o.g_last_n = s.o.g_last_n) (window : s'.o.window = s.o.window)
    (lists : s'.log.lists = s.log.lists ++ [(s.o.g_frame s.o.g_back).list])
    (seen : s'.log.seen = s.log.seen) (began : s'.log.began = s.log.began)
    (items : s'.log.items = s.log.items) :
    Hand s' (t.publish (s.o.g_frame s.o.g_back).list) at_ f := by
  have valid := hand.slots.valid
  have drawn : s'.o.g_frame s'.o.g_front = s.o.g_frame s.o.g_front := by rw [frames, front]
  refine ⟨⟨hand.slots.run.tail (.publish t _), ?_, ?_, front.trans hand.slots.front, ?_, ?_⟩,
    ⟨?_, ?_⟩, hand.shows_.publish _ lists seen (congrArg Frame.list drawn), ?_⟩
  · rw [back, hand.slots.shared]
    exact t.word_slot valid
  · rw [shared, hand.slots.back]
    exact t.publish_word valid _
  · intro i l holds
    change Function.update t.holds t.back _ i = some l at holds
    rw [frames]
    by_cases same : i = t.back
    · subst same
      rw [Function.update_self] at holds
      cases holds
      rw [hand.slots.back]
    · rw [Function.update_of_ne same] at holds
      exact hand.slots.holds i l holds
  · intro none_
    exact absurd none_ (List.append_ne_nil_of_right_ne_nil _ (List.cons_ne_nil _ _))
  · rw [lists, List.getLast?_concat, newest_publish]
  · intro _
    rw [same_n, last_n, newest_publish, frame_length]
  · rw [window]
    have watches := hand.watches
    cases at_w : s.o.window with
    | out => trivial
    | fresh =>
        rw [at_w] at watches
        refine ⟨rfl, ?_⟩
        rw [began, lists, List.length_append]
        exact le_trans watches.2 (Nat.le_add_right _ _)
    | draw i =>
        rw [at_w] at watches
        change i ≤ (s'.o.g_frame s'.o.g_front).n ∧ s'.log.items = _
        rw [drawn, items]
        exact watches

/-- A publish with nothing then and nothing now. -/
theorem Hand.nothing (hand : Hand s t at_ f) (none_ : (s.o.g_frame s.o.g_back).n = 0)
    (last_n : s.o.g_last_n = 0) (out : s.o.guest = .out) {s' : State} (same : s'.o = s.o)
    (lists : s'.log.lists = s.log.lists ++ [(s.o.g_frame s.o.g_back).list])
    (seen : s'.log.seen = s.log.seen) (began : s'.log.began = s.log.began)
    (items : s'.log.items = s.log.items) : Hand s' t at_ f := by
  have empty : (s.o.g_frame s.o.g_back).list = newest t := by
    have before := hand.handed.last_n (by rw [out]; exact Guest.noConfusion)
    rw [last_n] at before
    rw [List.eq_nil_of_length_eq_zero before.symm, Frame.list, none_]
    rfl
  refine ⟨same ▸ hand.slots, ⟨?_, same ▸ hand.handed.last_n⟩,
    hand.shows_.publish _ lists seen (by rw [same]), ?_⟩
  · rw [lists, List.getLast?_concat, empty]
  · rw [same]
    have watches := hand.watches
    cases at_w : s.o.window with
    | out => trivial
    | fresh =>
        rw [at_w] at watches
        refine ⟨watches.1, ?_⟩
        rw [began, lists, List.length_append]
        exact le_trans watches.2 (Nat.le_add_right _ _)
    | draw i =>
        rw [at_w] at watches
        change i ≤ (s'.o.g_frame s'.o.g_front).n ∧ s'.log.items = _
        rw [same, items]
        exact watches

/-- The exchange in `overlay_take`. -/
theorem Hand.swap (hand : Hand s t at_ f) (fresh : t.fresh = true)
    (early : s.log.began ≤ s.log.lists.length) {s' : State} (frames : s'.o.g_frame = s.o.g_frame)
    (back : s'.o.g_back = s.o.g_back) (shared : s'.o.g_shared = s.o.g_front)
    (front : s'.o.g_front = s.o.g_shared &&& 3) (last_n : s'.o.g_last_n = s.o.g_last_n)
    (guest : s'.o.guest = s.o.guest) (window : s'.o.window = .out)
    (lists : s'.log.lists = s.log.lists)
    (seen : s'.log.seen =
      s.log.seen ++ [⟨s.log.began, (s'.o.g_frame s'.o.g_front).list⟩]) :
    Hand s' t.take (at_ ++ [s.log.lists.length - 1]) (s.log.lists.length - 1) := by
  have valid := hand.slots.valid
  have slot : s'.o.g_front = t.mid := by
    rw [front, hand.slots.shared]
    exact t.word_slot valid
  have drawn : (s'.o.g_frame s'.o.g_front).list = newest t := by
    rw [frames, slot]
    exact hand.mid fresh
  refine ⟨⟨hand.slots.run.tail (.take t fresh), back.trans hand.slots.back, ?_, slot, ?_, ?_⟩,
    ⟨lists ▸ hand.handed.latest, ?_⟩, hand.shows_.took lists ?_ early seen, ?_⟩
  · rw [shared, hand.slots.front]
    exact t.take_word
  · intro i l holds
    rw [frames]
    exact hand.slots.holds i l holds
  · intro none_
    obtain ⟨l, latest, -⟩ := valid.latest fresh
    change t.published = [] at none_
    rw [none_] at latest
    cases latest
  · rw [guest, last_n]
    exact hand.handed.last_n
  · rw [drawn]
    exact hand.handed.latest
  · rw [window]
    trivial

end Hand

/-! What the counts leave room for. -/

/-- The slots taken and not yet written. -/
def pending : Guest → Nat
  | .fill .. => 1
  | _ => 0

/-- A draw under way has room: its slot is taken, and its text and its mod's counts fit. -/
structure Filling (o : Overlay) (m : Nat) (c : Cmd) (text : List Byte) : Prop where
  slot : 0 < (o.g_frame o.g_back).n
  cmds : o.g_mod_cmds m < OVERLAY_MOD_CMDS
  used : (o.g_frame o.g_back).used + text.length ≤ TEXT
  texts : o.g_mod_text m + text.length ≤ OVERLAY_MOD_TEXT
  inside : c.at_.toNat + c.len.toNat ≤ (o.g_frame o.g_back).used + text.length
  short : c.len.toNat ≤ 255

/-- Every frame's draws and text fit it, each text is inside the frame's, and the counts
are each mod's own draws and bytes, inside its limits. -/
structure Counts (s : State) : Prop where
  frame : ∀ i, (s.o.g_frame i).n ≤ CMDS ∧ (s.o.g_frame i).used ≤ TEXT
  texts : ∀ i k, k + (if i = s.o.g_back then pending s.o.guest else 0) < (s.o.g_frame i).n →
    ((s.o.g_frame i).cmd k).at_.toNat + ((s.o.g_frame i).cmd k).len.toNat ≤
      (s.o.g_frame i).used ∧ ((s.o.g_frame i).cmd k).len.toNat ≤ 255
  cmds : ∀ m, s.o.g_mod_cmds m = s.log.owners.countP (fun x => x.1 = m) ∧
    s.o.g_mod_cmds m ≤ OVERLAY_MOD_CMDS
  mod_text : ∀ m,
    s.o.g_mod_text m = ((s.log.owners.filter fun x => x.1 = m).map fun x => x.2).sum ∧
      s.o.g_mod_text m ≤ OVERLAY_MOD_TEXT
  owned : s.o.guest ≠ .clear →
    s.log.owners.length + pending s.o.guest = (s.o.g_frame s.o.g_back).n
  filling : ∀ m c text, s.o.guest = .fill m c text → Filling s.o m c text

section Counts

variable {s : State}

/-- Only the guest thread's step changes the counts. -/
theorem Counts.same (counts : Counts s) {s' : State} (frames : s'.o.g_frame = s.o.g_frame)
    (back : s'.o.g_back = s.o.g_back) (cmds : s'.o.g_mod_cmds = s.o.g_mod_cmds)
    (texts : s'.o.g_mod_text = s.o.g_mod_text) (guest : s'.o.guest = s.o.guest)
    (owners : s'.log.owners = s.log.owners) : Counts s' := by
  refine ⟨?_, ?_, ?_, ?_, ?_, ?_⟩
  · rw [frames]
    exact counts.frame
  · rw [frames, back, guest]
    exact counts.texts
  · rw [cmds, owners]
    exact counts.cmds
  · rw [texts, owners]
    exact counts.mod_text
  · rw [frames, back, guest, owners]
    exact counts.owned
  · intro m c text is
    rw [guest] at is
    obtain ⟨slot, room, used, bytes, inside, short⟩ := counts.filling m c text is
    constructor
    all_goals simpa only [frames, back, cmds, texts]

theorem Counts.claim (counts : Counts s) (out : s.o.guest = .out) {m : Int} {c : Cmd}
    {text : List Byte} (room_ : room s.o m text.length = true)
    (inside : c.at_.toNat + c.len.toNat ≤ (s.o.g_frame s.o.g_back).used + text.length)
    (short : c.len.toNat ≤ 255) {s' : State}
    (builds : Builds (fun f => { f with n := f.n + 1 }) s.o s'.o)
    (cmds_same : s'.o.g_mod_cmds = s.o.g_mod_cmds) (text_same : s'.o.g_mod_text = s.o.g_mod_text)
    (guest : s'.o.guest = .fill m.toNat c text) (owners : s'.log.owners = s.log.owners) :
    Counts s' := by
  obtain ⟨-, -, more, cmds, used, texts⟩ := of_decide_eq_true room_
  refine ⟨?_, ?_, ?_, ?_, ?_, ?_⟩
  · intro i
    by_cases same : i = s.o.g_back
    · rw [same, builds.self]
      exact ⟨more, (counts.frame s.o.g_back).2⟩
    · rw [builds.other i same]
      exact counts.frame i
  · intro i k low
    have before := counts.texts i k
    rw [out] at before
    rw [builds.back, guest] at low
    by_cases same : i = s.o.g_back
    · subst same
      rw [if_pos rfl] at low before
      rw [builds.self] at low ⊢
      exact before (Nat.lt_of_succ_lt_succ low)
    · rw [if_neg same] at low before
      rw [builds.other i same] at low ⊢
      exact before low
  · rw [cmds_same, owners]
    exact counts.cmds
  · rw [text_same, owners]
    exact counts.mod_text
  · intro _
    have owned := counts.owned (by rw [out]; exact Guest.noConfusion)
    rw [out] at owned
    rw [owners, guest, builds.back, builds.self]
    exact congrArg (· + 1) owned
  · intro m' c' text' is
    rw [guest] at is
    cases is
    constructor
    · rw [builds.back, builds.self]
      exact Nat.succ_pos _
    · rw [cmds_same]
      exact cmds
    · rw [builds.back, builds.self]
      exact used
    · rw [text_same]
      exact texts
    · rw [builds.back, builds.self]
      exact inside
    · exact short

theorem Counts.write (counts : Counts s) {m : Nat} {c : Cmd} {text : List Byte}
    (fill : s.o.guest = .fill m c text) {s' : State}
    (builds : Builds (fun f => write f c text) s.o s'.o)
    (cmds : s'.o.g_mod_cmds = Function.update s.o.g_mod_cmds m (s.o.g_mod_cmds m + 1))
    (texts : s'.o.g_mod_text = Function.update s.o.g_mod_text m (s.o.g_mod_text m + text.length))
    (guest : s'.o.guest = .out) (owners : s'.log.owners = s.log.owners ++ [(m, text.length)]) :
    Counts s' := by
  have filling := counts.filling m c text fill
  have bound := counts.frame s.o.g_back
  refine ⟨?_, ?_, ?_, ?_, ?_, ?_⟩
  · intro i
    by_cases same : i = s.o.g_back
    · rw [same, builds.self]
      exact ⟨bound.1, filling.used⟩
    · rw [builds.other i same]
      exact counts.frame i
  · intro i k low
    have before := counts.texts i k
    rw [fill] at before
    rw [builds.back, guest] at low
    by_cases same : i = s.o.g_back
    · subst same
      rw [if_pos rfl] at low before
      rw [builds.self] at low ⊢
      change k + 0 < (s.o.g_frame s.o.g_back).n at low
      change k + 1 < _ → _ at before
      change (Function.update (s.o.g_frame s.o.g_back).cmd ((s.o.g_frame s.o.g_back).n - 1) c k).at_.toNat +
          (Function.update (s.o.g_frame s.o.g_back).cmd ((s.o.g_frame s.o.g_back).n - 1) c k).len.toNat ≤
          (s.o.g_frame s.o.g_back).used + text.length ∧
        (Function.update (s.o.g_frame s.o.g_back).cmd ((s.o.g_frame s.o.g_back).n - 1) c k).len.toNat ≤ 255
      by_cases last : k = (s.o.g_frame s.o.g_back).n - 1
      · rw [last, Function.update_self]
        exact ⟨filling.inside, filling.short⟩
      · rw [Function.update_of_ne last]
        obtain ⟨inside, short⟩ := before (by omega)
        exact ⟨le_trans inside (Nat.le_add_right _ _), short⟩
    · rw [if_neg same] at low before
      rw [builds.other i same] at low ⊢
      exact before low
  · intro m'
    obtain ⟨count, limit⟩ := counts.cmds m'
    have room := filling.cmds
    rw [cmds, owners, List.countP_append, List.countP_singleton]
    by_cases same : m' = m
    · subst same
      rw [Function.update_self]
      simp only [decide_true, if_true]
      exact ⟨congrArg (· + 1) count, room⟩
    · rw [Function.update_of_ne same]
      simp only [decide_eq_true_eq, if_neg (Ne.symm same)]
      exact ⟨count, limit⟩
  · intro m'
    obtain ⟨count, limit⟩ := counts.mod_text m'
    have room := filling.texts
    rw [texts, owners, List.filter_append, List.map_append, List.sum_append]
    by_cases same : m' = m
    · subst same
      rw [Function.update_self, ← count]
      simp only [decide_true, List.filter_cons_of_pos, List.filter_nil, List.map_cons,
        List.map_nil, List.sum_cons, List.sum_nil]
      exact ⟨rfl, room⟩
    · rw [Function.update_of_ne same, ← count]
      simp only [decide_eq_true_eq, Ne.symm same, not_false_eq_true, List.filter_cons_of_neg,
        List.filter_nil, List.map_nil, List.sum_nil]
      exact ⟨rfl, limit⟩
  · intro _
    have owned := counts.owned (by rw [fill]; exact Guest.noConfusion)
    rw [fill] at owned
    rw [owners, guest, builds.back, builds.self, List.length_append]
    exact owned
  · intro m' c' text' is
    rw [guest] at is
    cases is

theorem Counts.clear (counts : Counts s) {s' : State}
    (builds : Builds (fun f => { f with n := 0, used := 0 }) s.o s'.o)
    (cmds : s'.o.g_mod_cmds = fun _ => 0) (texts : s'.o.g_mod_text = fun _ => 0)
    (guest : s'.o.guest = .out) (was : s.o.guest = .clear) (owners : s'.log.owners = []) :
    Counts s' := by
  refine ⟨?_, ?_, ?_, ?_, ?_, ?_⟩
  · intro i
    by_cases same : i = s.o.g_back
    · rw [same, builds.self]
      exact ⟨Nat.zero_le _, Nat.zero_le _⟩
    · rw [builds.other i same]
      exact counts.frame i
  · intro i k low
    have before := counts.texts i k
    rw [was] at before
    rw [builds.back, guest] at low
    by_cases same : i = s.o.g_back
    · subst same
      rw [builds.self] at low
      cases low
    · rw [if_neg same] at low before
      rw [builds.other i same] at low ⊢
      exact before low
  · intro m
    rw [cmds, owners]
    exact ⟨rfl, Nat.zero_le _⟩
  · intro m
    rw [texts, owners]
    exact ⟨rfl, Nat.zero_le _⟩
  · intro _
    rw [owners, guest, builds.back, builds.self]
    rfl
  · intro m c text is
    rw [guest] at is
    cases is

end Counts

/-! Every interleaving. -/

structure Inv (s : State) : Prop where
  hand : ∃ t at_ f, Hand s t at_ f
  counts : Counts s
  handing : s.o.guest = .hand → s.o.g_last_n = (s.o.g_frame s.o.g_back).n

section Steps

variable {s s' : State}

/-- A draw that finds no room changes nothing; one that does takes a slot. -/
theorem Inv.add (inv : Inv s) (out : s.o.guest = .out) {m : Int} {c : Cmd} {text : List Byte}
    (room_ : room s.o m text.length = true)
    (inside : c.at_.toNat + c.len.toNat ≤ (s.o.g_frame s.o.g_back).used + text.length)
    (short : c.len.toNat ≤ 255) : Inv { s with o := claim s.o m c text } := by
  obtain ⟨t, at_, f, hand⟩ := inv.hand
  have builds : Builds (fun f => { f with n := f.n + 1 }) s.o (claim s.o m c text) :=
    ⟨Function.update_self _ _ _, fun i other => Function.update_of_ne other _ _, rfl, rfl, rfl,
      rfl⟩
  refine ⟨⟨t.begin_, at_, f, hand.build builds rfl rfl rfl rfl fun _ => ?_⟩,
    inv.counts.claim out room_ inside short builds rfl rfl rfl rfl, Guest.noConfusion⟩
  exact hand.handed.last_n (by rw [out]; exact Guest.noConfusion)

theorem Inv.rect (inv : Inv s) (m : Int) (x y w h rgba : BitVec 32)
    (takes : step s (.overlay_rect m x y w h rgba) = some s') : Inv s' := by
  rw [step] at takes
  split at takes
  next out =>
    cases takes
    rw [overlay_rect]
    split
    next room_ => exact inv.add out room_ (Nat.zero_le _) (Nat.zero_le _)
    · exact inv
  · cases takes

theorem Inv.text (inv : Inv s) (m : Int) (x y size rgba : BitVec 32) (text : Option (List Byte))
    (takes : step s (.overlay_text m x y size rgba text) = some s') : Inv s' := by
  rw [step] at takes
  split at takes
  next out =>
    cases takes
    rw [overlay_text]
    split
    · exact inv
    next goes =>
      have room_ : room s.o m (text.getD []).length = true := by
        cases said : room s.o m (text.getD []).length with
        | true => rfl
        | false => exact absurd (.inr (.inr (.inr said))) goes
      have short : (text.getD []).length ≤ 255 := by
        by_contra long
        exact goes (.inr (.inr (.inl (by omega))))
      have len : (BitVec.ofNat 16 (text.getD []).length).toNat ≤ (text.getD []).length := by
        rw [BitVec.toNat_ofNat]
        exact Nat.mod_le _ _
      refine inv.add out room_ (Nat.add_le_add ?_ len) (le_trans len short)
      change (BitVec.ofNat 16 _).toNat ≤ _
      rw [BitVec.toNat_ofNat]
      exact Nat.mod_le _ _
  · cases takes

theorem Inv.write (inv : Inv s) (takes : step s .write = some s') : Inv s' := by
  rw [step] at takes
  split at takes
  next m c text fill =>
    cases takes
    obtain ⟨t, at_, f, hand⟩ := inv.hand
    have builds : Builds (fun f => SoaPort.Screen.write f c text) s.o
        { s.o.back fun f => SoaPort.Screen.write f c text with
          g_mod_cmds := Function.update s.o.g_mod_cmds m (s.o.g_mod_cmds m + 1)
          g_mod_text := Function.update s.o.g_mod_text m (s.o.g_mod_text m + text.length)
          guest := .out } :=
      ⟨Function.update_self _ _ _, fun i other => Function.update_of_ne other _ _, rfl, rfl, rfl,
        rfl⟩
    refine ⟨⟨t.begin_, at_, f, hand.build builds rfl rfl rfl rfl fun _ => ?_⟩,
      inv.counts.write fill builds rfl rfl rfl rfl, Guest.noConfusion⟩
    exact hand.handed.last_n (by rw [fill]; exact Guest.noConfusion)
  · cases takes

theorem Inv.publish (inv : Inv s) (takes : step s .overlay_publish = some s') : Inv s' := by
  rw [step] at takes
  split at takes
  next out =>
    dsimp only at takes
    obtain ⟨t, at_, f, hand⟩ := inv.hand
    split at takes
    next nothing =>
      cases takes
      refine ⟨⟨t, at_, f, hand.nothing nothing.1 nothing.2 out rfl rfl rfl rfl rfl⟩,
        inv.counts.same rfl rfl rfl rfl rfl rfl, inv.handing⟩
    next some_ =>
      cases takes
      refine ⟨⟨t, at_, f, ⟨?_, ⟨hand.handed.latest, fun not => absurd rfl not⟩,
        ⟨hand.shows_.seen, hand.shows_.order, hand.shows_.before, hand.shows_.front⟩, ?_⟩⟩,
        ?_, fun _ => rfl⟩
      · exact ⟨hand.slots.run, hand.slots.back, hand.slots.shared, hand.slots.front,
          hand.slots.holds, hand.slots.untaken⟩
      · exact hand.watches
      · have counts := inv.counts
        refine ⟨counts.frame, ?_, counts.cmds, counts.mod_text, ?_, nofun⟩
        · intro i k low
          apply counts.texts i k
          rw [out]
          exact low
        · intro _
          have owned := counts.owned (by rw [out]; exact Guest.noConfusion)
          rw [out] at owned
          exact owned
  · cases takes

theorem Inv.exchange (inv : Inv s) (takes : step s .exchange = some s') : Inv s' := by
  rw [step] at takes
  split at takes
  next at_hand =>
    cases takes
    obtain ⟨t, at_, f, hand⟩ := inv.hand
    refine ⟨⟨_, at_, f, hand.exchange (inv.handing at_hand) rfl rfl rfl rfl rfl rfl rfl rfl rfl
      rfl⟩, ?_, Guest.noConfusion⟩
    have counts := inv.counts
    refine ⟨counts.frame, ?_, counts.cmds, counts.mod_text, fun not => absurd rfl not, nofun⟩
    intro i k low
    apply counts.texts i k
    have none_ : pending s.o.guest = 0 := by rw [at_hand]; rfl
    change k + (if i = _ then 0 else 0) < _ at low
    rw [ite_self] at low
    rw [none_, ite_self]
    exact low
  · cases takes

theorem Inv.clear (inv : Inv s) (takes : step s .clear = some s') : Inv s' := by
  rw [step] at takes
  split at takes
  next was =>
    cases takes
    obtain ⟨t, at_, f, hand⟩ := inv.hand
    have builds : Builds (fun f => { f with n := 0, used := 0 }) s.o
        { s.o.back fun f => { f with n := 0, used := 0 } with
          g_mod_cmds := fun _ => 0
          g_mod_text := fun _ => 0
          guest := .out } :=
      ⟨Function.update_self _ _ _, fun i other => Function.update_of_ne other _ _, rfl, rfl, rfl,
        rfl⟩
    refine ⟨⟨t.begin_, at_, f, hand.build builds rfl rfl rfl rfl fun _ => ?_⟩,
      inv.counts.clear builds rfl rfl rfl was rfl, Guest.noConfusion⟩
    exact hand.handed.last_n (by rw [was]; exact Guest.noConfusion)
  · cases takes

theorem Inv.take (inv : Inv s) (takes : step s .overlay_take = some s') : Inv s' := by
  rw [step] at takes
  split at takes
  next out =>
    dsimp only at takes
    obtain ⟨t, at_, f, hand⟩ := inv.hand
    have bit := t.word_bit hand.slots.valid
    rw [← hand.slots.shared] at bit
    split at takes
    next fresh =>
      cases takes
      refine ⟨⟨t, at_, f, hand.slots.look _, hand.handed.look _ rfl,
        hand.shows_.look _ rfl rfl, bit.mp fresh, le_refl _⟩,
        inv.counts.same rfl rfl rfl rfl rfl rfl, inv.handing⟩
    next stale =>
      cases takes
      have stale : t.fresh = false := Bool.eq_false_iff.mpr fun fresh => stale (bit.mpr fresh)
      refine ⟨⟨t, at_ ++ [s.log.lists.length - 1], s.log.lists.length - 1, hand.slots.look _,
        hand.handed.look _ rfl, hand.shows_.took rfl ?_ (le_refl _) rfl, ?_⟩,
        inv.counts.same rfl rfl rfl rfl rfl rfl, inv.handing⟩
      · change _ = some (s.o.g_frame s.o.g_front).list
        rw [hand.drawn stale]
        exact hand.handed.latest
      · change Watches _ t s.o.window
        rw [out]
        trivial
  · cases takes

theorem Inv.swap (inv : Inv s) (takes : step s .swap = some s') : Inv s' := by
  rw [step] at takes
  split at takes
  next at_w =>
    cases takes
    obtain ⟨t, at_, f, hand⟩ := inv.hand
    have watches := hand.watches
    rw [at_w] at watches
    exact ⟨⟨t.take, _, _, hand.swap watches.1 watches.2 rfl rfl rfl rfl rfl rfl rfl rfl rfl⟩,
      inv.counts.same rfl rfl rfl rfl rfl rfl, inv.handing⟩
  · cases takes

theorem Inv.draw (inv : Inv s) (drawable : Bool)
    (takes : step s (.overlay_draw drawable) = some s') : Inv s' := by
  rw [step] at takes
  split at takes
  · split at takes
    · cases takes
      exact inv
    · cases takes
      obtain ⟨t, at_, f, hand⟩ := inv.hand
      exact ⟨⟨t, at_, f, hand.slots.look _, hand.handed.look _ rfl, hand.shows_.look _ rfl rfl,
        Nat.zero_le _, rfl⟩, inv.counts.same rfl rfl rfl rfl rfl rfl, inv.handing⟩
  · cases takes

theorem Inv.next (inv : Inv s) (takes : step s .next = some s') : Inv s' := by
  rw [step] at takes
  split at takes
  next i at_w =>
    dsimp only at takes
    obtain ⟨t, at_, f, hand⟩ := inv.hand
    have watches := hand.watches
    rw [at_w] at watches
    obtain ⟨low, items⟩ := watches
    split at takes
    next more =>
      cases takes
      refine ⟨⟨t, at_, f, hand.slots.look _, hand.handed.look _ rfl,
        hand.shows_.look _ rfl rfl, more, ?_⟩,
        inv.counts.same rfl rfl rfl rfl rfl rfl, inv.handing⟩
      change s.log.items ++ _ = _
      rw [items, List.range_succ, List.map_append]
      rfl
    next done =>
      cases takes
      have all : i = (s.o.g_frame s.o.g_front).n := by omega
      have whole : s.log.items = (s.o.g_frame s.o.g_front).list := by
        rw [items, all]
        rfl
      refine ⟨⟨t, at_ ++ [f], f, hand.slots.look _, hand.handed.look _ rfl,
        hand.shows_.drew rfl rfl ?_, trivial⟩, inv.counts.same rfl rfl rfl rfl rfl rfl,
        inv.handing⟩
      change _ ++ [(⟨0, s.log.items⟩ : Seen)] = _
      rw [whole]
  · cases takes

theorem Inv.step (inv : Inv s) (a : Action) (takes : step s a = some s') : Inv s' := by
  cases a with
  | overlay_rect m x y w h rgba => exact inv.rect m x y w h rgba takes
  | overlay_text m x y size rgba text => exact inv.text m x y size rgba text takes
  | write => exact inv.write takes
  | overlay_publish => exact inv.publish takes
  | exchange => exact inv.exchange takes
  | clear => exact inv.clear takes
  | overlay_take => exact inv.take takes
  | swap => exact inv.swap takes
  | overlay_draw drawable => exact inv.draw drawable takes
  | next => exact inv.next takes

theorem start_inv (g_frame : Nat → Frame) : Inv (start g_frame) := by
  refine ⟨⟨.start, [], 0, ⟨.refl, rfl, rfl, rfl, nofun, fun _ => rfl⟩, ⟨rfl, fun _ => rfl⟩,
    ⟨.nil, .nil, nofun, rfl⟩, trivial⟩, ⟨?_, ?_, ?_, ?_, fun _ => rfl, nofun⟩, nofun⟩
  · exact fun i => ⟨Nat.zero_le _, Nat.zero_le _⟩
  · intro i k low
    cases low
  · exact fun m => ⟨rfl, Nat.zero_le _⟩
  · exact fun m => ⟨rfl, Nat.zero_le _⟩

theorem run_inv (inv : Inv s) (actions : List Action) : Inv (run s actions) := by
  induction actions generalizing s with
  | nil => exact inv
  | cons a rest ih =>
      cases takes : SoaPort.Screen.step s a with
      | none =>
          rw [run, List.foldl_cons, takes]
          exact ih inv
      | some s' =>
          rw [run, List.foldl_cons, takes]
          exact ih (inv.step a takes)

end Steps

/-- What the hand-over promises. Every list seen, by a take or by a draw to its end, is a
list published, in the order they were published, and a take begun after the last publish
gives the last list. -/
structure HandedOver (s : State) : Prop where
  three : s.o.g_back < 3 ∧ s.o.g_shared &&& 3 < 3 ∧ s.o.g_front < 3
  apart : [s.o.g_back, s.o.g_shared &&& 3, s.o.g_front].Nodup
  order : ∃ at_ : List Nat, at_.Pairwise (· ≤ ·) ∧
    List.Forall₂ (fun i v => s.log.lists[i]? = some v.items) at_ s.log.seen
  drawing : ∀ i, s.o.window = .draw i → ∃ l ∈ s.log.lists, s.log.items = l.take i
  last : ∀ v ∈ s.log.seen, v.began = s.log.lists.length →
    s.log.lists.getLast? = some v.items
  frame : ∀ i, (s.o.g_frame i).n ≤ CMDS ∧ (s.o.g_frame i).used ≤ TEXT
  texts : ∀ i k, k + (if i = s.o.g_back then pending s.o.guest else 0) < (s.o.g_frame i).n →
    ((s.o.g_frame i).cmd k).at_.toNat + ((s.o.g_frame i).cmd k).len.toNat ≤
      (s.o.g_frame i).used ∧ ((s.o.g_frame i).cmd k).len.toNat ≤ 255
  mods : ∀ m,
    s.o.g_mod_cmds m = s.log.owners.countP (fun x => x.1 = m) ∧
    s.o.g_mod_cmds m ≤ OVERLAY_MOD_CMDS ∧
    s.o.g_mod_text m = ((s.log.owners.filter fun x => x.1 = m).map fun x => x.2).sum ∧
    s.o.g_mod_text m ≤ OVERLAY_MOD_TEXT
  built : s.o.guest ≠ .clear →
    s.log.owners.length + pending s.o.guest = (s.o.g_frame s.o.g_back).n

theorem exists_of_forall₂ {α β : Type} {R : α → β → Prop} {l : List α} {k : List β}
    (related : List.Forall₂ R l k) {b : β} (member : b ∈ k) : ∃ a, R a b := by
  induction related with
  | nil => cases member
  | cons head _ ih =>
      rcases List.mem_cons.mp member with rfl | later
      · exact ⟨_, head⟩
      · exact ih later

theorem Inv.handed_over {s : State} (inv : Inv s) : HandedOver s := by
  obtain ⟨t, at_, f, hand⟩ := inv.hand
  have valid := hand.slots.valid
  have back := hand.slots.back
  have front := hand.slots.front
  have mid : s.o.g_shared &&& 3 = t.mid := by
    rw [hand.slots.shared]
    exact t.word_slot valid
  have seen := hand.shows_.seen
  refine ⟨?_, ?_, ⟨at_, hand.shows_.order, seen.imp fun _ _ both => both.1⟩, ?_, ?_,
    inv.counts.frame, inv.counts.texts, fun m => ?_, inv.counts.owned⟩
  · rw [back, front, mid]
    exact ⟨valid.back_lt, valid.mid_lt, valid.front_lt⟩
  · rw [back, front, mid]
    simp [valid.back_mid, valid.back_front, valid.mid_front]
  · intro i at_w
    have watches := hand.watches
    rw [at_w] at watches
    refine ⟨_, List.mem_of_getElem? hand.shows_.front, ?_⟩
    rw [watches.2, Frame.list, ← List.map_take, List.take_range, Nat.min_eq_left watches.1]
  · intro v member began
    obtain ⟨i, there, early⟩ := exists_of_forall₂ seen member
    have inside := (List.getElem?_eq_some_iff.mp there).1
    have at_end : i = s.log.lists.length - 1 := by omega
    rw [List.getLast?_eq_getElem?, ← at_end]
    exact there
  · exact ⟨(inv.counts.cmds m).1, (inv.counts.cmds m).2, (inv.counts.mod_text m).1,
      (inv.counts.mod_text m).2⟩

/-- Every interleaving of the two threads hands the lists over. -/
theorem overlay_handed_over (g_frame : Nat → Frame) (actions : List Action) :
    HandedOver (run (start g_frame) actions) :=
  (run_inv (start_inv g_frame) actions).handed_over

example :
    (run (start fun _ => ⟨0, 0, fun _ => ⟨0, 0, 0, 0, 0, 0, 0, .K_RECT⟩, fun _ => 0⟩)
      [.overlay_rect 3 1 2 8 8 255, .write, .overlay_publish, .overlay_take, .exchange,
        .overlay_take, .swap, .overlay_draw true, .clear, .next, .next]).log.seen.map Seen.items =
      [[], [.rect 1 2 8 8 255], [.rect 1 2 8 8 255]] := by
  decide

end SoaPort.Screen
