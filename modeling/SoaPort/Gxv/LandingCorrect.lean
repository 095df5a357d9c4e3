import SoaPort.Gxv.Landing

namespace SoaPort.Gxv

open SoaPort.Lib

variable {c : Config} {ram0 : Nat → UInt8} {timing : Timing} {s s' t u : Backend}

/-! The commands keep what holds between the host's steps. -/

/-- From a state where it holds, on to one where it holds. -/
def Goes (c : Config) (ram0 : Nat → UInt8) (s s' : Backend) : Prop :=
  Inv c ram0 s → Inv c ram0 s' ∧ After s s'

theorem Goes.refl (s : Backend) : Goes c ram0 s s := fun inv => ⟨inv, .refl s⟩

theorem Goes.trans (first : Goes c ram0 s t) (second : Goes c ram0 t u) : Goes c ram0 s u := by
  intro inv
  obtain ⟨middle, after⟩ := first inv
  obtain ⟨last, later⟩ := second middle
  exact ⟨last, after.trans later⟩

theorem Goes.ite {p : Prop} [Decidable p] (yes : Goes c ram0 s t) (no : Goes c ram0 s u) :
    Goes c ram0 s (if p then t else u) := by
  split
  · exact yes
  · exact no

theorem Aside.goes (aside : Aside c s s') : Goes c ram0 s s' :=
  fun inv => ⟨aside.inv inv, aside.after⟩

theorem Aside.trans (first : Aside c s t) (second : Aside c t u) : Aside c s u where
  works := second.works.trans first.works
  landing := second.landing.trans first.landing
  cur := second.cur.trans first.cur
  recording idle := first.recording (second.recording idle)
  dest_used := second.dest_used.trans first.dest_used
  pool_used := Nat.le_trans first.pool_used second.pool_used
  mine := second.mine.trans first.mine
  writes w member := by
    rcases second.writes w member with old | new
    · exact first.writes w old
    · exact .inr new

theorem Goes.finish (t : Bool) : Goes c ram0 s (slot_finish c t s) := slot_finish_inv t
theorem Goes.next : Goes c ram0 s (submit_next c s) := submit_next_inv
theorem Goes.wait : Goes c ram0 s (submit_wait c s) := submit_wait_inv
theorem Goes.tick (timing : Timing) : Goes c ram0 s (tick timing s) := tick_inv timing
theorem Goes.poll : Goes c ram0 s (slot_poll c timing s) := slot_poll_inv timing
theorem Goes.begin_cb : Goes c ram0 s (begin_cb s) := (begin_cb_aside s).goes

/-! Textures. -/

/-- The host writes only where it records. -/
theorem host_write_clear (ready : Ready c s) (region : Region) {at_ n : Nat}
    (low : half (c.size region) s.cur ≤ at_) (high : at_ + n ≤ half_end (c.size region) s.cur) :
    HostWrite.clear c ⟨region, at_, n, fun t => (s.slot t).inflight⟩ := by
  intro t busy
  have different : t ≠ s.cur := by
    rintro rfl
    cases busy.symm.trans ready.rests
  have halves := halves_apart (c.size region) different
  change at_ + n ≤ half (c.size region) t ∨ half_end (c.size region) t ≤ at_
  omega

theorem Aside.ready (aside : Aside c s s') (ready : Ready c s) : Ready c s' := by
  apply ready.same _ aside.cur aside.recording aside.dest_used aside.pool_used
  intro t
  have same := congrFun aside.works t
  exact ⟨congrArg Work.inflight same, congrArg Work.land same⟩

theorem upload_level_aside (ready : Ready c s) (level : Nat × Nat)
    (room : s.pool_used + level.1 * level.2 ≤ half_end c.pool s.cur) :
    Aside c s (upload_level s level) := by
  refine ⟨rfl, rfl, rfl, id, rfl, Nat.le_add_right _ _, rfl, ?_⟩
  intro w member
  rcases List.mem_append.mp member with old | new
  · exact .inl old
  · rw [List.mem_singleton.mp new]
    exact .inr (host_write_clear ready .pool ready.pool_low room)

theorem upload_fold_aside {levels : List (Nat × Nat)} (ready : Ready c s)
    (room : s.pool_used + (levels.map fun l => l.1 * l.2).sum ≤ half_end c.pool s.cur) :
    Aside c s (levels.foldl upload_level s) := by
  induction levels generalizing s with
  | nil => exact .refl s
  | cons level levels ih =>
      rw [List.map_cons, List.sum_cons] at room
      have first := upload_level_aside ready level (by omega)
      apply first.trans
      apply ih (first.ready ready)
      change s.pool_used + level.1 * level.2 + _ ≤ half_end c.pool s.cur
      omega

theorem upload_levels_aside {C : TexCfg} (ready : Ready c s)
    (room : s.pool_used + tex_texels C ≤ half_end c.pool s.cur) :
    Aside c s (upload_levels C s) := by
  have levels := upload_fold_aside ready room
  exact ⟨levels.works, levels.landing, levels.cur, levels.recording, levels.dest_used,
    levels.pool_used, levels.mine, levels.writes⟩

theorem pool_claim_goes (at_ n : Nat) : Goes c ram0 s (pool_claim c at_ n s) :=
  .ite (.refl s) (.finish _)

theorem pool_claim_kept (c : Config) (at_ n : Nat) (s : Backend) :
    Kept s (pool_claim c at_ n s) := by
  unfold pool_claim
  dsimp only
  split
  · exact .refl s
  · exact (slot_finish_done ..).toKept

theorem tick_kept (timing : Timing) (s : Backend) : Kept s (tick timing s) := by
  have first := gpu_run_kept false (timing s.clock false) s
  have second := gpu_run_kept true (timing s.clock true) (gpu_run false (timing s.clock false) s)
  have both := first.trans second
  exact ⟨both.cur, both.recording, both.dest_used, both.pool_used, both.mine, both.measure,
    both.writes, both.accepted, both.seq_cur⟩

theorem upload_pool_goes (C : TexCfg) : Goes c ram0 s (upload_pool c timing C s) := by
  unfold upload_pool
  split
  · exact .refl s
  · split
    · exact .refl s
    · rename_i room
      have kept := (pool_claim_kept c s.pool_used (tex_texels C) s).trans
        (tick_kept timing (pool_claim c s.pool_used (tex_texels C) s))
      intro inv
      obtain ⟨claimed, after⟩ := ((pool_claim_goes s.pool_used (tex_texels C)).trans
        (.tick timing)) inv
      have aside := upload_levels_aside (C := C) claimed.ready (by
        rw [kept.pool_used, kept.cur]
        omega)
      exact ⟨aside.inv claimed, after.trans aside.after⟩

theorem set_slot_aside (s : Backend) (t : Bool) {S : Slot} (same : S.toWork = s.works t) :
    Aside c s (s.set_slot t S) :=
  ⟨works_set_slot_same s t same, rfl, rfl, id, rfl, Nat.le_refl _, rfl, fun _ => .inl⟩

theorem carried_work (S : Slot) (lo hi : Nat) : (carried S lo hi).toWork = S.toWork := by
  unfold carried
  split <;> rfl

theorem serve_aside (image : Option Nat) (record : TexRec) (texels : Nat) (s : Backend) :
    Aside c s (serve image record texels s) :=
  ⟨works_set_slot_same s s.cur rfl, rfl, rfl, id, rfl, Nat.le_add_right _ _, rfl,
    fun _ => .inl⟩

theorem carry_aside {from_ : CopyImage} (carry : carry_copy_image c from_ s = some s') :
    Aside c s s' := by
  unfold carry_copy_image at carry
  dsimp only at carry
  split at carry
  · cases carry
  · cases carry
    apply (begin_cb_aside s).trans
    exact (set_slot_aside _ _ (carried_work _ _ _)).trans (serve_aside _ _ _ _)

theorem upload_texture_goes (s : Backend) (C : TexCfg) :
    Goes c ram0 s (upload_texture c timing s C) := by
  unfold upload_texture
  split
  · exact .refl s
  · apply Goes.ite (.refl s)
    apply Goes.ite (upload_pool_goes C)
    apply Goes.ite (.refl s)
    split
    · exact upload_pool_goes C
    · split
      · rename_i carry
        exact (carry_aside carry).goes
      · exact (Goes.finish _).trans (upload_pool_goes C)

theorem Goes.foldl {α : Type} {f : Backend → α → Backend} (each : ∀ s a, Goes c ram0 s (f s a))
    (as : List α) (s : Backend) : Goes c ram0 s (as.foldl f s) := by
  induction as generalizing s with
  | nil => exact .refl s
  | cons a as ih => exact (each s a).trans (ih (f s a))

theorem Goes.iterate {f : Backend → Backend} (each : ∀ s, Goes c ram0 s (f s)) (n : Nat)
    (s : Backend) : Goes c ram0 s (f^[n] s) := by
  induction n generalizing s with
  | zero => exact .refl s
  | succ n ih => exact (each s).trans (ih (f s))

/-! Draws and screen copies. -/

theorem draw_record_goes {e : Emit} (drawn : draw_record c timing e s = some s') :
    Goes c ram0 s s' := by
  unfold draw_record at drawn
  split at drawn
  · cases drawn
  · cases drawn
    exact .foldl upload_texture_goes e.maps s

theorem emit_record_goes {e : Emit} (drawn : emit_record c timing e s = .ok s') :
    Goes c ram0 s s' := by
  unfold emit_record at drawn
  split at drawn
  · rename_i first
    cases drawn
    exact draw_record_goes first
  · split at drawn
    · rename_i second
      cases drawn
      exact Goes.next.trans (draw_record_goes second)
    · cases drawn

theorem emit_room_goes (e : Emit) (s : Backend) : Goes c ram0 s (emit_room c e s) :=
  (Goes.ite .next (.refl s)).trans (.ite .next (.refl _))

theorem measure_draw_goes (s : Backend) : Goes c ram0 s (measure_draw s) := by
  unfold measure_draw
  have aside : ∀ (measure : Bool) (occ_used : Nat),
      Goes c ram0 s { s with measure, occ_used } := fun _ _ =>
    Aside.goes ⟨rfl, rfl, rfl, id, rfl, Nat.le_refl _, rfl, fun _ => .inl⟩
  exact .ite (.ite (aside _ _) (aside _ _)) (.refl s)

theorem emit_draw_goes (e : Emit) (s : Backend) : Goes c ram0 s (emit_draw e s) := by
  have used : ∀ (t : Backend) (ring_used draw_used : Nat),
      Goes c ram0 t { t with ring_used, draw_used } := fun _ _ _ =>
    Aside.goes ⟨rfl, rfl, rfl, id, rfl, Nat.le_refl _, rfl, fun _ => .inl⟩
  exact (Goes.begin_cb.trans (used _ _ _)).trans (.iterate measure_draw_goes e.slices _)

theorem emit_goes {e : Emit} (drawn : emit c timing s e = .ok s') : Goes c ram0 s s' := by
  unfold emit at drawn
  split at drawn
  · cases drawn
  · cases recorded : emit_record c timing e (emit_room c e s) with
    | error stop =>
        rw [recorded] at drawn
        cases drawn
    | ok t =>
        rw [recorded] at drawn
        cases drawn
        exact ((emit_room_goes e s).trans (emit_record_goes recorded)).trans (emit_draw_goes e t)

theorem emits_goes {emits : List Emit} (drawn : emits.foldlM (emit c timing) s = .ok s') :
    Goes c ram0 s s' := by
  induction emits generalizing s with
  | nil =>
      cases drawn
      exact .refl _
  | cons e emits ih =>
      rw [List.foldlM_cons] at drawn
      cases first : emit c timing s e with
      | error stop =>
          rw [first] at drawn
          cases drawn
      | ok t =>
          rw [first] at drawn
          exact (emit_goes first).trans (ih drawn)

theorem copy_slice_goes (wait : Bool) (s : Backend) : Goes c ram0 s (copy_slice c wait s) :=
  Goes.begin_cb.trans (.ite .wait (.refl _))

theorem publish_next_goes (s : Backend) : Goes c ram0 s (publish_next s) :=
  (set_slot_aside s s.cur (S := { s.current with publish_due := true }) rfl).goes

theorem deliver_next_goes (s : Backend) : Goes c ram0 s (deliver_next s) :=
  (set_slot_aside s s.cur (S := { s.current with deliver := true }) rfl).goes

theorem screen_end_goes (D : ScreenCopy) (s : Backend) : Goes c ram0 s (screen_end c D s) :=
  .ite (.refl s) ((publish_next_goes s).trans .next)

theorem copy_screen_goes (D : ScreenCopy) (s : Backend) : Goes c ram0 s (copy_screen c D s) := by
  have first : Goes c ram0 s (frame_first c s) := .ite (.finish _) (.refl s)
  apply first.trans
  apply Goes.ite
  · exact (Goes.iterate (copy_slice_goes D.sync) _ _).trans (screen_end_goes D _)
  · apply (copy_slice_goes D.sync _).trans
    cases D.sync with
    | true => exact .ite (.refl _) (screen_end_goes D _)
    | false => exact (deliver_next_goes _).trans (.ite (.refl _) (screen_end_goes D _))

/-! Texture copies. -/

theorem land_overlaps_apart {S : Slot} {C : Copy}
    (none : land_overlaps S C.guest C.extent = false) : ∀ L ∈ S.land, L.copy.apart C := by
  intro L member
  have here := List.any_eq_false.mp none L member
  simp only [Bool.and_eq_true, decide_eq_true_iff, not_and_or] at here
  rw [Copy.apart, Apart]
  omega

/-- Every copy still to land is apart from `C`. -/
def Clear (C : Copy) (s : Backend) : Prop := ∀ L ∈ pending s.works, L.copy.apart C

theorem Clear.after {C : Copy} (clear : Clear C s) (after : After s s') : Clear C s' :=
  fun L member => clear L (after.lands L member)

/-- What the slots hold, by where they are. -/
theorem clear_of_slots {C : Copy} (inv : Inv c ram0 s)
    (current : ∀ L ∈ s.current.land, L.copy.apart C)
    (other : s.other c ≠ s.cur → ∀ L ∈ (s.slot (s.other c)).land, L.copy.apart C) :
    Clear C s := by
  intro L member
  obtain ⟨t, here⟩ := mem_pending.mp member
  by_cases same : t = s.cur
  · subst same
    exact current L here
  · by_cases there : t = s.other c
    · subst there
      exact other same L here
    · have one : c.two_slots = false := by
        apply other_one (s := s)
        rw [Bool.eq_not_of_ne (Ne.symm there), Bool.eq_not_of_ne (Ne.symm same)]
      rw [inv.ready.one_slot one] at same
      rw [Bool.eq_not_of_ne same] at here
      have none := inv.held.one_slot one
      change L ∈ (s.works true).land at here
      rw [none] at here
      cases here

theorem land_under_goes (C : Copy) (s : Backend) : Goes c ram0 s (land_under c C s) :=
  .ite .wait (.ite (.finish _) (.refl s))

theorem land_under_clear (C : Copy) (inv : Inv c ram0 s) : Clear C (land_under c C s) := by
  unfold land_under
  dsimp only
  cases here : land_overlaps s.current C.guest C.extent with
  | true =>
      rw [if_pos rfl]
      intro L member
      rw [land_wait_empty inv] at member
      cases member
  | false =>
      rw [if_neg Bool.false_ne_true]
      have current := land_overlaps_apart here
      split
      · rename_i flight
        simp only [Bool.and_eq_true, bne_iff_ne] at flight
        have finished := slot_finish_done c (s.other c) s
        have same : (slot_finish c (s.other c) s).works s.cur = s.works s.cur :=
          finished.others _ (Ne.symm flight.1.1)
        apply clear_of_slots (slot_finish_inv (s.other c) inv).1
        · rw [Backend.current, finished.cur]
          have lands : ((slot_finish c (s.other c) s).slot s.cur).land = s.current.land :=
            congrArg Work.land same
          rw [lands]
          exact current
        · intro _ L member
          rw [finished.other] at member
          have lands := finished.lands
          have busy : (s.works (s.other c)).inflight = true := flight.1.2
          rw [if_pos busy] at lands
          change L ∈ ((slot_finish c (s.other c) s).works (s.other c)).land at member
          rw [lands] at member
          cases member
      · rename_i apart
        apply clear_of_slots inv current
        intro different
        cases flight : (s.slot (s.other c)).inflight with
        | true =>
            apply land_overlaps_apart
            simpa [different, flight] using apart
        | false =>
            rw [inv.ready.other_empty _ different flight]
            intro L member
            cases member

theorem half_room (size : Nat) (t : Bool) : half size t + size = half_end size t := by
  rw [half, half_end, Nat.add_mul, Nat.one_mul]

/-- Where the copy is recorded: a region with its room, and nothing to land
under its bytes. -/
theorem copy_room_done {C : Copy} (inv : Inv c ram0 s) (fits : C.extent ≤ DEST_BYTES) :
    Inv c ram0 (copy_room c C s) ∧ After s (copy_room c C s) ∧ Clear C (copy_room c C s) ∧
      (copy_room c C s).dest_used + C.extent ≤ half_end DEST_BYTES (copy_room c C s).cur := by
  obtain ⟨under, after⟩ := land_under_goes C s inv
  have clear := land_under_clear C inv
  unfold copy_room
  dsimp only
  split
  · obtain ⟨next, later⟩ := submit_next_inv under
    refine ⟨next, after.trans later, clear.after later, ?_⟩
    rw [submit_next_used under, ← half_room]
    omega
  · rename_i room
    simp only [copy_full, Bool.or_eq_true, decide_eq_true_iff, not_or, Nat.not_lt] at room
    exact ⟨under, after, clear, room.1.1.1.2⟩

theorem hold_copy_works (C : Copy) (image : Option Nat) (s : Backend) :
    (hold_copy C image s).works = Function.update s.works s.cur
      ((s.works s.cur).recorded s.seq_cur
        ⟨C, s.dest_used, image, s.image_used, C.ow * C.oh⟩) :=
  works_set_slot ..

theorem begin_cb_recording (s : Backend) : (begin_cb s).recording = true := by
  unfold begin_cb
  split
  · rename_i here
    exact here
  · rfl

theorem begin_seed (C : Copy) (s : Backend) :
    begin_cb (seed_copy C s) = seed_copy C (begin_cb s) := by
  unfold begin_cb
  split
  · rename_i here
    rw [if_pos (show s.recording = true from here)]
  · rename_i here
    rw [if_neg (show ¬ s.recording = true from here)]
    rfl

theorem hold_seed_inv {C : Copy} (image : Option Nat) (inv : Inv c ram0 s) (clear : Clear C s)
    (room : s.dest_used + C.extent ≤ half_end DEST_BYTES s.cur) (here : C.seq = s.seq_cur)
    (new : ∀ D ∈ s.accepted, D.seq < s.seq_cur) (recording : s.recording = true) :
    Inv c ram0 (hold_copy C image (seed_copy C s)) := by
  have ready := inv.ready
  let L : Land := ⟨C, s.dest_used, image, s.image_used, C.ow * C.oh⟩
  have works : (hold_copy C image (seed_copy C s)).works =
      Function.update s.works s.cur ((s.works s.cur).recorded s.seq_cur L) :=
    hold_copy_works ..
  have here_work : (hold_copy C image (seed_copy C s)).works s.cur =
      (s.works s.cur).recorded s.seq_cur L := by
    rw [works, Function.update_self]
  have lands : (hold_copy C image (seed_copy C s)).current.land = s.current.land ++ [L] :=
    congrArg Work.land here_work
  constructor
  · rw [works]
    apply inv.held.record (L := L) ready.one_slot ready.rests here new clear ready.dest_low room
    exact ready.dest_after
  · constructor
    · exact ready.one_slot
    · exact (congrArg Work.inflight here_work).trans ready.rests
    · intro t different rests
      have elsewhere : t ≠ s.cur := different
      have other : (hold_copy C image (seed_copy C s)).works t = s.works t := by
        rw [works, Function.update_of_ne elsewhere]
      change ((hold_copy C image (seed_copy C s)).works t).land = []
      change ((hold_copy C image (seed_copy C s)).works t).inflight = false at rests
      rw [other] at rests ⊢
      exact ready.other_empty t different rests
    · intro idle
      cases recording.symm.trans idle
    · exact Nat.le_trans ready.dest_low (Nat.le_add_right _ _)
    · intro M member
      change M.dest_at + M.copy.extent ≤ s.dest_used + C.extent
      rw [lands] at member
      rcases List.mem_append.mp member with old | last
      · have before := ready.dest_after M old
        omega
      · cases List.mem_singleton.mp last
        exact Nat.le_refl _
    · exact ready.pool_low
  · intro w member
    rcases List.mem_append.mp member with old | last
    · exact inv.clear w old
    · rw [List.mem_singleton.mp last]
      exact host_write_clear ready .dest ready.dest_low room

/-- A copy recorded, seeded from guest RAM as it is. -/
theorem record_copy_inv {C : Copy} (image : Option Nat) (inv : Inv c ram0 s) (clear : Clear C s)
    (room : s.dest_used + C.extent ≤ half_end DEST_BYTES s.cur) (here : C.seq = s.seq_cur)
    (new : ∀ D ∈ s.accepted, D.seq < s.seq_cur) : Inv c ram0 (record_copy C image s) := by
  have begun := begin_cb_aside (c := c) s
  have after := begun.after
  rw [record_copy, begin_seed]
  apply hold_seed_inv image (begun.inv inv) (clear.after after)
  · rw [begun.dest_used, begun.cur]
    exact room
  · rw [after.seq_cur]
    exact here
  · rw [after.accepted, after.seq_cur]
    exact new
  · exact begin_cb_recording s

theorem record_copy_kept (C : Copy) (image : Option Nat) (s : Backend) :
    (record_copy C image s).accepted = s.accepted ++ [C] ∧
      (record_copy C image s).seq_cur = s.seq_cur ∧ (record_copy C image s).mine = s.mine := by
  unfold record_copy begin_cb
  split <;> exact ⟨rfl, rfl, rfl⟩

theorem serve_image_goes (C : Copy) (image : Option Nat) (s : Backend) :
    Goes c ram0 s (serve_image c C image s) :=
  (serve_aside image _ _ s).goes

theorem land_early_goes (s : Backend) : Goes c ram0 s (land_early c timing s) :=
  .ite (Goes.poll.trans (.ite (.refl _) .next)) (.refl s)

/-! Whole runs. -/

/-- The copies an event makes, as command `n`. -/
def Event.copies (n : Nat) : Event → List Copy
  | .copy_texture D => (D.writes n).toList
  | _ => []

def Event.is_command : Event → Bool
  | .draw _ | .clear _ | .copy_screen _ | .copy_texture _ => true
  | _ => false

/-- The copies a run makes, in command order, the first command numbered `n`. -/
def copies (n : Nat) : List Event → List Copy
  | [] => []
  | e :: events => e.copies n ++ copies (if e.is_command then n + 1 else n) events

/-- Between two events. -/
structure Between (c : Config) (ram0 : Nat → UInt8) (s : Backend) : Prop where
  inv : Inv c ram0 s
  seq_cur : s.seq_cur = s.mine
  numbered : ∀ C ∈ s.accepted, C.seq < s.mine

/-- A command that takes the copies `made` of its number. -/
def Takes (c : Config) (ram0 : Nat → UInt8) (made : Nat → List Copy)
    (command : Backend → Except Stop Backend) : Prop :=
  ∀ s s', Inv c ram0 s → (∀ C ∈ s.accepted, C.seq < s.seq_cur) → command s = .ok s' →
    Inv c ram0 s' ∧ s'.accepted = s.accepted ++ made s.seq_cur ∧ s'.seq_cur = s.seq_cur ∧
      s'.mine = s.mine

theorem Takes.none {command : Backend → Except Stop Backend}
    (goes : ∀ s s', command s = .ok s' → Goes c ram0 s s') :
    Takes c ram0 (fun _ => []) command := by
  intro s s' inv _ ran
  obtain ⟨inv', after⟩ := goes s s' ran inv
  exact ⟨inv', after.accepted.trans (List.append_nil _).symm, after.seq_cur, after.mine⟩

theorem writes_seq {D : TextureCopy} {n : Nat} {C : Copy} (writes : D.writes n = some C) :
    C.seq = n := by
  unfold TextureCopy.writes TextureCopy.copy at writes
  obtain ⟨made, _⟩ := Option.filter_eq_some_iff.mp writes
  obtain ⟨texfmt, _, rfl⟩ := Option.map_eq_some_iff.mp made
  rfl

theorem copy_texture_takes (D : TextureCopy) :
    Takes c ram0 (fun n => (D.writes n).toList) (copy_texture c timing D) := by
  intro s s' inv numbered ran
  unfold copy_texture at ran
  split at ran
  · rename_i none
    cases ran
    dsimp only
    rw [none]
    exact ⟨inv, (List.append_nil _).symm, rfl, rfl⟩
  · rename_i C writes
    split at ran
    · cases ran
    · rename_i fits
      rw [not_or, Nat.not_lt] at fits
      dsimp only at ran
      split at ran
      · cases ran
      · cases ran
        obtain ⟨placed, after, clear, room⟩ := copy_room_done inv fits.1
        obtain ⟨ticked, later⟩ := tick_inv timing placed
        have kept := tick_kept timing (copy_room c C s)
        have all := after.trans later
        have recorded := record_copy_inv D.image ticked (clear.after later) (by
          rw [kept.dest_used, kept.cur]
          exact room) (by
          rw [all.seq_cur]
          exact writes_seq writes) (by
          rw [all.accepted, all.seq_cur]
          exact numbered)
        obtain ⟨accepted, seq_cur, mine⟩ :=
          record_copy_kept C D.image (tick timing (copy_room c C s))
        obtain ⟨served, then_⟩ := serve_image_goes C D.image _ recorded
        obtain ⟨last, early⟩ := land_early_goes _ served
        have since := then_.trans early
        refine ⟨last, ?_, ?_, ?_⟩
        · change _ = s.accepted ++ (D.writes s.seq_cur).toList
          rw [since.accepted, accepted, all.accepted, writes]
          rfl
        · rw [since.seq_cur, seq_cur, all.seq_cur]
        · rw [since.mine, mine, all.mine]

theorem Between.timed {made : Nat → List Copy} {command : Backend → Except Stop Backend}
    (takes : Takes c ram0 made command) (own : ∀ n, ∀ C ∈ made n, C.seq = n)
    (between : Between c ram0 s) (ran : timed c timing s command = .ok s') :
    Between c ram0 s' ∧ s'.accepted = s.accepted ++ made s.mine ∧ s'.mine = s.mine + 1 := by
  have same : { s with seq_cur := s.mine } = s :=
    congrArg (fun n => ({ s with seq_cur := n } : Backend)) between.seq_cur.symm
  unfold Gxv.timed at ran
  rw [same] at ran
  obtain ⟨polled, after⟩ := slot_poll_inv timing between.inv
  cases done : command (slot_poll c timing s) with
  | error stop =>
      rw [done] at ran
      cases ran
  | ok t =>
      rw [done] at ran
      cases ran
      obtain ⟨inv, accepted, seq_cur, mine⟩ := takes _ t polled (by
        rw [after.accepted, after.seq_cur, between.seq_cur]
        exact between.numbered) done
      rw [after.accepted, after.seq_cur, between.seq_cur] at accepted
      rw [after.seq_cur, between.seq_cur] at seq_cur
      rw [after.mine] at mine
      have later : t.seq_cur ≤ t.mine + 1 := by omega
      refine ⟨⟨⟨⟨inv.held.settled.number later, inv.held.regions, inv.held.one_slot⟩, ?_,
        inv.clear⟩, rfl, ?_⟩, accepted, congrArg (· + 1) mine⟩
      · exact inv.ready.same (fun _ => ⟨rfl, rfl⟩) rfl id rfl (Nat.le_refl _)
      · intro C member
        change C.seq < t.mine + 1
        change C ∈ t.accepted at member
        rw [accepted] at member
        rcases List.mem_append.mp member with old | new
        · have before := between.numbered C old
          omega
        · rw [own s.mine C new, mine]
          omega

theorem Between.timed_copy {made : Nat → List Copy} {command : Backend → Except Stop Backend}
    (takes : Takes c ram0 made command) (own : ∀ n, ∀ C ∈ made n, C.seq = n)
    (between : Between c ram0 s) (ran : timed_copy c timing s command = .ok s') :
    Between c ram0 s' ∧ s'.accepted = s.accepted ++ made s.mine ∧ s'.mine = s.mine + 1 := by
  unfold Gxv.timed_copy at ran
  cases done : Gxv.timed c timing s command with
  | error stop =>
      rw [done] at ran
      cases ran
  | ok t =>
      rw [done] at ran
      cases ran
      obtain ⟨then_, accepted, mine⟩ := between.timed takes own done
      obtain ⟨inv, after⟩ := say_landed_inv then_.inv
      refine ⟨⟨inv, ?_, ?_⟩, after.accepted.trans accepted, after.mine.trans mine⟩
      · rw [after.seq_cur, after.mine]
        exact then_.seq_cur
      · rw [after.accepted, after.mine]
        exact then_.numbered

/-- What runs no command takes no copy. -/
theorem Between.goes (between : Between c ram0 s) (goes : Goes c ram0 s s') :
    Between c ram0 s' ∧ s'.accepted = s.accepted ∧ s'.mine = s.mine := by
  obtain ⟨inv, after⟩ := goes between.inv
  refine ⟨⟨inv, ?_, ?_⟩, after.accepted, after.mine⟩
  · rw [after.seq_cur, after.mine]
    exact between.seq_cur
  · rw [after.accepted, after.mine]
    exact between.numbered

theorem timed_idle_goes (s : Backend) : Goes c ram0 s (timed_idle c s) :=
  .ite .wait (.ite finish_all_inv (.refl s))

theorem copies_own (e : Event) (n : Nat) : ∀ C ∈ e.copies n, C.seq = n := by
  cases e with
  | copy_texture D =>
      intro C member
      exact writes_seq (Option.mem_toList.mp member)
  | _ =>
      intro C member
      cases member

theorem Between.step {e : Event} (between : Between c ram0 s)
    (ran : step c timing s e = .ok s') :
    Between c ram0 s' ∧ s'.accepted = s.accepted ++ e.copies s.mine ∧
      s'.mine = if e.is_command then s.mine + 1 else s.mine := by
  have still : Between c ram0 s' ∧ s'.accepted = s.accepted ∧ s'.mine = s.mine →
      Between c ram0 s' ∧ s'.accepted = s.accepted ++ [] ∧ s'.mine = s.mine := by
    rw [List.append_nil]
    exact id
  cases e with
  | draw emits =>
      exact between.timed (.none fun _ _ drawn => emits_goes drawn)
        (copies_own (.draw emits)) ran
  | clear drawn =>
      have takes : Takes c ram0 (fun _ => [])
          fun s => .ok (if drawn then begin_cb s else s) := by
        apply Takes.none
        intro s t ran
        cases ran
        exact .ite .begin_cb (.refl s)
      exact between.timed takes (copies_own (.clear drawn)) ran
  | copy_screen D =>
      have takes : Takes c ram0 (fun _ => []) fun s => .ok (copy_screen c D s) := by
        apply Takes.none
        intro s t ran
        cases ran
        exact copy_screen_goes D s
      exact between.timed_copy takes (copies_own (.copy_screen D)) ran
  | copy_texture D =>
      exact between.timed_copy (copy_texture_takes D) (copies_own (.copy_texture D)) ran
  | idle =>
      cases ran
      exact still (between.goes (timed_idle_goes s))
  | reset_efb =>
      cases ran
      have goes : Goes c ram0 s (begin_cb (finish_all c s)) := Goes.trans finish_all_inv .begin_cb
      exact still (between.goes goes)
  | finish =>
      cases ran
      exact still (between.goes .wait)
  | settle =>
      cases ran
      exact still (between.goes finish_all_inv)

theorem Between.run {events : List Event} (between : Between c ram0 s)
    (ran : run c timing s events = .ok s') :
    Between c ram0 s' ∧ s'.accepted = s.accepted ++ copies s.mine events := by
  induction events generalizing s with
  | nil =>
      cases ran
      exact ⟨between, (List.append_nil _).symm⟩
  | cons e events ih =>
      unfold Gxv.run at ran
      rw [List.foldlM_cons] at ran
      cases first : Gxv.step c timing s e with
      | error stop =>
          rw [first] at ran
          cases ran
      | ok t =>
          rw [first] at ran
          obtain ⟨next, accepted, mine⟩ := between.step first
          obtain ⟨last, all⟩ := ih next ran
          refine ⟨last, ?_⟩
          rw [all, accepted, mine, List.append_assoc]
          rfl

theorem start_between (c : Config) (measure : Bool) (ram0 : Nat → UInt8) :
    Between c ram0 (.start c measure ram0) := by
  have empty : ∀ t, ((Backend.start c measure ram0).works t).land = [] := fun _ => rfl
  have none : ∀ L, L ∉ pending (Backend.start c measure ram0).works := by
    intro L member
    obtain ⟨t, here⟩ := mem_pending.mp member
    rw [empty] at here
    cases here
  refine ⟨⟨⟨?_, ?_, fun _ => rfl⟩, ?_, nofun⟩, rfl, nofun⟩
  · refine ⟨.nil, nofun, fun L member => absurd member (none L), .nil,
      fun L member => absurd member (none L), rfl, fun L member => absurd member (none L),
      Nat.le_refl _, nofun, .nil⟩
  · intro t
    exact ⟨fun _ => rfl, rfl, nofun, nofun, .nil, nofun⟩
  · exact ⟨fun _ => rfl, rfl, fun _ _ _ => rfl, fun _ => ⟨rfl, rfl⟩, Nat.le_refl _, nofun,
      Nat.le_refl _⟩

/-! What a run leaves in guest RAM, and tells of it. -/

/-- Where nothing is left to land, guest RAM is that of the copies made one
after another; whatever was told of landings was so, and rose; and the host
wrote no region of a slot in flight. -/
structure Right (c : Config) (ram0 : Nat → UInt8) (made : List Copy) (s : Backend) : Prop where
  landed : (∀ t, (s.slot t).land = []) → s.ram = run_ops Copy.run made ram0
  told : ∀ d ∈ s.told, d.right ram0 made
  rising : s.told.Pairwise fun d e => d.n < e.n
  clear : ∀ w ∈ s.writes, w.clear c

theorem Inv.right (inv : Inv c ram0 s) : Right c ram0 s.accepted s where
  landed empty := by
    have none : pending s.works = [] := by
      rw [pending, show (s.works false).land = [] from empty false,
        show (s.works true).land = [] from empty true]
      rfl
    rw [inv.held.settled.ram, none]
    exact congrArg (run_ops Copy.run · ram0) (settled_nil _)
  told d member := (inv.held.settled.told d member).2
  rising := inv.held.settled.rising
  clear := inv.clear

/-- A run that stores nowhere outside its arrays does all of it. -/
theorem run_right {measure : Bool} {events : List Event}
    (ran : run c timing (.start c measure ram0) events = .ok s) :
    Right c ram0 (copies 0 events) s := by
  obtain ⟨between, accepted⟩ := (start_between c measure ram0).run ran
  have right := between.inv.right
  rw [accepted] at right
  exact right

/-- A finish leaves nothing to land. -/
theorem run_finish_ram {measure : Bool} {events : List Event}
    (ran : run c timing (.start c measure ram0) events = .ok s) :
    (land_wait c s).ram = run_ops Copy.run (copies 0 events) ram0 := by
  obtain ⟨between, accepted⟩ := (start_between c measure ram0).run ran
  obtain ⟨inv, after⟩ := submit_wait_inv between.inv
  have right := inv.right.landed
  rw [after.accepted, accepted] at right
  apply right
  intro t
  have none := land_wait_empty between.inv
  rw [pending, List.append_eq_nil_iff] at none
  cases t with
  | false => exact none.1
  | true => exact none.2

end SoaPort.Gxv
