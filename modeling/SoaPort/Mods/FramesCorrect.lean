import SoaPort.Mods.ConflictsCorrect

namespace SoaPort.Mods

open Lib Recomp

/-! Whole frames, and runs of them. -/

variable {ρ : Type} (rt : Runtime ρ) {text : Text}

/-! The patches as cells. -/

section Cells

/-- Where a patch's slots are, and how many. -/
def Patch.area (p : Patch) : Nat × Nat := (p.slot, p.slots)

/-- A later patch's slots lie past an earlier one's. -/
def Ahead (a b : Nat × Nat) : Prop := b.2 = 0 ∨ a.1 + a.2 ≤ b.1

structure Cells (ps : List Patch) (g_slots : Nat → Slot) (cs : List Cell) : Prop where
  placed : List.Forall₂ (fun p c => Placed p g_slots c) ps cs
  ahead : (ps.map Patch.area).Pairwise Ahead

structure Stepped (ps : List Patch) (before : Nat → Slot)
    (r : List Patch × (Nat → Slot) × CpuState ρ) (q : List Cell × CpuState ρ) : Prop where
  placed : List.Forall₂ (fun p c => Placed p r.2.1 c) r.1 q.1
  areas : r.1.map Patch.area = ps.map Patch.area
  s : r.2.2 = q.2
  others : ∀ j, (∀ p ∈ ps, j < p.slot ∨ p.slot + p.slots ≤ j) → r.2.1 j = before j

theorem placed_after {ps : List Patch} {cs : List Cell} {before after : Nat → Slot}
    (placed : List.Forall₂ (fun p c => Placed p before c) ps cs)
    (kept : ∀ p ∈ ps, ∀ i < p.slots, after (p.slot + i) = before (p.slot + i)) :
    List.Forall₂ (fun p c => Placed p after c) ps cs := by
  induction placed with
  | nil => exact .nil
  | @cons p c ps cs first _ ih =>
      have here := kept p List.mem_cons_self
      refine .cons ⟨first.core, fun i less => ?_⟩ (ih fun q later => kept q (List.mem_cons_of_mem _ later))
      rw [here i less]
      exact first.slots i less

/-- A frame's patches step as their cells do, one after another. -/
theorem patches_step_cells {ps : List Patch} {g_slots : Nat → Slot} {cs : List Cell}
    (cells : Cells ps g_slots cs) (w : When) (s : CpuState ρ) :
    Stepped ps g_slots (patches_step rt text w ps g_slots s)
      (run_cells (cell_step rt text w) cs s) := by
  obtain ⟨placed, ahead⟩ := cells
  induction ps generalizing g_slots cs s with
  | nil =>
      cases placed
      exact ⟨.nil, rfl, rfl, fun _ _ => rfl⟩
  | cons p ps ih =>
      cases placed with
      | @cons _ c _ cs first rest =>
          obtain ⟨past, ahead⟩ := List.pairwise_cons.mp ahead
          have after : ∀ q ∈ ps, q.slots = 0 ∨ p.slot + p.slots ≤ q.slot := fun q member =>
            past q.area (List.mem_map_of_mem member)
          have one := @patch_step_matches _ rt text _ _ _ first w s
          rw [patches_step, run_cells]
          dsimp only
          generalize patch_step rt text w p g_slots s = r at one ⊢
          generalize cell_step rt text w c s = q at one ⊢
          have kept : ∀ d ∈ ps, ∀ i < d.slots, r.2.1 (d.slot + i) = g_slots (d.slot + i) := by
            intro d member i less
            apply one.others
            have := after d member
            omega
          have more := ih r.2.2 (placed_after rest kept) ahead
          rw [← one.s]
          constructor
          · refine .cons ⟨one.core, fun i less => ?_⟩ more.placed
            rw [one.slots] at less
            rw [one.slot, more.others, one.own i less]
            intro d member
            have := after d member
            omega
          · rw [List.map_cons, List.map_cons, more.areas, Patch.area, one.slot, one.slots, Patch.area]
          · exact more.s
          · intro j outside
            rw [more.others j fun d member => outside d (List.mem_cons_of_mem _ member)]
            exact one.others j (outside p List.mem_cons_self)

/-! As they load. -/

/-- A slot nothing was written for. -/
def Slot.empty : Slot := ⟨false, 0, 0, 0⟩

def Patch.cell (p : Patch) : Cell := (p, fun _ => .empty)

theorem place_cells {mod slot : Nat} {ps : List Patch} (fresh : ∀ p ∈ ps, p.core = p) :
    List.Forall₂ (fun p c => Placed p (fun _ => .empty) c) (place mod slot ps)
      (ps.map Patch.cell) := by
  induction ps generalizing slot with
  | nil => exact .nil
  | cons p ps ih =>
      exact .cons ⟨fresh p List.mem_cons_self, fun _ _ => rfl⟩
        (ih fun q member => fresh q (List.mem_cons_of_mem _ member))

theorem assemble_cells {mod slot : Nat} {pss : List (List Patch)}
    (fresh : ∀ ps ∈ pss, ∀ p ∈ ps, p.core = p) :
    List.Forall₂ (fun p c => Placed p (fun _ => .empty) c) (assemble mod slot pss)
      (pss.map (·.map Patch.cell)).flatten := by
  induction pss generalizing mod slot with
  | nil => exact .nil
  | cons ps pss ih =>
      rw [assemble, List.map_cons, List.flatten_cons]
      exact List.rel_append (place_cells (fresh ps List.mem_cons_self))
        (ih fun qs member => fresh qs (List.mem_cons_of_mem _ member))

/-- Slots that lie between two bounds, each patch's past those before it. -/
structure Between (low high : Nat) (areas : List (Nat × Nat)) : Prop where
  inside : ∀ a ∈ areas, (a.2 = 0 ∨ low ≤ a.1) ∧ a.1 + a.2 ≤ high
  ahead : areas.Pairwise Ahead

theorem Between.append {low middle high : Nat} {areas more : List (Nat × Nat)}
    (first : Between low middle areas) (second : Between middle high more) (up : low ≤ middle)
    (down : middle ≤ high) : Between low high (areas ++ more) := by
  constructor
  · intro a member
    rcases List.mem_append.mp member with before | after
    · have := first.inside a before
      omega
    · have := second.inside a after
      omega
  · refine List.pairwise_append.mpr ⟨first.ahead, second.ahead, fun a before b after => ?_⟩
    have := first.inside a before
    have := second.inside b after
    rw [Ahead]
    omega

theorem placed_between (p : Patch) (mod slot : Nat) :
    Between slot (slot + p.slots) [(p.placed mod slot).area] := by
  refine ⟨fun a member => ?_, List.pairwise_singleton _ _⟩
  rw [List.mem_singleton.mp member]
  by_cases mul : p.mul = true
  · simp [Patch.area, Patch.placed, Patch.slots, mul]
  · simp [Patch.area, Patch.placed, Patch.slots, mul]

theorem place_between (mod slot : Nat) (ps : List Patch) :
    Between slot (slot + slots_of ps) ((place mod slot ps).map Patch.area) := by
  induction ps generalizing slot with
  | nil => exact ⟨fun a none => (nomatch none), .nil⟩
  | cons p ps ih =>
      have count : slots_of (p :: ps) = p.slots + slots_of ps := List.sum_cons
      rw [count, ← Nat.add_assoc]
      exact (placed_between p mod slot).append (ih _) (Nat.le_add_right _ _) (Nat.le_add_right _ _)

theorem assemble_between (mod slot : Nat) (pss : List (List Patch)) :
    Between slot (slot + slots_of pss.flatten) ((assemble mod slot pss).map Patch.area) := by
  induction pss generalizing mod slot with
  | nil => exact ⟨fun a none => (nomatch none), .nil⟩
  | cons ps pss ih =>
      rw [List.flatten_cons, slots_of_append, ← Nat.add_assoc, assemble, List.map_append]
      exact (place_between mod slot ps).append (ih _ _) (Nat.le_add_right _ _)
        (Nat.le_add_right _ _)

theorem start_cells {pss : List (List Patch)} (fresh : ∀ ps ∈ pss, ∀ p ∈ ps, p.core = p) :
    Cells (assemble 0 0 pss) (fun _ => .empty) (pss.map (·.map Patch.cell)).flatten :=
  ⟨assemble_cells fresh, (assemble_between 0 0 pss).ahead⟩

end Cells

/-! One frame, the mods in two orders. -/

section Orders

/-- A cell's patch as it loaded. -/
def Cell.loaded (c : Cell) : Patch := { c.1 with fired := false }

theorem cell_step_loaded (base : Word) (w : When) (c : Cell) (s : CpuState ρ) :
    Cell.loaded (cell_step_at rt text base w c s).1 = Cell.loaded c := by
  rw [cell_step_at]
  dsimp only
  rw [step_at]
  split
  · rfl
  · split
    · dsimp only
      split
      · rfl
      · rfl
    · rfl

/-- What the patches of mods loaded together are: sound, and all direct or
all through the pointer word at `ea`. -/
structure Together (through : Bool) (ea : Word) (pss : List (List Patch)) : Prop where
  sound : ∀ ps ∈ pss, ∀ p ∈ ps, p.Sound
  ptr : ∀ ps ∈ pss, ∀ p ∈ ps, p.ptr = through
  word : ∀ ps ∈ pss, ∀ p ∈ ps, through = true → p.ea = ea
  apart : pss.Pairwise Apart

/-- A patch not skipped leaves the pointer word alone. -/
def Leaves (text : Text) (w : When) (base ea : Word) (p : Patch) : Prop :=
  p.skipped w = false → ∀ a, p.Hits text base w.key a → ¬ Within ea.toNat 4 a

/-- A step through a pointer word that no patch writes. -/
theorem cell_step_kept {c : Cell} (sound : c.1.Sound) {base ea : Word} {w : When}
    (through : c.1.ptr = true) (at_ea : c.1.ea = ea) (leaves : Leaves text w base ea c.1)
    {s : CpuState ρ} (word : (mem_r32 rt s ea).1 = base) :
    cell_step rt text w c s = cell_step_at rt text base w c s ∧
      (mem_r32 rt (cell_step rt text w c s).2 ea).1 = base := by
  have step : cell_step rt text w c s = cell_step_at rt text base w c s := by
    rw [cell_step, patch_step_at rt sound, at_ea, word]
    rfl
  refine ⟨step, ?_⟩
  rw [step]
  cases skipped : c.1.skipped w with
  | true => rwa [cell_skipped rt skipped]
  | false =>
      have m6 : is_m6 c.1 = true := by
        rw [is_m6, through]
        simp
      have inside : InRam ea.toNat 4 := at_ea ▸ sound.word (.inl through)
      have same : Arch.readBE (cell_step_at rt text base w c s).2.mem (ea.toNat - 0x80000000) 4 =
          Arch.readBE s.mem (ea.toNat - 0x80000000) 4 := by
        refine readBE_congr fun a above below => ?_
        refine (@cell_m6_local _ rt text _ _ skipped m6 base).keeps s a fun hit => ?_
        have low := inside.1
        exact leaves skipped a hit ⟨by omega, by omega⟩
      rw [mem_r32_ram rt inside] at word ⊢
      dsimp only at word ⊢
      rw [same, word]

theorem cell_step_direct {c : Cell} (sound : c.1.Sound) (direct : c.1.ptr = false) (base : Word)
    (w : When) (s : CpuState ρ) : cell_step rt text w c s = cell_step_at rt text base w c s := by
  have apply : ∀ b, apply_at rt text b s c.2 c.1 w.key =
      apply_at rt text base s c.2 c.1 w.key := by
    intro b
    have here : ∀ b, ¬ c.1.Passed b w.key := fun b passed => by
      rw [Patch.Passed, direct] at passed
      exact Bool.false_ne_true passed.1
    rw [apply_at, apply_at, if_neg (here b), if_neg (here base), direct]
    rfl
  rw [cell_step, cell_step_at, patch_step_at rt sound, step_at, step_at, apply]

variable {through : Bool} {ea : Word} {css css' : List (List Cell)}

/-- The mods' patches as they loaded. -/
def loaded_of (css : List (List Cell)) : List (List Patch) := css.map (·.map Cell.loaded)

theorem Together.cell (together : Together through ea (loaded_of css)) {c : Cell}
    (member : c ∈ css.flatten) :
    c.1.Sound ∧ c.1.ptr = through ∧ (through = true → c.1.ea = ea) := by
  obtain ⟨cs, block, inside⟩ := List.mem_flatten.mp member
  have ps_in : cs.map Cell.loaded ∈ loaded_of css := List.mem_map_of_mem block
  have p_in : c.loaded ∈ cs.map Cell.loaded := List.mem_map_of_mem inside
  have sound := together.sound _ ps_in _ p_in
  have ptr := together.ptr _ ps_in _ p_in
  have word := together.word _ ps_in _ p_in
  exact ⟨⟨sound.word, sound.still⟩, ptr, word⟩

theorem Together.perm {pss pss' : List (List Patch)} (together : Together through ea pss)
    (perm : pss'.Perm pss) : Together through ea pss' where
  sound ps member := together.sound ps (perm.mem_iff.mp member)
  ptr ps member := together.ptr ps (perm.mem_iff.mp member)
  word ps member := together.word ps (perm.mem_iff.mp member)
  apart := (perm.pairwise_iff fun apart => Apart.symm apart).mpr together.apart

/-- The blocks of mods that loaded together commute. -/
theorem Together.blocks (together : Together through ea (loaded_of css)) (base : Word) (w : When) :
    css.Pairwise fun as bs =>
      Commute (run_cells (cell_step_at rt text base w) as)
        (run_cells (cell_step_at rt text base w) bs) := by
  refine (List.pairwise_map.mp together.apart).imp_of_mem fun {as bs} as_in bs_in apart => ?_
  refine .blocks fun a a_in b b_in => ?_
  have a_loaded : a.loaded ∈ as.map Cell.loaded := List.mem_map_of_mem a_in
  have b_loaded : b.loaded ∈ bs.map Cell.loaded := List.mem_map_of_mem b_in
  obtain ⟨sound_a, ptr_a, word_a⟩ := together.cell (List.mem_flatten_of_mem as_in a_in)
  obtain ⟨sound_b, ptr_b, word_b⟩ := together.cell (List.mem_flatten_of_mem bs_in b_in)
  have same : SameBase a.1 b.1 := by
    refine ⟨ptr_a.trans ptr_b.symm, fun ptr => ?_⟩
    have known := ptr_a.symm.trans ptr
    exact (word_a known).trans (word_b known).symm
  have clear := apart _ a_loaded _ b_loaded
  exact apart_commutes rt sound_a sound_b same clear base w

/-- A frame's steps, the pointer word the same through all of them. -/
theorem Together.steps_at (together : Together through ea (loaded_of css)) {base : Word} {w : When}
    {s : CpuState ρ} (word : through = true → (mem_r32 rt s ea).1 = base)
    (leaves : through = true → ∀ c ∈ css.flatten, Leaves text w base ea c.1) :
    run_cells (cell_step rt text w) css.flatten s =
      run_cells (cell_step_at rt text base w) css.flatten s := by
  let keeps (s : CpuState ρ) : Prop := through = true → (mem_r32 rt s ea).1 = base
  refine (@run_cells_congr _ _ _ _ _ keeps (fun c member s word => ?_) s word).1
  obtain ⟨sound, ptr, at_ea⟩ := together.cell member
  cases through with
  | false => exact ⟨cell_step_direct rt sound ptr base w s, fun none => nomatch none⟩
  | true =>
      obtain ⟨step, kept⟩ :=
        cell_step_kept rt sound ptr (at_ea rfl) (leaves rfl c member) (word rfl)
      exact ⟨step, fun _ => kept⟩

/-- The blocks in another order leave the guest the same, and their cells. -/
theorem Together.frame (together : Together through ea (loaded_of css)) (perm : css'.Perm css)
    {base : Word} {w : When} {s : CpuState ρ}
    (word : through = true → (mem_r32 rt s ea).1 = base)
    (leaves : through = true → ∀ c ∈ css.flatten, Leaves text w base ea c.1) :
    (run_cells (cell_step rt text w) css'.flatten s).2 =
        (run_cells (cell_step rt text w) css.flatten s).2 ∧
      ∃ ds ds' : List (List Cell), (run_cells (cell_step rt text w) css.flatten s).1 = ds.flatten ∧
        (run_cells (cell_step rt text w) css'.flatten s).1 = ds'.flatten ∧ ds'.Perm ds ∧
        loaded_of ds = loaded_of css := by
  have together' : Together through ea (loaded_of css') := together.perm (perm.map _)
  have flat : css'.flatten.Perm css.flatten := perm.flatten
  have step := together.steps_at rt word leaves
  have step' := together'.steps_at rt word fun known c member =>
    leaves known c (flat.mem_iff.mp member)
  obtain ⟨state, results⟩ := run_cells_perm perm (@Together.blocks _ rt text _ _ _ together base w) s
  rw [step', step, run_cells_flatten, run_cells_flatten]
  refine ⟨state, _, _, rfl, rfl, results, ?_⟩
  exact run_cells_map (fun cs s => run_cells_map (cell_step_loaded rt base w) cs s) css s

end Orders

/-! Every frame of a run. -/

section Runs

variable {through : Bool} {ea : Word} {css css' : List (List Cell)} {r r' : Running}

/-- Two orders of the same mods, running. -/
structure Orders (through : Bool) (ea : Word) (r r' : Running) (css css' : List (List Cell)) :
    Prop where
  cells : Cells r.g_patches r.g_slots css.flatten
  cells' : Cells r'.g_patches r'.g_slots css'.flatten
  perm : css'.Perm css
  together : Together through ea (loaded_of css)
  last_map : r'.g_last_map = r.g_last_map
  reload : r'.g_patch_reload = r.g_patch_reload

/-- No patch writes the pointer word this frame. -/
def PointerLeft (text : Text) (ea : Word) (r : Running) (s : CpuState ρ) : Prop :=
  let (w, s) := frame_when rt r s
  ∀ p ∈ r.g_patches, Leaves text w (mem_r32 rt s ea).1 ea p

/-- No patch ever writes the pointer word. -/
def PointerKept (text : Text) (ea : Word) :
    Running → CpuState ρ → List (CpuState ρ → CpuState ρ) → Prop
  | _, _, [] => True
  | r, s, guest :: more =>
      PointerLeft rt text ea r (guest s) ∧
        let (r, s) := mod_frame rt text r (guest s)
        PointerKept text ea r s more

theorem Cells.mem {ps : List Patch} {g_slots : Nat → Slot} {cs : List Cell}
    (cells : Cells ps g_slots cs) {c : Cell} (member : c ∈ cs) : ∃ p ∈ ps, p.core = c.1 := by
  have placed := cells.placed
  clear cells
  induction placed with
  | nil => cases member
  | @cons p d ps cs first _ ih =>
      rcases List.mem_cons.mp member with rfl | later
      · exact ⟨p, List.mem_cons_self, first.core⟩
      · obtain ⟨q, inside, core⟩ := ih later
        exact ⟨q, List.mem_cons_of_mem _ inside, core⟩

theorem frame_when_same (orders : Orders through ea r r' css css') (s : CpuState ρ) :
    frame_when rt r' s = frame_when rt r s := by
  have last_map := orders.last_map
  have reload := orders.reload
  obtain ⟨ps, slots, map, seen⟩ := r
  obtain ⟨ps', slots', map', seen'⟩ := r'
  dsimp only at last_map reload
  subst last_map reload
  rfl

/-- What a frame's patches make of a run. -/
def next_running (r : Running) (w : When) (g_patches : List Patch) (g_slots : Nat → Slot) :
    Running where
  g_patches := g_patches
  g_slots := g_slots
  g_last_map := if w.state = FIELD_RUNNING then w.key else r.g_last_map
  g_patch_reload := if w.state = FIELD_RUNNING then false else Mods.reload r w.state

theorem mod_frame_some (some : r.g_patches ≠ []) (s : CpuState ρ) :
    mod_frame rt text r s =
      let (w, s) := frame_when rt r s
      let (g_patches, g_slots, s) := patches_step rt text w r.g_patches r.g_slots s
      (next_running r w g_patches g_slots, s) := by
  rw [mod_frame, if_neg some]
  rfl

theorem Orders.step (orders : Orders through ea r r' css css') (s : CpuState ρ)
    (left : through = true → PointerLeft rt text ea r s) :
    (mod_frame rt text r' s).2 = (mod_frame rt text r s).2 ∧
      ∃ ds ds', Orders through ea (mod_frame rt text r s).1 (mod_frame rt text r' s).1 ds ds' := by
  have lengths := orders.cells.placed.length_eq
  have lengths' := orders.cells'.placed.length_eq
  have count := orders.perm.flatten.length_eq
  by_cases none : r.g_patches = []
  · have none' : r'.g_patches = [] := by
      rw [none] at lengths
      exact List.eq_nil_of_length_eq_zero (lengths'.trans (count.trans lengths.symm))
    rw [mod_frame, mod_frame, if_pos none, if_pos none']
    exact ⟨rfl, css, css', orders⟩
  · have some' : r'.g_patches ≠ [] := fun none' => by
      rw [none'] at lengths'
      exact none (List.eq_nil_of_length_eq_zero (lengths.trans (count.symm.trans lengths'.symm)))
    rw [mod_frame_some rt none, mod_frame_some rt some', frame_when_same rt orders]
    rw [PointerLeft] at left
    generalize frame_when rt r s = f at left ⊢
    obtain ⟨w, s⟩ := f
    dsimp only at left ⊢
    obtain ⟨placed, areas, guest, _⟩ := @patches_step_cells _ rt text _ _ _ orders.cells w s
    obtain ⟨placed', areas', guest', _⟩ := @patches_step_cells _ rt text _ _ _ orders.cells' w s
    have leaves : through = true →
        ∀ c ∈ css.flatten, Leaves text w (mem_r32 rt s ea).1 ea c.1 := by
      intro known c member
      obtain ⟨p, inside, core⟩ := orders.cells.mem member
      rw [← core]
      exact left known p inside
    obtain ⟨state, ds, ds', cells, cells', perm, same⟩ :=
      orders.together.frame rt orders.perm (fun _ => rfl) leaves
    rw [cells] at placed
    rw [cells'] at placed'
    refine ⟨guest'.trans (state.trans guest.symm), ds, ds', ⟨placed, ?_⟩, ⟨placed', ?_⟩,
      perm, same ▸ orders.together, ?_, ?_⟩
    · rw [next_running, areas]
      exact orders.cells.ahead
    · rw [next_running, areas']
      exact orders.cells'.ahead
    · simp only [next_running, orders.last_map]
    · simp only [next_running, Mods.reload, orders.reload]

theorem Orders.frames (orders : Orders through ea r r' css css') (s : CpuState ρ)
    (gs : List (CpuState ρ → CpuState ρ)) (kept : through = true → PointerKept rt text ea r s gs) :
    frames rt text r' s gs = frames rt text r s gs := by
  induction gs generalizing r r' css css' s with
  | nil => rfl
  | cons guest more ih =>
      obtain ⟨state, ds, ds', next⟩ := orders.step rt (guest s) fun known => (kept known).1
      rw [Mods.frames, Mods.frames]
      dsimp only
      rw [state]
      exact congrArg _ (ih next _ fun known => (kept known).2)

end Runs

/-! Mods that load, in any order. -/

section Loads

variable {files files' : List ModFile}

theorem Loadable.fresh_patches (loadable : Loadable text files) :
    ∀ ps ∈ files.map (·.patches text), ∀ p ∈ ps, p.Fresh := by
  intro ps member
  obtain ⟨f, inside, rfl⟩ := List.mem_map.mp member
  exact patches_fresh (loadable.read f inside)

theorem loaded_start {pss : List (List Patch)} (fresh : ∀ ps ∈ pss, ∀ p ∈ ps, p.Fresh) :
    loaded_of (pss.map (·.map Patch.cell)) = pss := by
  rw [loaded_of, List.map_map]
  refine (List.map_congr_left fun ps member => ?_).trans (List.map_id pss)
  rw [Function.comp_apply, List.map_map]
  refine (List.map_congr_left fun p inside => ?_).trans (List.map_id ps)
  rw [Function.comp_apply, Cell.loaded, Patch.cell, id_eq]
  have known := (fresh ps member p inside).fired
  cases p
  dsimp only at known ⊢
  rw [known]

/-- The cells of mods as they load. -/
def cells_of (text : Text) (files : List ModFile) : List (List Cell) :=
  (files.map (·.patches text)).map (·.map Patch.cell)

/-- Two orders of mods that load start alike. -/
theorem Accepts.start {through : Bool} {ea : Word} (accepts : Accepts text .init files)
    (unrelated : files.Pairwise Unrelated) (perm : files'.Perm files)
    (ptr : ∀ f ∈ files, ∀ p ∈ f.patches text, p.ptr = through)
    (word : ∀ f ∈ files, ∀ p ∈ f.patches text, through = true → p.ea = ea) :
    Orders through ea (.start (load text files)) (.start (load text files'))
      (cells_of text files) (cells_of text files') := by
  have loadable := accepts.loadable unrelated
  have accepts' := accepts.perm unrelated perm
  have unrelated' := (perm.pairwise_iff fun related => And.symm related).mpr unrelated
  have fresh := loadable.fresh_patches
  have fresh' := (loadable.perm perm).fresh_patches
  have holds := accepts.holds unrelated
  have holds' := accepts'.holds unrelated'
  have start := start_cells fun ps member p inside => (fresh ps member p inside).core
  have start' := start_cells fun ps member p inside => (fresh' ps member p inside).core
  refine ⟨?_, ?_, ?_, ?_, rfl, rfl⟩
  · rw [← holds.patches] at start
    exact start
  · rw [← holds'.patches] at start'
    exact start'
  · exact (perm.map _).map _
  · have same : loaded_of (cells_of text files) = _ := loaded_start fresh
    rw [same]
    constructor
    · exact fun ps member p inside => (fresh ps member p inside).sound
    · intro ps member
      obtain ⟨f, inside, rfl⟩ := List.mem_map.mp member
      exact ptr f inside
    · intro ps member
      obtain ⟨f, inside, rfl⟩ := List.mem_map.mp member
      exact word f inside
    · exact List.pairwise_map.mpr (loadable.apart.imp fun apart => apart.symm)

/-- Two patches of different mods, on one base, that apply on one frame. -/
theorem Accepts.writes {p q : Patch} (accepts : Accepts text .init files)
    (unrelated : files.Pairwise Unrelated) (p_in : p ∈ (load text files).g_patches)
    (q_in : q ∈ (load text files).g_patches) (different : p.mod ≠ q.mod) (same : SameBase p q)
    {w : When} (p_applies : p.skipped w = false) (q_applies : q.skipped w = false) (base : Word) :
    (∀ a, p.Touches base a → ¬ q.Touches base a) ∨ SameWrite p q := by
  have loadable := accepts.loadable unrelated
  have apart : (files.map (·.patches text)).Pairwise Apart :=
    List.pairwise_map.mpr (loadable.apart.imp fun apart => apart.symm)
  rw [(accepts.holds unrelated).patches] at p_in q_in
  obtain ⟨i, ps, found_p, p, p_in, slot_p, rfl⟩ := mem_assemble p_in
  obtain ⟨j, qs, found_q, q, q_in, slot_q, rfl⟩ := mem_assemble q_in
  obtain ⟨in_i, rfl⟩ := List.getElem?_eq_some_iff.mp found_p
  obtain ⟨in_j, rfl⟩ := List.getElem?_eq_some_iff.mp found_q
  have quiet : ¬ Meets p q := by
    rcases Nat.lt_or_gt_of_ne (fun equal => different (congrArg (0 + ·) equal)) with less | more
    · exact List.pairwise_iff_getElem.mp apart i j in_i in_j less p p_in q q_in
    · exact (List.pairwise_iff_getElem.mp apart j i in_j in_i more).symm p p_in q q_in
  have meet : conds_can_meet p q = true := conds_can_meet_of p_applies q_applies
  cases bytes : (bytes_meet p q).isSome with
  | false => exact .inl (touches_apart same bytes base)
  | true =>
      cases write : same_write p q with
      | false => exact absurd ⟨meet, bytes, write⟩ quiet
      | true =>
          obtain ⟨a, b, c, d, e, f, g, h, i⟩ := same_write_of write
          exact .inr ⟨a, b, c, d, e, f, g, h, i⟩

/-- All direct, or all through one pointer word that no patch writes. -/
def OneBase (text : Text) (files : List ModFile) (s : CpuState ρ)
    (gs : List (CpuState ρ → CpuState ρ)) : Prop :=
  (∀ f ∈ files, ∀ p ∈ f.patches text, p.ptr = false) ∨
    ∃ ea, (∀ f ∈ files, ∀ p ∈ f.patches text, p.ptr = true ∧ p.ea = ea) ∧
      PointerKept rt text ea (.start (load text files)) s gs

theorem Accepts.patch (accepts : Accepts text .init files) (unrelated : files.Pairwise Unrelated)
    {p : Patch} (member : p ∈ (load text files).g_patches) :
    ∃ f ∈ files, ∃ d ∈ f.patches text, p.ptr = d.ptr ∧ p.ea = d.ea := by
  rw [(accepts.holds unrelated).patches] at member
  obtain ⟨i, ps, found, d, inside, slot, rfl⟩ := mem_assemble member
  obtain ⟨f, listed, rfl⟩ := List.mem_map.mp (List.mem_of_getElem? found)
  exact ⟨f, listed, d, inside, rfl, rfl⟩

/-- A machine whose devices do nothing. -/
def still : Runtime Unit where
  mmio_read8 s _ := (0, s)
  mmio_read16 s _ := (0, s)
  mmio_read32 s _ := (0, s)
  mmio_write8 s _ _ := s
  mmio_write16 s _ _ := s
  mmio_write32 s _ _ := s
  gx_pipe_write s _ _ := s
  guest_timebase_lo s := (0, s)
  guest_timebase_hi s := (0, s)
  dec_read s := (0, s)
  dec_write s _ := s
  guest_syscall s _ := s
  guest_trap s _ := s
  guest_unimplemented s _ := s
  irq_poll s := s
  hook _ s := s
  trace_hit _ s := s
  fn _ s := s
  dispatch s _ := s

def blank : CpuState Unit where
  gpr _ := 0
  fpr _ := (0, 0)
  cr := 0
  xer := 0
  lr := 0
  ctr := 0
  fpscr := 0
  msr := 0
  pc := 0
  gqr _ := 0
  hid2 := 0
  wpar := 0
  spr _ := 0
  sr _ := 0
  mem _ := 0
  user := ()

/-- A word written every frame. -/
def word_mod : ModFile where
  id := ['a']
  dir := ['a']
  overrides := []
  lines := [⟨.every_frame, .u32, false, 0x80001000, 0, 0, false, 5, 1, none, none, none, none⟩]

/-- A half doubled at each map. -/
def half_mod : ModFile where
  id := ['b']
  dir := ['b']
  overrides := []
  lines := [⟨.on_map_load, .u16, false, 0x80001004, 0, 0, true, 2, 1, none, none, none, none⟩]

end Loads

end SoaPort.Mods
