import Mathlib
import SoaPort.Mods.Patches

namespace SoaPort.Mods

open Recomp

/-! What mods load as, and in which orders they do. -/

variable {text : Text}

/-- A patch in its place. -/
def Patch.placed (p : Patch) (mod slot : Nat) : Patch :=
  { p with slot := if p.mul then slot else 0, mod }

/-- A mod's patches in their places. -/
def place (mod : Nat) : Nat → List Patch → List Patch
  | _, [] => []
  | slot, p :: ps => p.placed mod slot :: place mod (slot + p.slots) ps

def slots_of (ps : List Patch) : Nat := (ps.map Patch.slots).sum

section Lines

variable {l : Loader}

/-- The patches of a mod's lines. -/
def patches_of (text : Text) (lines : List Line) : Option (List Patch) := lines.mapM (parse_line text)

theorem place_length (mod slot : Nat) (ps : List Patch) : (place mod slot ps).length = ps.length := by
  induction ps generalizing slot with
  | nil => rfl
  | cons p ps ih => rw [place, List.length_cons, List.length_cons, ih]

theorem parse_patches_none {lines : List Line} (refused : patches_of text lines = none) :
    parse_patches text l lines = none := by
  induction lines generalizing l with
  | nil => cases refused
  | cons t lines ih =>
      rw [parse_patches, parse_patch]
      rw [patches_of, List.mapM_cons] at refused
      cases line : parse_line text t with
      | none => rfl
      | some p =>
          rw [line] at refused
          have rest : patches_of text lines = none := by
            rw [patches_of]
            cases known : lines.mapM (parse_line text) with
            | none => rfl
            | some ps =>
                rw [known] at refused
                cases refused
          dsimp only
          split
          · rfl
          · split
            · rfl
            · exact ih rest

/-- Lines load while there is room for their patches and slots. -/
theorem parse_patches_some {lines : List Line} {ps : List Patch}
    (read : patches_of text lines = some ps) (patches : l.g_patches.length ≤ PATCH_MAX)
    (slots : l.g_slot_n ≤ SLOT_MAX) :
    parse_patches text l lines =
      if l.g_patches.length + ps.length ≤ PATCH_MAX ∧ l.g_slot_n + slots_of ps ≤ SLOT_MAX then
        some
          { l with
            g_patches := l.g_patches ++ place l.g_mods.length l.g_slot_n ps
            g_slot_n := l.g_slot_n + slots_of ps }
      else none := by
  induction lines generalizing l ps with
  | nil =>
      have empty : ps = [] := (Option.some.inj read).symm
      subst empty
      have nothing : place l.g_mods.length l.g_slot_n [] = [] := rfl
      rw [if_pos ⟨patches, slots⟩, parse_patches, nothing, List.append_nil]
      rfl
  | cons t lines ih =>
      rw [patches_of, List.mapM_cons] at read
      cases line : parse_line text t with
      | none =>
          rw [line] at read
          cases read
      | some p =>
          rw [line] at read
          cases known : lines.mapM (parse_line text) with
          | none =>
              rw [known] at read
              cases read
          | some qs =>
              rw [known] at read
              cases read
              have count : slots_of (p :: qs) = p.slots + slots_of qs := List.sum_cons
              rw [parse_patches, parse_patch, line, List.length_cons, count]
              dsimp only
              by_cases crowded : p.mul = true ∧ l.g_slot_n + p.slots > SLOT_MAX
              · rw [if_pos crowded, if_neg (by omega)]
                rfl
              · have room : l.g_slot_n + p.slots ≤ SLOT_MAX := by
                  by_cases mul : p.mul = true
                  · exact Nat.not_lt.mp fun more => crowded ⟨mul, more⟩
                  · rw [Patch.slots, if_neg mul]
                    exact slots
                rw [if_neg crowded]
                by_cases full : l.g_patches.length = PATCH_MAX
                · rw [if_pos full, if_neg (by omega)]
                  rfl
                · rw [if_neg full, Option.bind_some, ih known]
                  · dsimp only
                    rw [List.length_append, List.length_singleton]
                    congr 1
                    · rw [Nat.add_assoc, Nat.add_comm 1, Nat.add_assoc]
                    · rw [List.append_assoc, place, Nat.add_assoc]
                      rfl
                  · rw [List.length_append, List.length_singleton]
                    omega
                  · exact room

end Lines

/-! Whole mods, none of which overrides another. -/

section Files

/-- The patches of mods one after another, in their places. -/
def assemble : Nat → Nat → List (List Patch) → List Patch
  | _, _, [] => []
  | mod, slot, ps :: pss => place mod slot ps ++ assemble (mod + 1) (slot + slots_of ps) pss

/-- What a list names a mod by. -/
def ModFile.key (f : ModFile) : Str := if f.id ≠ [] then f.id else f.dir

/-- Neither mod names the other in `overrides`. -/
def Unrelated (f g : ModFile) : Prop :=
  in_list f.overrides g.key = false ∧ in_list g.overrides f.key = false

/-- Two patches that conflict: both can apply on one frame, their bytes can
meet, and they do not write the one value to the one place. -/
def Meets (p q : Patch) : Prop :=
  conds_can_meet p q = true ∧ (bytes_meet p q).isSome = true ∧ same_write p q = false

/-- No patch of one mod conflicts with one of the other. -/
def Apart (ps qs : List Patch) : Prop := ∀ p ∈ ps, ∀ q ∈ qs, ¬ Meets p q

def Mod.same (m : Mod) (f : ModFile) : Prop :=
  m.id = f.id ∧ m.dir = f.dir ∧ m.overrides = f.overrides

/-- A loader that holds these mods' patches. -/
structure HoldsMods (l : Loader) (files : List ModFile) (pss : List (List Patch)) : Prop where
  mods : List.Forall₂ Mod.same l.g_mods files
  lengths : files.length = pss.length
  patches : l.g_patches = assemble 0 0 pss
  slots : l.g_slot_n = slots_of pss.flatten
  patch_room : l.g_patches.length ≤ PATCH_MAX
  slot_room : l.g_slot_n ≤ SLOT_MAX

variable {l : Loader} {files : List ModFile} {pss : List (List Patch)}

theorem slots_of_append (ps qs : List Patch) : slots_of (ps ++ qs) = slots_of ps + slots_of qs := by
  rw [slots_of, List.map_append, List.sum_append]
  rfl

theorem assemble_append (mod slot : Nat) (pss : List (List Patch)) (ps : List Patch) :
    assemble mod slot (pss ++ [ps]) =
      assemble mod slot pss ++ place (mod + pss.length) (slot + slots_of pss.flatten) ps := by
  induction pss generalizing mod slot with
  | nil => exact List.append_nil _
  | cons qs pss ih =>
      rw [List.cons_append, assemble, assemble, ih, List.append_assoc, List.length_cons,
        List.flatten_cons, slots_of_append, Nat.add_assoc mod, Nat.add_comm 1, Nat.add_assoc slot]

theorem mem_place {mod slot : Nat} {ps : List Patch} {q : Patch} (member : q ∈ place mod slot ps) :
    ∃ p ∈ ps, ∃ at_, q = p.placed mod at_ := by
  induction ps generalizing slot with
  | nil => cases member
  | cons p ps ih =>
      rcases List.mem_cons.mp member with rfl | later
      · exact ⟨p, List.mem_cons_self, slot, rfl⟩
      · obtain ⟨d, inside, at_, same⟩ := ih later
        exact ⟨d, List.mem_cons_of_mem _ inside, at_, same⟩

theorem place_mem {mod slot : Nat} {ps : List Patch} {p : Patch} (member : p ∈ ps) :
    ∃ at_, p.placed mod at_ ∈ place mod slot ps := by
  induction ps generalizing slot with
  | nil => cases member
  | cons d ps ih =>
      rcases List.mem_cons.mp member with rfl | later
      · exact ⟨slot, List.mem_cons_self⟩
      · obtain ⟨at_, inside⟩ : ∃ at_, p.placed mod at_ ∈ place mod (slot + d.slots) ps := ih later
        exact ⟨at_, List.mem_cons_of_mem _ inside⟩

theorem mem_assemble {mod slot : Nat} {pss : List (List Patch)} {q : Patch}
    (member : q ∈ assemble mod slot pss) :
    ∃ (i : Nat) (ps : List Patch), pss[i]? = some ps ∧ ∃ p ∈ ps, ∃ at_, q = p.placed (mod + i) at_ := by
  induction pss generalizing mod slot with
  | nil => cases member
  | cons ps pss ih =>
      rcases List.mem_append.mp member with here | later
      · exact ⟨0, ps, rfl, mem_place here⟩
      · obtain ⟨i, qs, found, p, inside, at_, same⟩ := ih later
        refine ⟨i + 1, qs, found, p, inside, at_, ?_⟩
        rw [same, Nat.add_assoc, Nat.add_comm 1]

theorem assemble_mem {mod slot i : Nat} {pss : List (List Patch)} {ps : List Patch} {p : Patch}
    (found : pss[i]? = some ps) (member : p ∈ ps) :
    ∃ at_, p.placed (mod + i) at_ ∈ assemble mod slot pss := by
  induction pss generalizing mod slot i with
  | nil => cases found
  | cons qs pss ih =>
      cases i with
      | zero =>
          cases found
          obtain ⟨at_, inside⟩ : ∃ at_, p.placed mod at_ ∈ place mod slot ps := place_mem member
          exact ⟨at_, List.mem_append_left _ inside⟩
      | succ i =>
          obtain ⟨at_, inside⟩ : ∃ at_, p.placed (mod + 1 + i) at_ ∈
              assemble (mod + 1) (slot + slots_of qs) pss := ih found
          rw [Nat.add_assoc, Nat.add_comm 1] at inside
          exact ⟨at_, List.mem_append_right _ inside⟩

theorem assemble_length (mod slot : Nat) (pss : List (List Patch)) :
    (assemble mod slot pss).length = pss.flatten.length := by
  induction pss generalizing mod slot with
  | nil => rfl
  | cons ps pss ih =>
      rw [assemble, List.length_append, place_length, ih, List.flatten_cons, List.length_append]

/-- The mod of a patch held is the file its patches came from. -/
theorem HoldsMods.mod_at (holds : HoldsMods l files pss) {i : Nat} {ps : List Patch}
    (found : pss[i]? = some ps) :
    ∃ g ∈ files, Mod.same (l.g_mods.getD i default) g := by
  have inside : i < pss.length := by
    rcases List.getElem?_eq_some_iff.mp found with ⟨inside, _⟩
    exact inside
  have lengths := holds.mods.length_eq
  have here : i < l.g_mods.length := by
    rw [lengths, holds.lengths]
    exact inside
  have there : i < files.length := lengths ▸ here
  refine ⟨files[i], List.getElem_mem there, ?_⟩
  rw [List.getD_eq_getElem?_getD, List.getElem?_eq_getElem here]
  exact (List.forall₂_iff_get.mp holds.mods).2 i here there

theorem Mod.same.key {m : Mod} {f : ModFile} (same : Mod.same m f) : mod_key m = f.key := by
  rw [mod_key, ModFile.key, same.1, same.2.1]

/-- The check refuses a mod one of whose patches conflicts with one held. -/
theorem check_conflicts_iff (holds : HoldsMods l files pss) {f : ModFile}
    (unrelated : ∀ g ∈ files, Unrelated f g) {m : Mod} (same : Mod.same m f) (ps : List Patch)
    (slot_n : Nat) :
    check_conflicts ⟨l.g_mods, l.g_patches ++ place l.g_mods.length l.g_slot_n ps, slot_n⟩
        l.g_patches.length m = false ↔
      ∀ qs ∈ pss, Apart ps qs := by
  have named : ∀ i qs, pss[i]? = some qs →
      (in_list m.overrides (mod_key (l.g_mods.getD i default)) ||
        in_list (l.g_mods.getD i default).overrides (mod_key m)) = false := by
    intro i qs found
    obtain ⟨g, member, mod⟩ := holds.mod_at found
    obtain ⟨first, second⟩ := unrelated g member
    rw [same.2.2, mod.key, mod.2.2, same.key, first, second]
    rfl
  rw [check_conflicts, Bool.eq_false_iff, Ne, List.drop_left, List.take_left, holds.patches]
  simp only [List.any_eq_true]
  constructor
  · intro quiet qs member p p_in q q_in meets
    obtain ⟨i, found⟩ := List.mem_iff_getElem?.mp member
    obtain ⟨at_, p_placed⟩ : ∃ at_, p.placed l.g_mods.length at_ ∈
        place l.g_mods.length l.g_slot_n ps := place_mem p_in
    obtain ⟨there, q_placed⟩ : ∃ at_, q.placed (0 + i) at_ ∈ assemble 0 0 pss :=
      assemble_mem found q_in
    refine quiet ⟨_, p_placed, _, q_placed, ?_⟩
    have other := named i qs found
    rw [← Nat.zero_add i] at other
    simp only [Bool.and_eq_true, Bool.not_eq_true']
    exact ⟨⟨⟨meets.1, meets.2.1⟩, meets.2.2⟩, other⟩
  · rintro apart ⟨p', p_placed, q', q_placed, conflict⟩
    obtain ⟨p, p_in, at_, rfl⟩ := mem_place p_placed
    obtain ⟨i, qs, found, q, q_in, there, rfl⟩ := mem_assemble q_placed
    simp only [Bool.and_eq_true, Bool.not_eq_true'] at conflict
    exact apart qs (List.mem_of_getElem? found) p p_in q q_in
      ⟨conflict.1.1.1, conflict.1.1.2, conflict.1.2⟩

/-- A mod that loads after others. -/
structure Joins (text : Text) (files : List ModFile) (pss : List (List Patch)) (f : ModFile)
    (ps : List Patch) : Prop where
  read : patches_of text f.lines = some ps
  nonempty : ps ≠ []
  few : files.length ≠ MOD_MAX
  fresh : f.id ≠ [] → ∀ g ∈ files, g.id ≠ f.id
  patch_room : pss.flatten.length + ps.length ≤ PATCH_MAX
  slot_room : slots_of pss.flatten + slots_of ps ≤ SLOT_MAX
  apart : ∀ qs ∈ pss, Apart ps qs

def Loader.with_mod (l : Loader) (f : ModFile) (ps : List Patch) : Loader where
  g_mods := l.g_mods ++ [⟨f.id, f.dir, f.overrides, l.g_patches.length, ps.length⟩]
  g_patches := l.g_patches ++ place l.g_mods.length l.g_slot_n ps
  g_slot_n := l.g_slot_n + slots_of ps

theorem HoldsMods.with_mod (holds : HoldsMods l files pss) {f : ModFile} {ps : List Patch}
    (joins : Joins text files pss f ps) :
    HoldsMods (l.with_mod f ps) (files ++ [f]) (pss ++ [ps]) := by
  have lengths := holds.mods.length_eq
  constructor
  · exact List.rel_append holds.mods (.cons ⟨rfl, rfl, rfl⟩ .nil)
  · rw [List.length_append, List.length_append, holds.lengths]
    rfl
  · rw [assemble_append, Nat.zero_add, Nat.zero_add, ← holds.lengths, ← lengths, ← holds.slots,
      ← holds.patches]
    rfl
  · rw [List.flatten_append, slots_of_append, List.flatten_singleton, ← holds.slots]
    rfl
  · have room := joins.patch_room
    rw [← assemble_length 0 0 pss, ← holds.patches] at room
    rw [Loader.with_mod, List.length_append, place_length]
    exact room
  · have room := joins.slot_room
    rw [← holds.slots] at room
    exact room

theorem HoldsMods.id_any (holds : HoldsMods l files pss) (id : Str) :
    l.g_mods.any (·.id = id) = files.any (·.id = id) := by
  have mods := holds.mods
  clear holds
  generalize l.g_mods = ms at mods
  induction mods with
  | nil => rfl
  | cons same _ ih => rw [List.any_cons, List.any_cons, ih, same.1]

/-- A mod loads exactly when it joins those that have. -/
theorem load_one_iff (holds : HoldsMods l files pss) {f : ModFile}
    (unrelated : ∀ g ∈ files, Unrelated f g) (l' : Loader) :
    load_one text l f = some l' ↔ ∃ ps, Joins text files pss f ps ∧ l' = l.with_mod f ps := by
  have count : l.g_mods.length = files.length := holds.mods.length_eq
  have total : l.g_patches.length = pss.flatten.length := by
    rw [holds.patches, assemble_length]
  have quiet : ∀ ps : List Patch, check_conflicts
      ⟨l.g_mods, l.g_patches ++ place l.g_mods.length l.g_slot_n ps, l.g_slot_n + slots_of ps⟩
      l.g_patches.length
      ⟨f.id, f.dir, f.overrides, l.g_patches.length,
        (l.g_patches ++ place l.g_mods.length l.g_slot_n ps).length - l.g_patches.length⟩ = false ↔
      ∀ qs ∈ pss, Apart ps qs := fun ps =>
    check_conflicts_iff holds unrelated ⟨rfl, rfl, rfl⟩ ps _
  have grown : ∀ ps : List Patch,
      (l.g_patches ++ place l.g_mods.length l.g_slot_n ps).length - l.g_patches.length =
        ps.length := fun ps => by
    rw [List.length_append, place_length, Nat.add_sub_cancel_left]
  rw [load_one, count, holds.id_any]
  constructor
  · intro loaded
    split at loaded
    · cases loaded
    rename_i few
    split at loaded
    · cases loaded
    rename_i fresh
    cases read : patches_of text f.lines with
    | none =>
        rw [parse_patches_none read] at loaded
        cases loaded
    | some ps =>
        rw [parse_patches_some read holds.patch_room holds.slot_room] at loaded
        split at loaded
        · cases loaded
        rename_i next room
        split at room
        · rename_i fits
          cases room
          dsimp only at loaded
          split at loaded
          · cases loaded
          rename_i added
          split at loaded
          · cases loaded
          rename_i calm
          refine ⟨ps, ⟨read, ?_, few, ?_, ?_, ?_, (quiet ps).mp (Bool.eq_false_iff.mpr calm)⟩, ?_⟩
          · rintro rfl
            exact added (by rw [place, List.append_nil])
          · intro named g member same
            exact fresh ⟨named, List.any_eq_true.mpr ⟨g, member, decide_eq_true same⟩⟩
          · rw [← total]
            exact fits.1
          · rw [← holds.slots]
            exact fits.2
          · rw [grown] at loaded
            exact (Option.some.inj loaded).symm
        · cases room
  · rintro ⟨ps, joins, rfl⟩
    have fresh : ¬ (f.id ≠ [] ∧ files.any (·.id = f.id) = true) := by
      rintro ⟨named, taken⟩
      obtain ⟨g, member, same⟩ := List.any_eq_true.mp taken
      exact joins.fresh named g member (of_decide_eq_true same)
    have room : l.g_patches.length + ps.length ≤ PATCH_MAX ∧
        l.g_slot_n + slots_of ps ≤ SLOT_MAX := by
      rw [total, holds.slots]
      exact ⟨joins.patch_room, joins.slot_room⟩
    have added : ¬ (l.g_patches ++ place l.g_mods.length l.g_slot_n ps).length =
        l.g_patches.length := by
      rw [List.length_append, place_length]
      have := List.length_pos_iff.mpr joins.nonempty
      omega
    have calm := Bool.eq_false_iff.mp ((quiet ps).mpr joins.apart)
    rw [if_neg joins.few, if_neg fresh,
      parse_patches_some joins.read holds.patch_room holds.slot_room, if_pos room]
    dsimp only
    rw [if_neg added, if_neg calm, grown]
    rfl

end Files

/-! Every order of mods that load together. -/

section Orders

/-- Each mod loads at its turn. -/
def Accepts (text : Text) : Loader → List ModFile → Prop
  | _, [] => True
  | l, f :: files => ∃ next, load_one text l f = some next ∧ Accepts text next files

def ModFile.patches (text : Text) (f : ModFile) : List Patch := (patches_of text f.lines).getD []

/-- What lets mods load, in whatever order. -/
structure Loadable (text : Text) (files : List ModFile) : Prop where
  read : ∀ f ∈ files, patches_of text f.lines = some (f.patches text)
  nonempty : ∀ f ∈ files, f.patches text ≠ []
  few : files.length ≤ MOD_MAX
  fresh : files.Pairwise fun f g => f.id ≠ [] → g.id ≠ f.id
  patch_room : (files.map (·.patches text)).flatten.length ≤ PATCH_MAX
  slot_room : slots_of (files.map (·.patches text)).flatten ≤ SLOT_MAX
  apart : files.Pairwise fun f g => Apart (g.patches text) (f.patches text)

variable {l : Loader} {files : List ModFile} {f : ModFile}

theorem slots_of_perm {ps qs : List Patch} (perm : ps.Perm qs) : slots_of ps = slots_of qs :=
  (perm.map Patch.slots).sum_nat

theorem one_can_meet_symm {α : Type} [DecidableEq α] (x y : Option α) :
    one_can_meet x y = one_can_meet y x := by
  cases x with
  | none => cases y <;> rfl
  | some x =>
      cases y with
      | none => rfl
      | some y => exact decide_eq_decide.mpr eq_comm

theorem conds_can_meet_symm (p q : Patch) : conds_can_meet p q = conds_can_meet q p := by
  rw [conds_can_meet, conds_can_meet, one_can_meet_symm p.scene, one_can_meet_symm p.state,
    one_can_meet_symm p.map]

theorem same_write_symm (p q : Patch) : same_write p q = same_write q p := by
  rw [Bool.eq_iff_iff]
  simp only [same_write, Bool.and_eq_true, decide_eq_true_eq, Bool.not_eq_true']
  constructor
  · rintro ⟨⟨⟨⟨⟨⟨⟨⟨⟨a, b⟩, c⟩, d⟩, e⟩, f⟩, g⟩, h⟩, i⟩, j⟩
    exact ⟨⟨⟨⟨⟨⟨⟨⟨⟨b, a⟩, c.symm⟩, d.symm⟩, e.symm⟩, f.symm⟩, g.symm⟩, h.symm⟩, i.symm⟩, j.symm⟩
  · rintro ⟨⟨⟨⟨⟨⟨⟨⟨⟨a, b⟩, c⟩, d⟩, e⟩, f⟩, g⟩, h⟩, i⟩, j⟩
    exact ⟨⟨⟨⟨⟨⟨⟨⟨⟨b, a⟩, c.symm⟩, d.symm⟩, e.symm⟩, f.symm⟩, g.symm⟩, h.symm⟩, i.symm⟩, j.symm⟩

/-- Two patches through one base, or both direct. -/
def SameBase (p q : Patch) : Prop := p.ptr = q.ptr ∧ (p.ptr = true → p.ea = q.ea)

/-- The bytes of two targets meet. -/
def TargetsMeet (p q : Patch) (za zb : Nat) : Prop :=
  p.origin + za * p.stride < q.origin + zb * q.stride + q.width.bytes ∧
    q.origin + zb * q.stride < p.origin + za * p.stride + p.width.bytes

theorem bytes_meet_iff (p q : Patch) :
    (bytes_meet p q).isSome = true ↔
      SameBase p q ∧ ∃ za ∈ p.run, ∃ zb ∈ q.run, TargetsMeet p q za zb := by
  have base : (p.ptr ≠ q.ptr ∨ p.ptr = true ∧ p.ea ≠ q.ea) ↔ ¬ SameBase p q := by
    rw [SameBase, Classical.not_and_iff_not_or_not, Classical.not_imp]
  rw [bytes_meet]
  split
  · rename_i different
    constructor
    · intro some
      cases some
    · rintro ⟨same, _⟩
      exact absurd same (base.mp different)
  · rename_i known
    have same : SameBase p q := Classical.not_not.mp fun other => known (base.mpr other)
    simp only [List.isSome_findSome?, List.any_eq_true]
    constructor
    · rintro ⟨za, in_a, zb, in_b, found⟩
      refine ⟨same, za, in_a, zb, in_b, ?_⟩
      by_contra neither
      rw [TargetsMeet] at neither
      rw [if_neg neither] at found
      cases found
    · rintro ⟨_, za, in_a, zb, in_b, both⟩
      refine ⟨za, in_a, zb, in_b, ?_⟩
      rw [TargetsMeet] at both
      rw [if_pos both]
      rfl

theorem SameBase.symm {p q : Patch} (same : SameBase p q) : SameBase q p :=
  ⟨same.1.symm, fun ptr => (same.2 (same.1.trans ptr)).symm⟩

theorem bytes_meet_symm (p q : Patch) : (bytes_meet p q).isSome = (bytes_meet q p).isSome := by
  rw [Bool.eq_iff_iff, bytes_meet_iff, bytes_meet_iff]
  constructor
  · rintro ⟨same, za, in_a, zb, in_b, meet⟩
    exact ⟨same.symm, zb, in_b, za, in_a, meet.2, meet.1⟩
  · rintro ⟨same, za, in_a, zb, in_b, meet⟩
    exact ⟨same.symm, zb, in_b, za, in_a, meet.2, meet.1⟩

theorem Apart.symm {ps qs : List Patch} (apart : Apart ps qs) : Apart qs ps := by
  intro q q_in p p_in meets
  refine apart p p_in q q_in ⟨?_, ?_, ?_⟩
  · rw [conds_can_meet_symm]
    exact meets.1
  · rw [bytes_meet_symm]
    exact meets.2.1
  · rw [same_write_symm]
    exact meets.2.2

/-- Mods that load do in any order. -/
theorem Loadable.perm {files' : List ModFile} (loadable : Loadable text files)
    (perm : files'.Perm files) : Loadable text files' where
  read f member := loadable.read f (perm.mem_iff.mp member)
  nonempty f member := loadable.nonempty f (perm.mem_iff.mp member)
  few := perm.length_eq ▸ loadable.few
  fresh := by
    refine (perm.pairwise_iff fun {f g} apart named same => ?_).mpr loadable.fresh
    rw [← same] at named
    exact apart named same.symm
  patch_room := by
    rw [(perm.map _).flatten.length_eq]
    exact loadable.patch_room
  slot_room := by
    rw [slots_of_perm (perm.map _).flatten]
    exact loadable.slot_room
  apart := (perm.pairwise_iff fun apart => Apart.symm apart).mpr loadable.apart

theorem Joins.of_loadable {text : Text} {f : ModFile} {files rest : List ModFile}
    (loadable : Loadable text (files ++ f :: rest)) :
    Joins text files (files.map (·.patches text)) f (f.patches text) := by
  have member : f ∈ files ++ f :: rest := by simp
  have patches : ((files ++ f :: rest).map (·.patches text)).flatten =
      ((files.map (·.patches text)).flatten ++ f.patches text) ++
        (rest.map (·.patches text)).flatten := by
    rw [List.map_append, List.flatten_append, List.map_cons, List.flatten_cons, List.append_assoc]
  constructor
  · exact loadable.read f member
  · exact loadable.nonempty f member
  · have few := loadable.few
    rw [List.length_append, List.length_cons] at few
    omega
  · intro named g inside same
    exact (List.pairwise_append.mp loadable.fresh).2.2 g inside f List.mem_cons_self
      (same ▸ named) same.symm
  · have room := loadable.patch_room
    rw [patches, List.length_append, List.length_append] at room
    exact Nat.le_trans (Nat.le_add_right _ _) room
  · have room := loadable.slot_room
    rw [patches, slots_of_append, slots_of_append] at room
    exact Nat.le_trans (Nat.le_add_right _ _) room
  · intro qs inside
    obtain ⟨g, before, rfl⟩ := List.mem_map.mp inside
    exact (List.pairwise_append.mp loadable.apart).2.2 g before f List.mem_cons_self

theorem Loadable.snoc (loadable : Loadable text files)
    (joins : Joins text files (files.map (·.patches text)) f (f.patches text)) :
    Loadable text (files ++ [f]) := by
  have patches : ((files ++ [f]).map (·.patches text)).flatten =
      (files.map (·.patches text)).flatten ++ f.patches text := by
    rw [List.map_append, List.flatten_append, List.map_singleton, List.flatten_singleton]
  constructor
  · intro g member
    rcases List.mem_append.mp member with before | last
    · exact loadable.read g before
    · rw [List.mem_singleton.mp last]
      exact joins.read
  · intro g member
    rcases List.mem_append.mp member with before | last
    · exact loadable.nonempty g before
    · rw [List.mem_singleton.mp last]
      exact joins.nonempty
  · rw [List.length_append, List.length_singleton]
    have few := loadable.few
    have := joins.few
    omega
  · refine List.pairwise_append.mpr ⟨loadable.fresh, List.pairwise_singleton _ _, ?_⟩
    intro g before h last named same
    rw [List.mem_singleton.mp last] at same
    exact joins.fresh (same ▸ named) g before same.symm
  · rw [patches, List.length_append]
    exact joins.patch_room
  · rw [patches, slots_of_append]
    exact joins.slot_room
  · refine List.pairwise_append.mpr ⟨loadable.apart, List.pairwise_singleton _ _, ?_⟩
    intro g before h last
    rw [List.mem_singleton.mp last]
    exact joins.apart _ (List.mem_map_of_mem before)

/-- Mods load one after another exactly when they can load in any order. -/
theorem accepts_iff {l : Loader} {files rest : List ModFile}
    (holds : HoldsMods l files (files.map (·.patches text))) (loadable : Loadable text files)
    (unrelated : (files ++ rest).Pairwise Unrelated) :
    Accepts text l rest ↔ Loadable text (files ++ rest) := by
  induction rest generalizing l files with
  | nil =>
      rw [List.append_nil]
      exact ⟨fun _ => loadable, fun _ => trivial⟩
  | cons f rest ih =>
      have apart : ∀ g ∈ files, Unrelated f g := fun g before =>
        And.symm ((List.pairwise_append.mp unrelated).2.2 g before f List.mem_cons_self)
      have split : files ++ f :: rest = (files ++ [f]) ++ rest := by
        rw [List.append_assoc]
        rfl
      have steps : ∀ ps, Joins text files (files.map (·.patches text)) f ps →
          ps = f.patches text := fun ps joins => by
        rw [ModFile.patches, joins.read]
        rfl
      have next : Joins text files (files.map (·.patches text)) f (f.patches text) →
          (Accepts text (l.with_mod f (f.patches text)) rest ↔
            Loadable text ((files ++ [f]) ++ rest)) := fun joins => by
        refine ih ?_ (loadable.snoc joins) (split ▸ unrelated)
        rw [List.map_append]
        exact holds.with_mod joins
      rw [Accepts, split]
      constructor
      · rintro ⟨l', loaded, accepts⟩
        obtain ⟨ps, joins, rfl⟩ := (load_one_iff holds apart l').mp loaded
        have same := steps ps joins
        subst same
        exact (next joins).mp accepts
      · intro all
        have joins : Joins text files (files.map (·.patches text)) f (f.patches text) :=
          .of_loadable (split ▸ all)
        exact ⟨_, (load_one_iff holds apart _).mpr ⟨_, joins, rfl⟩, (next joins).mpr all⟩

/-- What is loaded of mods that all load. -/
theorem load_holds {l : Loader} {files rest : List ModFile}
    (holds : HoldsMods l files (files.map (·.patches text)))
    (unrelated : (files ++ rest).Pairwise Unrelated) (accepts : Accepts text l rest) :
    HoldsMods (rest.foldl (fun l f => (load_one text l f).getD l) l) (files ++ rest)
      ((files ++ rest).map (·.patches text)) := by
  induction rest generalizing l files with
  | nil => rwa [List.append_nil]
  | cons f rest ih =>
      have split : files ++ f :: rest = (files ++ [f]) ++ rest := by
        rw [List.append_assoc]
        rfl
      have apart : ∀ g ∈ files, Unrelated f g := fun g before =>
        And.symm ((List.pairwise_append.mp unrelated).2.2 g before f List.mem_cons_self)
      obtain ⟨l', loaded, accepts⟩ := accepts
      obtain ⟨ps, joins, rfl⟩ := (load_one_iff holds apart l').mp loaded
      have same : ps = f.patches text := by
        rw [ModFile.patches, joins.read]
        rfl
      subst same
      rw [List.foldl_cons, loaded, Option.getD_some, split]
      refine ih ?_ (split ▸ unrelated) accepts
      rw [List.map_append]
      exact holds.with_mod joins

theorem init_holds : HoldsMods .init [] ([].map (ModFile.patches text)) :=
  ⟨.nil, rfl, rfl, rfl, Nat.zero_le _, Nat.zero_le _⟩

theorem loadable_nil : Loadable text [] :=
  ⟨fun _ none => (nomatch none), fun _ none => (nomatch none), Nat.zero_le _, .nil, Nat.zero_le _,
    Nat.zero_le _, .nil⟩

theorem Accepts.loadable (accepts : Accepts text .init files)
    (unrelated : files.Pairwise Unrelated) : Loadable text files :=
  (accepts_iff init_holds loadable_nil unrelated).mp accepts

theorem Accepts.holds (accepts : Accepts text .init files)
    (unrelated : files.Pairwise Unrelated) :
    HoldsMods (load text files) files (files.map (·.patches text)) :=
  load_holds init_holds unrelated accepts

/-- Mods that all load in one order all load in any other. -/
theorem Accepts.perm {files files' : List ModFile} (accepts : Accepts text .init files)
    (unrelated : files.Pairwise Unrelated) (perm : files'.Perm files) :
    Accepts text .init files' := by
  have loadable := accepts.loadable unrelated
  have unrelated' := (perm.pairwise_iff fun related => And.symm related).mpr unrelated
  exact (accepts_iff init_holds loadable_nil unrelated').mpr (loadable.perm perm)

end Orders

end SoaPort.Mods
