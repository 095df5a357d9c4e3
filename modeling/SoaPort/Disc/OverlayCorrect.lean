import SoaPort.Disc.EmitCorrect
import SoaPort.Disc.IndexCorrect

namespace SoaPort.Disc

open SoaPort.Lib

/-! Walks over a table a build has changed. -/

section Over

variable {base t : Table}

theorem name_of_over (sound : base.Sound) (above : base.Over t) {i : Nat} (pos : 0 < i)
    (low : i < base.count) : name_of t i = name_of base i := by
  obtain ⟨x, at_⟩ := sound.entry low
  obtain ⟨s, named⟩ := sound.name at_ pos
  rw [named]
  exact above.name low named

theorem walk_dir_over (sound : base.Sound) (above : base.Over t) (s : List Byte)
    {fuel i end_ : Nat} (pos : 0 < i) (inside : end_ ≤ base.count) :
    walk_dir t s fuel i end_ = walk_dir base s fuel i end_ := by
  induction fuel generalizing i with
  | zero => rfl
  | succ fuel ih =>
      rw [walk_dir, walk_dir]
      split
      next goes =>
        have low : i < base.count := by omega
        obtain ⟨x, at_⟩ := sound.entry low
        obtain ⟨y, there, dir, -, same⟩ := above.same i x at_ low
        have next : (if y.dir then y.b else i + 1) = if x.dir then x.b else i + 1 := by
          rw [dir]
          split
          next is_dir => rw [same is_dir]
          · rfl
        obtain ⟨further, -⟩ := sound.next at_ low pos
        rw [at_, there, name_of_over sound above pos low]
        change (name_of base i >>= fun name => if ieq name s = true then some (some i)
            else walk_dir t s fuel (if y.dir then y.b else i + 1) end_) =
          (name_of base i >>= fun name => if ieq name s = true then some (some i)
            else walk_dir base s fuel (if x.dir then x.b else i + 1) end_)
        rw [next, ih (by omega)]
      · rfl

theorem walk_from_over (sound : base.Sound) (above : base.Over t) (path : List (List Byte))
    {d : Nat} (low : d < base.count) (dir : base.IsDir d) :
    walk_from t d path = walk_from base d path := by
  induction path generalizing d with
  | nil => rfl
  | cons s rest ih =>
      obtain ⟨x, at_, is_dir⟩ := dir
      have bound := sound.end_le at_ low is_dir
      rw [walk_from, walk_from, at_, above.dir low at_ is_dir]
      change (walk_dir t s (t.count + 1) (d + 1) (if d = 0 then t.count else x.b) >>= _) =
        (walk_dir base s (base.count + 1) (d + 1) (if d = 0 then base.count else x.b) >>= _)
      rw [above.count_eq, walk_dir_over sound above s (Nat.succ_pos d) bound]
      apply Option.bind_congr
      intro r found
      cases r with
      | none => rfl
      | some j =>
          have room : (if d = 0 then base.count else x.b) ≤ d + 1 + (base.count + 1) := by omega
          obtain ⟨r, again, inside⟩ := walk_dir_within sound s room (Nat.succ_pos d) bound
          cases found.symm.trans again
          have low := (inside j rfl).2
          obtain ⟨z, at_⟩ := sound.entry low
          obtain ⟨y, there, dir, -⟩ := above.same j z at_ low
          change (t.e[j]? >>= fun y => if rest = [] then some (some j)
              else if y.dir then walk_from t j rest else some none) =
            (base.e[j]? >>= fun y => if rest = [] then some (some j)
              else if y.dir then walk_from base j rest else some none)
          rw [at_, there]
          change (if rest = [] then some (some j)
              else if y.dir then walk_from t j rest else some none) =
            (if rest = [] then some (some j)
              else if z.dir then walk_from base j rest else some none)
          rw [dir]
          split
          · rfl
          split
          next is_dir => exact ih low ⟨z, at_, is_dir⟩
          · rfl

theorem walk_over (sound : base.Sound) (above : base.Over t) (path : List Byte) :
    walk t path = walk base path := by
  rw [walk, walk]
  split
  · rfl
  · exact walk_from_over sound above (components path) sound.some_ sound.root

theorem walk_to_dir_over (sound : base.Sound) (above : base.Over t) (path : List Byte) :
    walk_to_dir t path = walk_to_dir base path := by
  rw [walk_to_dir, walk_to_dir, walk_over sound above]
  obtain ⟨r, walked, inside⟩ := walk_within sound path
  rw [walked]
  cases r with
  | none => rfl
  | some d =>
      have low := inside d rfl
      obtain ⟨x, at_⟩ := sound.entry low
      obtain ⟨y, there, dir, -⟩ := above.same d x at_ low
      change (t.e[d]? >>= fun x => some (if x.dir then some d else none)) =
        (base.e[d]? >>= fun x => some (if x.dir then some d else none))
      rw [at_, there]
      change some (if y.dir then some d else none) = some (if x.dir then some d else none)
      rw [dir]

/-- The nesting of a base table's directories is the changed table's. -/
theorem nested_over (build : base.Build t) (nested : base.Nested) : t.Nested := by
  have back : ∀ (d : Nat) (x : Ent), t.e[d]? = some x → x.dir = true → base.e[d]? = some x := by
    intro d x at_ dir
    have low : d < t.count := by
      by_contra high
      obtain ⟨file, -⟩ := build.sound.added d x at_ (by omega)
      exact absurd (dir.symm.trans file) (by decide)
    rw [build.above.count_eq] at low
    obtain ⟨y, there⟩ := build.base_sound.entry low
    obtain ⟨z, here, same, -, whole⟩ := build.above.same d y there low
    cases at_.symm.trans here
    rw [there, whole (same.symm.trans dir)]
  intro d x i y there is_dir here dir pos after before
  exact nested d x i y (back d x there is_dir) is_dir (back i y here dir) dir pos after before

end Over

/-! What one line does to the table. -/

section Lines

variable {base t : Table}

theorem walk_to_dir_within (sound : t.Sound) (path : List Byte) :
    ∃ r, walk_to_dir t path = some r ∧ ∀ d, r = some d → d < t.count ∧ t.IsDir d := by
  obtain ⟨r, walked, inside⟩ := walk_within sound path
  rw [walk_to_dir, walked]
  cases r with
  | none => exact ⟨none, rfl, nofun⟩
  | some d =>
      have low := inside d rfl
      obtain ⟨x, at_⟩ := sound.entry low
      change ∃ r, (t.e[d]? >>= fun x => some (if x.dir then some d else none)) = some r ∧ _
      rw [at_]
      refine ⟨if x.dir then some d else none, rfl, ?_⟩
      intro e is
      split at is
      next dir =>
        cases is
        exact ⟨low, x, at_, dir⟩
      · cases is

theorem find_file_within (build : base.Build t) (linked : base.Linked) (path : List Byte) :
    ∃ r, find_file t path = some r := by
  obtain ⟨r, found, inside⟩ := find_within build linked path
  rw [find_file, found]
  cases r with
  | none => exact ⟨none, rfl⟩
  | some i =>
      have low := inside i rfl
      have at_ : t.e[i]? = some t.e[i] := List.getElem?_eq_getElem low
      change ∃ r, (t.e[i]? >>= fun x => some (if x.dir then none else some x)) = some r
      rw [at_]
      exact ⟨_, rfl⟩

/-- An added file keeps a build: its name ends inside the table, and its directory is one
lines can add to. -/
theorem Table.Build.append (build : base.Build t) {d : Nat} (low : d < t.count) (dir : t.IsDir d)
    (addable : base.Addable d) {y : Ent} (file : y.dir = false) (in_ : y.add_dir = some d)
    {more : List Byte} (named : ∃ s, cstr (t.str ++ more) y.name = some s) :
    base.Build { t with e := t.e ++ [y], str := t.str ++ more } := by
  have sound := build.sound
  have count := sound.count_le
  have old : ∀ {i : Nat}, i < t.e.length → (t.e ++ [y])[i]? = t.e[i]? :=
    fun low => List.getElem?_append_left low
  have last : ∀ {i : Nat} {x : Ent}, (t.e ++ [y])[i]? = some x → t.e.length ≤ i → x = y := by
    intro i x at_ high
    rw [List.getElem?_append_right high] at at_
    exact List.mem_singleton.mp (List.mem_of_getElem? at_)
  have kept : ∀ {e : Nat}, t.IsDir e → e < t.e.length →
      ∃ x, (t.e ++ [y])[e]? = some x ∧ x.dir = true := by
    rintro e ⟨x, at_, is_dir⟩ low
    exact ⟨x, (old low).trans at_, is_dir⟩
  refine ⟨build.base_sound, build.base_length, ⟨sound.some_, ?_, ?_, ?_, ?_, ?_, ?_⟩,
    ⟨build.above.count_eq, ?_, ?_⟩, ?_⟩
  · change t.count ≤ (t.e ++ [y]).length
    rw [List.length_append]
    omega
  · exact kept sound.root (lt_of_lt_of_le sound.some_ count)
  · intro i x at_ pos
    cases Nat.lt_or_ge i t.e.length with
    | inl low =>
        obtain ⟨s, named⟩ := sound.named i x ((old low).symm.trans at_) pos
        exact ⟨s, cstr_append named more⟩
    | inr high =>
        rw [last at_ high]
        exact named
  · intro i x at_ low
    change i < t.count at low
    exact sound.range i x ((old (by omega)).symm.trans at_) low
  · intro i x at_ low
    change i < t.count at low
    exact sound.base i x ((old (by omega)).symm.trans at_) low
  · intro i x at_ high
    cases Nat.lt_or_ge i t.e.length with
    | inl low =>
        obtain ⟨file, e, in_, inside, is_dir⟩ := sound.added i x ((old low).symm.trans at_) high
        exact ⟨file, e, in_, inside, kept is_dir (lt_of_lt_of_le inside count)⟩
    | inr past =>
        rw [last at_ past]
        exact ⟨file, d, in_, low, kept dir (lt_of_lt_of_le low count)⟩
  · intro i x at_ low
    obtain ⟨z, there, rest⟩ := build.above.same i x at_ low
    have inside : i < t.e.length := (List.getElem?_eq_some_iff.mp there).1
    exact ⟨z, (old inside).trans there, rest⟩
  · obtain ⟨before, str⟩ := build.above.str
    refine ⟨before ++ more, ?_⟩
    change t.str ++ more = _
    rw [str, List.append_assoc]
  · intro i x e at_ high goes
    cases Nat.lt_or_ge i t.e.length with
    | inl low => exact build.in_ i x e ((old low).symm.trans at_) high goes
    | inr past =>
        rw [last at_ past, in_] at goes
        cases goes
        exact addable

theorem Table.Build.add (build : base.Build t) {path : List Byte} (valid : valid_path path = true)
    {d : Nat} (to_ : walk_to_dir t (dirname path) = some (some d)) {name : List Byte}
    {off len : Nat} {t' : Table} (added : add_entry t d name off len = some t') :
    base.Build t' := by
  obtain ⟨r, walked, inside⟩ := walk_to_dir_within build.sound (dirname path)
  cases to_.symm.trans walked
  obtain ⟨low, dir⟩ := inside d rfl
  have addable : base.Addable d := by
    refine ⟨path, valid, ?_⟩
    rw [← walk_to_dir_over build.base_sound build.above]
    exact to_
  rw [add_entry, add_name] at added
  dsimp only at added
  split at added
  · cases added
  cases added
  rw [List.append_assoc]
  apply build.append low dir addable rfl rfl
  have inside : t.str.length % 2 ^ 32 ≤ (t.str ++ name).length := by
    rw [List.length_append]
    exact le_trans (Nat.mod_le _ _) (Nat.le_add_right _ _)
  rw [← List.append_assoc]
  exact cstr_of_ends inside

/-- A replaced file keeps a build. -/
theorem Table.Build.replace (build : base.Build t) {i : Nat} {x : Ent} (low : i < t.count)
    (at_ : t.e[i]? = some x) (file : x.dir = false) (off len : Nat) :
    base.Build { t with e := t.e.set i { x with a := off, b := len } } := by
  have sound := build.sound
  have length : i < t.e.length := (List.getElem?_eq_some_iff.mp at_).1
  have here : (t.e.set i { x with a := off, b := len })[i]? = some { x with a := off, b := len } :=
    List.getElem?_set_self length
  have other : ∀ {j : Nat}, j ≠ i → (t.e.set i { x with a := off, b := len })[j]? = t.e[j]? :=
    fun ne => List.getElem?_set_ne ne.symm
  have back : ∀ {j : Nat} {y : Ent}, (t.e.set i { x with a := off, b := len })[j]? = some y →
      ∃ z, t.e[j]? = some z ∧ y.dir = z.dir ∧ y.name = z.name ∧ y.add_dir = z.add_dir ∧
        (y.dir = true → y = z) := by
    intro j y there
    by_cases same : j = i
    · subst same
      cases here.symm.trans there
      exact ⟨x, at_, rfl, rfl, rfl, fun dir => absurd (file.symm.trans dir) (by decide)⟩
    · exact ⟨y, (other same).symm.trans there, rfl, rfl, rfl, fun _ => rfl⟩
  have kept : ∀ {d : Nat}, t.IsDir d →
      ∃ y, (t.e.set i { x with a := off, b := len })[d]? = some y ∧ y.dir = true := by
    rintro d ⟨y, there, dir⟩
    refine ⟨y, (other ?_).trans there, dir⟩
    rintro rfl
    cases at_.symm.trans there
    exact absurd (file.symm.trans dir) (by decide)
  refine ⟨build.base_sound, build.base_length, ⟨sound.some_, ?_, kept sound.root, ?_, ?_, ?_, ?_⟩,
    ⟨build.above.count_eq, ?_, build.above.str⟩, ?_⟩
  · change t.count ≤ (t.e.set i _).length
    rw [List.length_set]
    exact sound.count_le
  · intro j y there pos
    obtain ⟨z, was, -, name, -⟩ := back there
    rw [name]
    exact sound.named j z was pos
  · intro j y there low pos dir
    obtain ⟨z, was, -, -, -, whole⟩ := back there
    cases whole dir
    exact sound.range j y was low pos dir
  · intro j y there low
    obtain ⟨z, was, -, -, added, -⟩ := back there
    rw [added]
    exact sound.base j z was low
  · intro j y there high
    obtain ⟨z, was, dir, -, added, -⟩ := back there
    obtain ⟨plain, d, in_, inside, is_dir⟩ := sound.added j z was high
    exact ⟨dir.trans plain, d, added.trans in_, inside, kept is_dir⟩
  · intro j y there low
    obtain ⟨z, now, dir, name, whole⟩ := build.above.same j y there low
    by_cases same : j = i
    · subst same
      cases at_.symm.trans now
      refine ⟨_, here, dir, name, fun is_dir => ?_⟩
      exact absurd (file.symm.trans (dir.trans is_dir)) (by decide)
    · exact ⟨z, (other same).trans now, dir, name, whole⟩
  · intro j y d there high in_
    obtain ⟨z, was, -, -, added, -⟩ := back there
    exact build.in_ j z d was high (added.symm.trans in_)

end Lines

/-! A pass over the lines. -/

section Passes

variable {base : Table}

/-- The lines still in force. -/
def live (ops : List FileOp) : Nat := ops.countP fun op => op.refused = false

/-- What a pass keeps: its table is a build of the base, and its lines are the ones it
was given, all but where it placed them. -/
structure Pass.Keeps (base : Table) (ops : List FileOp) (p : Pass) : Prop where
  build : base.Build p.table
  lines : p.ops.map (fun op => (op.mod_index, op.refused)) =
    ops.map fun op => (op.mod_index, op.refused)

theorem set_lines {ops : List FileOp} {k : Nat} {op : FileOp} (at_ : ops[k]? = some op)
    (off : Nat) :
    (ops.set k { op with offset := off }).map (fun op => (op.mod_index, op.refused)) =
      ops.map fun op => (op.mod_index, op.refused) := by
  have low : k < ops.length := (List.getElem?_eq_some_iff.mp at_).1
  apply List.ext_getElem?
  intro j
  rw [List.getElem?_map, List.getElem?_map]
  by_cases same : k = j
  · subst same
    rw [List.getElem?_set_self low, at_]
    rfl
  · rw [List.getElem?_set_ne same]

variable {ops : List FileOp} {p : Pass}

/-- A line of a valid path comes to something, and what it places keeps the build. -/
def Comes (base : Table) (ops : List FileOp) (o : Option Outcome) : Prop :=
  ∃ out, o = some out ∧ ∀ p, out = .placed p → p.Keeps base ops

theorem comes_placed (keeps : p.Keeps base ops) : Comes base ops (some (.placed p)) := by
  refine ⟨_, rfl, ?_⟩
  rintro q ⟨⟩
  exact keeps

theorem comes_refused : Comes base ops (some .refused) := ⟨_, rfl, nofun⟩

theorem comes_failed (why : Why) : Comes base ops (some (.failed why)) := ⟨_, rfl, nofun⟩

theorem place_source_comes (keeps : p.Keeps base ops) (linked : base.Linked) {k : Nat}
    {op : FileOp} (at_ : p.ops[k]? = some op) (valid : valid_path op.path = true) :
    Comes base ops (place_source p k op) := by
  have build := keeps.build
  rw [place_source]
  split
  · exact comes_refused
  split
  · exact comes_refused
  split
  next ends =>
    have placed : ∀ t, base.Build t → (place p k op t ends).Keeps base ops := fun t build =>
      ⟨build, (set_lines at_ p.cursor).trans keeps.lines⟩
    cases verb : op.verb with
    | replace =>
        obtain ⟨r, walked, inside⟩ := walk_within build.sound op.path
        dsimp only
        rw [walked]
        cases r with
        | none => exact comes_refused
        | some i =>
            have low := inside i rfl
            obtain ⟨x, there⟩ := build.sound.entry low
            change Comes base ops (p.table.e[i]? >>= fun x => if x.dir = true then some .refused
              else some (.placed (place p k op { p.table with
                e := p.table.e.set i { x with a := p.cursor, b := op.data.length } } ends)))
            rw [there]
            change Comes base ops (if x.dir = true then some .refused else _)
            split
            · exact comes_refused
            next file =>
              have file := Bool.eq_false_iff.mpr file
              exact comes_placed (placed _ (build.replace low there file _ _))
    | add | alias_ =>
        obtain ⟨r, found, -⟩ := find_within build linked op.path
        dsimp only
        rw [found]
        change Comes base ops (if r.isSome = true then some .refused else _)
        split
        · exact comes_refused
        obtain ⟨to_, walked, -⟩ := walk_to_dir_within build.sound (dirname op.path)
        rw [walked]
        cases to_ with
        | none => exact comes_refused
        | some d =>
            dsimp only [Option.bind_eq_bind, Option.bind_some]
            cases added : add_entry p.table d (basename op.path) p.cursor op.data.length with
            | none => exact comes_failed _
            | some t => exact comes_placed (placed t (build.add valid walked added))
  · exact comes_refused

theorem place_alias_comes (keeps : p.Keeps base ops) (linked : base.Linked) {k : Nat}
    {op : FileOp} (at_ : p.ops[k]? = some op) (valid : valid_path op.path = true) :
    Comes base ops (place_alias p k op) := by
  have build := keeps.build
  obtain ⟨r, found, -⟩ := find_within build linked op.path
  rw [place_alias, found]
  change Comes base ops (if r.isSome = true then some .refused else _)
  split
  · exact comes_refused
  split
  · exact comes_refused
  obtain ⟨target, reads⟩ := find_file_within build linked op.target
  rw [reads]
  cases target with
  | none => exact comes_refused
  | some target =>
      obtain ⟨to_, walked, -⟩ := walk_to_dir_within build.sound (dirname op.path)
      change Comes base ops (walk_to_dir p.table (dirname op.path) >>= _)
      rw [walked]
      cases to_ with
      | none => exact comes_refused
      | some d =>
          cases added : add_entry p.table d (basename op.path) target.a target.b with
          | none =>
              refine ⟨.failed .memory, ?_, by rintro q ⟨⟩⟩
              dsimp only [Option.bind_eq_bind, Option.bind_some]
              rw [added]
          | some t =>
              refine ⟨.placed { p with
                table := t
                ops := p.ops.set k { op with offset := target.a }
                claims := p.claims ++ [⟨op.path, op.verb, op.mod_index⟩] }, ?_, ?_⟩
              · dsimp only [Option.bind_eq_bind, Option.bind_some]
                rw [added]
              · rintro q ⟨⟩
                exact ⟨build.add valid walked added, (set_lines at_ target.a).trans keeps.lines⟩

theorem take_line_comes (keeps : p.Keeps base ops) (linked : base.Linked) {k : Nat}
    {op : FileOp} (at_ : p.ops[k]? = some op) : Comes base ops (take_line p k op) := by
  rw [take_line]
  split
  · exact comes_refused
  next valid =>
  have valid : valid_path op.path = true := by
    cases said : valid_path op.path with
    | true => rfl
    | false => exact absurd said valid
  split
  · split
    · exact comes_refused
    · exact ⟨_, rfl, nofun⟩
  · cases op.verb with
    | alias_ => exact place_alias_comes keeps linked at_ valid
    | replace => exact place_source_comes keeps linked at_ valid
    | add => exact place_source_comes keeps linked at_ valid

/-- A mod refused takes at least the line it was refused for. -/
theorem live_refuse {k : Nat} {op : FileOp} (at_ : ops[k]? = some op) (force : op.refused = false) :
    live (refuse ops op.mod_index) < live ops := by
  have fewer : ∀ l : List FileOp, live (refuse l op.mod_index) ≤ live l ∧
      (op ∈ l → live (refuse l op.mod_index) < live l) := by
    intro l
    induction l with
    | nil => exact ⟨le_refl _, nofun⟩
    | cons other rest ih =>
        have head : live (other :: rest) = live rest + if other.refused = false then 1 else 0 := by
          rw [live, List.countP_cons]
          simp only [decide_eq_true_eq]
          rfl
        have refused : live (refuse (other :: rest) op.mod_index) =
            live (refuse rest op.mod_index) +
              if other.mod_index ≠ op.mod_index ∧ other.refused = false then 1 else 0 := by
          rw [live, refuse, List.map_cons, List.countP_cons]
          by_cases same : other.mod_index = op.mod_index
          · simp [same, live, refuse]
          · simp [same, live, refuse]
        rw [head, refused]
        constructor
        · have := ih.1
          split
          next both => rw [if_pos both.2]; omega
          · split
            · omega
            · omega
        · intro member
          rcases List.mem_cons.mp member with rfl | later
          · have := ih.1
            rw [if_pos force, if_neg (fun both => both.1 rfl)]
            omega
          · have := ih.2 later
            split
            next both => rw [if_pos both.2]; omega
            · split
              · omega
              · omega
  exact (fewer ops).2 (List.mem_of_getElem? at_)

theorem live_eq {ops' : List FileOp}
    (lines : ops'.map (fun op => (op.mod_index, op.refused)) =
      ops.map fun op => (op.mod_index, op.refused)) : live ops' = live ops := by
  have counted : ∀ l : List FileOp, live l =
      (l.map fun op => (op.mod_index, op.refused)).countP fun x => x.2 = false := by
    intro l
    rw [List.countP_map]
    rfl
  rw [counted, counted, lines]

/-- A pass that ends, and has one line less in force where it runs again. -/
def Ends (base : Table) (ops : List FileOp) (r : Option PassEnd) : Prop :=
  ∃ e, r = some e ∧ (∀ p, e = .built p → p.Keeps base ops) ∧
    ∀ ops', e = .again ops' → live ops' < live ops

theorem pass_loop_ends (second : Bool) (linked : base.Linked) {l : List Nat}
    (inside : ∀ k ∈ l, k < ops.length) (keeps : p.Keeps base ops) :
    Ends base ops (pass_loop second l p) := by
  induction l generalizing p with
  | nil =>
      refine ⟨_, rfl, ?_, nofun⟩
      rintro q ⟨⟩
      exact keeps
  | cons k rest ih =>
      obtain ⟨low, others⟩ := List.forall_mem_cons.mp inside
      have length : p.ops.length = ops.length := by
        have := congrArg List.length keeps.lines
        simpa using this
      rw [← length] at low
      have at_ : p.ops[k]? = some p.ops[k] := List.getElem?_eq_getElem low
      rw [pass_loop, at_]
      dsimp only
      split
      · exact ih others keeps
      next goes =>
        obtain ⟨o, taken, placed⟩ := take_line_comes keeps linked at_
        have force : p.ops[k].refused = false :=
          Bool.eq_false_iff.mpr fun refused => goes (.inl refused)
        rw [taken]
        cases o with
        | placed q => exact ih others (placed q rfl)
        | refused =>
            refine ⟨_, rfl, nofun, ?_⟩
            rintro ops' ⟨⟩
            rw [← live_eq keeps.lines]
            exact live_refuse at_ force
        | collide => exact ⟨_, rfl, nofun, nofun⟩
        | failed why => exact ⟨_, rfl, nofun, nofun⟩

theorem build_pass_ends (sound : base.Sound) (length : base.e.length = base.count)
    (linked : base.Linked) (ops : List FileOp) : Ends base ops (build_pass base ops) := by
  have inside : ∀ k ∈ List.range ops.length, k < ops.length := fun k => List.mem_range.mp
  rw [build_pass]
  have start : (⟨base, ops, [], DISC_OVERLAY_BASE, 0, [], le_refl _⟩ : Pass).Keeps base ops :=
    ⟨.start sound length, rfl⟩
  obtain ⟨e, first, built, again⟩ := pass_loop_ends false linked inside start
  rw [first]
  cases e with
  | built p => exact pass_loop_ends true linked inside (built p rfl)
  | again ops' =>
      refine ⟨_, rfl, nofun, ?_⟩
      rintro _ ⟨⟩
      exact again ops' rfl
  | collide => exact ⟨_, rfl, nofun, nofun⟩
  | failed why => exact ⟨_, rfl, nofun, nofun⟩

end Passes

/-! The check over the rebuilt table. -/

section Checks

variable {b r : Table}

theorem first_why_some {α : Type} {f : α → Option (Option Why)} {l : List α}
    (each : ∀ x ∈ l, ∃ why, f x = some why) : ∃ why, first_why f l = some why := by
  induction l with
  | nil => exact ⟨none, rfl⟩
  | cons x rest ih =>
      obtain ⟨⟨why, here⟩, others⟩ := List.forall_mem_cons.mp each
      rw [first_why, here]
      cases why with
      | none => exact ih others
      | some why => exact ⟨_, rfl⟩

theorem check_file_some (b_sound : b.Sound) (r_sound : r.Sound) (ops : List FileOp) {i : Nat}
    (pos : 0 < i) (low : i < b.count) (fits : Fits b i) :
    ∃ why, check_file b r ops i = some why := by
  obtain ⟨x, at_⟩ := b_sound.entry low
  obtain ⟨path, written⟩ := file_path_within b_sound at_ pos fits
  obtain ⟨found, walked, inside⟩ := walk_within r_sound path
  rw [check_file, at_]
  change ∃ why, (if x.dir = true then some none else file_path b i >>= _) = some why
  split
  · exact ⟨none, rfl⟩
  rw [written]
  change ∃ why, (walk r path >>= _) = some why
  rw [walked]
  cases found with
  | none => exact ⟨_, rfl⟩
  | some j =>
      obtain ⟨y, there⟩ := r_sound.entry (inside j rfl)
      change ∃ why, (r.e[j]? >>= _) = some why
      rw [there]
      exact ⟨_, rfl⟩

theorem check_line_some (r_sound : r.Sound) (op : FileOp) : ∃ why, check_line r op = some why := by
  rw [check_line]
  split
  · exact ⟨none, rfl⟩
  obtain ⟨found, walked, inside⟩ := walk_within r_sound op.path
  rw [walked]
  cases found with
  | none => exact ⟨_, rfl⟩
  | some j =>
      obtain ⟨y, there⟩ := r_sound.entry (inside j rfl)
      change ∃ why, (r.e[j]? >>= _) = some why
      rw [there]
      exact ⟨_, rfl⟩

theorem disc_overlay_check_some {fst : List Byte} {ext : List Extent}
    (accepted : index_fst fst = some ext) (parsed : parse fst = .ok b) (out : List Byte)
    (ops : List FileOp) : ∃ why, disc_overlay_check fst out ops = some why := by
  have b_sound := (parse_sound parsed).1
  rw [disc_overlay_check, parsed]
  dsimp only
  cases again : parse out with
  | error why => exact ⟨_, rfl⟩
  | ok r =>
      have r_sound := (parse_sound again).1
      dsimp only
      split
      · exact ⟨_, rfl⟩
      obtain ⟨files, checked⟩ : ∃ why,
          first_why (check_file b r ops) (List.range' 1 (b.count - 1)) = some why := by
        apply first_why_some
        intro i member
        have range := List.mem_range'_1.mp member
        have low : i < b.count := by omega
        exact check_file_some b_sound r_sound ops range.1 low
          (index_fits accepted parsed range.1 low)
      rw [checked]
      cases files with
      | some why => exact ⟨_, rfl⟩
      | none => exact first_why_some fun op _ => check_line_some r_sound op

end Checks

/-! The whole build. -/

section Build

variable {fst : List Byte} {ext : List Extent} {t : Table}

theorem build_loop_some (accepted : index_fst fst = some ext) (parsed : parse fst = .ok t)
    (nested : t.Nested) (linked : t.Linked) {fuel : Nat} {ops : List FileOp}
    (room : live ops < fuel) : ∃ built, build_loop fst fuel ops = some built := by
  obtain ⟨sound, length⟩ := parse_sound parsed
  induction fuel generalizing ops with
  | zero => omega
  | succ fuel ih =>
      obtain ⟨e, passed, keeps, again⟩ := build_pass_ends sound length linked ops
      rw [build_loop, parsed]
      change ∃ built, (build_pass t ops >>= _) = some built
      rw [passed]
      cases e with
      | built p =>
          have build := (keeps p rfl).build
          obtain ⟨out, emitted⟩ := serialise_some build.sound (nested_over build nested)
          obtain ⟨why, checked⟩ := disc_overlay_check_some accepted parsed out p.ops
          change ∃ built, finish fst p = some built
          rw [finish, emitted]
          change ∃ built, (disc_overlay_check fst out p.ops >>= _) = some built
          rw [checked]
          cases why with
          | some why => exact ⟨_, rfl⟩
          | none => exact ⟨_, rfl⟩
      | again ops' =>
          have fewer := again ops' rfl
          exact ih (by omega)
      | collide => exact ⟨_, rfl⟩
      | failed why => exact ⟨_, rfl⟩

/-- A build without lines only serialises the table as it is. -/
theorem nested_of_build (parsed : parse fst = .ok t)
    (builds : (disc_overlay_build fst []).isSome = true) : t.Nested := by
  obtain ⟨sound, length⟩ := parse_sound parsed
  have build : disc_overlay_build fst [] =
      finish fst ⟨t, [], [], DISC_OVERLAY_BASE, 0, [], le_refl _⟩ := by
    rw [disc_overlay_build, build_loop, parsed]
    rfl
  rw [build, finish] at builds
  cases emitted : serialise t with
  | none =>
      rw [emitted] at builds
      cases builds
  | some out => exact nested_of_serialise sound length emitted

/-- A root and one file. -/
def one_file : List Byte :=
  [1#8, 0#8, 0#8, 0#8, 0#8, 0#8, 0#8, 0#8, 0#8, 0#8, 0#8, 2#8,
    0#8, 0#8, 0#8, 0#8, 0#8, 1#8, 0#8, 0#8, 0#8, 0#8, 0#8, 9#8, 0x61#8, 0#8]

/-- Two lines over them: a file added as `b`, and `a` replaced. -/
def two_lines : List FileOp :=
  [⟨.add, [0x62#8], [], [1#8], 0, false, 0⟩, ⟨.replace, [0x61#8], [], [2#8], 0, false, 0⟩]

/-- A directory that ends past the one it lies in has its file emitted twice, past the
table's own room. -/
def overlapping : List Byte :=
  [1#8, 0#8, 0#8, 0#8, 0#8, 0#8, 0#8, 0#8, 0#8, 0#8, 0#8, 4#8,
    1#8, 0#8, 0#8, 0#8, 0#8, 0#8, 0#8, 0#8, 0#8, 0#8, 0#8, 3#8,
    1#8, 0#8, 0#8, 2#8, 0#8, 0#8, 0#8, 1#8, 0#8, 0#8, 0#8, 4#8,
    0#8, 0#8, 0#8, 4#8, 0#8, 1#8, 0#8, 0#8, 0#8, 0#8, 0#8, 9#8,
    0x61#8, 0#8, 0x62#8, 0#8, 0x63#8, 0#8]

end Build

end SoaPort.Disc
