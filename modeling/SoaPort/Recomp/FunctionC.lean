import SoaPort.Ppc.Walk
import SoaPort.Recomp.Emit

namespace SoaPort.Recomp

open SoaPort.Ppc

/-! The body of a C function: one chunk of statements for each instruction, in
address order, and how control runs through it. -/

/-- What is written for one instruction. `head` is the position mark of a
label and the calls into the runtime that stand before the translation. -/
structure Chunk where
  addr : Nat
  labelled : Bool
  head : List Stmt
  body : List Stmt

namespace Emitter

/-- The emitter of a program: its code and its resolved switches are the
image's. -/
def ofDol (dol : Dol) (functions hooks savepoints traces : Nat → Bool) : Emitter where
  functions := functions
  tables a := (table_at (find_jump_tables dol) a).map (·.targets)
  code := CodeView.get dol
  hooks := hooks
  savepoints := savepoints
  traces := traces

variable (em : Emitter) (fn : Ppc.Function)

/-- `sorted({a for b in fn.blocks.values() for a in range(b.start, b.end, 4)})`. -/
def addrs : List Nat :=
  (fn.blocks.flatMap (·.words)).dedup.insertionSort (· ≤ ·)

/-- The labels that the instruction at `a` asks for. -/
def branch_labels (addr_set : Nat → Bool) (a : Nat) : List Nat :=
  match em.code a with
  | none => []
  | some i =>
      (if i.valid && i.is_direct_branch && !i.lk_bit then i.target.toList.filter addr_set
        else []) ++
      (if i.valid && i.mnemonic = .bcctr then ((em.tables a).getD []).filter addr_set
        else [])

def labels : List Nat :=
  fn.blocks.map (·.start) ++ (addrs fn).flatMap (em.branch_labels (· ∈ addrs fn))

/-- The chunk of one address. There is none for an address that holds no
instruction: the source fails there. -/
def chunk (addr_set labels : Nat → Bool) (a : Nat) : Option Chunk :=
  (em.code a).map fun i =>
    { addr := a
      labelled := labels a
      head :=
        (if labels a then [.simple (.setPc a)] else []) ++
          (if em.hooks a then [.simple (.hook a)] else []) ++
          (if em.traces a then [.simple (.trace_hit a)] else [])
      body := em._translate i addr_set }

/-- The loop over the addresses. -/
def chunks (addr_set labels : Nat → Bool) : List Nat → Option (List Chunk)
  | [] => some []
  | a :: rest => do
      let c ← em.chunk addr_set labels a
      let cs ← chunks addr_set labels rest
      some (c :: cs)

/-- The emitter while it writes `fn`. -/
def enter : Emitter :=
  { em with _hooked := (addrs fn).any em.hooks }

/-- The chunks of `fn`'s body; the closing `return` follows the last. -/
def function_c : Option (List Chunk) :=
  (em.enter fn).chunks (· ∈ addrs fn) (· ∈ (em.enter fn).labels fn) (addrs fn)

end Emitter

/-! Running a body. A place in it is the list of chunks that control has still
to pass. -/

inductive Config (ρ : Type) where
  | at (place : List Chunk) (s : CpuState ρ)
  | done (s : CpuState ρ)

/-- Where `goto` lands: at the label, which the C compiler requires to exist. -/
def goto_label (body : List Chunk) (t : Nat) : List Chunk :=
  body.dropWhile fun c => !(c.labelled && c.addr = t)

variable {ρ : Type} (rt : Runtime ρ) (fc : FloatCode ρ) (body : List Chunk)

/-- Where control is after a chunk's statements. -/
def resume (place : List Chunk) : CpuState ρ × Flow → Config ρ
  | (s, .next) => .at place s
  | (s, .goto t) => .at (goto_label body t) s
  | (s, .ret) => .done s

/-- Run the chunk at a place, its head first. -/
def c_step : List Chunk → CpuState ρ → Config ρ
  | [], s => .done s
  | c :: place, s => resume body place (execStmts rt fc (c.head ++ c.body) s)

def c_advance : Config ρ → Config ρ
  | .done s => .done s
  | .at place s => c_step rt fc body place s

def c_run (n : Nat) (config : Config ρ) : Config ρ :=
  (c_advance rt fc body)^[n] config

theorem c_run_succ (n : Nat) (config : Config ρ) :
    c_run rt fc body (n + 1) config = c_advance rt fc body (c_run rt fc body n config) :=
  Function.iterate_succ_apply' ..

/-! Chunks and their addresses. -/

namespace Emitter

variable {em : Emitter} {addr_set labels : Nat → Bool}

theorem chunks_addrs {list : List Nat} {cs : List Chunk}
    (written : em.chunks addr_set labels list = some cs) : cs.map (·.addr) = list := by
  induction list generalizing cs with
  | nil =>
      cases written
      rfl
  | cons a rest ih =>
      simp only [chunks, chunk, Option.bind_eq_bind, Option.bind_eq_some_iff,
        Option.map_eq_some_iff, Option.some.injEq] at written
      obtain ⟨c, ⟨i, _, rfl⟩, others, tail, rfl⟩ := written
      simp [ih tail]

theorem chunk_of_mem {list : List Nat} {cs : List Chunk}
    (written : em.chunks addr_set labels list = some cs) {c : Chunk} (member : c ∈ cs) :
    em.chunk addr_set labels c.addr = some c := by
  induction list generalizing cs with
  | nil =>
      cases written
      cases member
  | cons a rest ih =>
      simp only [chunks, Option.bind_eq_bind, Option.bind_eq_some_iff,
        Option.some.injEq] at written
      obtain ⟨first, made, others, tail, rfl⟩ := written
      rcases List.mem_cons.mp member with rfl | later
      · have same : c.addr = a := by
          obtain ⟨i, _, rfl⟩ := Option.map_eq_some_iff.mp made
          rfl
        rw [same]
        exact made
      · exact ih tail later

theorem chunks_isSome {list : List Nat}
    (decoded : ∀ a ∈ list, (em.code a).isSome) : ∃ cs, em.chunks addr_set labels list = some cs := by
  induction list with
  | nil => exact ⟨[], rfl⟩
  | cons a rest ih =>
      obtain ⟨cs, tail⟩ := ih fun b later => decoded b (List.mem_cons_of_mem a later)
      obtain ⟨i, found⟩ := Option.isSome_iff_exists.mp (decoded a List.mem_cons_self)
      simp [chunks, chunk, found, tail]

theorem code_of_chunk {a : Nat} {c : Chunk} (made : em.chunk addr_set labels a = some c) :
    (em.code a).isSome := by
  obtain ⟨i, found, _⟩ := Option.map_eq_some_iff.mp made
  simp [found]

theorem mem_addrs {fn : Ppc.Function} {a : Nat} :
    a ∈ addrs fn ↔ ∃ b ∈ fn.blocks, a ∈ b.words := by
  simp [addrs, List.mem_insertionSort]

/-- The addresses strictly ascend. -/
theorem addrs_sorted (fn : Ppc.Function) : (addrs fn).Pairwise (· < ·) := by
  have ordered : (addrs fn).Pairwise (· ≤ ·) := List.pairwise_insertionSort _ _
  have distinct : (addrs fn).Nodup :=
    (List.perm_insertionSort _ _).nodup_iff.mpr (List.nodup_dedup _)
  exact (ordered.and distinct).imp fun ⟨le, ne⟩ => lt_of_le_of_ne le ne

end Emitter

/-! Places. -/

/-- The chunks ascend by address. -/
def Ascending (body : List Chunk) : Prop := (body.map (·.addr)).Pairwise (· < ·)

theorem goto_label_suffix (t : Nat) : goto_label body t <:+ body :=
  List.dropWhile_suffix _

theorem goto_label_head {body : List Chunk} {t : Nat} {c : Chunk} (member : c ∈ body)
    (labelled : c.labelled = true) (address : c.addr = t) :
    ∃ first rest, goto_label body t = first :: rest ∧ first.addr = t := by
  induction body with
  | nil => cases member
  | cons e body ih =>
      cases here : e.labelled && decide (e.addr = t) with
      | true =>
          have landed : e.addr = t := by simpa using (Bool.and_eq_true_iff.mp here).2
          exact ⟨e, body, by rw [goto_label, List.dropWhile_cons_of_neg (by simp [here])], landed⟩
      | false =>
          have skip : goto_label (e :: body) t = goto_label body t := by
            rw [goto_label, List.dropWhile_cons_of_pos (by rw [here]; rfl), goto_label]
          rw [skip]
          apply ih
          rcases List.mem_cons.mp member with rfl | later
          · simp [labelled, address] at here
          · exact later

/-- In an ascending body the chunk after `c` is the one at the next address,
when that address is emitted and no other lies between. -/
theorem next_place {body : List Chunk} (ascending : Ascending body) {c d : Chunk}
    {place : List Chunk} (suffix : c :: place <:+ body) (member : d ∈ body)
    (after : c.addr < d.addr) (none_between : ∀ e ∈ body, c.addr < e.addr → d.addr ≤ e.addr) :
    ∃ rest, place = d :: rest := by
  obtain ⟨before, rfl⟩ := suffix
  have ordered : ((before ++ c :: place).map (·.addr)).Pairwise (· < ·) := ascending
  simp only [List.map_append, List.map_cons, List.pairwise_append, List.pairwise_cons,
    List.mem_cons, List.mem_map] at ordered
  obtain ⟨_, ⟨from_c, tail_sorted⟩, across⟩ := ordered
  have in_place : d ∈ place := by
    rcases List.mem_append.mp member with early | late
    · have := across d.addr ⟨d, early, rfl⟩ c.addr (.inl rfl)
      omega
    · rcases List.mem_cons.mp late with rfl | later
      · omega
      · exact later
  cases place with
  | nil => cases in_place
  | cons e rest =>
      have above : c.addr < e.addr := from_c e.addr ⟨e, List.mem_cons_self, rfl⟩
      have least := none_between e (by simp) above
      rcases List.mem_cons.mp in_place with rfl | later
      · exact ⟨rest, rfl⟩
      · have beyond : e.addr < d.addr := (List.pairwise_cons.mp tail_sorted).1 d.addr
          (List.mem_map.mpr ⟨d, later, rfl⟩)
        omega

end SoaPort.Recomp
