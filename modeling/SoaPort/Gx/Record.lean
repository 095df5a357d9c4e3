import Mathlib
import SoaPort.Gx.PipeCorrect

namespace SoaPort.Gx

/-! Recording a display list: where its bytes land, and what calling the list
does. -/

section Masks

variable {w : Word}

theorem and_lowMask_of_lt {k : Nat} (small : w.toNat < 2 ^ k) (le : k ≤ 32) :
    w &&& BitVec.ofNat 32 (2 ^ k - 1) = w := by
  apply BitVec.eq_of_toNat_eq
  have bound : 2 ^ k - 1 < 2 ^ 32 :=
    Nat.lt_of_lt_of_le (Nat.sub_lt (Nat.two_pow_pos k) Nat.one_pos)
      (Nat.pow_le_pow_right Nat.two_pos le)
  rw [BitVec.toNat_and, BitVec.toNat_ofNat, Nat.mod_eq_of_lt bound,
    Nat.and_two_pow_sub_one_of_lt_two_pow small]

/-- The write pointer without its wrap bit. -/
theorem wptr_low (small : w.toNat < 2 ^ 26) (wrapped : Bool) :
    ((if wrapped then PI_WRAP else 0#32) ||| w) &&& 0x03FFFFFF#32 = w := by
  have low : w &&& 0x03FFFFFF#32 = w := and_lowMask_of_lt small (by decide)
  cases wrapped with
  | false => rw [if_neg Bool.false_ne_true, BitVec.zero_or, low]
  | true =>
      rw [if_pos rfl, BitVec.and_or_distrib_right, low]
      exact BitVec.zero_or

theorem wptr_wrap (small : w.toNat < 2 ^ 26) (wrapped : Bool) :
    ((if wrapped then PI_WRAP else 0#32) ||| w) &&& PI_WRAP = if wrapped then PI_WRAP else 0#32 := by
  have low : w &&& 0x03FFFFFF#32 = w := and_lowMask_of_lt small (by decide)
  have clear : w &&& PI_WRAP = 0#32 := by
    rw [← low, BitVec.and_assoc]
    exact BitVec.and_zero
  rw [BitVec.and_or_distrib_right, clear, BitVec.or_zero]
  cases wrapped <;> rfl

theorem mem_ptr_cached (small : w.toNat < 2 ^ 25) : mem_ptr (0x80000000#32 ||| w) = w.toNat := by
  have low : w &&& MEM_MASK = w := and_lowMask_of_lt small (by decide)
  rw [mem_ptr, BitVec.and_or_distrib_right, low]
  exact congrArg BitVec.toNat BitVec.zero_or

end Masks

namespace FrontEnd

variable {g h : FrontEnd}

/-- The buffer a list is recorded into. -/
def rec_base (g : FrontEnd) : Nat := (g.pi_base &&& 0x03FFFFFF#32).toNat

def rec_stop (g : FrontEnd) : Nat := (g.pi_top &&& 0x03FFFFFF#32).toNat + 4

/-- The recorder with `bytes` recorded from the base of its buffer. -/
structure Recorded (g h : FrontEnd) (bytes : List Byte) : Prop where
  frame : { h with mem := g.mem, pi_wptr := g.pi_wptr } = g
  outside : ∀ x, x < g.rec_base ∨ g.rec_stop ≤ x ∨ g.rec_base + bytes.length ≤ x →
    h.mem x = g.mem x
  pointer : ∃ w : Word,
    h.pi_wptr = (if decide (g.rec_stop < g.rec_base + bytes.length) then PI_WRAP else 0#32) ||| w ∧
      g.rec_base ≤ w.toNat ∧ w.toNat ≤ g.rec_stop ∧
      (g.rec_base + bytes.length ≤ g.rec_stop → w.toNat = g.rec_base + bytes.length)
  stored : g.rec_base + bytes.length ≤ g.rec_stop →
    ∀ k (hk : k < bytes.length), h.mem (g.rec_base + k) = bytes[k]

theorem rec_stop_eq : ((g.pi_top &&& 0x03FFFFFF#32) + 4).toNat = g.rec_stop := by
  have bound : (g.pi_top &&& 0x03FFFFFF#32).toNat ≤ 0x03FFFFFF := by
    rw [BitVec.toNat_and]
    exact Nat.and_le_right
  rw [rec_stop, BitVec.toNat_add]
  refine Nat.mod_eq_of_lt ?_
  change _ + 4 < _
  omega

theorem dl_record_byte_eq {w : Word} {wrapped : Bool} (small : w.toNat < 2 ^ 26) (b : Byte)
    (pointer : h.pi_wptr = (if wrapped then PI_WRAP else 0#32) ||| w) :
    h.dl_record_byte b =
      let next := if h.rec_stop ≤ w.toNat then h.pi_base &&& 0x03FFFFFF#32 else w
      { h with
        mem := if next.toNat < MEM1_SIZE then
            Function.update h.mem (mem_ptr (0x80000000#32 ||| next)) b
          else h.mem
        pi_wptr := (if wrapped || decide (h.rec_stop ≤ w.toNat) then PI_WRAP else 0#32) |||
          (next + 1) } := by
  have wrap := wptr_wrap small wrapped
  rw [dl_record_byte]
  dsimp only
  rw [pointer, wptr_low small, rec_stop_eq]
  split
  · rename_i full
    rw [decide_eq_true full, Bool.or_true, if_pos rfl, BitVec.and_or_distrib_right, wrap]
    cases wrapped <;> rfl
  · rename_i room
    rw [decide_eq_false room, Bool.or_false, wrap]

/-- One byte lands in the buffer, at its base again where the buffer is full. -/
theorem Recorded.byte (order : g.rec_base < g.rec_stop) (inside : g.rec_stop ≤ MEM1_SIZE)
    {bytes : List Byte} (recorded : Recorded g h bytes) (b : Byte) :
    Recorded g (h.dl_record_byte b) (bytes ++ [b]) := by
  obtain ⟨frame, outside, ⟨w, pointer, low, high, before⟩, stored⟩ := recorded
  unfold MEM1_SIZE at inside
  have base : h.pi_base &&& 0x03FFFFFF#32 = g.pi_base &&& 0x03FFFFFF#32 := by rw [← frame]
  have stop : h.rec_stop = g.rec_stop := by rw [← frame]; rfl
  rw [dl_record_byte_eq (by omega) b pointer, stop, base]
  -- where the byte goes
  generalize landing : (if g.rec_stop ≤ w.toNat then g.pi_base &&& 0x03FFFFFF#32 else w) = next
  have lands : next.toNat = if g.rec_stop ≤ w.toNat then g.rec_base else w.toNat := by
    rw [← landing]
    split <;> rfl
  have within : g.rec_base ≤ next.toNat ∧ next.toNat < g.rec_stop ∧
      next.toNat ≤ g.rec_base + bytes.length := by
    rw [lands]
    split <;> omega
  have after : (next + 1).toNat = next.toNat + 1 := by
    rw [BitVec.toNat_add]
    refine Nat.mod_eq_of_lt ?_
    change next.toNat + 1 < _
    omega
  dsimp only
  rw [if_pos (by unfold MEM1_SIZE; omega), mem_ptr_cached (by omega)]
  have size : (bytes ++ [b]).length = bytes.length + 1 := by rw [List.length_append]; rfl
  refine ⟨?_, ?_, ⟨next + 1, ?_, ?_, ?_, ?_⟩, ?_⟩
  · rw [← frame]
  · intro x off
    dsimp only
    rw [size] at off
    rw [Function.update_of_ne (by omega), outside x (by omega)]
  · have wraps : (g.rec_stop < g.rec_base + bytes.length ∨ g.rec_stop ≤ w.toNat) ↔
        g.rec_stop < g.rec_base + (bytes ++ [b]).length := by
      rw [size]
      omega
    rw [← Bool.decide_or, decide_eq_decide.mpr wraps]
  · omega
  · omega
  · intro fits
    rw [size] at fits ⊢
    have := before (by omega)
    rw [after, lands, if_neg (by omega)]
    omega
  · intro fits k hk
    rw [size] at fits hk
    have here := before (by omega)
    have position : next.toNat = g.rec_base + bytes.length := by
      rw [lands, if_neg (by omega), here]
    dsimp only
    rw [position, List.getElem_append]
    split
    · rename_i earlier
      rw [Function.update_of_ne (by omega)]
      exact stored (by omega) k earlier
    · have last : k = bytes.length := by omega
      subst last
      rw [Function.update_self]
      simp

theorem Recorded.bytes (order : g.rec_base < g.rec_stop) (inside : g.rec_stop ≤ MEM1_SIZE)
    {bytes : List Byte} (recorded : Recorded g h bytes) (more : List Byte) :
    Recorded g (more.foldl dl_record_byte h) (bytes ++ more) := by
  induction more generalizing h bytes with
  | nil => rwa [List.append_nil]
  | cons b more ih =>
      rw [List.append_cons]
      exact ih (recorded.byte order inside b)

/-- Any stores record their bytes one after another. -/
theorem Recorded.stores (dump : Option (List Nat)) (order : g.rec_base < g.rec_stop) (inside : g.rec_stop ≤ MEM1_SIZE)
    (recording : g.dl_rec = true) {bytes : List Byte}
    (recorded : Recorded g h bytes) (stores : List Store) :
    Recorded g (h.gx_pipe_writes dump stores) (bytes ++ stores.flatMap Store.bytes) := by
  induction stores generalizing h bytes with
  | nil => rwa [List.flatMap_nil, List.append_nil]
  | cons store stores ih =>
      have parsing : h.dl_rec = true := by
        rw [← recording, ← recorded.frame]
      rw [gx_pipe_writes, List.foldl_cons, List.flatMap_cons, ← List.append_assoc,
        gx_pipe_write, if_pos parsing]
      exact ih (recorded.bytes order inside store.bytes)

theorem Recorded.start (order : g.rec_base < g.rec_stop)
    (start : g.pi_wptr = g.pi_base &&& 0x03FFFFFF#32) : Recorded g g [] where
  frame := rfl
  outside _ _ := rfl
  pointer := by
    refine ⟨g.pi_base &&& 0x03FFFFFF#32, ?_, Nat.le_refl _, Nat.le_of_lt order, fun _ => rfl⟩
    rw [start, decide_eq_false (by rw [List.length_nil]; omega)]
    exact BitVec.zero_or.symm
  stored _ _ hk := absurd hk (Nat.not_lt_zero _)

end FrontEnd

/-! The list's commands do what the same commands do in the stream, but for
the list each draw names. -/

def Effect.unlisted : Effect → Effect
  | .draw op count verts vsize _ => .draw op count verts vsize none
  | e => e

namespace Gpu

def unlisted (g : Gpu) : Gpu :=
  { g with list_addr := 0, in_list := false, log := g.log.map Effect.unlisted }

variable (g : Gpu)

theorem unlisted_emit (e : Effect) : (g.emit e).unlisted = g.unlisted.emit e.unlisted := by
  simp only [unlisted, emit, List.map_append, List.map_cons, List.map_nil]

theorem unlisted_load_cp (reg : Nat) (v : Word) :
    (g.load_cp reg v).unlisted = g.unlisted.load_cp reg v :=
  unlisted_emit _ _

theorem unlisted_load_xf (addr : Nat) (values : List Word) :
    (g.load_xf addr values).unlisted = g.unlisted.load_xf addr values := by
  induction values generalizing g addr with
  | nil => rfl
  | cons v values ih =>
      rw [load_xf, load_xf]
      split
      · rw [ih, unlisted_emit]
        rfl
      · exact ih g (addr + 1)

/-- Where an indexed load reads, and what. -/
def xf_source (op index : Nat) : Word :=
  let array := 12 + (op - 0x20) / 8
  (g.regs.cp (0xA0 + array) &&& 0x1FFFFFFF#32) +
    BitVec.ofNat 32 index * (g.regs.cp (0xB0 + array) &&& 0xFF#32)

def xf_words (mem : Nat → Byte) (src : Word) (count : Nat) : List Word :=
  (List.range count).map fun i =>
    be32 (mem_bytes mem ((src ||| 0x80000000#32) + BitVec.ofNat 32 (4 * i)) 4)

theorem load_xf_indexed_eq (mem : Nat → Byte) (op index v : Nat) :
    g.load_xf_indexed mem op index v =
      if v / 4096 + 1 ≤ MEM1_SIZE / 4 ∧
          mem_ptr (g.xf_source op index) ≤ MEM1_SIZE - 4 * (v / 4096 + 1) then
        (g.emit (.fetch (g.xf_source op index)
          (xf_words mem (g.xf_source op index) (v / 4096 + 1)))).load_xf (v % 4096)
          (xf_words mem (g.xf_source op index) (v / 4096 + 1))
      else g :=
  rfl

theorem unlisted_load_xf_indexed (mem : Nat → Byte) (op index v : Nat) :
    (g.load_xf_indexed mem op index v).unlisted = g.unlisted.load_xf_indexed mem op index v := by
  have source : g.unlisted.xf_source op index = g.xf_source op index := rfl
  rw [load_xf_indexed_eq, load_xf_indexed_eq, source]
  split
  · rw [unlisted_load_xf, unlisted_emit]
    rfl
  · rfl

/-- What a BP write leaves in its register. -/
def bp_value (v : Word) : Word :=
  ((g.regs.bp (v >>> 24).toNat &&& ~~~g.bp_mask) ||| (v &&& g.bp_mask)) &&& 0xFFFFFF#32

def bp_shadow (v : Word) : Gpu :=
  { g with
    bp_mask := if (v >>> 24).toNat = 0xFE then g.bp_value v else 0xFFFFFF#32
    regs := { g.regs with bp := Function.update g.regs.bp (v >>> 24).toNat (g.bp_value v) } }

def pixel_engine (reg : Nat) (v : Word) : Gpu :=
  if reg = 0x45 then (if v &&& 2 ≠ 0 then { g with pe_isr := g.pe_isr ||| 8 } else g)
  else if reg = 0x47 then { g with pe_token := v.setWidth 16 }
  else if reg = 0x48 then { g with pe_token := v.setWidth 16, pe_isr := g.pe_isr ||| 4 }
  else g

theorem load_bp_eq (v : Word) :
    g.load_bp v =
      let written := ((g.bp_shadow v).pixel_engine (v >>> 24).toNat (g.bp_value v)).emit
        (.bp (v >>> 24).toNat (g.bp_value v))
      if (v >>> 24).toNat = 0x52 ∧ g.bp_value v &&& 0x4000 ≠ 0 then written.emit .frame_end
      else written :=
  rfl

theorem unlisted_pixel_engine (reg : Nat) (v : Word) :
    (g.pixel_engine reg v).unlisted = g.unlisted.pixel_engine reg v := by
  unfold pixel_engine
  split
  · split <;> rfl
  · split
    · rfl
    · split <;> rfl

theorem unlisted_load_bp (v : Word) : (g.load_bp v).unlisted = g.unlisted.load_bp v := by
  have value : g.unlisted.bp_value v = g.bp_value v := rfl
  have shadow : (g.bp_shadow v).unlisted = g.unlisted.bp_shadow v := rfl
  rw [load_bp_eq, load_bp_eq, value]
  dsimp only
  split
  · rw [unlisted_emit, unlisted_emit, unlisted_pixel_engine, shadow]
    rfl
  · rw [unlisted_emit, unlisted_pixel_engine, shadow]
    rfl

theorem unlisted_draw (op count : Nat) (verts : List Byte) (vsize : Nat) :
    (g.draw op count verts vsize).unlisted = g.unlisted.draw op count verts vsize :=
  unlisted_emit _ _

theorem mem_ptr_eq (w : Word) : mem_ptr w = w.toNat % 2 ^ 25 := by
  rw [mem_ptr, BitVec.toNat_and]
  exact Nat.and_two_pow_sub_one_eq_mod w.toNat 25

/-- The bytes an indexed load reads follow one another. -/
theorem xf_words_congr (mem mem' : Nat → Byte) (src : Word) (count : Nat)
    (fits : mem_ptr src + 4 * count ≤ MEM1_SIZE)
    (same : ∀ x, mem_ptr src ≤ x → x < mem_ptr src + 4 * count → mem' x = mem x) :
    xf_words mem' src count = xf_words mem src count := by
  apply List.map_congr_left
  intro i member
  have bound := List.mem_range.mp member
  unfold MEM1_SIZE at fits
  have cached : (src ||| 0x80000000#32).toNat % 2 ^ 25 = src.toNat % 2 ^ 25 := by
    rw [BitVec.toNat_or, Nat.or_mod_two_pow]
    exact Nat.or_zero _
  have start : mem_ptr ((src ||| 0x80000000#32) + BitVec.ofNat 32 (4 * i)) = mem_ptr src + 4 * i := by
    rw [mem_ptr_eq] at fits
    rw [mem_ptr_eq, mem_ptr_eq, BitVec.toNat_add, BitVec.toNat_ofNat]
    omega
  refine congrArg be32 (List.map_congr_left fun k member => ?_)
  have := List.mem_range.mp member
  rw [start]
  exact same _ (by omega) (by omega)

theorem load_xf_indexed_congr {g : Gpu} {mem mem' : Nat → Byte} {lo hi op index v : Nat}
    (same : ∀ x, ¬ (lo ≤ x ∧ x < hi) → mem' x = mem x)
    (outside : mem_ptr (g.xf_source op index) + 4 * (v / 4096 + 1) ≤ lo ∨
      hi ≤ mem_ptr (g.xf_source op index)) :
    g.load_xf_indexed mem' op index v = g.load_xf_indexed mem op index v := by
  rw [load_xf_indexed_eq, load_xf_indexed_eq]
  split
  · rename_i fits
    have words := xf_words_congr mem mem' (g.xf_source op index) (v / 4096 + 1)
      (by unfold MEM1_SIZE at fits ⊢; omega) (fun x low high => same x (by omega))
    rw [words]
  · rfl

/-- A command that may be recorded into memory from `lo` to `hi`: it calls no
list and loads nothing from there. -/
def records (g : Gpu) (lo hi : Nat) : Command → Prop
  | .list .. => False
  | .xf_indexed op index v =>
      mem_ptr (g.xf_source op index) + 4 * (v / 4096 + 1) ≤ lo ∨
        hi ≤ mem_ptr (g.xf_source op index)
  | _ => True

end Gpu

namespace FrontEnd

/-- Every command of a stream may be recorded. -/
def recordable (dump : Option (List Nat)) (lo hi : Nat) (g : FrontEnd) (p : List Byte) : Prop :=
  ∀ g' p', Lib.Reach (parse_step dump false true) g p g' p' →
    ∀ cmd rest, next_command g'.gpu.regs.cp false p' = some (cmd, rest) →
      g'.gpu.records lo hi cmd

variable {dump : Option (List Nat)} {g h : FrontEnd}

theorem recordable.after {lo hi : Nat} {p p' : List Byte} {g' : FrontEnd}
    (plain : g.recordable dump lo hi p)
    (reach : Lib.Reach (parse_step dump false true) g p g' p') : g'.recordable dump lo hi p' :=
  fun t q later => plain t q (reach.trans later)

/-- A command in the list and the same command in the stream. -/
theorem exec_unlisted {lo hi : Nat} (same : h.gpu.unlisted = g.gpu.unlisted)
    (mem : ∀ x, ¬ (lo ≤ x ∧ x < hi) → h.mem x = g.mem x) {cmd : Command}
    (plain : g.gpu.records lo hi cmd) :
    (h.exec dump cmd).gpu.unlisted = (g.exec dump cmd).gpu.unlisted := by
  cases cmd with
  | nop | unknown => exact same
  | list addr size body => exact plain.elim
  | cp reg v => rw [exec, exec, Gpu.unlisted_load_cp, Gpu.unlisted_load_cp, same]
  | xf addr values => rw [exec, exec, Gpu.unlisted_load_xf, Gpu.unlisted_load_xf, same]
  | xf_indexed op index v =>
      rw [exec, exec, Gpu.unlisted_load_xf_indexed, Gpu.unlisted_load_xf_indexed, same]
      exact Gpu.load_xf_indexed_congr mem plain
  | bp v =>
      have written : ∀ f : FrontEnd, (f.exec dump (.bp v)).gpu = f.gpu.load_bp v :=
        fun f => congrArg Prod.fst (load_bp_front v)
      rw [written, written, Gpu.unlisted_load_bp, Gpu.unlisted_load_bp, same]
  | draw op count verts vsize => rw [exec, exec, Gpu.unlisted_draw, Gpu.unlisted_draw, same]

/-- The list's bytes do what they do in the stream. -/
theorem parse_list_unlisted (lo hi : Nat) (same : h.gpu.unlisted = g.gpu.unlisted)
    (mem : ∀ x, ¬ (lo ≤ x ∧ x < hi) → h.mem x = g.mem x) {p : List Byte}
    (plain : g.recordable dump lo hi p) :
    (h.parse_list dump p).gpu.unlisted = (g.parse dump false true p).1.gpu.unlisted := by
  let alike := fun (g h : FrontEnd) (p : List Byte) =>
    h.gpu.unlisted = g.gpu.unlisted ∧ (∀ x, ¬ (lo ≤ x ∧ x < hi) → h.mem x = g.mem x) ∧
      g.recordable dump lo hi p
  refine ((parse_step_framed false true).drain_rel list_step_framed alike ?_ g h p
    ⟨same, mem, plain⟩).1.1
  rintro g h p ⟨same, mem, plain⟩
  have cp : h.gpu.regs.cp = g.gpu.regs.cp := congrArg (fun r => r.regs.cp) same
  rw [parse_step, list_step, cp]
  cases found : next_command g.gpu.regs.cp false p with
  | none => exact .inl ⟨rfl, rfl⟩
  | some result =>
      obtain ⟨cmd, rest⟩ := result
      have here := plain g p (.refl g p) cmd rest found
      have taken : g.parse_step dump false true p =
          some (g.exec_top dump true p.length cmd, rest) := by
        rw [parse_step, found]
        rfl
      -- no list is called, so the command runs as it does in a list
      have top : g.exec_top dump true p.length cmd = g.exec dump cmd := by
        cases cmd with
        | list addr size body => exact here.elim
        | _ => rfl
      refine .inr ⟨_, _, rest, rfl, rfl, ?_, ?_, plain.after (.head taken (.refl _ _))⟩
      · rw [top]
        exact exec_unlisted same mem here
      · intro x off
        have still : (h.exec dump cmd).mem = h.mem := congrArg Prod.fst (exec_machine cmd)
        have still' : (g.exec dump cmd).mem = g.mem := congrArg Prod.fst (exec_machine cmd)
        rw [top, still, still', mem x off]

end FrontEnd

/-! Calling the list. -/

/-- The three stores of a list call. -/
def list_call (addr size : Word) : List Byte :=
  store_bytes 1 0x40 ++ store_bytes 4 (addr.setWidth 64) ++ store_bytes 4 (size.setWidth 64)

theorem be32_store_bytes (w : Word) (rest : List Byte) :
    be32 (store_bytes 4 (w.setWidth 64) ++ rest) = w := by
  apply BitVec.eq_of_toNat_eq
  have bound := w.isLt
  have four : (store_bytes 4 (w.setWidth 64) ++ rest).take 4 = store_bytes 4 (w.setWidth 64) :=
    List.take_left' rfl
  rw [be32, four]
  simp only [be, store_bytes, List.range_succ, List.range_zero, List.nil_append, List.cons_append,
    List.map_cons, List.map_nil, List.foldl_cons, List.foldl_nil, BitVec.toNat_setWidth,
    BitVec.toNat_ushiftRight, BitVec.toNat_ofNat, Nat.shiftRight_eq_div_pow]
  omega

theorem next_command_list_call (cp : Nat → Word) (addr size : Word) :
    next_command cp false (list_call addr size) = some (.list addr size none, []) := by
  have first : be32 ((list_call addr size).drop 1) = addr :=
    be32_store_bytes addr (store_bytes 4 (size.setWidth 64))
  have second : be32 ((list_call addr size).drop 5) = size := by
    have whole := be32_store_bytes size []
    rwa [List.append_nil] at whole
  have op : byte (list_call addr size) 0 = 0x40 := rfl
  have size_eq : need cp false (list_call addr size) = some 9 := by
    rw [need, op]
    rfl
  have length : (list_call addr size).length = 9 := rfl
  rw [next_command, if_neg (by simp [list_call, store_bytes]), size_eq]
  dsimp only
  rw [if_neg (by rw [length]; decide), List.take_of_length_le length.le,
    List.drop_of_length_le length.le]
  congr 2
  rw [decode, op, first, second]
  rfl

namespace FrontEnd

variable {dump : Option (List Nat)} {g h : FrontEnd}

/-- What recording the stores and then calling the list leaves. -/
def recorded_list (dump : Option (List Nat)) (g : FrontEnd) (stores : List Store) (addr : Word)
    (live : Bool) : Gpu :=
  let recorded := g.gx_pipe_writes dump stores
  let size := recorded.pi_wptr - (g.pi_base &&& 0x03FFFFFF#32)
  ({ recorded with dl_rec := false }.parse dump false live (list_call addr size)).1.gpu.unlisted

/-- The state the stores go straight down the pipe from. -/
def piped (g : FrontEnd) : FrontEnd := { g with dl_rec := false, pipe := [] }

/-- What sending the stores down the pipe leaves. -/
def sent_stores (dump : Option (List Nat)) (g : FrontEnd) (stores : List Store) : Gpu :=
  (g.piped.gx_pipe_writes dump stores).gpu.unlisted

/-- A list in memory runs its bytes. -/
theorem parse_list_call (live : Bool) (addr size : Word)
    (fits : mem_ptr addr + size.toNat ≤ MEM1_SIZE) :
    ∃ listed : FrontEnd, listed.gpu.unlisted = g.gpu.unlisted ∧ listed.mem = g.mem ∧
      (g.parse dump false live (list_call addr size)).1.gpu.unlisted =
        (listed.parse_list dump (mem_bytes g.mem addr size.toNat)).gpu.unlisted := by
  let called := g.exec_top dump live (list_call addr size).length (.list addr size none)
  have taken : g.parse_step dump false live (list_call addr size) = some (called, []) := by
    rw [parse_step, next_command_list_call]
    rfl
  rw [parse, (parse_step_framed false live).drain_some taken,
    Lib.drain_none ((parse_step_framed false live).nil called)]
  dsimp only [called]
  rw [exec_top, if_pos (by omega)]
  let listed := { g.gpu with list_addr := addr, in_list := true }
  dsimp only
  split
  · exact ⟨{ g with gpu := listed, cap := g.cap.inline_list _ _ }, rfl, rfl, rfl⟩
  · exact ⟨{ g with gpu := listed }, rfl, rfl, rfl⟩

/-- A recorded list's call runs the bytes of its stores. -/
theorem recorded_call (dump : Option (List Nat)) {bytes : List Byte} (recorded : Recorded g h bytes)
    (inside : g.rec_stop ≤ MEM1_SIZE) (fits : g.rec_base + bytes.length ≤ g.rec_stop)
    {addr : Word} (place : mem_ptr addr = g.rec_base) (live : Bool) :
    ∃ listed : FrontEnd, listed.gpu.unlisted = g.gpu.unlisted ∧ listed.mem = h.mem ∧
      ({ h with dl_rec := false }.parse dump false live
          (list_call addr (h.pi_wptr - (g.pi_base &&& 0x03FFFFFF#32)))).1.gpu.unlisted =
        (listed.parse_list dump bytes).gpu.unlisted := by
  obtain ⟨frame, outside, ⟨w, pointer, low, high, before⟩, stored⟩ := recorded
  have length := before fits
  have size : (h.pi_wptr - (g.pi_base &&& 0x03FFFFFF#32)).toNat = bytes.length := by
    rw [pointer, decide_eq_false (by omega), if_neg Bool.false_ne_true, BitVec.zero_or]
    change g.rec_base ≤ w.toNat at low
    rw [BitVec.toNat_sub_of_le low, length]
    exact Nat.add_sub_cancel_left g.rec_base bytes.length
  have body : mem_bytes h.mem addr bytes.length = bytes := by
    apply List.ext_getElem
    · rw [mem_bytes, List.length_map, List.length_range]
    · intro k _ hk
      simp only [mem_bytes, List.getElem_map, List.getElem_range, place]
      exact stored fits k hk
  have gpu : h.gpu = g.gpu := by rw [← frame]
  obtain ⟨listed, same, mem, ran⟩ := parse_list_call
    (g := { h with dl_rec := false }) live addr (h.pi_wptr - (g.pi_base &&& 0x03FFFFFF#32))
    (by rw [place, size]; omega)
  refine ⟨listed, same.trans (congrArg Gpu.unlisted gpu), mem, ?_⟩
  rw [ran, size, body]

/-- The registers, the renderer's work and the state of the pixel engine after
a recorded list is called are what its stores leave when they go straight down
the pipe; bytes past the buffer's end go round inside it and set the wrap bit. -/
theorem dl_record_correct (stores : List Store) (recording : g.dl_rec = true)
    (start : g.pi_wptr = g.pi_base &&& 0x03FFFFFF#32) (order : g.rec_base < g.rec_stop)
    (inside : g.rec_stop ≤ MEM1_SIZE) :
    let bytes := stores.flatMap Store.bytes
    let recorded := g.gx_pipe_writes dump stores
    (∀ x, ¬ (g.rec_base ≤ x ∧ x < g.rec_stop) → recorded.mem x = g.mem x) ∧
      (recorded.pi_wptr &&& PI_WRAP ≠ 0 ↔ g.rec_stop < g.rec_base + bytes.length) ∧
      (g.rec_base + bytes.length ≤ g.rec_stop → g.piped.commands_fit dump bytes →
        (g.piped.parse dump false true bytes).2 = [] →
        g.piped.recordable dump g.rec_base (g.rec_base + bytes.length) bytes →
        ∀ (addr : Word) (live : Bool), mem_ptr addr = g.rec_base →
          g.recorded_list dump stores addr live = g.sent_stores dump stores) := by
  intro bytes recorded
  have made : Recorded g recorded bytes :=
    (Recorded.start order start).stores dump order inside recording stores
  obtain ⟨w, pointer, low, high, before⟩ := made.pointer
  have small : w.toNat < 2 ^ 26 := by
    unfold MEM1_SIZE at inside
    omega
  have outside := made.outside
  refine ⟨fun x off => outside x (by omega), ?_, ?_⟩
  · rw [pointer, wptr_wrap small]
    by_cases full : g.rec_stop < g.rec_base + bytes.length <;> simp [full, PI_WRAP]
  · intro fits fit whole plain addr live place
    obtain ⟨listed, same, mem, ran⟩ := recorded_call dump made inside fits place live
    have sent : (g.piped.gx_pipe_writes dump stores).gpu =
        (g.piped.parse dump false true bytes).1.gpu :=
      (gx_pipe_writes_parse (g := g.piped) true rfl
        ((parse_step_framed false true).nil g.piped) stores fit).1
    rw [sent_stores, sent]
    refine ran.trans (parse_list_unlisted (g := g.piped) g.rec_base
      (g.rec_base + bytes.length) same (fun x off => ?_) plain)
    rw [mem]
    exact outside x (by omega)

theorem recordable.head {lo hi : Nat} {p rest : List Byte} {g' : FrontEnd} {cmd : Command}
    (found : next_command g.gpu.regs.cp false p = some (cmd, rest))
    (here : g.gpu.records lo hi cmd)
    (taken : g.parse_step dump false true p = some (g', rest))
    (plain : g'.recordable dump lo hi rest) : g.recordable dump lo hi p := by
  intro t q reach cmd' rest' found'
  cases reach with
  | refl =>
      rw [found] at found'
      cases found'
      exact here
  | head first more =>
      rw [taken] at first
      cases first
      exact plain t q more cmd' rest' found'

theorem recordable.nil {lo hi : Nat} : g.recordable dump lo hi [] := by
  intro t q reach cmd rest found
  cases reach with
  | refl => cases found
  | head first more =>
      rw [(parse_step_framed false true).nil] at first
      cases first

/-- The recorder at the start of a buffer. -/
def recorder (top : Word) : FrontEnd :=
  { init with pi_base := 0x100, pi_top := top, pi_wptr := 0x100, dl_rec := true }

set_option maxRecDepth 2000 in
theorem dl_record_correct_draw :
    (recorder 0x11C).recorded_list none draw_stores 0x80000100 true =
      (recorder 0x11C).sent_stores none draw_stores := by
  refine (dl_record_correct draw_stores rfl rfl (by decide) (by decide)).2.2
    (by decide) ?_ ?_ ?_ 0x80000100 true ?_
  · exact .head (by decide) rfl (.head (by decide) rfl .nil)
  · decide
  · exact .head rfl trivial rfl (.head rfl trivial rfl .nil)
  · rfl

theorem byte_wide : 1 = 1 ∨ 1 = 2 ∨ 1 = 4 ∨ 1 = 8 := .inl rfl

theorem half_wide : 2 = 1 ∨ 2 = 2 ∨ 2 = 4 ∨ 2 = 8 := .inr (.inl rfl)

theorem double_wide : 8 = 1 ∨ 8 = 2 ∨ 8 = 4 ∨ 8 = 8 := .inr (.inr (.inr rfl))

/-- An indexed load from the buffer's base, after the CP write that points the
array there. -/
def aliased_stores : List Store :=
  [⟨8, 0x08AC000001002000, double_wide⟩, ⟨2, 0x0000, half_wide⟩, ⟨1, 0x00, byte_wide⟩]

/-- An XF load of 65537 bytes, one more than the pipe holds. -/
def long_head : List Byte := [0x10, 0x3F, 0xFE, 0, 0, 0, 0, 1]

def long_stores (k : Nat) : List Store :=
  ⟨8, 0x103FFE0000000001, double_wide⟩ :: List.replicate k ⟨1, 0, byte_wide⟩

theorem long_stores_bytes (k : Nat) :
    (long_stores k).flatMap Store.bytes = long_head ++ List.replicate k 0 := by
  have zeros : (List.replicate k (⟨1, 0, byte_wide⟩ : Store)).flatMap Store.bytes =
      List.replicate k 0 := by
    induction k with
    | zero => rfl
    | succ k ih =>
        rw [List.replicate_succ, List.replicate_succ, List.flatMap_cons, ih]
        rfl
  rw [long_stores, List.flatMap_cons, zeros]
  rfl

theorem need_long (cp : Nat → Word) (k : Nat) :
    need cp false (long_head ++ List.replicate k 0) = some 65537 := by
  have op : byte (long_head ++ List.replicate k 0) 0 = 0x10 := rfl
  have count : be16 ((long_head ++ List.replicate k 0).drop 1) = 0x3FFE := rfl
  rw [need, op, count, if_neg (by decide), if_pos rfl,
    if_neg (by rw [List.length_append]; exact Nat.not_lt.mpr (Nat.le_add_right_of_le (by decide)))]

theorem next_command_long (cp : Nat → Word) {k : Nat} (short : k < 65529) :
    next_command cp false (long_head ++ List.replicate k 0) = none := by
  rw [next_command, if_neg (by simp [long_head]), need_long]
  dsimp only
  rw [if_pos]
  rw [List.length_append, List.length_replicate]
  change 8 + k < _
  omega

variable (dump) in
/-- A store that completes no command waits in the pipe. -/
theorem gx_pipe_write_waits (parsing : g.dl_rec = false) (store : Store)
    (room : g.pipe.length + store.size ≤ PIPE_CAP)
    (waiting : next_command g.gpu.regs.cp false (g.pipe ++ store.bytes) = none) :
    (g.gx_pipe_write dump store.size store.value).gpu = g.gpu ∧
      (g.gx_pipe_write dump store.size store.value).pipe = g.pipe ++ store.bytes ∧
      (g.gx_pipe_write dump store.size store.value).dl_rec = false := by
  obtain ⟨front, pipe, still, _⟩ := gx_pipe_write_step parsing store room
  have stuck : g.parse_step dump false true (g.pipe ++ store.bytes) = none := by
    rw [parse_step, waiting]
    rfl
  rw [parse, Lib.drain_none stuck] at front pipe
  exact ⟨(front_eq.mp front).1, pipe, still⟩

theorem long_stores_succ (k : Nat) :
    g.gx_pipe_writes dump (long_stores (k + 1)) =
      (g.gx_pipe_writes dump (long_stores k)).gx_pipe_write dump 1 0 := by
  rw [long_stores, List.replicate_succ', gx_pipe_writes, gx_pipe_writes, long_stores,
    ← List.cons_append, List.foldl_append]
  rfl

theorem long_stores_wait (parsing : g.dl_rec = false) (empty : g.pipe = []) {k : Nat}
    (short : k ≤ 65528) :
    (g.gx_pipe_writes dump (long_stores k)).gpu = g.gpu ∧
      (g.gx_pipe_writes dump (long_stores k)).pipe = long_head ++ List.replicate k 0 ∧
      (g.gx_pipe_writes dump (long_stores k)).dl_rec = false := by
  induction k with
  | zero =>
      have waits := gx_pipe_write_waits dump parsing
        ⟨8, 0x103FFE0000000001, by decide⟩ (by rw [empty]; decide)
        (by rw [empty]; exact next_command_long g.gpu.regs.cp (k := 0) (by omega))
      rw [empty] at waits
      exact waits
  | succ k ih =>
      obtain ⟨gpu, pipe, still⟩ := ih (by omega)
      rw [long_stores_succ]
      generalize g.gx_pipe_writes dump (long_stores k) = waiting at *
      have more : waiting.pipe ++ (⟨1, 0, by decide⟩ : Store).bytes =
          long_head ++ List.replicate (k + 1) 0 := by
        rw [pipe, List.replicate_succ', List.append_assoc]
        rfl
      have waits := gx_pipe_write_waits dump still ⟨1, 0, by decide⟩
        (by
          rw [pipe, List.length_append, List.length_replicate]
          change 8 + k + 1 ≤ 65536
          omega)
        (by
          rw [more]
          exact next_command_long waiting.gpu.regs.cp (by omega))
      rw [more, gpu] at waits
      exact waits

/-- The byte that finds the pipe full empties it. -/
theorem long_stores_dropped (parsing : g.dl_rec = false) (empty : g.pipe = []) {k : Nat}
    (last : k = 65528) : (g.gx_pipe_writes dump (long_stores (k + 1))).gpu = g.gpu := by
  obtain ⟨gpu, pipe, still⟩ := long_stores_wait parsing empty last.le
  rw [long_stores_succ]
  generalize g.gx_pipe_writes dump (long_stores k) = waiting at *
  have full : waiting.pipe.length + 1 > PIPE_CAP := by
    rw [pipe, List.length_append, List.length_replicate, last]
    decide
  let emptied := { waiting with pipe := [] ++ store_bytes 1 0, cap := waiting.cap.append (store_bytes 1 0) }
  have taken : emptied.parse_step dump false true emptied.pipe = some (emptied, []) := by
    rw [parse_step]
    rfl
  rw [gx_pipe_write, if_neg (by rw [still]; decide), if_pos full]
  change (emptied.parse dump false true emptied.pipe).1.gpu = g.gpu
  rw [parse, (parse_step_framed false true).drain_some taken,
    Lib.drain_none ((parse_step_framed false true).nil emptied)]
  exact gpu

end FrontEnd

theorem Gpu.load_xf_log (g : Gpu) (addr : Nat) (values : List Word) :
    ∃ more, (g.load_xf addr values).log = g.log ++ more := by
  induction values generalizing g addr with
  | nil => exact ⟨[], (List.append_nil _).symm⟩
  | cons v values ih =>
      rw [load_xf]
      split
      · obtain ⟨more, log⟩ := ih
          ({ g with regs := { g.regs with xf := Function.update g.regs.xf addr v } }.emit
            (.xf addr v)) (addr + 1)
        exact ⟨.xf addr v :: more, by rw [log]; exact List.append_assoc _ _ _⟩
      · exact ih g (addr + 1)

namespace FrontEnd

variable {dump : Option (List Nat)} {g h : FrontEnd}

theorem long_length {k : Nat} (last : k = 65529) :
    (long_head ++ List.replicate k (0 : Byte)).length = 65537 := by
  rw [List.length_append, List.length_replicate, last]
  rfl

/-- The whole load, and its first value. -/
theorem next_command_long_whole (cp : Nat → Word) {k : Nat} (last : k = 65529) :
    ∃ value values, next_command cp false (long_head ++ List.replicate k 0) =
      some (.xf 0 (value :: values), []) := by
  have size := need_long cp k
  have length := long_length last
  generalize List.replicate k (0 : Byte) = zeros at *
  have op : byte (long_head ++ zeros) 0 = 0x10 := rfl
  have addr : be16 ((long_head ++ zeros).drop 3) = 0 := rfl
  rw [next_command, if_neg (by simp [long_head]), size]
  dsimp only
  rw [if_neg (by omega), List.take_of_length_le length.le, List.drop_of_length_le length.le,
    decode, op, addr, List.range_succ_eq_map, List.map_cons]
  exact ⟨_, _, rfl⟩

/-- In a list the load reaches the registers. -/
theorem long_list_loads {k : Nat} (last : k = 65529) :
    (g.parse_list dump (long_head ++ List.replicate k 0)).gpu.unlisted.log ≠ [] := by
  obtain ⟨value, values, found⟩ := next_command_long_whole g.gpu.regs.cp last
  have taken : g.list_step dump (long_head ++ List.replicate k 0) =
      some (g.exec dump (.xf 0 (value :: values)), []) := by
    rw [list_step, found]
    rfl
  rw [parse_list, list_step_framed.drain_some taken, Lib.drain_none (list_step_framed.nil _)]
  dsimp only [exec]
  rw [Gpu.unlisted_load_xf, Gpu.load_xf, if_pos (by decide)]
  obtain ⟨more, log⟩ := Gpu.load_xf_log
    ({ g.gpu.unlisted with regs := { g.gpu.unlisted.regs with
        xf := Function.update g.gpu.unlisted.regs.xf 0 value } }.emit (.xf 0 value)) 1 values
  rw [log]
  simp [Gpu.emit]

theorem long_call_differs {k : Nat} (last : k = 65529) :
    (recorder 0x20000).recorded_list none (long_stores k) 0x80000100 true ≠
      (recorder 0x20000).sent_stores none (long_stores k) := by
  have length := long_length last
  have recorded := (Recorded.start (g := recorder 0x20000) (by decide) rfl).stores none
    (by decide) (by decide) rfl (long_stores k)
  rw [List.nil_append, long_stores_bytes] at recorded
  obtain ⟨listed, _, _, ran⟩ := recorded_call none recorded
    (by decide) (by rw [length]; decide) (show mem_ptr 0x80000100 = _ from rfl) true
  obtain ⟨n, rfl⟩ : ∃ n, k = n + 1 := ⟨65528, last⟩
  rw [sent_stores, long_stores_dropped (g := (recorder 0x20000).piped) rfl rfl (by omega)]
  intro same
  exact long_list_loads last (congrArg Gpu.log (ran.symm.trans same))

/-- Whole commands that call no list, and fit in the buffer. -/
def recording (dump : Option (List Nat)) (g : FrontEnd) (p : List Byte) : Prop :=
  g.rec_base + p.length ≤ g.rec_stop ∧ (g.piped.parse dump false true p).2 = [] ∧
    g.piped.recordable dump 0 0 p

theorem long_recording {k : Nat} (last : k = 65529) :
    (recorder 0x20000).recording none ((long_stores k).flatMap Store.bytes) := by
  have length := long_length last
  obtain ⟨value, values, found⟩ :=
    next_command_long_whole (recorder 0x20000).piped.gpu.regs.cp last
  have taken : (recorder 0x20000).piped.parse_step none false true
      (long_head ++ List.replicate k 0) =
      some ((recorder 0x20000).piped.exec none (.xf 0 (value :: values)), []) := by
    rw [parse_step, found]
    rfl
  rw [long_stores_bytes]
  refine ⟨by rw [length]; decide, ?_, .head found trivial taken .nil⟩
  rw [parse, (parse_step_framed false true).drain_some taken,
    Lib.drain_none ((parse_step_framed false true).nil _)]

set_option maxRecDepth 4000 in
/-- A list whose load reads its own buffer, and a list with a command longer
than the pipe: neither does what its stores do straight down the pipe. -/
theorem recorded_not_direct :
    ((recorder 0x11C).recording none (aliased_stores.flatMap Store.bytes) ∧
      (recorder 0x11C).recorded_list none aliased_stores 0x80000100 true ≠
        (recorder 0x11C).sent_stores none aliased_stores) ∧
    (recorder 0x20000).recording none ((long_stores 65529).flatMap Store.bytes) ∧
      (recorder 0x20000).recorded_list none (long_stores 65529) 0x80000100 true ≠
        (recorder 0x20000).sent_stores none (long_stores 65529) := by
  refine ⟨⟨⟨by decide, by decide, ?_⟩, fun same => ?_⟩, long_recording rfl, long_call_differs rfl⟩
  · exact .head rfl trivial rfl (.head rfl (.inr (Nat.zero_le _)) rfl .nil)
  · have loaded := congrArg (fun g => g.regs.xf 0) same
    exact absurd loaded (by decide)

end FrontEnd

end SoaPort.Gx
