import SoaPort.Ppc.Gamedata
import SoaPort.Recomp.Effect

namespace SoaPort.Recomp.Gamedata

open SoaPort.Ppc SoaPort.Ppc.Gamedata

/-! Executing one instruction: what an update form leaves in rA, and which registers a
string load can reach, besides `Effect`. -/

/-- The update forms that add rB. -/
def indexed : Mnemonic → Bool
  | .lwzux | .lbzux | .lhzux | .lhaux | .stwux | .stbux | .sthux
  | .lfsux | .lfdux | .stfsux | .stfdux | .psq_lux | .psq_stux => true
  | _ => false

def effective (i : Insn) (g : Regs) : Word :=
  if indexed i.mnemonic then g.indexed i else g.base i.ra + BitVec.ofInt 32 i.imm

/-- The registers `n` bytes fill. -/
def filled (i : Insn) (n : Nat) : List Int :=
  (List.range ((n + 3) / 4)).map fun (k : Nat) => (i.rd + k) % 32

/-- The form is not one the architecture calls invalid. -/
structure Proper (i : Insn) : Prop where
  valid : i.valid = true
  update : _UPDATE i.mnemonic = true → i.ra ≠ 0
  load : integer_load_update i.mnemonic = true → i.rd ≠ i.ra
  multiple : i.mnemonic = .lmw → i.ra < i.rd
  string : i.mnemonic = .lswi → i.ra ∉ results i

structure Executes (i : Insn) (g g' : Regs) : Prop where
  effect : Effect i g g'
  update : _UPDATE i.mnemonic = true → g'.gpr i.ra = effective i g
  string : i.mnemonic = .lswx → ∃ n ≤ 127, i.ra ∉ filled i n ∧ i.rb ∉ filled i n ∧
    ∀ r, r ∉ filled i n → g'.gpr r = g.gpr r

/-- `_writes` says yes if the instruction can change `reg`. -/
def Seen (word addr reg : Nat) : Prop :=
  Proper (decode word addr) →
    (∃ g g', Executes (decode word addr) g g' ∧ g'.gpr reg ≠ g.gpr reg) →
      _writes word reg = true

/-- The update forms `_writes` does not look for. -/
def unseen_update (m : Mnemonic) : Bool := indexed m || m = .psq_lu || m = .psq_stu

/-- Of those, the ones it takes to write rD. -/
def float_indexed : Mnemonic → Bool
  | .lfsux | .lfdux | .stfsux | .stfdux => true
  | _ => false

/-- The instructions that change `reg` behind `_writes`'s back: an indexed or paired-single
update of it, and a multiple or string load that begins below it. -/
def Missed (i : Insn) (reg : Nat) : Prop :=
  Proper i ∧
    ((unseen_update i.mnemonic = true ∧ i.ra = reg ∧
        (float_indexed i.mnemonic = true → i.rd ≠ reg) ∧
        (indexed i.mnemonic = false → BitVec.ofInt 32 i.imm ≠ 0#32)) ∨
      ((i.mnemonic = .lmw ∨ i.mnemonic = .lswi) ∧ i.rd ≠ reg ∧ (reg : Int) ∈ results i) ∨
      (i.mnemonic = .lswx ∧ i.rd ≠ reg ∧
        ∃ n ≤ 127, (reg : Int) ∈ filled i n ∧ i.ra ∉ filled i n ∧ i.rb ∉ filled i n))

/-! What `_writes` says of each instruction of the tables. -/

/-- `_writes`, by whether rD and rA are the register and by the opcode 31 lists. -/
def writes_of (op : Nat) (d a l s : Bool) : Bool :=
  if LOADS_RD.contains op && d then true
  else if UPDATES.contains op && a then true
  else if [24, 25, 26, 27, 28, 29, 20, 21, 23].contains op && a then true
  else if [7, 8, 10, 11, 12, 13].contains op && d then !([10, 11].contains op)
  else if op = 31 then if l && a then true else !l && d && !s
  else [16, 18, 19].contains op

/-- The table entry, by the primary opcode and the ten bits of the extended one. -/
def entry_at (op ext : Nat) : Option Entry :=
  if op = 4 then
    match PS_A (ext &&& 0x1F) with
    | some entry => some entry
    | none =>
        match PS_QX (ext &&& 0x3F) with
        | some entry => some entry
        | none => PS_X ext
  else if op = 19 then OP19 ext
  else if op = 31 then
    match OP31 ext with
    | some entry => some entry
    | none =>
        match OP31 (ext &&& 0x1FF) with
        | some candidate => if (candidate.2.2 &&& OE) ≠ 0 then some candidate else none
        | none => none
  else if op = 59 then FLOAT_A_SINGLE (ext &&& 0x1F)
  else if op = 63 then
    match (if ext &&& 0x1F ≥ 18 then FLOAT_A_DOUBLE (ext &&& 0x1F) else none) with
    | some entry => some entry
    | none => OP63_X ext
  else PRIMARY op

theorem decode_entry_eq (w : Nat) : decode_entry w = entry_at (opcd w) ((w >>> 1) &&& 0x3FF) := by
  have five : ((w >>> 1) &&& 0x3FF) &&& 0x1F = (w >>> 1) &&& 0x1F := Nat.and_assoc ..
  have six : ((w >>> 1) &&& 0x3FF) &&& 0x3F = (w >>> 1) &&& 0x3F := Nat.and_assoc ..
  rw [entry_at, five, six]
  rfl

/-- rD and rA are where the results go. -/
def placed (m : Mnemonic) (form : Form) : Bool :=
  match form with
  | .D | .M | .XO | .X | .PSQ | .PSQX => true
  | .XFX => dest m = .rd || dest m = .none
  | _ => dest m = .none

/-- What `_writes` says, `w` of whether rD and rA are the register. -/
def answers (m : Mnemonic) (w : Bool → Bool → Bool) : Bool :=
  match dest m with
  | .none => true
  | .rd => w true true && w true false
  | .ra =>
      if unseen_update m then !w false true && w true true = float_indexed m
      else w true true && w false true
  | .rd_and_ra =>
      w true true && w true false && (if unseen_update m then !w false true else w false true)
  | .multiple | .string => w true true && w true false && !w false true && !w false false

def checked (op ext : Nat) : Bool :=
  match entry_at op ext with
  | none => true
  | some (m, form, _) =>
      placed m form && answers m fun d a => writes_of op d a (logical ext) (silent ext)

/-- Tables of instructions without results. -/
def Resultless (table : Nat → Option Entry) : Prop :=
  ∀ n m form flags, table n = some (m, form, flags) → dest m = .none ∧ placed m form = true

theorem resultless_PS_A : Resultless PS_A := by
  intro n m form flags found
  unfold PS_A at found
  split at found
  all_goals cases found <;> exact ⟨rfl, rfl⟩

theorem resultless_PS_X : Resultless PS_X := by
  intro n m form flags found
  unfold PS_X at found
  split at found
  all_goals cases found <;> exact ⟨rfl, rfl⟩

theorem resultless_OP19 : Resultless OP19 := by
  intro n m form flags found
  unfold OP19 at found
  split at found
  all_goals cases found <;> exact ⟨rfl, rfl⟩

theorem resultless_FLOAT_A_SINGLE : Resultless FLOAT_A_SINGLE := by
  intro n m form flags found
  unfold FLOAT_A_SINGLE at found
  split at found
  all_goals cases found <;> exact ⟨rfl, rfl⟩

theorem resultless_FLOAT_A_DOUBLE : Resultless FLOAT_A_DOUBLE := by
  intro n m form flags found
  unfold FLOAT_A_DOUBLE at found
  split at found
  all_goals cases found <;> exact ⟨rfl, rfl⟩

theorem resultless_OP63_X : Resultless OP63_X := by
  intro n m form flags found
  unfold OP63_X at found
  split at found
  all_goals cases found <;> exact ⟨rfl, rfl⟩

/-- What the check asks of one entry. -/
def Answered (op ext : Nat) (m : Mnemonic) (form : Form) : Prop :=
  (placed m form && answers m fun d a => writes_of op d a (logical ext) (silent ext)) = true

theorem Resultless.answered {table : Nat → Option Entry} (resultless : Resultless table)
    {op ext n flags : Nat} {m : Mnemonic} {form : Form} (found : table n = some (m, form, flags)) :
    Answered op ext m form := by
  obtain ⟨none_, fits⟩ := resultless n m form flags found
  rw [Answered, fits, answers, none_]
  rfl

variable {op ext flags : Nat} {m : Mnemonic} {form : Form}

theorem PS_QX_answered {n : Nat} (found : PS_QX n = some (m, form, flags)) :
    Answered 4 ext m form := by
  unfold PS_QX at found
  split at found
  all_goals cases found <;> rfl

theorem OP31_answered (found : OP31 ext = some (m, form, flags)) : Answered 31 ext m form := by
  unfold OP31 at found
  split at found
  all_goals cases found <;> rfl

/-- The entries that permit OE, with the bit set. -/
theorem OP31_oe_answered (found : OP31 ext = some (m, form, flags)) (oe : flags &&& OE ≠ 0) :
    Answered 31 (512 + ext) m form := by
  unfold OP31 at found
  split at found
  all_goals
    cases found <;>
      first
        | rfl
        | exact absurd rfl oe

theorem PRIMARY_answered (found : PRIMARY op = some (m, form, flags)) : Answered op ext m form := by
  unfold PRIMARY at found
  split at found
  all_goals cases found <;> rfl

theorem entry_answered (ext_lt : ext < 1024) (found : entry_at op ext = some (m, form, flags)) :
    Answered op ext m form := by
  unfold entry_at at found
  split at found
  · next four =>
      subst four
      split at found
      · next entry is =>
          cases found
          exact resultless_PS_A.answered is
      · split at found
        · next entry is =>
            cases found
            exact PS_QX_answered is
        · exact resultless_PS_X.answered found
  · split at found
    · exact resultless_OP19.answered found
    · split at found
      · next thirty_one =>
          subst thirty_one
          split at found
          · next entry is =>
              cases found
              exact OP31_answered is
          · next none_ =>
              split at found
              · next candidate is =>
                  split at found
                  · next oe =>
                      cases found
                      have low : ext &&& 0x1FF = ext % 2 ^ 9 := Nat.and_two_pow_sub_one_eq_mod ext 9
                      have high : ext = 512 + (ext &&& 0x1FF) := by
                        by_contra same
                        have small : ext &&& 0x1FF = ext := by omega
                        rw [small, none_] at is
                        cases is
                      rw [high]
                      exact OP31_oe_answered is oe
                  · cases found
              · cases found
      · split at found
        · exact resultless_FLOAT_A_SINGLE.answered found
        · split at found
          · split at found
            · next entry is =>
                cases found
                split at is
                · exact resultless_FLOAT_A_DOUBLE.answered is
                · cases is
            · exact resultless_OP63_X.answered found
          · exact PRIMARY_answered found

theorem checked_all (ext_lt : ext < 1024) : checked op ext = true := by
  rw [checked]
  split
  · rfl
  · next m form flags found => exact entry_answered ext_lt found

theorem entry_at_plain (plain : op ∉ [4, 19, 31, 59, 63]) (ext : Nat) :
    entry_at op ext = PRIMARY op := by
  simp only [List.mem_cons, List.not_mem_nil, not_or, or_false] at plain
  obtain ⟨four, nineteen, thirty_one, fifty_nine, sixty_three⟩ := plain
  rw [entry_at, if_neg four, if_neg nineteen, if_neg thirty_one, if_neg fifty_nine,
    if_neg sixty_three]

/-! The fields of an instruction with a result. -/

section Fields

variable {word addr : Nat}

theorem opcd_eq (lt : word < 2 ^ 32) : opcd word = word >>> 26 := by
  have small : word >>> 26 < 2 ^ 6 := by
    rw [Nat.shiftRight_eq_div_pow]
    omega
  exact (Nat.and_two_pow_sub_one_eq_mod _ 6).trans (Nat.mod_eq_of_lt small)

/-- What a form fills in, where it has a result. -/
theorem decode_fields_placed (m : Mnemonic) (form : Form) (i : Insn) (is : i.mnemonic = m)
    (fits : placed m form = true)
    (some_ : dest (decode_fields word m form i).mnemonic ≠ .none) :
    (dest m = .rd ∧ dest (decode_fields word m form i).mnemonic = .rd ∨
        (decode_fields word m form i).mnemonic = m ∧
          (decode_fields word m form i).ra = _ra word) ∧
      (decode_fields word m form i).rd = _rd word := by
  subst is
  cases form with
  | D | M | XO | PSQ | PSQX => exact ⟨.inr ⟨rfl, rfl⟩, rfl⟩
  | X =>
      simp only [decode_fields] at some_ ⊢
      split
      · exact ⟨.inr ⟨rfl, rfl⟩, rfl⟩
      · exact ⟨.inr ⟨rfl, rfl⟩, rfl⟩
  | XFX =>
      rcases Bool.or_eq_true_iff.mp fits with rd | none_
      · have is_rd := of_decide_eq_true rd
        simp only [decode_fields] at some_ ⊢
        split
        · split
          · exact ⟨.inl ⟨is_rd, rfl⟩, rfl⟩
          · exact ⟨.inl ⟨is_rd, is_rd⟩, rfl⟩
        · split
          · exact ⟨.inl ⟨is_rd, is_rd⟩, rfl⟩
          · exact ⟨.inl ⟨is_rd, is_rd⟩, rfl⟩
      · exfalso
        have is_none := of_decide_eq_true none_
        have other : i.mnemonic ≠ .mftb := by
          intro is
          rw [is] at is_none
          cases is_none
        apply some_
        simp only [decode_fields, other]
        split
        · exact is_none
        · split
          · exact is_none
          · exact is_none
  | SC =>
      exfalso
      apply some_
      simp only [decode_fields]
      split
      · exact of_decide_eq_true fits
      · exact of_decide_eq_true fits
  | I | B | XL | XFL | A => exact (some_ (of_decide_eq_true fits)).elim

/-- An instruction with results has a table entry, which places them. -/
theorem decode_result (lt : word < 2 ^ 32) (some_ : dest (decode word addr).mnemonic ≠ .none) :
    ∃ m form flags, entry_at (word >>> 26) ((word >>> 1) &&& 0x3FF) = some (m, form, flags) ∧
      (dest m = .rd ∧ dest (decode word addr).mnemonic = .rd ∨
        (decode word addr).mnemonic = m ∧ (decode word addr).ra = _ra word) ∧
      (decode word addr).rd = _rd word := by
  have whole : word &&& 0xFFFFFFFF = word :=
    (Nat.and_two_pow_sub_one_eq_mod _ 32).trans (Nat.mod_eq_of_lt lt)
  have entry := decode_entry_eq word
  rw [opcd_eq lt] at entry
  rw [decode, whole] at some_ ⊢
  rw [entry] at some_ ⊢
  have check := @checked_all (word >>> 26) _ (Nat.and_lt_two_pow (word >>> 1) (by decide : 0x3FF < 2 ^ 10))
  rw [checked] at check
  cases found : entry_at (word >>> 26) ((word >>> 1) &&& 0x3FF) with
  | none =>
      rw [found] at some_
      exact (some_ rfl).elim
  | some entry =>
      obtain ⟨m, form, flags⟩ := entry
      rw [found] at some_ check
      obtain ⟨fits, -⟩ := Bool.and_eq_true_iff.mp check
      refine ⟨m, form, flags, rfl, ?_⟩
      dsimp only at some_ ⊢
      split at some_
      · exact (some_ rfl).elim
      · next short =>
          rw [if_neg short]
          exact decode_fields_placed m form _ rfl fits some_

theorem writes_eq (word reg : Nat) : _writes word reg =
    writes_of (word >>> 26) (decide ((word >>> 21) &&& 31 = reg))
      (decide ((word >>> 16) &&& 31 = reg)) (logical ((word >>> 1) &&& 0x3FF))
      (silent ((word >>> 1) &&& 0x3FF)) := rfl

end Fields

/-! The answers, by where the results go. -/

section Answers

variable {m : Mnemonic} {w : Bool → Bool → Bool}

theorem answers_rd (said : answers m w = true)
    (rd : dest m = .rd ∨ dest m = .rd_and_ra ∨ dest m = .multiple ∨ dest m = .string) (a : Bool) :
    w true a = true := by
  unfold answers at said
  rcases rd with is | is | is | is
  all_goals
    rw [is] at said
    simp only [Bool.and_eq_true] at said
    cases a
    · simp only [said]
    · simp only [said]

theorem answers_ra (said : answers m w = true) (ra : dest m = .ra ∨ dest m = .rd_and_ra)
    (looked : unseen_update m = false) (d : Bool) : w d true = true := by
  unfold answers at said
  rcases ra with is | is
  all_goals
    rw [is, looked] at said
    simp only [Bool.and_eq_true, Bool.false_eq_true, if_false] at said
    cases d
    · simp only [said]
    · simp only [said]

theorem answers_unseen (said : answers m w = true) (ra : dest m = .ra ∨ dest m = .rd_and_ra)
    (unseen : unseen_update m = true) : w false true = false := by
  unfold answers at said
  rcases ra with is | is
  all_goals
    rw [is, unseen] at said
    simp only [Bool.and_eq_true, Bool.not_eq_true', if_true] at said
    simp only [said]

theorem answers_both (said : answers m w = true) (ra : dest m = .ra)
    (unseen : unseen_update m = true) : w true true = float_indexed m := by
  unfold answers at said
  rw [ra, unseen] at said
  simp only [Bool.and_eq_true, if_true] at said
  exact of_decide_eq_true said.2

theorem answers_above (said : answers m w = true) (all : dest m = .multiple ∨ dest m = .string)
    (a : Bool) : w false a = false := by
  unfold answers at said
  rcases all with is | is
  all_goals
    rw [is] at said
    simp only [Bool.and_eq_true, Bool.not_eq_true'] at said
    cases a
    · simp only [said]
    · simp only [said]

theorem unseen_update_dest (unseen : unseen_update m = true) :
    dest m = .ra ∨ dest m = .rd_and_ra ∧ integer_load_update m = true := by
  revert unseen
  cases m
  all_goals decide

theorem unseen_update_update (unseen : unseen_update m = true) :
    _UPDATE m = true ∧ exact m = false ∧ m ≠ .lswx := by
  revert unseen
  cases m
  all_goals decide

theorem dest_multiple : dest m = .multiple ↔ m = .lmw := by
  cases m
  all_goals decide

theorem dest_string : dest m = .string ↔ m = .lswi ∨ m = .lswx := by
  cases m
  all_goals decide

end Answers

/-! The words `_writes` sees through, and those it does not. -/

section Words

variable {word addr reg : Nat}

/-- What a result says of the word. -/
theorem results_said (reg : Nat) (lt : word < 2 ^ 32) (some_ : dest (decode word addr).mnemonic ≠ .none) :
    ∃ m w, answers m w = true ∧
      _writes word reg = w (decide ((decode word addr).rd = reg)) (decide (_ra word = reg)) ∧
      (dest m = .rd ∧ dest (decode word addr).mnemonic = .rd ∨
        (decode word addr).mnemonic = m ∧ (decode word addr).ra = _ra word) := by
  obtain ⟨m, form, flags, found, place, rd⟩ := decode_result lt some_
  have check := @checked_all (word >>> 26) _ (Nat.and_lt_two_pow (word >>> 1) (by decide : 0x3FF < 2 ^ 10))
  rw [checked, found] at check
  refine ⟨m, _, (Bool.and_eq_true_iff.mp check).2, ?_, place⟩
  rw [writes_eq, rd]
  congr 1
  exact decide_eq_decide.mpr (Int.natCast_inj (m := _rd word)).symm

/-- An update by nothing leaves the register. -/
theorem unchanged_of_zero {i : Insn} {g g' : Regs} (proper : Proper i) (ex : Executes i g g')
    (update : _UPDATE i.mnemonic = true) (plain : indexed i.mnemonic = false)
    (zero : BitVec.ofInt 32 i.imm = 0#32) :
    g'.gpr i.ra = g.gpr i.ra := by
  rw [ex.update update, effective, if_neg (by rw [plain]; decide), zero, Regs.base,
    if_neg (proper.update update)]
  exact BitVec.add_zero _

theorem seen_of_not_missed (lt : word < 2 ^ 32) (safe : ¬ Missed (decode word addr) reg) :
    Seen word addr reg := by
  rintro proper ⟨g, g', ex, changed⟩
  have member : (reg : Int) ∈ results (decode word addr) := by
    by_contra outside
    exact changed (ex.effect.frame outside)
  have some_ : dest (decode word addr).mnemonic ≠ .none := by
    intro none_
    rw [results, none_] at member
    cases member
  obtain ⟨m, w, said, writes, place⟩ := results_said reg lt some_
  rw [writes]
  generalize decode word addr = i at *
  have is_rd (rd : i.rd = reg) (all : dest m = .rd ∨ dest m = .rd_and_ra ∨ dest m = .multiple ∨
      dest m = .string) : w (decide (i.rd = reg)) (decide (_ra word = reg)) = true := by
    rw [decide_eq_true rd]
    exact answers_rd said all _
  have is_ra (place : i.mnemonic = m ∧ i.ra = _ra word) (ra : i.ra = reg)
      (all : dest m = .ra ∨ dest m = .rd_and_ra) :
      w (decide (i.rd = reg)) (decide (_ra word = reg)) = true := by
    have field : _ra word = reg := Int.natCast_inj.mp (place.2.symm.trans ra)
    rw [decide_eq_true field]
    cases unseen : unseen_update m with
    | false => exact answers_ra said all unseen _
    | true =>
        by_contra silent
        apply safe
        have update : unseen_update i.mnemonic = true := by rw [place.1, unseen]
        refine ⟨proper, .inl ⟨update, ra, ?_, ?_⟩⟩
        · intro floats same
          apply silent
          rw [decide_eq_true same]
          rcases all with alone | both
          · rw [answers_both said alone unseen, ← place.1]
            exact floats
          · exact answers_rd said (.inr (.inl both)) _
        · intro plain zero
          apply changed
          rw [← ra]
          exact unchanged_of_zero proper ex (unseen_update_update update).1 plain zero
  rcases place with ⟨rd, is⟩ | place
  · rw [results, is] at member
    exact is_rd (List.mem_singleton.mp member).symm (.inl rd)
  · have dests := congrArg dest place.1
    have inside := member
    rw [results] at member
    cases at_ : dest m with
    | none => exact (some_ (dests.trans at_)).elim
    | rd =>
        rw [dests, at_] at member
        exact is_rd (List.mem_singleton.mp member).symm (.inl at_)
    | ra =>
        rw [dests, at_] at member
        exact is_ra place (List.mem_singleton.mp member).symm (.inl at_)
    | rd_and_ra =>
        rw [dests, at_] at member
        rcases List.mem_cons.mp member with rd | ra
        · exact is_rd rd.symm (.inr (.inl at_))
        · exact is_ra place (List.mem_singleton.mp ra).symm (.inr at_)
    | multiple =>
        apply is_rd ?_ (.inr (.inr (.inl at_)))
        by_contra other
        have lmw : i.mnemonic = .lmw := place.1.trans (dest_multiple.mp at_)
        exact safe ⟨proper, .inr (.inl ⟨.inl lmw, other, inside⟩)⟩
    | string =>
        apply is_rd ?_ (.inr (.inr (.inr at_)))
        by_contra other
        rcases dest_string.mp at_ with is | is
        · exact safe ⟨proper, .inr (.inl ⟨.inr (place.1.trans is), other, inside⟩)⟩
        · have lswx : i.mnemonic = .lswx := place.1.trans is
          obtain ⟨n, short, ra, rb, frame⟩ := ex.string lswx
          refine safe ⟨proper, .inr (.inr ⟨lswx, other, n, short, ?_, ra, rb⟩)⟩
          by_contra outside
          exact changed (frame reg outside)

/-- Any value can land in a result whose value is not given. -/
theorem lands {i : Insn} (plain : exact i.mnemonic = false) (g : Regs) {r : Int}
    (member : r ∈ results i) (v : Word) :
    Effect i g { g with gpr := Function.update g.gpr r v } := by
  refine effect_of_frame plain ?_ (fun _ => rfl) rfl
  intro k outside
  apply Function.update_of_ne
  rintro rfl
  exact outside member

/-- One in every register. -/
def ones : Regs := ⟨fun _ => 1, fun _ => false, 0, fun _ => 0⟩

/-- An unseen update changes rA. -/
theorem effective_changes {i : Insn} (proper : Proper i) (unseen : unseen_update i.mnemonic = true)
    (moves : indexed i.mnemonic = false → BitVec.ofInt 32 i.imm ≠ 0#32) :
    effective i ones ≠ ones.gpr i.ra := by
  have base : ones.base i.ra = 1#32 := by
    rw [Regs.base, if_neg (proper.update (unseen_update_update unseen).1)]
    rfl
  rw [effective]
  split
  · rw [Regs.indexed, base]
    change 1#32 + 1#32 ≠ 1#32
    decide
  · next plain =>
      rw [base]
      intro same
      apply moves (eq_false_of_ne_true plain)
      have shifted : 1#32 + BitVec.ofInt 32 i.imm = 1#32 + 0#32 := same
      exact add_left_cancel shifted

theorem filled_results {i : Insn} (is : i.mnemonic = .lswx) {n : Nat} (short : n ≤ 127) {r : Int}
    (inside : r ∈ filled i n) : r ∈ results i := by
  obtain ⟨k, low, rfl⟩ := List.mem_map.mp inside
  rw [results, is]
  have bytes : string_bytes i = 127 := by
    rw [string_bytes, if_neg]
    rw [is]
    decide
  have low := List.mem_range.mp low
  refine List.mem_map.mpr ⟨(k : Int), ?_, rfl⟩
  have member : k ∈ List.range ((string_bytes i + 3) / 4) := by
    rw [bytes, List.mem_range]
    omega
  simpa using member

/-- An execution that `_writes` says cannot be. -/
theorem not_seen_of_lands {i : Insn} {v : Word} (plain : exact i.mnemonic = false)
    (member : (reg : Int) ∈ results i) (other : v ≠ ones.gpr reg)
    (update : _UPDATE i.mnemonic = true → v = effective i ones ∧ i.ra = reg)
    (string : i.mnemonic = .lswx → ∃ n ≤ 127, i.ra ∉ filled i n ∧ i.rb ∉ filled i n ∧
      (reg : Int) ∈ filled i n) :
    ∃ g g', Executes i g g' ∧ g'.gpr reg ≠ g.gpr reg := by
  refine ⟨ones, { ones with gpr := Function.update ones.gpr (reg : Int) v },
    ⟨lands plain ones member v, ?_, ?_⟩, ?_⟩
  · intro is
    obtain ⟨value, ra⟩ := update is
    change Function.update ones.gpr (reg : Int) v i.ra = _
    rw [ra, Function.update_self, value]
  · intro is
    obtain ⟨n, short, ra, rb, inside⟩ := string is
    refine ⟨n, short, ra, rb, fun r outside => ?_⟩
    apply Function.update_of_ne
    rintro rfl
    exact outside inside
  · change Function.update ones.gpr (reg : Int) v (reg : Int) ≠ _
    rw [Function.update_self]
    exact other

theorem not_seen_of_missed (lt : word < 2 ^ 32) (missed : Missed (decode word addr) reg) :
    ¬ Seen word addr reg := by
  obtain ⟨proper, how⟩ := missed
  intro seen
  have seen := seen proper
  have some_ : dest (decode word addr).mnemonic ≠ .none := by
    rcases how with ⟨unseen, -⟩ | ⟨is | is, -⟩ | ⟨is, -⟩
    · rcases unseen_update_dest unseen with ra | ⟨both, -⟩
      · rw [ra]
        decide
      · rw [both]
        decide
    all_goals
      rw [is]
      decide
  obtain ⟨m, w, said, writes, place⟩ := results_said reg lt some_
  rw [writes] at seen
  generalize decode word addr = i at *
  have zero : (0 : Word) ≠ ones.gpr reg := by
    change (0 : Word) ≠ 1
    decide
  have above (is : i.mnemonic = .lmw ∨ i.mnemonic = .lswi ∨ i.mnemonic = .lswx)
      (other : i.rd ≠ reg) : w (decide (i.rd = reg)) (decide (_ra word = reg)) ≠ true := by
    rw [decide_eq_false other]
    rcases place with ⟨-, rd⟩ | ⟨same, -⟩
    · exfalso
      rcases is with is | is | is
      all_goals
        rw [is] at rd
        cases rd
    · rw [answers_above said]
      · decide
      · rw [dest_multiple, dest_string, ← same]
        exact is
  rcases how with ⟨unseen, ra, floats, moves⟩ | ⟨is, other, member⟩ |
    ⟨is, other, n, short, inside, ra, rb⟩
  · obtain ⟨update, plain, string⟩ := unseen_update_update unseen
    have results_ra : (reg : Int) ∈ results i := by
      rw [results]
      rcases unseen_update_dest unseen with alone | ⟨both, -⟩
      · rw [alone]
        exact List.mem_singleton.mpr ra.symm
      · rw [both]
        exact List.mem_cons_of_mem _ (List.mem_singleton.mpr ra.symm)
    have changes := effective_changes proper unseen moves
    rw [ra] at changes
    have yes := seen (not_seen_of_lands plain results_ra changes (fun _ => ⟨rfl, ra⟩)
      fun is => (string is).elim)
    rcases place with ⟨-, rd⟩ | ⟨same, field⟩
    · rcases unseen_update_dest unseen with alone | ⟨both, -⟩
      · cases rd.symm.trans alone
      · cases rd.symm.trans both
    · rw [same] at unseen floats
      rw [decide_eq_true (Int.natCast_inj.mp (field.symm.trans ra))] at yes
      have dests := unseen_update_dest unseen
      by_cases low : i.rd = reg
      · rw [decide_eq_true low] at yes
        rcases dests with alone | ⟨both, load⟩
        · rw [answers_both said alone unseen] at yes
          exact floats yes low
        · rw [← same] at load
          exact proper.load load (low.trans ra.symm)
      · rw [decide_eq_false low, answers_unseen said (dests.imp_right And.left) unseen] at yes
        cases yes
  · refine above ?_ other (seen (not_seen_of_lands (v := 0) ?_ member zero ?_ ?_))
    · exact is.imp_right .inl
    all_goals
      rcases is with is | is
      all_goals
        rw [is]
        first | rfl | (intro none_; cases none_)
  · refine above (.inr (.inr is)) other (seen (not_seen_of_lands (v := 0) ?_
      (filled_results is short inside) zero ?_ fun _ => ⟨n, short, ra, rb, inside⟩))
    · rw [is]
      rfl
    · rw [is]
      intro none_
      cases none_

/-- `_writes` sees a change exactly where it is not missed. -/
theorem seen_iff (lt : word < 2 ^ 32) : Seen word addr reg ↔ ¬ Missed (decode word addr) reg :=
  ⟨fun seen missed => not_seen_of_missed lt missed seen, seen_of_not_missed lt⟩

end Words

/-! Running straight on from a lis. -/

/-- From the instruction at `at_`, each instruction in turn, up to the one at `ref`. -/
inductive Straight (dol : Dol) : Nat → Nat → Regs → Regs → Prop
  | here (ref : Nat) (g : Regs) : Straight dol ref ref g g
  | next {at_ ref word : Nat} {g mid g' : Regs} (there : word_before dol at_ 0 = .ok word)
      (proper : Proper (decode word at_)) (step : Executes (decode word at_) g mid)
      (rest : Straight dol (at_ + 4) ref mid g') : Straight dol at_ ref g g'

/-- The search stops at the lis `prev`, `k` instructions before `ref`. -/
structure StopsAt (dol : Dol) (ref ra back k prev : Nat) : Prop where
  first : 1 ≤ k
  within : k ≤ back
  there : word_before dol ref (4 * k) = .ok prev
  lis : is_lis prev ra = true
  between : ∀ j, 1 ≤ j → j < k →
    ∃ w, word_before dol ref (4 * j) = .ok w ∧ is_lis w ra = false ∧ _writes w ra = false

/-- The base register and the displacement make `a`, in 32 bits. -/
def Holds (i : Insn) (a : Nat) (g : Regs) : Prop :=
  (g.gpr i.ra + BitVec.ofInt 32 i.imm).toNat = a

/-- In every execution that arrives at `ref`, from the lis or with the base in r13 or r2,
the instruction there reaches `a`. -/
def Reached (dol : Dol) (ref : Nat) (sda : Nat → Option Nat) (back a : Nat) : Prop :=
  ∀ word, word_before dol ref 0 = .ok word →
    match (if _ra word = 2 ∨ _ra word = 13 then sda (_ra word) else none) with
    | some base =>
        ∀ g : Regs, g.gpr (_ra word) = BitVec.ofNat 32 base → Holds (decode word ref) a g
    | none =>
        ∀ k prev, StopsAt dol ref (_ra word) back k prev →
          ∀ g g', Straight dol (ref - 4 * k) ref g g' → Holds (decode word ref) a g'

/-- No instruction between the lis and `ref` changes the register unseen. -/
def NoneMissed (dol : Dol) (ref : Nat) (sda : Nat → Option Nat) (back : Nat) : Prop :=
  ∀ word, word_before dol ref 0 = .ok word →
    (if _ra word = 2 ∨ _ra word = 13 then sda (_ra word) else none) = none →
      ∀ k prev, StopsAt dol ref (_ra word) back k prev →
        ∀ j w, 1 ≤ j → j < k → word_before dol ref (4 * j) = .ok w →
          ¬ Missed (decode w (ref - 4 * j)) (_ra word)

section Runs

variable {dol : Dol} {ref : Nat}

theorem word_before_lt {back word : Nat} (there : word_before dol ref back = .ok word) :
    back ≤ ref ∧ word < 2 ^ 32 := by
  rw [word_before] at there
  split at there
  · cases there
  · next inside =>
      refine ⟨Nat.le_of_not_lt inside, ?_⟩
      split at there
      · cases there
      · split at there
        · cases there
          exact dol.word_lt _
        · cases there

theorem word_before_sub {back : Nat} (inside : back ≤ ref) :
    word_before dol (ref - back) 0 = word_before dol ref back := by
  rw [word_before, word_before, if_neg (Nat.not_lt_zero _), if_neg (Nat.not_lt.mpr inside)]
  rfl

theorem simm_eq (word : Nat) : _simm word = sign_extend (word &&& 0xFFFF) 16 := rfl

theorem d_form_entry {op : Nat} (listed : op ∈ 15 :: D_FORMS) : ∃ m,
    PRIMARY op = some (m, .D, 0) ∧ unsigned_imm m = false ∧
      (m = .cmp || m = .cmpl || m = .cmpi || m = .cmpli) = false ∧ (op = 15 → m = .addis) := by
  refine ⟨(PRIMARY op).elim .unknown Prod.fst, ?_⟩
  revert op
  decide

/-- The fields of a D-form instruction the search reads. -/
theorem decode_d_form {word : Nat} (lt : word < 2 ^ 32) (listed : word >>> 26 ∈ 15 :: D_FORMS)
    (addr : Nat) :
    (decode word addr).rd = _rd word ∧ (decode word addr).ra = _ra word ∧
      (decode word addr).imm = _simm word ∧
      (word >>> 26 = 15 → (decode word addr).mnemonic = .addis) := by
  have whole : word &&& 0xFFFFFFFF = word :=
    (Nat.and_two_pow_sub_one_eq_mod _ 32).trans (Nat.mod_eq_of_lt lt)
  have plain : ∀ op ∈ 15 :: D_FORMS, op ∉ [4, 19, 31, 59, 63] := by decide
  have entry := decode_entry_eq word
  rw [opcd_eq lt, entry_at_plain (plain _ listed)] at entry
  obtain ⟨m, primary, signed, short, addis⟩ := d_form_entry listed
  rw [primary] at entry
  rw [decode, whole, entry]
  dsimp only
  rw [short, Bool.false_and, if_neg (by decide)]
  refine ⟨rfl, rfl, ?_, addis⟩
  change (if unsigned_imm m then _ else _) = _
  rw [signed]
  rfl

/-- Running on to `ref` leaves a register no instruction on the way changes. -/
theorem Straight.keeps {at_ reg : Nat} {g g' : Regs} (run : Straight dol at_ ref g g')
    (kept : ∀ word addr, at_ ≤ addr → addr < ref → (ref - addr) % 4 = 0 →
      word_before dol addr 0 = .ok word →
        _writes word reg = false ∧ ¬ Missed (decode word addr) reg) :
    at_ ≤ ref ∧ (ref - at_) % 4 = 0 ∧ g'.gpr reg = g.gpr reg := by
  induction run with
  | here ref g => exact ⟨le_refl _, by rw [Nat.sub_self], rfl⟩
  | @next at_ ref word g mid g' there proper step rest ih =>
      obtain ⟨below, aligned, same⟩ := ih fun w addr low => kept w addr (by omega)
      have here : (ref - at_) % 4 = 0 := by omega
      refine ⟨by omega, here, same.trans ?_⟩
      obtain ⟨silent, safe⟩ := kept word at_ (le_refl _) (by omega) here there
      by_contra changed
      have seen := seen_of_not_missed (word_before_lt there).2 safe proper ⟨g, mid, step, changed⟩
      rw [silent] at seen
      cases seen

/-- The search answers with the sum at the lis it stops at. -/
theorem search_stops {word ra back k prev : Nat} (stops : StopsAt dol ref ra back k prev) :
    ∀ n i, 1 ≤ i → i ≤ k → k < i + n → search dol ref word ra n i =
      .ok (some ((((((prev &&& 0xFFFF) <<< 16 : Nat) : Int) + _simm word) % 2 ^ 32).toNat)) := by
  intro n
  induction n with
  | zero =>
      intro i _ low high
      omega
  | succ n ih =>
      intro i first low high
      rw [search]
      rcases Nat.eq_or_lt_of_le low with rfl | before
      · rw [stops.there]
        dsimp only
        rw [if_pos stops.lis]
      · obtain ⟨w, there, lis, writes⟩ := stops.between i first before
        rw [there]
        dsimp only
        rw [lis, writes]
        exact ih (i + 1) (by omega) before (by omega)

theorem simm_shifted (word : Nat) :
    BitVec.ofInt 32 (_simm word * 2 ^ 16) =
      BitVec.ofInt 32 (((word &&& 0xFFFF) <<< 16 : Nat) : Int) := by
  have low : word &&& 0xFFFF < 2 ^ 16 := Nat.and_lt_two_pow word (by decide)
  have flips : _simm word = (((word &&& 0xFFFF) ^^^ 2 ^ 15 : Nat) : Int) - 2 ^ 15 := rfl
  apply BitVec.eq_of_toNat_eq
  rw [BitVec.toNat_ofInt, BitVec.toNat_ofInt, flips, Nat.shiftLeft_eq]
  generalize word &&& 0xFFFF = x at low
  rcases Nat.lt_or_ge x (2 ^ 15) with small | big
  · rw [Lib.xor_two_pow_of_lt small]
    omega
  · rw [Lib.xor_two_pow_of_ge big low]
    omega

/-- What a lis leaves. -/
theorem lis_sets {prev addr ra : Nat} {g g' : Regs} (lt : prev < 2 ^ 32)
    (lis : is_lis prev ra = true) (step : Executes (decode prev addr) g g') :
    g'.gpr ra = BitVec.ofInt 32 (((prev &&& 0xFFFF) <<< 16 : Nat) : Int) := by
  obtain ⟨⟨op, rd⟩, base⟩ : (prev >>> 26 = 15 ∧ (prev >>> 21) &&& 31 = ra) ∧
      (prev >>> 16) &&& 31 = 0 := by
    simpa [is_lis] using lis
  obtain ⟨is_rd, is_ra, is_imm, addis⟩ :=
    decode_d_form lt (by rw [op]; exact List.mem_cons_self) addr
  have gpr := step.effect.gpr
  rw [GprEffect, addis op] at gpr
  dsimp only at gpr
  have field : _rd prev = ra := rd
  have zero : _ra prev = 0 := base
  have none_ : g.base (0 : Nat) = 0#32 := if_pos rfl
  rw [gpr, is_rd, is_ra, field, zero, Function.update_self, is_imm, none_, BitVec.zero_add]
  exact simm_shifted prev

theorem holds_of_base {i : Insn} {g : Regs} {base word : Int}
    (there : g.gpr i.ra = BitVec.ofInt 32 base) (imm : i.imm = word) :
    Holds i ((base + word) % 2 ^ 32).toNat g := by
  rw [Holds, there, imm, ← BitVec.ofInt_add, BitVec.toNat_ofInt]
  rfl

/-- A run from the lis arrives with what the lis set. -/
theorem Straight.arrives {ra back k prev : Nat} {g g' : Regs}
    (run : Straight dol (ref - 4 * k) ref g g') (stops : StopsAt dol ref ra back k prev)
    (safe : ∀ j w, 1 ≤ j → j < k → word_before dol ref (4 * j) = .ok w →
      ¬ Missed (decode w (ref - 4 * j)) ra) :
    g'.gpr ra = BitVec.ofInt 32 (((prev &&& 0xFFFF) <<< 16 : Nat) : Int) := by
  have first := stops.first
  obtain ⟨low, lt⟩ := word_before_lt stops.there
  have start := (word_before_sub low).trans stops.there
  generalize is : ref - 4 * k = at_ at run start
  cases run with
  | here => omega
  | @next _ _ word _ mid _ there proper step rest =>
      cases start.symm.trans there
      rw [← lis_sets lt stops.lis step]
      refine (rest.keeps fun w addr above below aligned there => ?_).2.2
      obtain ⟨j, same⟩ : ∃ j, addr = ref - 4 * j ∧ 1 ≤ j ∧ j < k := ⟨(ref - addr) / 4, by omega⟩
      obtain ⟨rfl, one, inside⟩ := same
      rw [word_before_sub (by omega)] at there
      obtain ⟨w', here, -, silent⟩ := stops.between j one inside
      cases here.symm.trans there
      exact ⟨silent, safe j w one inside there⟩

/-- What `reach` answers is reached when no change is missed. -/
theorem reached_of_reach {sda : Nat → Option Nat} {back a : Nat}
    (answer : reach dol ref sda back = .ok (some a)) (safe : NoneMissed dol ref sda back) :
    Reached dol ref sda back a := by
  intro word there
  have lt := (word_before_lt there).2
  rw [reach, there] at answer
  dsimp only at answer
  split at answer
  · cases answer
  · next listed =>
      have form : word >>> 26 ∈ 15 :: D_FORMS := by
        apply List.mem_cons_of_mem
        simpa using listed
      obtain ⟨-, is_ra, is_imm, -⟩ := decode_d_form lt form ref
      have field : (word >>> 16) &&& 31 = _ra word := rfl
      rw [field] at answer
      have safe := safe word there
      generalize found : (if _ra word = 2 ∨ _ra word = 13 then sda (_ra word) else none) = base
        at answer safe
      cases base with
      | some base =>
          cases answer
          intro g holds
          refine holds_of_base ?_ is_imm
          rw [is_ra, holds]
          exact (BitVec.ofInt_natCast ..).symm
      | none =>
          dsimp only at answer
          split at answer
          · cases answer
          · intro k prev stops g g' run
            rw [search_stops stops back 1 (le_refl 1) stops.first (by have := stops.within; omega)]
              at answer
            cases answer
            refine holds_of_base ?_ is_imm
            rw [is_ra]
            exact run.arrives stops (safe rfl k prev stops)

end Runs

/-- `_writes` says yes for every instruction that can change the register but the missed
ones, and where it missed none the address `reach` answers is the one reached. -/
theorem reach_right (word : Word) (addr reg : Nat) (dol : Dol) (ref : Nat)
    (sda : Nat → Option Nat) (back a : Nat) :
    (Seen word.toNat addr reg ↔ ¬ Missed (decode word.toNat addr) reg) ∧
      (reach dol ref sda back = .ok (some a) → NoneMissed dol ref sda back →
        Reached dol ref sda back a) :=
  ⟨seen_iff word.isLt, reached_of_reach⟩

/-- `lis r3, 0x8000`, `lwzux r5, r3, r4` and `lwz r6, 0(r3)`. -/
def indexed_update : Dol where
  sections := [⟨0, 0x80003100, 12, true⟩]
  entry_point := 0x80003100
  data := [0x3C#8, 0x60#8, 0x80#8, 0x00#8, 0x7C#8, 0xA3#8, 0x20#8, 0x6E#8, 0x80#8, 0xC3#8, 0x00#8,
    0x00#8]

/-- After the lis. -/
def based : Regs := { ones with gpr := Function.update ones.gpr 3 0x80000000#32 }

theorem lis_executes : Executes (decode 0x3C608000 0x80003100) ones based := by
  have is : decode 0x3C608000 0x80003100 =
      ⟨0x80003100, 0x3C608000, .addis, some .D, true, 3, 0, -1, -1, -0x8000, 0, 0, 0, 0, 0, 0, -1,
        -1, 0, false, false, false, false⟩ := by
    decide
  rw [is]
  exact ⟨⟨rfl, fun _ => rfl, fun _ => rfl⟩, nofun, nofun⟩

theorem lwzux_executes : Executes (decode 0x7CA3206E 0x80003104) based
    { based with gpr := Function.update based.gpr 3 0x80000001#32 } := by
  have is : decode 0x7CA3206E 0x80003104 =
      ⟨0x80003104, 0x7CA3206E, .lwzux, some .X, true, 5, 3, 4, -1, 0, 0, 0, 0, 0, 1, 0, -1,
        -1, 0, false, false, false, false⟩ := by
    decide
  rw [is]
  exact ⟨lands rfl based (by decide) _, fun _ => rfl, nofun⟩

theorem proper_of_decide {i : Insn} (valid : i.valid = true)
    (ra : i.ra ≠ 0 ∨ _UPDATE i.mnemonic = false) (load : i.rd ≠ i.ra)
    (single : i.mnemonic ≠ .lmw ∧ i.mnemonic ≠ .lswi) : Proper i where
  valid := valid
  update := fun is => ra.resolve_right (by rw [is]; decide)
  load := fun _ => load
  multiple := fun is => (single.1 is).elim
  string := fun is => (single.2 is).elim

/-- The update moves r3 by r4, and the address is still answered. -/
theorem indexed_update_wrong :
    reach indexed_update 0x80003108 (fun _ => none) = .ok (some 0x80000000) ∧
      ¬ Reached indexed_update 0x80003108 (fun _ => none) 32 0x80000000 := by
  refine ⟨by decide, fun reached => ?_⟩
  have reached := reached 0x80C30000 (by decide) 2 0x3C608000
    ⟨by decide, by decide, by decide, by decide, fun j one below => ?_⟩
  · have lis : word_before indexed_update 0x80003100 0 = .ok 0x3C608000 := by decide
    have lwzux : word_before indexed_update 0x80003104 0 = .ok 0x7CA3206E := by decide
    have run : Straight indexed_update 0x80003100 0x80003108 ones _ :=
      .next lis
        (proper_of_decide (by decide) (by decide +kernel) (by decide +kernel)
          (by decide)) lis_executes
        (.next lwzux
          (proper_of_decide (by decide) (by decide +kernel) (by decide +kernel)
            (by decide)) lwzux_executes (.here _ _))
    have holds := reached _ _ run
    have base : (decode 0x80C30000 0x80003108).ra = 3 ∧ (decode 0x80C30000 0x80003108).imm = 0 := by
      decide
    rw [Holds, base.1, base.2] at holds
    exact absurd holds (by decide)
  · obtain rfl : j = 1 := by omega
    exact ⟨0x7CA3206E, by decide, by decide, by decide⟩

end SoaPort.Recomp.Gamedata
