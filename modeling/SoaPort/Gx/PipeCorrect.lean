import SoaPort.Gx.Parse

namespace SoaPort.Gx

/-! What a command does to the registers and the renderer depends on them and
on memory, not on the capture. -/

namespace FrontEnd

/-- What the capture does not touch. -/
def front (g : FrontEnd) : Gpu × (Nat → Byte) := (g.gpu, g.mem)

/-- What no command changes. -/
def machine (g : FrontEnd) : (Nat → Byte) × List Byte × Bool := (g.mem, g.pipe, g.dl_rec)

theorem front_eq {g h : FrontEnd} : h.front = g.front ↔ h.gpu = g.gpu ∧ h.mem = g.mem :=
  Prod.mk.injEq _ _ _ _ ▸ Iff.rfl

variable {dump : Option (List Nat)} {g h : FrontEnd}

theorem load_bp_front (v : Word) : (g.load_bp dump v).front = (g.gpu.load_bp v, g.mem) := by
  unfold load_bp
  dsimp only
  split <;> rfl

theorem load_bp_machine (v : Word) : (g.load_bp dump v).machine = g.machine := by
  unfold load_bp
  dsimp only
  split <;> rfl

theorem exec_front (same : h.front = g.front) (cmd : Command) :
    (h.exec dump cmd).front = (g.exec dump cmd).front := by
  obtain ⟨gpu, mem⟩ := front_eq.mp same
  cases cmd with
  | nop | unknown | list => exact same
  | bp v => rw [exec, exec, load_bp_front, load_bp_front, gpu, mem]
  | cp | xf | xf_indexed | draw => simp only [exec, front, gpu, mem]

theorem exec_machine (cmd : Command) : (g.exec dump cmd).machine = g.machine := by
  cases cmd with
  | bp v => exact load_bp_machine v
  | _ => rfl

theorem list_step_framed : Lib.Framed front (list_step dump) where
  cut := by
    intro s s' xs rest taken
    obtain ⟨⟨cmd, after⟩, found, made⟩ := Option.map_eq_some_iff.mp taken
    cases made
    obtain ⟨item, nonempty, split, _, again⟩ := next_command_some found
    refine ⟨item, nonempty, split, fun t ys same => ⟨t.exec dump cmd, ?_, exec_front same cmd⟩⟩
    rw [list_step, (front_eq.mp same).1, again ys]
    rfl

theorem list_step_machine {xs rest : List Byte} (taken : g.list_step dump xs = some (h, rest)) :
    h.machine = g.machine := by
  obtain ⟨⟨cmd, after⟩, _, made⟩ := Option.map_eq_some_iff.mp taken
  cases made
  exact exec_machine cmd

theorem run_list_front (same : h.front = g.front) (addr : Word) (body : List Byte) :
    (h.run_list dump addr body).front = (g.run_list dump addr body).front := by
  obtain ⟨gpu, mem⟩ := front_eq.mp same
  have framed : Lib.Framed FrontEnd.front (list_step dump) := list_step_framed
  obtain ⟨gpu', mem'⟩ := front_eq.mp (framed.drain_view
    { g with gpu := { g.gpu with list_addr := addr, in_list := true } }
    { h with gpu := { h.gpu with list_addr := addr, in_list := true } } body
    (front_eq.mpr ⟨by rw [gpu], mem⟩)).1
  refine front_eq.mpr ⟨?_, mem'⟩
  dsimp only [run_list, parse_list]
  rw [gpu']

theorem run_list_machine (addr : Word) (body : List Byte) :
    (g.run_list dump addr body).machine = g.machine :=
  (list_step_framed.reach_drain _ body).keeps list_step_machine

theorem exec_top_front (same : h.front = g.front) (live live' : Bool) (back back' : Nat)
    (cmd : Command) :
    (h.exec_top dump live back cmd).front = (g.exec_top dump live' back' cmd).front := by
  obtain ⟨gpu, mem⟩ := front_eq.mp same
  cases cmd with
  | list addr size body =>
      cases body with
      | some body => exact run_list_front same addr body
      | none =>
          rw [exec_top, exec_top]
          split
          · have body : mem_bytes h.mem addr size.toNat = mem_bytes g.mem addr size.toNat := by
              rw [mem]
            rw [body]
            refine run_list_front ?_ addr _
            rw [front_eq]
            split <;> split <;> exact ⟨gpu, mem⟩
          · exact same
  | _ => exact exec_front same _

theorem exec_top_machine (live : Bool) (back : Nat) (cmd : Command) :
    (g.exec_top dump live back cmd).machine = g.machine := by
  cases cmd with
  | list addr size body =>
      cases body with
      | some body => exact run_list_machine addr body
      | none =>
          rw [exec_top]
          split
          · refine (run_list_machine addr _).trans ?_
            split <;> rfl
          · rfl
  | _ => exact exec_machine _

theorem parse_step_framed (replaying live : Bool) :
    Lib.Framed front (parse_step dump replaying live) where
  cut := by
    intro s s' xs rest taken
    obtain ⟨⟨cmd, after⟩, found, made⟩ := Option.map_eq_some_iff.mp taken
    cases made
    obtain ⟨item, nonempty, split, _, again⟩ := next_command_some found
    refine ⟨item, nonempty, split, fun t ys same =>
      ⟨t.exec_top dump live (item ++ ys).length cmd, ?_, exec_top_front same _ _ _ _ cmd⟩⟩
    rw [parse_step, (front_eq.mp same).1, again ys]
    rfl

theorem parse_step_machine {replaying live : Bool} {xs rest : List Byte}
    (taken : g.parse_step dump replaying live xs = some (h, rest)) : h.machine = g.machine := by
  obtain ⟨⟨cmd, after⟩, _, made⟩ := Option.map_eq_some_iff.mp taken
  cases made
  exact exec_top_machine live _ cmd

theorem parse_machine (replaying live : Bool) (p : List Byte) :
    (g.parse dump replaying live p).1.machine = g.machine :=
  ((parse_step_framed replaying live).reach_drain g p).keeps parse_step_machine

/-- The parser's flag for the capture changes nothing else. -/
theorem parse_step_live (replaying live live' : Bool) (same : h.front = g.front) (p : List Byte) :
    g.parse_step dump replaying live p = none ∧ h.parse_step dump replaying live' p = none ∨
      ∃ g' h' rest, g.parse_step dump replaying live p = some (g', rest) ∧
        h.parse_step dump replaying live' p = some (h', rest) ∧ h'.front = g'.front := by
  rw [parse_step, parse_step, (front_eq.mp same).1]
  cases next_command g.gpu.regs.cp replaying p with
  | none => exact .inl ⟨rfl, rfl⟩
  | some found =>
      exact .inr ⟨_, _, found.2, rfl, rfl, exec_top_front same live' live _ _ found.1⟩

theorem parse_live (replaying live live' : Bool) (same : h.front = g.front) (p : List Byte) :
    (h.parse dump replaying live' p).1.front = (g.parse dump replaying live p).1.front ∧
      (h.parse dump replaying live' p).2 = (g.parse dump replaying live p).2 :=
  (parse_step_framed replaying live).drain_rel (parse_step_framed replaying live')
    (fun g h _ => h.front = g.front)
    (fun _ _ xs same => parse_step_live replaying live live' same xs) g h p same

/-! The pipe: bytes parsed as they come, a command's when it is whole. -/

/-- Every command the bytes hold, the one cut off by their end included, is
at most 7 bytes short of the pipe. -/
def commands_fit (dump : Option (List Nat)) (g : FrontEnd) (p : List Byte) : Prop :=
  ∀ g' p', Lib.Reach (parse_step dump false true) g p g' p' → p' ≠ [] →
    ∀ n, need g'.gpu.regs.cp false p' = some n → n ≤ PIPE_CAP - 7

theorem commands_fit.after {p p' : List Byte} {g' : FrontEnd} (fit : g.commands_fit dump p)
    (reach : Lib.Reach (parse_step dump false true) g p g' p') (same : h.front = g'.front) :
    h.commands_fit dump p' := by
  intro t q later nonempty n size
  obtain ⟨t', later', same'⟩ :=
    (parse_step_framed false true).reach_append later g' [] same.symm
  rw [List.append_nil, List.append_nil] at later'
  rw [← (front_eq.mp same').1] at size
  exact fit t' q (reach.trans later') nonempty n size

theorem commands_fit.head {p rest : List Byte} {g' : FrontEnd}
    (bound : ∀ n, need g.gpu.regs.cp false p = some n → n ≤ PIPE_CAP - 7)
    (taken : g.parse_step dump false true p = some (g', rest)) (fit : g'.commands_fit dump rest) :
    g.commands_fit dump p := by
  intro t q reach nonempty n size
  cases reach with
  | refl => exact bound n size
  | head first more =>
      rw [taken] at first
      cases first
      exact fit t q more nonempty n size

theorem commands_fit.nil : g.commands_fit dump [] := by
  intro t q reach nonempty n size
  cases reach with
  | refl => exact absurd rfl nonempty
  | head first more =>
      rw [(parse_step_framed false true).nil] at first
      cases first

/-- A command that is not whole leaves room for a store. -/
theorem commands_fit_room {p ys : List Byte} (fit : g.commands_fit dump (p ++ ys))
    (same : h.front = g.front) (waiting : h.parse_step dump false true p = none) (store : Store) :
    p.length + store.size ≤ PIPE_CAP := by
  have small := store.size_le
  rcases next_command_none (Option.map_eq_none_iff.mp waiting) with short | ⟨nonempty, n, size, less⟩
  · unfold PIPE_CAP
    omega
  · have whole := need_prefixed size nonempty (Nat.le_refl _) (.inr rfl) ys
    rw [List.take_length, (front_eq.mp same).1] at whole
    have bound := fit g (p ++ ys) (.refl g _) (by simp [nonempty]) n whole
    unfold PIPE_CAP at bound ⊢
    omega

theorem gx_pipe_write_eq (parsing : g.dl_rec = false) (store : Store)
    (room : g.pipe.length + store.size ≤ PIPE_CAP) :
    g.gx_pipe_write dump store.size store.value =
      pipe_flush dump { g with pipe := g.pipe ++ store.bytes, cap := g.cap.append store.bytes } := by
  rw [gx_pipe_write, if_neg (by rw [parsing]; decide), if_neg (Nat.not_lt.mpr room)]
  rfl

/-- A store parses its bytes after the waiting ones, and leaves the rest
waiting. -/
theorem gx_pipe_write_step (parsing : g.dl_rec = false) (store : Store)
    (room : g.pipe.length + store.size ≤ PIPE_CAP) :
    (g.gx_pipe_write dump store.size store.value).front =
        (g.parse dump false true (g.pipe ++ store.bytes)).1.front ∧
      (g.gx_pipe_write dump store.size store.value).pipe =
        (g.parse dump false true (g.pipe ++ store.bytes)).2 ∧
      (g.gx_pipe_write dump store.size store.value).dl_rec = false ∧
      (g.gx_pipe_write dump store.size store.value).parse_step dump false true
        (g.gx_pipe_write dump store.size store.value).pipe = none := by
  rw [gx_pipe_write_eq parsing store room]
  let stored := { g with pipe := g.pipe ++ store.bytes, cap := g.cap.append store.bytes }
  obtain ⟨front, rest⟩ := parse_live (g := g) (h := stored) false true true rfl
    (g.pipe ++ store.bytes)
  have machine : (stored.parse dump false true stored.pipe).1.machine = stored.machine :=
    parse_machine false true stored.pipe
  refine ⟨front, rest, (congrArg (fun m => m.2.2) machine).trans parsing, ?_⟩
  have framed : Lib.Framed FrontEnd.front (parse_step dump false true) := parse_step_framed false true
  have halted := framed.drain_stuck stored stored.pipe
  rcases parse_step_live (g := (stored.parse dump false true stored.pipe).1)
    (h := pipe_flush dump stored) false true true rfl
    (stored.parse dump false true stored.pipe).2 with ⟨_, stuck⟩ | ⟨g', _, rest', found, _⟩
  · exact stuck
  · cases halted.symm.trans found

/-- After any stores, the registers, the renderer and the unparsed tail are
what one `parse` of all the bytes leaves. -/
theorem gx_pipe_writes_parse (live : Bool) (parsing : g.dl_rec = false)
    (waiting : g.parse_step dump false true g.pipe = none) (stores : List Store)
    (fit : g.commands_fit dump (g.pipe ++ stores.flatMap Store.bytes)) :
    (g.gx_pipe_writes dump stores).gpu =
        (g.parse dump false live (g.pipe ++ stores.flatMap Store.bytes)).1.gpu ∧
      (g.gx_pipe_writes dump stores).pipe =
        (g.parse dump false live (g.pipe ++ stores.flatMap Store.bytes)).2 := by
  have framed : Lib.Framed FrontEnd.front (parse_step dump false true) := parse_step_framed false true
  suffices ran : (g.gx_pipe_writes dump stores).gpu =
        (g.parse dump false true (g.pipe ++ stores.flatMap Store.bytes)).1.gpu ∧
      (g.gx_pipe_writes dump stores).pipe =
        (g.parse dump false true (g.pipe ++ stores.flatMap Store.bytes)).2 by
    obtain ⟨front, rest⟩ := parse_live (h := g) (g := g) false true live rfl
      (g.pipe ++ stores.flatMap Store.bytes)
    rw [(front_eq.mp front).1, rest]
    exact ran
  induction stores generalizing g with
  | nil =>
      rw [List.flatMap_nil, List.append_nil, parse, Lib.drain_none waiting]
      exact ⟨rfl, rfl⟩
  | cons store stores ih =>
      rw [List.flatMap_cons] at fit ⊢
      obtain ⟨front, rest, parsing', waiting'⟩ :=
        gx_pipe_write_step parsing store (commands_fit_room fit rfl waiting store)
      rw [← List.append_assoc] at fit ⊢
      rw [gx_pipe_writes, List.foldl_cons]
      generalize g.gx_pipe_write dump store.size store.value = stored at *
      -- the bytes left waiting and those to come are the rest of the stream
      obtain ⟨t, reach, looks⟩ := framed.reach_append (framed.reach_drain g (g.pipe ++ store.bytes)) g
        (stores.flatMap Store.bytes) rfl
      have fit' : stored.commands_fit dump (stored.pipe ++ stores.flatMap Store.bytes) := by
        rw [rest]
        exact fit.after reach (front.trans looks.symm)
      obtain ⟨gpu, tail⟩ := ih parsing' waiting' fit'
      obtain ⟨whole, wholeRest⟩ := framed.drain_append g g (g.pipe ++ store.bytes)
        (stores.flatMap Store.bytes) rfl
      obtain ⟨again, againRest⟩ := framed.drain_view _ stored
        (stored.pipe ++ stores.flatMap Store.bytes) front
      rw [rest] at again againRest gpu tail
      exact ⟨gpu.trans (front_eq.mp (again.trans whole.symm)).1,
        tail.trans (againRest.trans wholeRest.symm)⟩

/-- A CP write that sets the size of the draw after it. -/
def draw_stores : List Store :=
  [⟨8, 0x0850000002009000, by decide⟩, ⟨2, 0x01AB, by decide⟩, ⟨1, 0xCD, by decide⟩]

theorem gx_pipe_writes_parse_draw :
    (init.gx_pipe_writes none draw_stores).gpu =
        (init.parse none false false (draw_stores.flatMap Store.bytes)).1.gpu ∧
      (init.gx_pipe_writes none draw_stores).pipe =
        (init.parse none false false (draw_stores.flatMap Store.bytes)).2 :=
  gx_pipe_writes_parse false rfl (by decide) draw_stores
    (.head (by decide) rfl (.head (by decide) rfl .nil))

end FrontEnd

end SoaPort.Gx
