import SoaPort.Card.Exi

namespace SoaPort.Card

open SoaPort.Lib SoaPort.Recomp

/-! The file behind the card. -/

/-- Byte `i` is waiting for a flush. -/
def CardState.Waiting (c : CardState) (i : Nat) : Prop :=
  c.dirty = true ∧ c.dirty_lo ≤ i ∧ i < c.dirty_hi

/-- Off the dirty interval the array is `f`. -/
def CardState.Outside (c : CardState) (f : Nat → Option Byte) : Prop :=
  ∀ i < CARD_BYTES, ¬ c.Waiting i → f i = some (c.array i)

/-- The first 512 KB of the file are the array. -/
def CardState.Written (c : CardState) : Prop :=
  ∃ f, c.image = some f ∧ ∀ i < CARD_BYTES, f[i]? = some (c.array i)

/-- What holds of a card in any run: a dirty card and one whose file is open have
been loaded, and the interval is one of the array. -/
structure CardState.Sound (c : CardState) : Prop where
  loaded : c.dirty = true ∨ c.file = true → c.card.isSome
  interval : c.dirty = true → c.dirty_lo ≤ c.dirty_hi ∧ c.dirty_hi ≤ CARD_BYTES

/-- An open file is at least of the card's size and holds every byte but the waiting. -/
structure CardState.Synced (c : CardState) : Prop where
  sized : c.file = true → CARD_BYTES ≤ (c.image.getD []).length
  synced : c.file = true → ∃ f, c.image = some f ∧ c.Outside fun i => f[i]?

section Marking

variable {c : CardState} {off len : Nat}

theorem card_dirty_array : (card_dirty c off len).array = c.array := by
  rw [card_dirty]
  split <;> rfl

theorem card_dirty_file : (card_dirty c off len).file = c.file ∧
    (card_dirty c off len).image = c.image ∧ (card_dirty c off len).card = c.card := by
  rw [card_dirty]
  split <;> exact ⟨rfl, rfl, rfl⟩

theorem card_dirty_interval (dirty : c.dirty = true) :
    card_dirty c off len =
      { c with dirty_lo := min off c.dirty_lo, dirty_hi := max (off + len) c.dirty_hi } := by
  have low : (if off < c.dirty_lo then off else c.dirty_lo) = min off c.dirty_lo := by
    split <;> omega
  have high : (if off + len > c.dirty_hi then off + len else c.dirty_hi) =
      max (off + len) c.dirty_hi := by
    split <;> omega
  rw [card_dirty, if_neg (by simp [dirty]), low, high]

/-- The interval grows to take in what is marked. -/
theorem waiting_card_dirty {i : Nat} (waits : c.Waiting i ∨ off ≤ i ∧ i < off + len) :
    (card_dirty c off len).Waiting i := by
  cases state : c.dirty with
  | false =>
      rcases waits with already | marked
      · exact absurd (already.1.symm.trans state) (by decide)
      · rw [card_dirty, if_pos state]
        exact ⟨rfl, marked⟩
  | true =>
      rw [card_dirty_interval state]
      refine ⟨state, ?_⟩
      rcases waits with ⟨-, low, high⟩ | ⟨low, high⟩
      · exact ⟨le_trans (Nat.min_le_right _ _) low, lt_of_lt_of_le high (Nat.le_max_right _ _)⟩
      · exact ⟨le_trans (Nat.min_le_left _ _) low, lt_of_lt_of_le high (Nat.le_max_left _ _)⟩

theorem interval_card_dirty
    (interval : c.dirty = true → c.dirty_lo ≤ c.dirty_hi ∧ c.dirty_hi ≤ CARD_BYTES)
    (inside : off + len ≤ CARD_BYTES) :
    (card_dirty c off len).dirty_lo ≤ (card_dirty c off len).dirty_hi ∧
      (card_dirty c off len).dirty_hi ≤ CARD_BYTES := by
  cases state : c.dirty with
  | false =>
      rw [card_dirty, if_pos state]
      exact ⟨Nat.le_add_right _ _, inside⟩
  | true =>
      obtain ⟨ordered, bound⟩ := interval state
      rw [card_dirty_interval state]
      constructor
      · change min off c.dirty_lo ≤ max (off + len) c.dirty_hi
        omega
      · exact Nat.max_le.mpr ⟨inside, bound⟩

/-- The array changed on a span, and the span marked. -/
def change_span (c : CardState) (array : Nat → Byte) (off len : Nat) : CardState :=
  card_dirty (set_array c array) off len

theorem change_span_array (array : Nat → Byte) : (change_span c array off len).array = array :=
  card_dirty_array

variable {array : Nat → Byte}
  (same : ∀ i < CARD_BYTES, ¬ (off ≤ i ∧ i < off + len) → array i = c.array i)

include same in
theorem Outside.change_span {f : Nat → Option Byte} (outside : c.Outside f) :
    (change_span c array off len).Outside f := by
  intro i inside resting
  have unmarked : ¬ (off ≤ i ∧ i < off + len) :=
    fun marked => resting (waiting_card_dirty (.inr marked))
  have before : ¬ c.Waiting i := fun waits => resting (waiting_card_dirty (.inl waits))
  rw [change_span_array, same i inside unmarked]
  exact outside i inside before

theorem Sound.change_span (sound : c.Sound) (inside : off + len ≤ CARD_BYTES) :
    (change_span c array off len).Sound where
  loaded := fun _ => by
    rw [SoaPort.Card.change_span, card_dirty_file.2.2]
    rfl
  interval := fun _ => @interval_card_dirty (set_array c array) off len sound.interval inside

end Marking

/-! What the device does between flushes leaves the file alone and marks whatever it
changes. -/

/-- What a file that is there gives a card that loads it. -/
def padded (image : Option (List Byte)) (i : Nat) : Option Byte :=
  some (((image.getD []).take CARD_BYTES).getD i 0xFF#8)

/-- A card over one file, off whose dirty interval a loaded array is `f`, when `known`. -/
structure CardState.Over (opened : Bool) (image : Option (List Byte)) (known : Prop)
    (f : Nat → Option Byte) (c : CardState) : Prop where
  sound : c.Sound
  file : c.file = opened
  image : c.image = image
  outside : known → c.card.isSome → c.Outside f

/-- The fields a flush and the file depend on. -/
structure Same (c c' : CardState) : Prop where
  card : c'.card = c.card
  dirty : c'.dirty = c.dirty
  lo : c'.dirty_lo = c.dirty_lo
  hi : c'.dirty_hi = c.dirty_hi
  file : c'.file = c.file
  image : c'.image = c.image

theorem Same.array {c c' : CardState} (same : Same c c') : c'.array = c.array := by
  rw [CardState.array, CardState.array, same.card]

theorem Same.waiting {c c' : CardState} (same : Same c c') (i : Nat) :
    c'.Waiting i ↔ c.Waiting i := by
  rw [CardState.Waiting, CardState.Waiting, same.dirty, same.lo, same.hi]

theorem Same.outside {c c' : CardState} (same : Same c c') {f : Nat → Option Byte} :
    c'.Outside f ↔ c.Outside f := by
  simp only [CardState.Outside, same.array, same.waiting]

theorem Same.sound {c c' : CardState} (same : Same c c') (sound : c.Sound) : c'.Sound where
  loaded := by
    rw [same.dirty, same.file, same.card]
    exact sound.loaded
  interval := by
    rw [same.dirty, same.lo, same.hi]
    exact sound.interval

section Service

variable {opened : Bool} {image : Option (List Byte)} {known : Prop} {f : Nat → Option Byte}
  {c c' : CardState}

theorem CardState.Over.same (above : c.Over opened image known f) (same : Same c c') :
    c'.Over opened image known f where
  sound := same.sound above.sound
  file := same.file.trans above.file
  image := same.image.trans above.image
  outside := fun holds => by
    rw [same.card, same.outside]
    exact above.outside holds

theorem CardState.Over.change_span (above : c.Over opened image known f)
    (loaded : c.card.isSome) {array : Nat → Byte} {off len : Nat}
    (inside : off + len ≤ CARD_BYTES)
    (same : ∀ i < CARD_BYTES, ¬ (off ≤ i ∧ i < off + len) → array i = c.array i) :
    (change_span c array off len).Over opened image known f where
  sound := Sound.change_span above.sound inside
  file := card_dirty_file.1.trans above.file
  image := card_dirty_file.2.1.trans above.image
  outside := fun holds _ => Outside.change_span same (above.outside holds loaded)

/-- What is known of an unloaded card is what its file gives it. -/
theorem CardState.Over.load (above : c.Over opened image known f)
    (source : known → opened = true ∨ f = padded image) :
    (card_load c).Over opened image known f ∧ (card_load c).card.isSome := by
  cases loaded : c.card with
  | some array =>
      rw [card_load, loaded]
      exact ⟨above, by rw [loaded]; rfl⟩
  | none =>
      have idle : c.dirty = false := by
        cases state : c.dirty with
        | false => rfl
        | true => simpa [loaded] using above.sound.loaded (.inl state)
      have shut : c.file = false := by
        cases state : c.file with
        | false => rfl
        | true => simpa [loaded] using above.sound.loaded (.inr state)
      rw [card_load, loaded]
      refine ⟨⟨⟨fun _ => rfl, above.sound.interval⟩, above.file, above.image, ?_⟩, rfl⟩
      intro holds _ i _ _
      rcases source holds with is_open | is_padded
      · exact absurd (shut.symm.trans (above.file.trans is_open)) (by decide)
      · rw [is_padded, ← above.image]
        rfl

variable (above : c.Over opened image known f) (loaded : c.card.isSome)

include above loaded

theorem program_byte_over (pos : Nat) (input : Byte) :
    (program_byte pos input c).Over opened image known f := by
  rw [program_byte]
  split
  · exact above.same ⟨rfl, rfl, rfl, rfl, rfl, rfl⟩
  · have within : c.addr.toNat % CARD_BYTES + 1 ≤ CARD_BYTES :=
      Nat.mod_lt _ (by norm_num)
    have elsewhere : ∀ i < CARD_BYTES, ¬ (c.addr.toNat % CARD_BYTES ≤ i ∧ i < c.addr.toNat % CARD_BYTES + 1) →
        Function.update c.array (c.addr.toNat % CARD_BYTES)
          (c.array (c.addr.toNat % CARD_BYTES) &&& input) i = c.array i := by
      intro i _ other
      exact Function.update_of_ne (by omega) _ _
    exact (above.change_span loaded within elsewhere).same ⟨rfl, rfl, rfl, rfl, rfl, rfl⟩

theorem erase_byte_over (pos : Nat) (input : Byte) :
    (erase_byte pos input c).Over opened image known f := by
  rw [erase_byte]
  split
  · exact above.same ⟨rfl, rfl, rfl, rfl, rfl, rfl⟩
  split
  · have addressed : CardState.Over opened image known f
        { c with addr := address_byte 2 c.addr input } :=
      above.same ⟨rfl, rfl, rfl, rfl, rfl, rfl⟩
    have below := Nat.mod_lt (address_byte 2 c.addr input).toNat (y := CARD_BYTES) (by norm_num)
    refine addressed.change_span loaded ?_ ?_
    · change _ / 0x2000 * 0x2000 + 0x2000 ≤ 4 * 2 ^ 17
      change _ < 4 * 2 ^ 17 at below
      omega
    · intro i _ other
      exact if_neg other
  · exact above

theorem chip_erase_byte_over (pos : Nat) :
    (chip_erase_byte pos c).Over opened image known f := by
  rw [chip_erase_byte]
  split
  · refine above.change_span loaded (Nat.le_of_eq (Nat.zero_add _)) ?_
    intro i inside other
    omega
  · exact above

theorem command_byte_over (pos : Nat) (input : Byte) :
    (command_byte pos input c).2.Over opened image known f := by
  rw [command_byte]
  split
  · exact above
  · exact above
  · exact above
  · rw [read_byte]
    split
    · exact above.same ⟨rfl, rfl, rfl, rfl, rfl, rfl⟩
    split
    · exact above.same ⟨rfl, rfl, rfl, rfl, rfl, rfl⟩
    · exact above
  · exact program_byte_over above loaded pos input
  · exact erase_byte_over above loaded pos input
  · exact chip_erase_byte_over above loaded pos
  · change CardState.Over _ _ _ _ (if pos = 1 then _ else c)
    split
    · exact above.same ⟨rfl, rfl, rfl, rfl, rfl, rfl⟩
    · exact above
  · exact above

end Service

/-- A property of cards that loading and any byte keep. -/
structure Stable (P : CardState → Prop) : Prop where
  load : ∀ c, P c → P (card_load c)
  byte : ∀ pos input c, P c → P (card_byte pos input c).2

theorem over_stable {opened : Bool} {image : Option (List Byte)} {known : Prop}
    {f : Nat → Option Byte} (source : known → opened = true ∨ f = padded image) :
    Stable (CardState.Over opened image known f) where
  load := fun _ above => (above.load source).1
  byte := by
    intro pos input c above
    obtain ⟨above, loaded⟩ := above.load source
    rw [card_byte]
    split
    · change CardState.Over _ _ _ _ (if input = 0x89#8 then _ else _ : Byte × CardState).2
      split
      · exact above.same ⟨rfl, rfl, rfl, rfl, rfl, rfl⟩
      · exact above.same ⟨rfl, rfl, rfl, rfl, rfl, rfl⟩
    · exact command_byte_over above loaded pos.toNat input

/-! A transfer is loads and bytes. -/

section Transfers

variable {ρ : Type} {rt : Runtime ρ} {host : Host} {P : CardState → Prop} (stable : Stable P)

include stable

theorem exi_card_byte_keeps (ch : Nat) (input : Byte) (e : Exi) (holds : P e.card) :
    P (exi_card_byte ch input e).2.card :=
  stable.byte _ input e.card holds

theorem exi_rtc_byte_keeps (ch : Nat) (input : Byte) (e : Exi) (holds : P e.card) :
    P (exi_rtc_byte host ch input e).2.card := by
  have ready : P (sram_init e.rtc e.card).2 := by
    rw [sram_init]
    split
    · exact holds
    · exact stable.load e.card holds
  have byte : ∀ seconds pos, (rtc_byte seconds pos input e.rtc e.card).2.2 =
      (sram_init e.rtc e.card).2 := by
    intro seconds pos
    rw [rtc_byte]
    dsimp only
    repeat' split
    all_goals rfl
  change P (rtc_byte host.seconds (e.ch ch).pos input e.rtc e.card).2.2
  rw [byte]
  exact ready

theorem dev_byte_keeps (ch : Nat) (input : Byte) (e : Exi) (holds : P e.card) :
    P (dev_byte host ch input e).2.card := by
  rw [dev_byte]
  split
  · exact exi_card_byte_keeps stable ch input e holds
  split
  · exact exi_rtc_byte_keeps stable ch input e holds
  · exact holds

omit stable in
theorem dma_loop_keeps {device : Byte → Exi → Byte × Exi}
    (device_keeps : ∀ input e, P e.card → P (device input e).2.card) (mar : Word) (send : Bool)
    (l : List Nat) (s : CpuState ρ) (e : Exi) (holds : P e.card) :
    P (dma_loop rt device mar send l s e).2.card := by
  induction l generalizing s e with
  | nil => exact holds
  | cons i rest ih =>
      rw [dma_loop]
      cases send with
      | true => exact ih _ _ (device_keeps _ e holds)
      | false => exact ih _ _ (device_keeps _ e holds)

theorem imm_loop_keeps (ch rw : Nat) (data : Word) (l : List Nat) (out : Word) (e : Exi)
    (holds : P e.card) : P (imm_loop host ch rw data l out e).2.card := by
  induction l generalizing out e with
  | nil => exact holds
  | cons i rest ih => exact ih _ _ (dev_byte_keeps stable ch _ e holds)

theorem transfer_dma_keeps (ch rw : Nat) (s : CpuState ρ) (e : Exi) (holds : P e.card) :
    P (transfer_dma rt host ch rw s e).2.card := by
  rw [transfer_dma]
  split
  · rw [card_dma]
    split
    · exact stable.load e.card holds
    · exact dma_loop_keeps (exi_card_byte_keeps stable ch) _ _ _ _ _ (stable.load e.card holds)
  split
  · exact dma_loop_keeps (exi_rtc_byte_keeps stable ch) _ _ _ _ _ holds
  · exact holds

theorem transfer_imm_keeps (ch rw : Nat) (e : Exi) (holds : P e.card) :
    P (transfer_imm host ch rw e).card := by
  have moved : P (imm_loop host ch rw (e.ch ch).data
      (List.range ((((e.ch ch).cr >>> 4) &&& 3#32).toNat + 1)) 0#32 e).2.card :=
    imm_loop_keeps stable ch rw _ _ _ e holds
  rw [transfer_imm]
  dsimp only
  split
  · exact moved
  · exact moved

theorem transfer_keeps (ch : Nat) (s : CpuState ρ) (e : Exi) (holds : P e.card) :
    P (transfer rt host ch s e).2.card := by
  have card : (transfer rt host ch s e).2.card =
      (if (e.ch ch).cr &&& 2#32 ≠ 0#32 then
        transfer_dma rt host ch (((e.ch ch).cr >>> 2) &&& 3#32).toNat s e
      else (s, transfer_imm host ch (((e.ch ch).cr >>> 2) &&& 3#32).toNat e)).2.card := rfl
  rw [card]
  split
  · exact transfer_dma_keeps stable ch _ s e holds
  · exact transfer_imm_keeps stable ch _ e holds

/-- The register write that takes the card's chip select away. -/
def Deselects (ea : Word) (size : Nat) (v : BitVec 64) (e : Exi) : Prop :=
  ea = EXI_BASE ∧ size = 4 ∧ (e.ch 0).selected = some 0 ∧ chip_select (v.setWidth 32) ≠ some 0

omit stable in
theorem select_card (ch : Nat) (sel : Option Nat) (e : Exi) :
    (select host ch sel e).card =
      if ch = 0 ∧ (e.ch ch).selected = some 0 ∧ sel ≠ some 0 then
        (card_deselected host.opens e.card).2
      else e.card := by
  have deselected : (deselect host ch e).card =
      if ch = 0 ∧ (e.ch ch).selected = some 0 then (card_deselected host.opens e.card).2
      else e.card := by
    rw [deselect]
    split <;> rfl
  rw [select]
  by_cases kept : sel = (e.ch ch).selected
  · rw [if_pos kept, if_neg]
    rintro ⟨-, card, other⟩
    exact other (kept.trans card)
  · rw [if_neg kept, Exi.set_card]
    change (deselect host ch e).card = _
    rw [deselected]
    by_cases card : ch = 0 ∧ (e.ch ch).selected = some 0
    · rw [if_pos card, if_pos ⟨card.1, card.2, fun same => kept (same.trans card.2.symm)⟩]
    · rw [if_neg card, if_neg fun both => card ⟨both.1, both.2.1⟩]

theorem reg_write_keeps {ch reg : Nat} {w : Word} (s : CpuState ρ) {e : Exi}
    (stays : ¬ (ch = 0 ∧ reg = 0 ∧ (e.ch 0).selected = some 0 ∧ chip_select w ≠ some 0))
    (holds : P e.card) : P (reg_write rt host ch reg w s e).2.card := by
  unfold reg_write
  split
  · change P (csr_write host ch w e).card
    rw [csr_write, select_card, if_neg]
    · exact holds
    · rintro ⟨zero, card, other⟩
      subst zero
      refine stays ⟨rfl, rfl, ?_, other⟩
      simpa [Exi.set] using card
  · exact holds
  · exact holds
  · split
    · exact transfer_keeps stable _ s _ holds
    · exact holds
  · exact holds
  · exact holds

theorem exi_write_keeps {ea : Word} {size : Nat} {v : BitVec 64} (s : CpuState ρ) {e : Exi}
    (stays : ¬ Deselects ea size v e) (holds : P e.card) :
    P (exi_write rt host ea size v s e).2.2.card := by
  have kept : ∀ b : Nat, (ea.toNat = b → ea = EXI_BASE) →
      P (if ea.toNat < b ∨ b + 0x40 ≤ ea.toNat ∨ size ≠ 4 then (false, s, e)
        else if (ea.toNat - b) / 0x14 > 2 then (false, s, e)
        else (true, reg_write rt host ((ea.toNat - b) / 0x14) ((ea.toNat - b) % 0x14)
          (v.setWidth 32) s e)).2.2.card := by
    intro b first
    split
    · exact holds
    split
    · exact holds
    · apply reg_write_keeps stable s _ holds
      rintro ⟨zero, reg, card, other⟩
      have here : ea.toNat = b ∧ size = 4 := by omega
      exact stays ⟨first here.1, here.2, card, other⟩
  rw [exi_write]
  exact kept _ BitVec.eq_of_toNat_eq

omit stable in
theorem exi_write_deselects {ea : Word} {size : Nat} {v : BitVec 64} (s : CpuState ρ) {e : Exi}
    (deselects : Deselects ea size v e) :
    (exi_write rt host ea size v s e).2.2.card = (card_deselected host.opens e.card).2 := by
  obtain ⟨here, rfl, card, other⟩ := deselects
  have register : (exi_write rt host EXI_BASE 4 v s e).2.2.card =
      (csr_write host 0 (v.setWidth 32) e).card := by
    have inside : ¬ (EXI_BASE.toNat < EXI_BASE.toNat ∨
        EXI_BASE.toNat + 0x40 ≤ EXI_BASE.toNat ∨ 4 ≠ 4) := by
      omega
    rw [exi_write, if_neg inside, Nat.sub_self]
    rfl
  rw [here, register, csr_write, select_card, if_pos]
  · rfl
  · refine ⟨rfl, ?_, other⟩
    simpa [Exi.set] using card

end Transfers

end SoaPort.Card
