import SoaPort.Picture.Tev
import Mathlib.Data.Fintype.Basic
import Mathlib.Tactic.FinCases

namespace SoaPort.Picture

open SoaPort.Gx (Word bits)

/-! ### The bank -/

section Bank

variable {n : Nat} {bank : Nat → Int} {at_ : Nat} {v : Fin n → Int}

theorem set_bank_at (i : Fin n) : set_bank bank at_ v (at_ + i) = v i := by
  have inside : at_ ≤ at_ + i ∧ at_ + i - at_ < n := ⟨by omega, by omega⟩
  rw [set_bank, dif_pos inside]
  congr 1
  ext
  simp

theorem set_bank_off {k : Nat} (off : k < at_ ∨ at_ + n ≤ k) :
    set_bank bank at_ v k = bank k := by
  rw [set_bank, dif_neg (by omega)]

end Bank

/-! ### A sum with its plain choices put in -/

/-- A component of a rasterized colour, or of a texel. -/
def IsByte (v : Int) : Prop := 0 ≤ v ∧ v ≤ 255

theorem low8_byte {v : Int} (byte : IsByte v) : low8 v = v :=
  Int.emod_eq_of_lt byte.1 (by have := byte.2; omega)

theorem clamp255_byte {v : Int} (byte : IsByte v) : clamp255 v = v := by
  rw [clamp255, if_neg (by have := byte.1; omega), if_neg (by have := byte.2; omega)]

theorem clamp255_isByte (v : Int) : IsByte (clamp255 v) := by
  simp only [clamp255, IsByte]
  split_ifs <;> omega

theorem zero_isByte : IsByte 0 := ⟨by decide, by decide⟩

theorem toNat_isByte (v : BitVec 8) : IsByte v.toNat := by
  have small := v.isLt
  exact ⟨by omega, by omega⟩

theorem tev_add_plain {shift clamp : Nat} (clamped : clamp ≠ 0) {a b c : Int} (d : Int)
    (byte_a : IsByte a) (byte_b : IsByte b) (byte_c : IsByte c) :
    tev_add 0 shift 0 clamp a b c d = clamp255 (shifted shift (d + blend8 a b c)) := by
  simp [tev_add, low8_byte byte_a, low8_byte byte_b, low8_byte byte_c, clamped, bias_value]

theorem blend8_first (a : Int) : blend8 a 0 0 = a := by
  simp only [blend8]
  omega

theorem blend8_second (b c : Int) : blend8 0 b c = (b * (c + c / 128) + 128) / 256 := by
  simp [blend8]

/-- A source that is `a` alone passes through. -/
theorem tev_add_first {clamp : Nat} (clamped : clamp ≠ 0) {a : Int} (byte : IsByte a) :
    tev_add 0 0 0 clamp a 0 0 0 = a := by
  rw [tev_add_plain clamped 0 byte zero_isByte zero_isByte, blend8_first]
  simpa [shifted] using clamp255_byte byte

theorem tev_add_last {clamp : Nat} (clamped : clamp ≠ 0) {d : Int} (byte : IsByte d) :
    tev_add 0 0 0 clamp 0 0 0 d = d := by
  rw [tev_add_plain clamped d zero_isByte zero_isByte zero_isByte, blend8_first]
  simpa [shifted] using clamp255_byte byte

theorem tev_add_times {shift clamp : Nat} (clamped : clamp ≠ 0) {b c : Int} (byte_b : IsByte b)
    (byte_c : IsByte c) :
    tev_add 0 shift 0 clamp 0 b c 0 =
      clamp255 (shifted shift ((b * (c + c / 128) + 128) / 256)) := by
  rw [tev_add_plain clamped 0 zero_isByte byte_b byte_c, blend8_second, Int.zero_add]

theorem shifted_once {shift : Nat} (low : shift ≤ 1) (v : Int) :
    shifted shift v = if shift = 1 then v * 2 else v := by
  simp only [shifted]
  split_ifs <;> first | rfl | omega

/-! ### The stage of a shape -/

section Stage

variable {F Tex : Type} [Div F] [BEq F] [OfNat F 0] {sample : Tex → F → F → F → Fin 4 → BitVec 8}
  {T : TevSetup Tex} {ras : Nat → Fin 4 → Int} {tex : Nat → Fin 4 → F} {S : Stage}
  {bank : Nat → Int}

theorem inputs_ras (chan : S.chan = 0) (swap : ∀ i, S.rswap i = i) (i : Fin 4) :
    stage_inputs sample T ras tex S bank (BANK_RAS + i) = ras 0 i := by
  have before : BANK_RAS + i < BANK_KONST := by
    simp only [BANK_RAS, BANK_KONST]
    omega
  simp only [stage_inputs]
  rw [set_bank_off (.inl before), if_pos (by omega), set_bank_at, chan, swap]

theorem inputs_tex (on : S.texen ≠ 0) (swap : ∀ i, S.tswap i = i) (i : Fin 4) :
    stage_inputs sample T ras tex S bank (BANK_TEX + i) = (texel sample T S tex i).toNat := by
  have before : BANK_TEX + i < BANK_RAS := by
    simp only [BANK_RAS, BANK_TEX]
    omega
  have earlier : BANK_TEX + i < BANK_KONST := before.trans (by decide)
  simp only [stage_inputs]
  rw [set_bank_off (.inl earlier), if_pos on]
  split
  · rw [set_bank_off (.inl before), set_bank_at, swap]
  · rw [set_bank_at, swap]

theorem inputs_konst (i : Fin 4) :
    stage_inputs sample T ras tex S bank (BANK_KONST + i) = S.konst i := by
  simp only [stage_inputs]
  exact set_bank_at i

theorem inputs_zero (zero : bank BANK_ZERO = 0) :
    stage_inputs sample T ras tex S bank BANK_ZERO = 0 := by
  have ras_off {v : Fin 4 → Int} {b : Nat → Int} (same : b BANK_ZERO = 0) :
      set_bank b BANK_RAS v BANK_ZERO = 0 := by
    rw [set_bank_off (.inr (by decide)), same]
  have tex_off {v : Fin 4 → Int} : set_bank bank BANK_TEX v BANK_ZERO = 0 := by
    rw [set_bank_off (.inr (by decide)), zero]
  simp only [stage_inputs]
  rw [set_bank_off (.inr (by decide))]
  split <;> split
  · exact ras_off tex_off
  · exact ras_off zero
  · exact tex_off
  · exact zero

theorem color_low {v : Nat → Int} (cdest : S.cdest = 0) (cbias : S.cbias = 0) (i : Fin 3) :
    stage_color S v i =
      tev_add S.cop S.cshift S.cbias S.cclamp (v (S.ia i)) (v (S.ib i)) (v (S.ic i))
        (v (S.id i)) := by
  rw [stage_color, cdest, Nat.zero_mul, if_pos (by omega)]
  have place (w : Fin 3 → Int) : set_bank v 0 w (0 + i) = w i := set_bank_at i
  rw [← Nat.zero_add i.val, place]

theorem color_high {v : Nat → Int} (cdest : S.cdest = 0) {k : Nat} (high : 3 ≤ k) :
    stage_color S v k = v k := by
  rw [stage_color, cdest]
  exact set_bank_off (.inr (by omega))

/-- The choices that `Stage.plain` asks for. -/
structure Plain (S : Stage) : Prop where
  chan : S.chan = 0
  rswap : ∀ i, S.rswap i = i
  tswap : S.texen ≠ 0 → ∀ i, S.tswap i = i
  cbias : S.cbias = 0
  cop : S.cop = 0
  cclamp : S.cclamp ≠ 0
  cdest : S.cdest = 0
  abias : S.abias = 0
  aop : S.aop = 0
  aclamp : S.aclamp ≠ 0
  adest : S.adest = 0
  ashift : S.ashift = 0

theorem plain_of (plain : S.plain = true) : Plain S := by
  have identity {swap : Fin 4 → Fin 4}
      (all : ((swap 0 = 0 ∧ swap 1 = 1) ∧ swap 2 = 2) ∧ swap 3 = 3) : ∀ i, swap i = i := by
    obtain ⟨⟨⟨zero, one⟩, two⟩, three⟩ := all
    intro i
    fin_cases i
    · exact zero
    · exact one
    · exact two
    · exact three
  simp only [Stage.plain, Bool.and_eq_true, Bool.or_eq_true, decide_eq_true_eq] at plain
  obtain ⟨⟨⟨⟨⟨⟨⟨⟨⟨⟨⟨⟨⟨⟨chan, r0⟩, r1⟩, r2⟩, r3⟩, tswap⟩, cbias⟩, cop⟩, cclamp⟩, cdest⟩, abias⟩,
    aop⟩, aclamp⟩, adest⟩, ashift⟩ := plain
  exact
    { chan, cbias, cop, cclamp, cdest, abias, aop, aclamp, adest, ashift
      rswap := identity ⟨⟨⟨r0, r1⟩, r2⟩, r3⟩
      tswap := fun on => identity (tswap.resolve_left on) }

/-- The bank indices are the selectors'. -/
structure Indexed (S : Stage) : Prop where
  ia : ∀ i, S.ia i = color_index S.ca i
  ib : ∀ i, S.ib i = color_index S.cb i
  ic : ∀ i, S.ic i = color_index S.cc i
  id : ∀ i, S.id i = color_index S.cd i
  ja : S.ja = alpha_index S.aa
  jb : S.jb = alpha_index S.ab
  jc : S.jc = alpha_index S.ac
  jd : S.jd = alpha_index S.ad

theorem tev_stage_indexed (regs : TevRegs) (bp : Nat → Word) (st : Nat) :
    Indexed (tev_stage regs bp st) :=
  ⟨fun _ => rfl, fun _ => rfl, fun _ => rfl, fun _ => rfl, rfl, rfl, rfl, rfl⟩

/-- What the colour of a recognised shape is. -/
theorem fast_c_cases (shape : S.fast_c ≠ 0) :
    (S.fast_c = 1 ∧ S.cshift = 0 ∧ ((S.ca = 10 ∧ S.cb = 15 ∧ S.cc = 15 ∧ S.cd = 15) ∨
      (S.ca = 15 ∧ S.cb = 15 ∧ S.cc = 15 ∧ S.cd = 10))) ∨
    (S.fast_c = 2 ∧ S.texen ≠ 0 ∧ S.cshift ≤ 1 ∧ S.ca = 15 ∧ S.cb = 8 ∧ S.cc = 10 ∧
      S.cd = 15) := by
  simp only [Stage.fast_c] at shape ⊢
  split
  case isTrue colour => exact .inl ⟨rfl, colour⟩
  case isFalse other =>
    rw [if_neg other] at shape
    split
    case isTrue times => exact .inr ⟨rfl, times⟩
    case isFalse neither => exact absurd (if_neg neither) shape

theorem fast_a_cases (shape : S.fast_a ≠ 0) :
    (S.fast_a = 1 ∧ S.aa = 6 ∧ S.ab = 7 ∧ S.ac = 7 ∧ S.ad = 7) ∨
    (S.fast_a = 2 ∧ ((S.aa = 5 ∧ S.ab = 7 ∧ S.ac = 7 ∧ S.ad = 7) ∨
      (S.aa = 7 ∧ S.ab = 7 ∧ S.ac = 7 ∧ S.ad = 5))) ∨
    (S.fast_a = 3 ∧ S.texen ≠ 0 ∧ S.aa = 7 ∧ S.ab = 4 ∧ S.ac = 5 ∧ S.ad = 7) := by
  simp only [Stage.fast_a] at shape ⊢
  split
  case isTrue konst => exact .inl ⟨rfl, konst⟩
  case isFalse other =>
    rw [if_neg other] at shape
    split
    case isTrue vertex => exact .inr (.inl ⟨rfl, vertex⟩)
    case isFalse other =>
      rw [if_neg other] at shape
      split
      case isTrue times => exact .inr (.inr ⟨rfl, times⟩)
      case isFalse neither => exact absurd (if_neg neither) shape

theorem color_direct (plain : Plain S) (indexed : Indexed S) (zero : bank BANK_ZERO = 0)
    (bytes : ∀ i, IsByte (ras 0 i)) (shape : S.fast_c ≠ 0) (i : Fin 3) :
    stage_color S (stage_inputs sample T ras tex S bank) i =
      if S.fast_c = 1 then ras 0 i.castSucc
      else
        let v := ((texel sample T S tex i.castSucc).toNat *
          (ras 0 i.castSucc + ras 0 i.castSucc / 128) + 128) / 256
        clamp255 (if S.cshift = 1 then v * 2 else v) := by
  have vertex : stage_inputs sample T ras tex S bank (color_index 10 i) = ras 0 i.castSucc :=
    inputs_ras plain.chan plain.rswap i.castSucc
  have none : stage_inputs sample T ras tex S bank (color_index 15 i) = 0 := inputs_zero zero
  rw [color_low plain.cdest plain.cbias, plain.cop, plain.cbias, indexed.ia, indexed.ib,
    indexed.ic, indexed.id]
  rcases fast_c_cases shape with ⟨one, cshift, colour⟩ | ⟨two, texen, cshift, ca, cb, cc, cd⟩
  · rw [if_pos one, cshift]
    obtain ⟨ca, cb, cc, cd⟩ | ⟨ca, cb, cc, cd⟩ := colour
    · rw [ca, cb, cc, cd, vertex, none]
      exact tev_add_first plain.cclamp (bytes _)
    · rw [ca, cb, cc, cd, vertex, none]
      exact tev_add_last plain.cclamp (bytes _)
  · have texture : stage_inputs sample T ras tex S bank (color_index 8 i) =
        (texel sample T S tex i.castSucc).toNat := inputs_tex texen (plain.tswap texen) i.castSucc
    rw [if_neg (by omega), ca, cb, cc, cd, vertex, none, texture,
      tev_add_times plain.cclamp (toNat_isByte _) (bytes _), shifted_once cshift]

theorem alpha_direct (plain : Plain S) (indexed : Indexed S) (zero : bank BANK_ZERO = 0)
    (bytes : ∀ i, IsByte (ras 0 i)) (konst : IsByte (S.konst 3)) (shape : S.fast_a ≠ 0) :
    stage_alpha S (stage_color S (stage_inputs sample T ras tex S bank)) 3 =
      if S.fast_a = 1 then S.konst 3
      else if S.fast_a = 2 then ras 0 3
      else clamp255 (((texel sample T S tex 3).toNat * (ras 0 3 + ras 0 3 / 128) + 128) / 256) := by
  have constant : stage_color S (stage_inputs sample T ras tex S bank) (alpha_index 6) =
      S.konst 3 := (color_high plain.cdest (by decide)).trans (inputs_konst 3)
  have vertex : stage_color S (stage_inputs sample T ras tex S bank) (alpha_index 5) = ras 0 3 :=
    (color_high plain.cdest (by decide)).trans (inputs_ras plain.chan plain.rswap 3)
  have none : stage_color S (stage_inputs sample T ras tex S bank) (alpha_index 7) = 0 :=
    (color_high plain.cdest (by decide)).trans (inputs_zero zero)
  have value : stage_alpha S (stage_color S (stage_inputs sample T ras tex S bank)) 3 =
      tev_add 0 0 0 S.aclamp
        (stage_color S (stage_inputs sample T ras tex S bank) (alpha_index S.aa))
        (stage_color S (stage_inputs sample T ras tex S bank) (alpha_index S.ab))
        (stage_color S (stage_inputs sample T ras tex S bank) (alpha_index S.ac))
        (stage_color S (stage_inputs sample T ras tex S bank) (alpha_index S.ad)) := by
    rw [stage_alpha, plain.adest, plain.abias, plain.aop, plain.ashift, indexed.ja, indexed.jb,
      indexed.jc, indexed.jd, if_pos (by decide)]
    exact Function.update_self ..
  rw [value]
  rcases fast_a_cases shape with
    ⟨one, aa, ab, ac, ad⟩ | ⟨two, alone⟩ | ⟨three, texen, aa, ab, ac, ad⟩
  · rw [if_pos one, aa, ab, ac, ad, constant, none]
    exact tev_add_first plain.aclamp konst
  · rw [if_neg (by omega), if_pos two]
    obtain ⟨aa, ab, ac, ad⟩ | ⟨aa, ab, ac, ad⟩ := alone
    · rw [aa, ab, ac, ad, vertex, none]
      exact tev_add_first plain.aclamp (bytes _)
    · rw [aa, ab, ac, ad, vertex, none]
      exact tev_add_last plain.aclamp (bytes _)
  · have texture : stage_color S (stage_inputs sample T ras tex S bank) (alpha_index 4) =
        (texel sample T S tex 3).toNat :=
      (color_high plain.cdest (by decide)).trans (inputs_tex texen (plain.tswap texen) 3)
    rw [if_neg (by omega), if_neg (by omega), aa, ab, ac, ad, vertex, none, texture,
      tev_add_times plain.aclamp (toNat_isByte _) (bytes _)]
    rfl

end Stage

/-! ### A recognised setup -/

/-- A setup of one stage, of a shape that is run directly. -/
structure Recognised {Tex : Type} (T : TevSetup Tex) : Prop where
  one : T.stages = 1
  plain : Plain (T.st 0)
  indexed : Indexed (T.st 0)
  konst : IsByte ((T.st 0).konst 3)
  same_c : T.fast_c = (T.st 0).fast_c
  same_a : T.fast_a = (T.st 0).fast_a
  shape_c : (T.st 0).fast_c ≠ 0
  shape_a : (T.st 0).fast_a ≠ 0

theorem konst_isByte (regs : TevRegs) (sel : Nat) (channel : Fin 4) :
    IsByte (konst_value regs sel channel) := by
  simp only [konst_value, IsByte]
  split_ifs <;> omega

theorem prepare_recognised {Tex : Type} {regs : TevRegs} {maps : Nat → Tex} {bp : Nat → Word}
    (fast : (tev_prepare regs maps bp).fast_c ≠ 0) : Recognised (tev_prepare regs maps bp) := by
  have split : bits (bp 0).toNat 10 4 + 1 = 1 ∧ (tev_stage regs bp 0).plain ∧
      (tev_stage regs bp 0).fast_c ≠ 0 ∧ (tev_stage regs bp 0).fast_a ≠ 0 := by
    by_contra other
    exact fast (if_neg other)
  obtain ⟨one, plain, shape_c, shape_a⟩ := split
  exact
    { one, shape_c, shape_a
      plain := plain_of plain
      indexed := tev_stage_indexed regs bp 0
      konst := konst_isByte regs _ 3
      same_c := if_pos ⟨one, plain, shape_c, shape_a⟩
      same_a := if_pos ⟨one, plain, shape_c, shape_a⟩ }

section Pixel

variable {F Tex : Type} [Div F] [BEq F] [OfNat F 0] (sample : Tex → F → F → F → Fin 4 → BitVec 8)
  {T : TevSetup Tex} (ras : Nat → Fin 4 → Int) (tex : Nat → Fin 4 → F)

theorem start_zero : start_bank T BANK_ZERO = 0 := rfl

/-- The bank after the only stage. -/
theorem stages_one (one : T.stages = 1) :
    tev_stages sample T ras tex =
      let bank := stage_alpha (T.st 0) (stage_color (T.st 0)
        (stage_inputs sample T ras tex (T.st 0) (start_bank T)))
      (fun i : Fin 4 => BitVec.ofInt 8 (clamp255 (bank i)),
        alpha_passes T (BitVec.ofInt 8 (clamp255 (bank 3))).toNat) := by
  rw [tev_stages, one]
  rfl

theorem alpha_low {S : Stage} {v : Nat → Int} (adest : S.adest = 0) {k : Nat} (low : k < 3) :
    stage_alpha S v k = v k := by
  rw [stage_alpha, adest]
  exact Function.update_of_ne (by omega) ..

theorem tev_direct_color (bytes : ∀ i, IsByte (ras 0 i)) (recognised : Recognised T) (i : Fin 3) :
    (tev_direct sample T ras tex).1 i.castSucc = (tev_stages sample T ras tex).1 i.castSucc := by
  have low : i.castSucc ≠ 3 := Fin.castSucc_ne_last i
  rw [stages_one sample ras tex recognised.one]
  simp only [Fin.val_castSucc]
  rw [alpha_low recognised.plain.adest i.isLt, color_direct recognised.plain recognised.indexed
    start_zero bytes recognised.shape_c i]
  simp only [tev_direct, if_neg low, recognised.same_c]
  rcases fast_c_cases recognised.shape_c with ⟨first, -⟩ | ⟨second, texen, -⟩
  · rw [if_pos first, if_pos first, clamp255_byte (bytes _)]
  · have other : (T.st 0).fast_c ≠ 1 := by omega
    rw [if_neg other, if_neg other, clamp255_byte (clamp255_isByte _)]
    simp only [if_pos texen]

theorem tev_direct_alpha (bytes : ∀ i, IsByte (ras 0 i)) (recognised : Recognised T) :
    (tev_direct sample T ras tex).1 3 = (tev_stages sample T ras tex).1 3 := by
  rw [stages_one sample ras tex recognised.one]
  change _ = BitVec.ofInt 8 (clamp255 (stage_alpha (T.st 0) _ 3))
  rw [alpha_direct recognised.plain recognised.indexed start_zero bytes recognised.konst
    recognised.shape_a]
  simp only [tev_direct, if_pos, recognised.same_a]
  rcases fast_a_cases recognised.shape_a with ⟨first, -⟩ | ⟨second, -⟩ | ⟨third, texen, -⟩
  · rw [if_pos first, if_pos first, clamp255_byte recognised.konst]
  · rw [if_neg (by omega), if_pos second, if_neg (by omega), if_pos second,
      clamp255_byte (bytes 3)]
  · have not_konst : (T.st 0).fast_a ≠ 1 := by omega
    have not_vertex : (T.st 0).fast_a ≠ 2 := by omega
    rw [if_neg not_konst, if_neg not_vertex, if_neg not_konst, if_neg not_vertex,
      clamp255_byte (clamp255_isByte _)]
    simp only [if_pos texen]

/-- The alpha compare is of the alpha that is written out. -/
theorem direct_passes :
    (tev_direct sample T ras tex).2 = alpha_passes T ((tev_direct sample T ras tex).1 3).toNat := by
  simp only [tev_direct, if_pos]

theorem stages_passes :
    (tev_stages sample T ras tex).2 = alpha_passes T ((tev_stages sample T ras tex).1 3).toNat :=
  rfl

theorem direct_eq_stages (bytes : ∀ i, IsByte (ras 0 i)) (recognised : Recognised T) :
    tev_direct sample T ras tex = tev_stages sample T ras tex := by
  have alpha := tev_direct_alpha sample ras tex bytes recognised
  have bytes_same : (tev_direct sample T ras tex).1 = (tev_stages sample T ras tex).1 := by
    funext i
    cases i using Fin.lastCases with
    | last => exact alpha
    | cast i => exact tev_direct_color sample ras tex bytes recognised i
  apply Prod.ext bytes_same
  rw [direct_passes, stages_passes, alpha]

end Pixel

/-- A pixel of a recognised shape, run directly and stage by stage. -/
theorem tev_pixel_fast {F Tex : Type} [Div F] [BEq F] [OfNat F 0]
    (sample : Tex → F → F → F → Fin 4 → BitVec 8) (regs : TevRegs) (maps : Nat → Tex)
    (bp : Nat → Word) (ras : Nat → Fin 4 → Int) (tex : Nat → Fin 4 → F)
    (bytes : ∀ i, IsByte (ras 0 i))
    (fast : (tev_prepare regs maps bp).fast_c ≠ 0 ∧ (tev_prepare regs maps bp).fast_a ≠ 0) :
    tev_pixel sample false (tev_prepare regs maps bp) ras tex =
      tev_stages sample (tev_prepare regs maps bp) ras tex := by
  rw [tev_pixel, if_pos ⟨fast.1, rfl⟩]
  exact direct_eq_stages sample ras tex bytes (prepare_recognised fast.1)

/-- Texture times vertex colour, with texture times vertex alpha. -/
def modulated (reg : Nat) : Word :=
  if reg = 0x28 then 64
  else if reg = 0xC0 then 0x8F8AF
  else if reg = 0xC1 then 0x8F2F0
  else if reg = 0xF6 then 4
  else if reg = 0xF7 then 14
  else 0

theorem tev_pixel_fast_modulated :
    let regs : TevRegs := ⟨fun _ _ => 0, fun _ _ => 0⟩
    let sample : Unit → Int → Int → Int → Fin 4 → BitVec 8 := fun _ _ _ _ _ => 200
    let T := tev_prepare regs (fun _ => ()) modulated
    (T.fast_c = 2 ∧ T.fast_a = 3) ∧
      tev_pixel sample false T (fun _ _ => 100) (fun _ _ => 0) =
        tev_stages sample T (fun _ _ => 100) (fun _ _ => 0) := by
  have fast : (tev_prepare ⟨fun _ _ => 0, fun _ _ => 0⟩ (fun _ => ()) modulated).fast_c = 2 ∧
      (tev_prepare ⟨fun _ _ => 0, fun _ _ => 0⟩ (fun _ => ()) modulated).fast_a = 3 := by
    decide
  refine ⟨fast, ?_⟩
  apply tev_pixel_fast
  · intro i
    exact ⟨by decide, by decide⟩
  · exact ⟨by rw [fast.1]; decide, by rw [fast.2]; decide⟩

end SoaPort.Picture
