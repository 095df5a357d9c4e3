import Mathlib.Data.Prod.Basic

namespace SoaPort.Lib

/-! A value its owner rewrites and another applies a function to, once to each
value the owner writes: what was last applied is remembered, under a tag. -/

@[ext]
structure Once (V T : Type) where
  value : V
  /-- the last value its owner wrote -/
  orig : V
  /-- the last value that was applied -/
  wrote : Option V
  memo : Option (T × V)

namespace Once

variable {V T : Type} {f : V → V} {here : T → Prop} {s : Once V T} {t : T}

/-- The owner's turn. -/
def rewrite [DecidableEq V] (s : Once V T) (v : V) : Once V T :=
  { s with value := v, orig := if v = s.value then s.orig else v }

/-- The function applied under a tag, to a value not remembered there. -/
def apply [DecidableEq V] [DecidableEq T] (f : V → V) (s : Once V T) (t : T) : Once V T :=
  if s.memo = some (t, s.value) then s
  else ⟨f s.value, s.orig, some (f s.value), some (t, f s.value)⟩

structure Good (f : V → V) (here : T → Prop) (s : Once V T) : Prop where
  fresh : s.wrote ≠ some s.value → s.value = s.orig
  spent : s.wrote = some s.value → s.value = f s.orig
  memo : ∀ t v, s.memo = some (t, v) → here t → s.wrote = some v

/-- A value that was applied already is remembered under this tag, or is one
that the function keeps. -/
def Meets (f : V → V) (s : Once V T) (t : T) : Prop :=
  s.wrote = some s.value → s.memo = some (t, s.value) ∨ f s.value = s.value

theorem good_start (v : V) : Good f here (⟨v, v, none, none⟩ : Once V T) where
  fresh _ := rfl
  spent none := nomatch none
  memo _ _ none := nomatch none

/-- Another tag's value remembered in place of this one's. -/
theorem Good.aside (good : Good f here s) {m : T × V} (elsewhere : ¬ here m.1) :
    Good f here { s with memo := some m } where
  fresh := good.fresh
  spent := good.spent
  memo t v same at_here := by
    obtain rfl := Option.some.inj same
    exact absurd at_here elsewhere

variable [DecidableEq V]

theorem Good.rewrite (good : Good f here s) {v : V} (fair : v = s.value ∨ s.wrote ≠ some v) :
    Good f here (s.rewrite v) := by
  by_cases left : v = s.value
  · have same : s.rewrite v = s := by rw [Once.rewrite, if_pos left, left]
    rwa [same]
  · constructor
    · intro _
      exact (if_neg left).symm
    · intro spent
      exact absurd spent (fair.resolve_left left)
    · exact good.memo

variable [DecidableEq T]

theorem apply_iff (good : Good f here s) (at_here : here t) :
    (s.apply f t).value = f s.orig ↔ Meets f s t := by
  by_cases known : s.memo = some (t, s.value)
  · rw [Once.apply, if_pos known]
    have spent := good.spent (good.memo t s.value known at_here)
    exact ⟨fun _ _ => .inl known, fun _ => spent⟩
  · rw [Once.apply, if_neg known]
    by_cases spent : s.wrote = some s.value
    · rw [← good.spent spent, Meets]
      exact ⟨fun kept _ => .inr kept, fun meets => (meets spent).resolve_left known⟩
    · rw [← good.fresh spent]
      exact ⟨fun _ again => absurd again spent, fun _ => rfl⟩

theorem apply_orig : (s.apply f t).orig = s.orig := by
  rw [Once.apply]
  split <;> rfl

theorem Good.apply_wrote (good : Good f here s) (at_here : here t) :
    (s.apply f t).wrote = some (s.apply f t).value := by
  rw [Once.apply]
  split
  case isTrue known => exact good.memo t s.value known at_here
  case isFalse => rfl

theorem Good.apply (good : Good f here s) (once : (s.apply f t).value = f s.orig) :
    Good f here (s.apply f t) := by
  by_cases known : s.memo = some (t, s.value)
  · rwa [Once.apply, if_pos known]
  · rw [Once.apply, if_neg known] at once ⊢
    constructor
    · intro other
      exact absurd rfl other
    · intro _
      exact once
    · intro u v same _
      obtain ⟨rfl, rfl⟩ := Prod.mk.inj (Option.some.inj same)
      rfl

end Once

end SoaPort.Lib
