import SoaPort.Mods.FramesCorrect

namespace SoaPort.Mods

open Lib Recomp

/-! A factor at one of its targets, watched through a run of frames. -/

variable {ρ : Type} (rt : Runtime ρ) (text : Text)

/-- What a target holds. -/
def held (width : Width) (ea : Nat) (s : CpuState ρ) : Word :=
  BitVec.ofNat 32 (Arch.readBE s.mem (ea - 0x80000000) width.bytes)

/-- A target's bits as the game reads them. -/
def Width.number (width : Width) (v : Word) : Int :=
  let n : Int := (v.toNat % 2 ^ (8 * width.bytes) : Nat)
  if width.sign ∧ 2 ^ (8 * width.bytes - 1) ≤ n then n - 2 ^ (8 * width.bytes) else n

def Width.least (width : Width) : Int := if width.sign then -2 ^ (8 * width.bytes - 1) else 0

def Width.greatest (width : Width) : Int :=
  if width.sign then 2 ^ (8 * width.bytes - 1) - 1 else 2 ^ (8 * width.bytes) - 1

/-- A number times the factor: toward zero, clamped to the width. -/
def Patch.factored (p : Patch) (n : Int) : Int :=
  max p.width.least (min p.width.greatest ((n * p.value.toNat).tdiv p.den))

/-- Where a patch of a frame writes: its target `z` at `ea`, the word of its
pointer given. -/
def Patch.WritesAt (text : Text) (w : When) (p : Patch) (base : Word) (z ea : Nat) : Prop :=
  p.skipped w = false ∧
    if is_m6 p then
      ¬ p.Passed base w.key ∧ z ∈ p.run ∧ p.target base z = ea ∧
        target_ok text ea p.width.bytes = true
    else z = 0 ∧ ea = p.ea.toNat

instance (w : When) (p : Patch) (base : Word) (z ea : Nat) :
    Decidable (p.WritesAt text w base z ea) :=
  inferInstanceAs (Decidable (_ ∧ ite _ _ _))

/-- Each patch's pointer word, as it is when the patch has its turn. -/
def pointer_words (w : When) : List Patch → (Nat → Slot) → CpuState ρ → List Word
  | [], _, _ => []
  | p :: patches, g_slots, s =>
      let (_, next, s') := patch_step rt text w p g_slots s
      (mem_r32 rt s p.ea).1 :: pointer_words w patches next s'

/-- The frame's patches, each with its pointer's word. -/
def turns (r : Running) (s : CpuState ρ) : When × List (Patch × Word) :=
  let (w, s) := frame_when rt r s
  (w, r.g_patches.zip (pointer_words rt text w r.g_patches r.g_slots s))

/-- One target of one patch: its place in the patches, its z, an address. -/
structure Aim where
  patch : Nat
  z : Nat
  ea : Nat
  width : Width

/-- Whether the frame has the patch at the target. -/
def applies (aim : Aim) (r : Running) (s : CpuState ρ) : Bool :=
  let (w, turns) := turns rt text r s
  turns[aim.patch]?.any fun (p, base) => p.WritesAt text w base aim.z aim.ea

/-- Nothing else of the frame writes a byte of the target. -/
def Alone (aim : Aim) (r : Running) (s : CpuState ρ) : Prop :=
  let (w, turns) := turns rt text r s
  ∀ j p base z ea, turns[j]? = some (p, base) → p.WritesAt text w base z ea →
    ea < aim.ea + aim.width.bytes → aim.ea < ea + p.width.bytes →
      j = aim.patch ∧ z = aim.z ∧ ea = aim.ea

/-- What is known of a target: the last value the game wrote there, and the
last value the patch did. -/
structure Watch where
  orig : Word
  wrote : Option Word

/-- What the game made of the target before a frame's end. -/
def Watch.game (k : Watch) (before after : Word) : Watch :=
  { k with orig := if after = before then k.orig else after }

def Watch.patched (k : Watch) (applied : Bool) (after : Word) : Watch :=
  if applied then { k with wrote := some after } else k

/-- A run at the end of a frame. -/
structure Watched (ρ : Type) where
  r : Running
  s : CpuState ρ
  k : Watch

/-- The next frame: the game's work, then the patches. -/
structure Frame (ρ : Type) extends Watched ρ where
  guest : CpuState ρ → CpuState ρ

section Frame

variable (aim : Aim) (fr : Frame ρ)

def Frame.before : Word := held aim.width aim.ea fr.s

def Frame.value : Word := held aim.width aim.ea (fr.guest fr.s)

def Frame.seen : Watch := fr.k.game (fr.before aim) (fr.value aim)

def Frame.ended : Running × CpuState ρ := mod_frame rt text fr.r (fr.guest fr.s)

def Frame.after : Word := held aim.width aim.ea (fr.ended rt text).2

def Frame.applied : Bool := applies rt text aim fr.r (fr.guest fr.s)

def Frame.next : Watched ρ where
  r := (fr.ended rt text).1
  s := (fr.ended rt text).2
  k := (fr.seen aim).patched (fr.applied rt text aim) (fr.after rt text aim)

/-- The game leaves the target, or writes what the patch did not last write. -/
def Frame.Fair : Prop := fr.value aim = fr.before aim ∨ fr.k.wrote ≠ some (fr.value aim)

/-- What a factor is promised of a frame: nothing else writes the target. -/
def Frame.Plays : Prop := fr.Fair aim ∧ Alone rt text aim fr.r (fr.guest fr.s)

/-- The factor applied once to the last value the game wrote. -/
def Frame.OnceApplied (p : Patch) : Prop :=
  fr.applied rt text aim →
    aim.width.number (fr.after rt text aim) = p.factored (aim.width.number (fr.seen aim).orig)

/-- A target that still holds what the patch last wrote is remembered at this
map and this address, or holds what the factor leaves. -/
def Frame.Remembered (p : Patch) : Prop :=
  fr.applied rt text aim → fr.k.wrote = some (fr.value aim) →
    (let sl := fr.r.g_slots (p.slot + (aim.z - p.z0))
     sl.set ∧ sl.key = (frame_when rt fr.r (fr.guest fr.s)).1.key ∧ sl.addr = BitVec.ofNat 32 aim.ea) ∨
    p.factored (aim.width.number (fr.value aim)) = aim.width.number (fr.value aim)

end Frame

/-- What holds at every frame of a run. -/
def Along (aim : Aim) (P : Frame ρ → Prop) : Watched ρ → List (CpuState ρ → CpuState ρ) → Prop
  | _, [] => True
  | run, guest :: more =>
      let fr : Frame ρ := { run with guest }
      P fr ∧ Along aim P (fr.next rt text aim) more

/-- The mods loaded, a guest, and a target that nothing was written to yet. -/
def Watched.start (aim : Aim) (files : List ModFile) (s : CpuState ρ) : Watched ρ where
  r := .start (load text files)
  s := s
  k := ⟨held aim.width aim.ea s, none⟩

end SoaPort.Mods
