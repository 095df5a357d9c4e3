import Mathlib

namespace SoaPort.Picture

/-! The flash limiter of the picture filters. Times are seconds after the first
frame; times and luminances are rationals. -/

/-- What a half flash is measured against: the luminance the pixel last turned
at (before its first turn, the lowest and highest it has shown), the way it is
going, and the half flash waiting for its opposite. -/
structure Turn where
  ext : ℚ
  hi : ℚ
  pend_t : ℚ
  /-- +1 rising, -1 falling, 0 not yet either -/
  trend : Int
  pend : Int
  deriving DecidableEq

/-- One pixel's flash history: also when its last three flashes ended, and when
it last ended a fourth. -/
structure FlashPixel extends Turn where
  ends : Fin 3 → ℚ
  over_ : ℚ

/-- A pixel, in the order of its bytes. -/
structure Pixel where
  b : BitVec 8
  g : BitVec 8
  r : BitVec 8
  a : BitVec 8
  deriving DecidableEq, Repr

abbrev Image (n : Nat) := Fin n → Pixel

/-- The half of a flash a pixel at luminance `l` makes: +1 lighter, -1 darker,
0 none. -/
def half_flash (q : Turn) (l : ℚ) : Int :=
  let top := if q.trend ≠ 0 then q.ext else q.hi
  if q.trend ≥ 0 ∧ top - l ≥ 1 / 10 ∧ l < 8 / 10 then -1
  else if q.trend ≤ 0 ∧ l - q.ext ≥ 1 / 10 ∧ q.ext < 8 / 10 then 1
  else 0

/-- A second, and a millisecond more. -/
def FLASH_WINDOW : ℚ := 1001 / 1000

/-- The time no flash has ended at yet. -/
def LONG_AGO : ℚ := -1000000

/-- Whether that half, `d`, would end the pixel's fourth flash in a second. -/
def fourth (q : FlashPixel) (d : Int) (t : ℚ) : Bool :=
  if d = 0 ∨ q.pend ≠ -d ∨ t - q.pend_t ≥ FLASH_WINDOW then false
  else 3 ≤ (List.ofFn q.ends).countP fun e => t - e < FLASH_WINDOW

/-- Whether a pixel ended a fourth flash inside the last second. -/
def over_ (q : FlashPixel) (t : ℚ) : Bool := t - q.over_ < FLASH_WINDOW

/-- The oldest end, which gives way. -/
def oldest (ends : Fin 3 → ℚ) : Fin 3 :=
  let o : Fin 3 := if ends 1 < ends 0 then 1 else 0
  if ends 2 < ends o then 2 else o

/-- The body of `commit`'s loop: the pixel's history takes the luminance shown. -/
def commit_pixel (q : FlashPixel) (l t : ℚ) : FlashPixel :=
  let d := half_flash q.toTurn l
  if d ≠ 0 then
    if q.pend = -d ∧ t - q.pend_t < FLASH_WINDOW then
      { q with
        over_ := if fourth q d t then t else q.over_
        ends := Function.update q.ends (oldest q.ends) t
        pend := 0
        trend := d
        ext := l }
    else { q with pend := d, pend_t := t, trend := d, ext := l }
  else if q.trend > 0 then
    -- still rising: it turns later
    if l > q.ext then { q with ext := l } else q
  else if q.trend < 0 then
    if l < q.ext then { q with ext := l } else q
  else
    { q with
      ext := if l < q.ext then l else q.ext
      hi := if l > q.hi then l else q.hi }

section Frame

variable {n : Nat}

/-- The filters in force. `colour` is the colour-blind pass on one pixel, when
there is one. -/
structure PicFilters where
  colour : Pixel → Pixel
  gamma : BitVec 8 → BitVec 8
  lin : BitVec 8 → ℚ

def luminance (lin : BitVec 8 → ℚ) (p : Pixel) : ℚ :=
  2126 / 10000 * lin p.r + 7152 / 10000 * lin p.g + 722 / 10000 * lin p.b

/-- `before + a (now - before)` for one byte, `k` the weight in 1/256ths. -/
def blend_byte (k : Int) (before now : BitVec 8) : BitVec 8 :=
  let d := ((now.toNat : Int) - before.toNat) * k
  BitVec.ofInt 8 (before.toNat + (if d ≥ 0 then (d + 128) / 256 else -((-d + 128) / 256)))

def blend_pixel (k : Int) (before now : Pixel) : Pixel where
  b := blend_byte k before.b now.b
  g := blend_byte k before.g now.g
  r := blend_byte k before.r now.r
  a := blend_byte k before.a now.a

/-- `(int)(a * 256.0 + 0.5)` -/
def weight (a : ℚ) : Int := ⌊a * 256 + 1 / 2⌋

def blend (before now : Image n) (a : ℚ) : Image n := fun i =>
  blend_pixel (weight a) (before i) (now i)

/-- The luminance of one pixel, blended. -/
def blended_luminance (lin : BitVec 8 → ℚ) (before now : Pixel) (k : Int) : ℚ :=
  luminance lin (blend_pixel k before now)

/-- The pixels that would end a fourth flash, those already over the limit apart. -/
def candidates (px : Fin n → FlashPixel) (l : Fin n → ℚ) (t : ℚ) : List (Fin n) :=
  (List.finRange n).filter fun i =>
    !over_ (px i) t && ((px i).pend ≠ 0 && fourth (px i) (half_flash (px i).toTurn (l i)) t)

/-- How many pixels are over the limit already. -/
def lately (px : Fin n → FlashPixel) (t : ℚ) : Nat :=
  (List.finRange n).countP fun i => over_ (px i) t

/-- Whether a frame breaks the rule. -/
def too_much (now lately n : Nat) : Bool := now ≠ 0 && (now + lately) * 4 ≥ n

/-- `fourths` and `too_much` on a whole frame. -/
def breaks (px : Fin n → FlashPixel) (l : Fin n → ℚ) (t : ℚ) : Bool :=
  too_much (candidates px l t).length (lately px t) n

/-- The search of `steps` halvings: the lower end it leaves. -/
def bisect (bad : ℚ → Bool) : Nat → ℚ → ℚ → ℚ
  | 0, lo, _ => lo
  | steps + 1, lo, hi =>
      let mid := (lo + hi) / 2
      if bad mid then bisect bad steps lo mid else bisect bad steps mid hi

structure PicFilterState (n : Nat) where
  have_prev : Bool
  t0 : ℚ
  prev : Image n
  px : Fin n → FlashPixel
  held : Nat
  most_over : ℚ

variable (f : PicFilters)

def frame_luminance (p : Image n) : Fin n → ℚ := fun i => luminance f.lin (p i)

/-- How far the frame goes toward `p`: first by the candidates at full strength
alone, then, where the frame that picks breaks the rule, by the whole frame. -/
def strength (prev p : Image n) (px : Fin n → FlashPixel) (t : ℚ) : ℚ :=
  let cand := candidates px (frame_luminance f p) t
  let part := bisect (fun mid =>
    too_much (cand.countP fun j =>
      fourth (px j) (half_flash (px j).toTurn
        (blended_luminance f.lin (prev j) (p j) (weight mid))) t) (lately px t) n) 8 0 1
  if breaks px (frame_luminance f (blend prev p part)) t then
    bisect (fun mid => breaks px (frame_luminance f (blend prev p mid)) t) 8 0 1
  else part

/-- A pixel's history begins. -/
def first_pixel (l : ℚ) : FlashPixel where
  ext := l
  hi := l
  pend_t := LONG_AGO
  trend := 0
  pend := 0
  ends := fun _ => LONG_AGO
  over_ := LONG_AGO

/-- The answer is the state after the frame, the frame shown and how far it went. -/
def limit_flashes (s : PicFilterState n) (p : Image n) (when_ : ℚ) :
    PicFilterState n × Image n × ℚ :=
  if s.have_prev = false then
    ({ s with
        have_prev := true
        t0 := when_
        px := fun i => first_pixel (frame_luminance f p i)
        prev := p }, p, 1)
  else
    let t := when_ - s.t0
    let held := breaks s.px (frame_luminance f p) t
    let a := if held then strength f s.prev p s.px t else 1
    let shown := if held then blend s.prev p a else p
    let px := fun i => commit_pixel (s.px i) (frame_luminance f shown i) t
    let share := (lately px t : ℚ) / n
    ({ s with
        px
        prev := shown
        held := if held then s.held + 1 else s.held
        most_over := if share > s.most_over then share else s.most_over }, shown, a)

/-- The colour-blind pass and the gamma table, before the limiter. -/
def adjust (p : Image n) : Image n := fun i =>
  let c := f.colour (p i)
  { c with b := f.gamma c.b, g := f.gamma c.g, r := f.gamma c.r }

/-- `picture_filter` with the flash limit on. -/
def picture_filter (s : PicFilterState n) (p : Image n) (t : ℚ) : PicFilterState n × Image n × ℚ :=
  limit_flashes f s (adjust f p) t

/-- The limiter before its first frame. -/
def picture_filters_new (n : Nat) : PicFilterState n where
  have_prev := false
  t0 := 0
  prev := fun _ => ⟨0, 0, 0, 0⟩
  px := fun _ => first_pixel 0
  held := 0
  most_over := 0

/-- The state after some frames, and the frames shown; both newest first. -/
def filter_frames : List (ℚ × Image n) → PicFilterState n × List (ℚ × Image n)
  | [] => (picture_filters_new n, [])
  | (t, p) :: older =>
      let (s, shown) := filter_frames older
      let (s, p, _) := picture_filter f s p t
      (s, (t, p) :: shown)

end Frame

end SoaPort.Picture
