import AionOs.Lib.Raster
import AionOs.Drivers.Display
import Mathlib.Tactic.IntervalCases

/-!
# The frame buffer

Where `display_set_pixel` stores, and what is read back after any calls.

* `Frame`: the geometry of a screen, for which the addresses of 32 and of 64 bits do not wrap.
* `Drawn`: what an operation stores, with one lemma for each operation.
* `framebuffer_exact`: every pixel has the last colour that was set there.
-/

namespace AionOs

open Bytes

/-! ### Four bytes -/

def loadPixel (memory : U64 → U8) (p : U64) : U32 :=
  memory (p + 3) ++ memory (p + 2) ++ memory (p + 1) ++ memory p

theorem storePixel_at (memory : U64 → U8) (p : U64) (color : U32) {k : U64} (hk : k < 4) :
    storePixel memory p color (p + k) = color.extractLsb' (8 * k.toNat) 8 := by
  have hsub : p + k - p = k := by
    rw [BitVec.add_comm, BitVec.add_sub_cancel]
  rw [storePixel, hsub, if_pos hk]

theorem storePixel_apart (memory : U64 → U8) {p a : U64} (color : U32) (h : ¬ a - p < 4) :
    storePixel memory p color a = memory a := if_neg h

theorem loadPixel_storePixel (memory : U64 → U8) (p : U64) (color : U32) :
    loadPixel (storePixel memory p color) p = color := by
  have hzero : storePixel memory p color p = color.extractLsb' 0 8 := by
    rw [storePixel, BitVec.sub_self]
    rfl
  rw [loadPixel, storePixel_at _ _ _ (by decide), storePixel_at _ _ _ (by decide),
    storePixel_at _ _ _ (by decide), hzero]
  refine BitVec.eq_of_getLsbD_eq fun i hi => ?_
  simp only [BitVec.getLsbD_append, BitVec.getLsbD_extractLsb']
  interval_cases i <;> rfl

theorem loadPixel_congr {memory memory' : U64 → U8} {p : U64}
    (h : ∀ a : U64, a - p < 4 → memory' a = memory a) : loadPixel memory' p = loadPixel memory p := by
  have hbyte : ∀ k : U64, k < 4 → memory' (p + k) = memory (p + k) := by
    intro k hk
    refine h (p + k) ?_
    rw [BitVec.add_comm, BitVec.add_sub_cancel]
    exact hk
  have hzero : memory' p = memory p := by
    refine h p ?_
    rw [BitVec.sub_self]
    decide
  rw [loadPixel, loadPixel, hbyte 3 (by decide), hbyte 2 (by decide), hbyte 1 (by decide), hzero]

/-! ### Frames -/

/-- The geometry of a screen: the rows are wide enough, the places in the frame buffer are numbers
of 32 bits, and the end of the frame buffer is an address. -/
structure Frame where
  base : U64
  w : U32
  h : U32
  pitch : U32
  wide : 4 * w.toNat ≤ pitch.toNat
  places : h.toNat * pitch.toNat ≤ 2 ^ 32
  room : base.toNat + h.toNat * pitch.toNat < 2 ^ 64

/-- The two coordinates of a pixel, and a colour. -/
abbrev PixelSet := (U32 × U32) × U32

namespace Frame

variable (f : Frame)

def bytes : Nat := f.h.toNat * f.pitch.toNat

def Contains (p : U32 × U32) : Prop := p.1 < f.w ∧ p.2 < f.h

instance (p : U32 × U32) : Decidable (f.Contains p) := inferInstanceAs (Decidable (_ ∧ _))

/-- The address of a pixel, in the arithmetic of `display_set_pixel`. -/
def cell (p : U32 × U32) : U64 :=
  f.base + (p.2 * f.pitch).zeroExtend 64 + (p.1 * 4).zeroExtend 64

def paint (memory : U64 → U8) (s : PixelSet) : U64 → U8 :=
  if f.Contains s.1 then storePixel memory (f.cell s.1) s.2 else memory

structure Shown (d : Display) : Prop where
  base : d.fbBase = f.base
  w : d.fbW = f.w
  h : d.fbH = f.h
  pitch : d.fbPitch = f.pitch

variable {f}

/-- The product of 32 bits does not wrap, and neither does the sum of 64 bits. -/
theorem toNat_cell {p : U32 × U32} (hp : f.Contains p) :
    (f.cell p).toNat = f.base.toNat + (p.2.toNat * f.pitch.toNat + 4 * p.1.toNat) := by
  have hinside := Raster.cell_inside f.wide (BitVec.lt_def.mp hp.1) (BitVec.lt_def.mp hp.2)
  have hplaces := f.places
  have hroom := f.room
  have hfour : (4 : U32).toNat = 4 := rfl
  rw [cell, BitVec.toNat_add, BitVec.toNat_add, BitVec.toNat_setWidth, BitVec.toNat_setWidth,
    BitVec.toNat_mul, BitVec.toNat_mul, hfour]
  generalize p.2.toNat * f.pitch.toNat = row at *
  generalize f.h.toNat * f.pitch.toNat = all at *
  omega

/-- **A pixel of the screen lies inside the frame buffer.** -/
theorem cell_inside {p : U32 × U32} (hp : f.Contains p) :
    f.base.toNat ≤ (f.cell p).toNat ∧ (f.cell p).toNat + 4 ≤ f.base.toNat + f.bytes := by
  have hinside := Raster.cell_inside f.wide (BitVec.lt_def.mp hp.1) (BitVec.lt_def.mp hp.2)
  rw [toNat_cell hp, bytes]
  omega

theorem mem_cell_iff {p : U32 × U32} (hp : f.Contains p) {a : U64} : a - f.cell p < 4 ↔
    ∃ i < 4, a.toNat = f.base.toNat + (p.2.toNat * f.pitch.toNat + (4 * p.1.toNat + i)) := by
  have hroom := f.room
  have hbelow := (cell_inside hp).2
  have hcell := toNat_cell hp
  rw [bytes] at hbelow
  have hlt : a - f.cell p < 4 ↔ (f.cell p).toNat ≤ a.toNat ∧ a.toNat < (f.cell p).toNat + 4 := by
    have hfour : (4 : U64).toNat = 4 := rfl
    rw [BitVec.lt_def, BitVec.toNat_sub, hfour]
    omega
  rw [hlt]
  constructor
  · intro ⟨hle, hgt⟩
    exact ⟨a.toNat - (f.cell p).toNat, by omega, by omega⟩
  · rintro ⟨i, hi, ha⟩
    omega

/-- **Two pixels of the screen share no byte.** -/
theorem cell_apart {p q : U32 × U32} (hp : f.Contains p) (hq : f.Contains q) (hne : p ≠ q) {a : U64}
    (ha : a - f.cell p < 4) : ¬ a - f.cell q < 4 := by
  intro ha'
  obtain ⟨i, hi, hplace⟩ := (mem_cell_iff hp).mp ha
  obtain ⟨j, hj, hplace'⟩ := (mem_cell_iff hq).mp ha'
  obtain ⟨hx, hy⟩ := Raster.cell_unique f.wide (BitVec.lt_def.mp hp.1) (BitVec.lt_def.mp hq.1) hi hj
    (Nat.add_left_cancel (hplace.symm.trans hplace'))
  exact hne (Prod.ext (BitVec.eq_of_toNat_eq hx) (BitVec.eq_of_toNat_eq hy))

theorem read_paint {p : U32 × U32} (hp : f.Contains p) (memory : U64 → U8) (s : PixelSet) :
    loadPixel (f.paint memory s) (f.cell p) = if s.1 = p then s.2 else loadPixel memory (f.cell p) := by
  rw [paint]
  by_cases hsame : s.1 = p
  · rw [if_pos hsame, hsame, if_pos hp]
    exact loadPixel_storePixel memory (f.cell p) s.2
  · rw [if_neg hsame]
    by_cases hs : f.Contains s.1
    · rw [if_pos hs]
      exact loadPixel_congr fun a ha => storePixel_apart memory s.2 (cell_apart hp hs (Ne.symm hsame) ha)
    · rw [if_neg hs]

theorem paint_outside {a : U64} (ha : a.toNat < f.base.toNat ∨ f.base.toNat + f.bytes ≤ a.toNat)
    (memory : U64 → U8) (s : PixelSet) : f.paint memory s a = memory a := by
  rw [paint]
  by_cases hs : f.Contains s.1
  · rw [if_pos hs]
    refine storePixel_apart memory s.2 fun hin => ?_
    obtain ⟨i, hi, hplace⟩ := (mem_cell_iff hs).mp hin
    have hinside := cell_inside hs
    have hcell := toNat_cell hs
    omega
  · rw [if_neg hs]

theorem paints_outside {a : U64} (ha : a.toNat < f.base.toNat ∨ f.base.toNat + f.bytes ≤ a.toNat)
    (memory : U64 → U8) (pixels : List PixelSet) : pixels.foldl f.paint memory a = memory a := by
  induction pixels generalizing memory with
  | nil => rfl
  | cons s pixels ih => exact (ih (f.paint memory s)).trans (paint_outside ha memory s)

theorem Shown.setPixel_eq {d : Display} (hd : f.Shown d) (x y color : U32) : displaySetPixel d x y color =
    if f.Contains (x, y) then { d with memory := storePixel d.memory (f.cell (x, y)) color } else d := by
  have hoff : x ≥ d.fbW ∨ y ≥ d.fbH ↔ ¬ f.Contains (x, y) := by
    rw [Contains, hd.w, hd.h, ge_iff_le, ge_iff_le, BitVec.not_lt.symm, BitVec.not_lt.symm, not_and_or]
  rw [displaySetPixel]
  by_cases hin : f.Contains (x, y)
  · rw [if_neg (fun h => hoff.mp h hin), if_pos hin, hd.base, hd.pitch]
    rfl
  · rw [if_pos (hoff.mpr hin), if_neg hin]

end Frame

/-! ### What the operations store -/

def charPixels (c : U8) (x y color : U32) : List PixelSet :=
  (List.range 8).flatMap fun row =>
    (List.range 8).flatMap fun col =>
      if glyphBits c row &&& (0x80 >>> col) ≠ 0 then
        [((x + BitVec.ofNat 32 col, y + BitVec.ofNat 32 row), color)]
      else []

def clearPixels (w h : U32) : List PixelSet :=
  (List.range h.toNat).flatMap fun y =>
    (List.range w.toNat).flatMap fun x => [((BitVec.ofNat 32 x, BitVec.ofNat 32 y), 0x00101010)]

def roundPixels (color : U32) (d : Display) (c : U8) : List PixelSet :=
  if c = charByte '\n' then [] else charPixels c d.cursorX d.cursorY color

def tracePixels {α : Type} (step : Display → α → Display) (pixels : Display → α → List PixelSet) :
    Display → List α → List PixelSet
  | _, [] => []
  | d, a :: as => pixels d a ++ tracePixels step pixels (step d a) as

inductive ScreenOp where
  | setPixel (x y color : U32)
  | text (op : DisplayOp)

def Display.draw (d : Display) : ScreenOp → Display
  | .setPixel x y color => displaySetPixel d x y color
  | .text op => d.step op

def screenMachine : Machine Display ScreenOp where
  step := Display.draw
  legal := fun _ _ => True

/-- The pixels that a call sets, on the screen or off it. -/
def opPixels (d : Display) : ScreenOp → List PixelSet
  | .setPixel x y color => [((x, y), color)]
  | .text .clear => clearPixels d.fbW d.fbH
  | .text (.print s color) => tracePixels (printChar color) (roundPixels color) d s.bytes

/-- After `d` was drawn on, it has the same geometry and these pixels were set, in this order. -/
structure Drawn (f : Frame) (d : Display) (pixels : List PixelSet) (d' : Display) : Prop where
  shown : f.Shown d'
  memory : d'.memory = pixels.foldl f.paint d.memory

section Drawn

variable {f : Frame} {d d' d'' : Display} {pixels pixels' : List PixelSet}

theorem drawn_nil (hd : f.Shown d) : Drawn f d [] d := ⟨hd, rfl⟩

theorem drawn_append (h : Drawn f d pixels d') (h' : Drawn f d' pixels' d'') :
    Drawn f d (pixels ++ pixels') d'' := by
  refine ⟨h'.shown, ?_⟩
  rw [h'.memory, h.memory, List.foldl_append]

theorem drawn_moved (h : Drawn f d pixels d') (x y : U32) :
    Drawn f d pixels { d' with cursorX := x, cursorY := y } :=
  ⟨⟨h.shown.base, h.shown.w, h.shown.h, h.shown.pitch⟩, h.memory⟩

theorem drawn_trace {α : Type} {step : Display → α → Display}
    {pixels : Display → α → List PixelSet}
    (hstep : ∀ d a, f.Shown d → Drawn f d (pixels d a) (step d a)) :
    ∀ (l : List α) (d : Display), f.Shown d → Drawn f d (tracePixels step pixels d l) (l.foldl step d) := by
  intro l
  induction l with
  | nil => intro d hd; exact drawn_nil hd
  | cons a l ih =>
    intro d hd
    have hfirst := hstep d a hd
    exact drawn_append hfirst (ih (step d a) hfirst.shown)

/-- A loop whose rounds do not look at the screen. -/
theorem drawn_loop {α : Type} {step : Display → α → Display} {pixels : α → List PixelSet}
    (hstep : ∀ d a, f.Shown d → Drawn f d (pixels a) (step d a)) (l : List α) (d : Display)
    (hd : f.Shown d) : Drawn f d (l.flatMap pixels) (l.foldl step d) := by
  have hsame : ∀ (l : List α) (d : Display),
      tracePixels step (fun _ => pixels) d l = l.flatMap pixels := by
    intro l
    induction l with
    | nil => intro d; rfl
    | cons a l ih => intro d; rw [tracePixels, ih, List.flatMap_cons]
  have htrace : Drawn f d (tracePixels step (fun _ => pixels) d l) (l.foldl step d) :=
    drawn_trace hstep l d hd
  rw [hsame] at htrace
  exact htrace

theorem drawn_setPixel (hd : f.Shown d) (x y color : U32) :
    Drawn f d [((x, y), color)] (displaySetPixel d x y color) := by
  rw [hd.setPixel_eq]
  by_cases hin : f.Contains (x, y)
  · rw [if_pos hin]
    refine ⟨⟨hd.base, hd.w, hd.h, hd.pitch⟩, ?_⟩
    rw [List.foldl_cons, Frame.paint, if_pos hin]
    rfl
  · rw [if_neg hin]
    refine ⟨hd, ?_⟩
    rw [List.foldl_cons, Frame.paint, if_neg hin]
    rfl

theorem drawn_drawChar (hd : f.Shown d) (c : U8) (x y color : U32) :
    Drawn f d (charPixels c x y color) (drawChar d c x y color) := by
  refine drawn_loop (fun d row hd => drawn_loop (fun d col hd => ?_) _ d hd) _ d hd
  split
  · exact drawn_setPixel hd _ _ _
  · exact drawn_nil hd

theorem drawn_clear (hd : f.Shown d) : Drawn f d (clearPixels d.fbW d.fbH) (displayClear d) := by
  -- the loop over a row reads its bound again in every row
  have hrow : ∀ (d : Display) (y : Nat), f.Shown d →
      Drawn f d ((List.range f.w.toNat).flatMap fun x =>
          [((BitVec.ofNat 32 x, BitVec.ofNat 32 y), 0x00101010)])
        ((List.range d.fbW.toNat).foldl (fun d x =>
          displaySetPixel d (BitVec.ofNat 32 x) (BitVec.ofNat 32 y) 0x00101010) d) := by
    intro d y hd
    rw [hd.w]
    exact drawn_loop (fun d x hd => drawn_setPixel hd _ _ _) _ d hd
  refine drawn_moved ?_ 8 8
  rw [hd.w, clearPixels]
  exact drawn_loop hrow _ d hd

theorem drawn_newLine (h : Drawn f d pixels d') : Drawn f d pixels (newLine d') :=
  drawn_moved h 8 (d'.cursorY + 12)

theorem drawn_wrapRows (h : Drawn f d pixels d') : Drawn f d pixels (wrapRows d') := by
  rw [wrapRows]
  split
  · exact drawn_moved h d'.cursorX 8
  · exact h

theorem drawn_advance (h : Drawn f d pixels d') : Drawn f d pixels (advance d') := by
  have hnext := drawn_moved h (d'.cursorX + 9) d'.cursorY
  rw [advance]
  dsimp only
  split
  · exact drawn_newLine hnext
  · exact hnext

theorem drawn_printChar (color : U32) (hd : f.Shown d) (c : U8) :
    Drawn f d (roundPixels color d c) (printChar color d c) := by
  rw [printChar, roundPixels]
  by_cases hnewline : c = charByte '\n'
  · rw [if_pos hnewline, if_pos hnewline]
    exact drawn_wrapRows (drawn_newLine (drawn_nil hd))
  · rw [if_neg hnewline, if_neg hnewline]
    exact drawn_wrapRows (drawn_advance (drawn_drawChar hd c d.cursorX d.cursorY color))

/-- **One call** stores its pixels. -/
theorem drawn_draw (d : Display) (op : ScreenOp) (hd : f.Shown d) : Drawn f d (opPixels d op) (d.draw op) := by
  cases op with
  | setPixel x y color => exact drawn_setPixel hd x y color
  | text op =>
    cases op with
    | clear => exact drawn_clear hd
    | print s color => exact drawn_trace (fun d c hd => drawn_printChar color hd c) s.bytes d hd

end Drawn

def runPixels (d : Display) (ops : List ScreenOp) : List PixelSet := tracePixels Display.draw opPixels d ops

/-- **A run** stores the pixels of its calls. -/
theorem drawn_run {f : Frame} {d : Display} (hd : f.Shown d) (ops : List ScreenOp) :
    Drawn f d (runPixels d ops) (screenMachine.run d ops) := by
  rw [Machine.run_eq_foldl]
  exact drawn_trace drawn_draw ops d hd

/-- **The frame buffer is exact**: after any calls, a pixel of the screen is stored inside the frame
buffer and apart from every other pixel, one off the screen is not stored, and every pixel is read
back with the colour that was set there last. -/
theorem framebuffer_exact (f : Frame) {d : Display} (hd : f.Shown d) (ops : List ScreenOp) :
    let d' := screenMachine.run d ops
    (∀ x y color, displaySetPixel d' x y color =
      if f.Contains (x, y) then { d' with memory := storePixel d'.memory (f.cell (x, y)) color } else d') ∧
    (∀ p, f.Contains p → f.base.toNat ≤ (f.cell p).toNat ∧
      (f.cell p).toNat + 4 ≤ f.base.toNat + f.h.toNat * f.pitch.toNat) ∧
    (∀ p q, f.Contains p → f.Contains q → p ≠ q → ∀ a, a - f.cell p < 4 → ¬ a - f.cell q < 4) ∧
    (∀ a : U64, a.toNat < f.base.toNat ∨ f.base.toNat + f.h.toNat * f.pitch.toNat ≤ a.toNat →
      d'.memory a = d.memory a) ∧
    ∀ p, f.Contains p → loadPixel d'.memory (f.cell p) =
      (Raster.lastAt p (runPixels d ops)).getD (loadPixel d.memory (f.cell p)) := by
  intro d'
  have hdrawn : Drawn f d (runPixels d ops) d' := drawn_run hd ops
  refine ⟨hdrawn.shown.setPixel_eq, fun p hp => Frame.cell_inside hp, fun p q hp hq hne a ha => ?_,
    fun a ha => ?_, fun p hp => ?_⟩
  · exact Frame.cell_apart hp hq hne ha
  · rw [hdrawn.memory]
    exact Frame.paints_outside ha _ _
  · rw [hdrawn.memory]
    exact Raster.read_stores (loadPixel · (f.cell p)) (Frame.read_paint hp) _ _

/-- Rows with some bytes to spare. -/
def smallFrame : Frame where
  base := 0x80000000
  w := 17
  h := 20
  pitch := 128
  wide := by decide
  places := by decide
  room := by decide

def smallScreen : Display := { blankDisplay with fbBase := 0x80000000, fbW := 17, fbH := 20, fbPitch := 128 }

/-- A pixel that is set twice, and one that would be in the next row. -/
theorem framebuffer_exact_sample :
    loadPixel (screenMachine.run smallScreen
      [.setPixel 3 2 0xFFFFFF, .setPixel 3 2 0x88CCFF, .setPixel 35 1 0]).memory
      (smallFrame.cell (3, 2)) = 0x88CCFF := by
  obtain ⟨_, _, _, _, hread⟩ := framebuffer_exact smallFrame (d := smallScreen) ⟨rfl, rfl, rfl, rfl⟩
    [.setPixel 3 2 0xFFFFFF, .setPixel 3 2 0x88CCFF, .setPixel 35 1 0]
  exact hread (3, 2) (by decide)

end AionOs
