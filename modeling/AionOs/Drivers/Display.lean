import AionOs.Lib.Machine
import AionOs.Store.AionMemory

/-!
# The text screen

`kernel/drivers/display/display.c`: pixels, characters and the cursor.  The frame buffer is a part
of the memory, byte by byte.

* `Redrawn`: what drawing leaves alone.
* `OnScreen`: where the cursor stands, with one lemma for each operation.
* `text_on_screen`: every character is drawn inside the screen.
-/

namespace AionOs

open Bytes

/-! ### The code -/

structure Display where
  fbBase : U64
  fbW : U32
  fbH : U32
  fbPitch : U32
  cursorX : U32
  cursorY : U32
  memory : U64 → U8

def storePixel (memory : U64 → U8) (p : U64) (color : U32) : U64 → U8 := fun a =>
  if a - p < 4 then color.extractLsb' (8 * (a - p).toNat) 8 else memory a

def displaySetPixel (d : Display) (x y color : U32) : Display :=
  if x ≥ d.fbW ∨ y ≥ d.fbH then d
  else
    let p : U64 := d.fbBase + (y * d.fbPitch).zeroExtend 64 + (x * 4).zeroExtend 64
    { d with memory := storePixel d.memory p color }

def displayClear (d : Display) : Display :=
  let d := (List.range d.fbH.toNat).foldl (fun d y =>
    (List.range d.fbW.toNat).foldl (fun d x =>
      displaySetPixel d (BitVec.ofNat 32 x) (BitVec.ofNat 32 y) 0x00101010) d) d
  { d with cursorX := 8, cursorY := 8 }

/-- The rows of `font8x8` that are given; the others are zero. -/
def font8x8 : List (List U8) := [
  [0, 0, 0, 0, 0, 0, 0, 0],
  [0x18, 0x3C, 0x3C, 0x18, 0x18, 0, 0x18, 0],
  [0x36, 0x36, 0, 0, 0, 0, 0, 0],
  [0x36, 0x36, 0x7F, 0x36, 0x7F, 0x36, 0x36, 0]]

/-- `idx`, for a `char` with a sign. -/
def glyphIndex (c : U8) : Nat :=
  let idx := c.toInt - 32
  if idx < 0 ∨ idx ≥ 96 then 0 else idx.toNat

/-- `bits`, with the fallback box. -/
def glyphBits (c : U8) (row : Nat) : U8 :=
  if glyphIndex c < 4 then (font8x8.getD (glyphIndex c) []).getD row 0 else 0x3C

def drawChar (d : Display) (c : U8) (x y color : U32) : Display :=
  (List.range 8).foldl (fun d row =>
    (List.range 8).foldl (fun d col =>
      if glyphBits c row &&& (0x80 >>> col) ≠ 0 then
        displaySetPixel d (x + BitVec.ofNat 32 col) (y + BitVec.ofNat 32 row) color
      else d) d) d

/-- `cursor_x=8;cursor_y+=12;` -/
def newLine (d : Display) : Display := { d with cursorX := 8, cursorY := d.cursorY + 12 }

/-- `cursor_x+=9;`, and a new line if the next character does not fit. -/
def advance (d : Display) : Display :=
  let d := { d with cursorX := d.cursorX + 9 }
  if d.cursorX + 9 > d.fbW then newLine d else d

/-- `if(cursor_y+12>fb_h) cursor_y=8;` -/
def wrapRows (d : Display) : Display := if d.cursorY + 12 > d.fbH then { d with cursorY := 8 } else d

/-- One round of the loop of `display_print_string`. -/
def printChar (color : U32) (d : Display) (c : U8) : Display :=
  wrapRows (if c = charByte '\n' then newLine d else advance (drawChar d c d.cursorX d.cursorY color))

def displayPrintString (d : Display) (s : List U8) (color : U32) : Display :=
  s.foldl (printChar color) d

def displayInit (d : Display) (fb : U64) (w h pitch : U32) : Display :=
  displayClear { d with fbBase := fb, fbW := w, fbH := h, fbPitch := pitch }

inductive DisplayOp where
  | clear
  | print (s : CString) (color : U32)

def Display.step (d : Display) : DisplayOp → Display
  | .clear => displayClear d
  | .print s color => displayPrintString d s.bytes color

def displayMachine : Machine Display DisplayOp where
  step := Display.step
  legal := fun _ _ => True

/-! ### What drawing leaves alone -/

/-- Only the memory is different. -/
def Redrawn (d d' : Display) : Prop := d' = { d with memory := d'.memory }

theorem redrawn_refl (d : Display) : Redrawn d d := rfl

theorem redrawn_trans {d d' d'' : Display} (h : Redrawn d d') (h' : Redrawn d' d'') :
    Redrawn d d'' := by
  rw [Redrawn] at h h' ⊢
  rw [h', h]

theorem redrawn_foldl {α : Type} {f : Display → α → Display} (hf : ∀ d a, Redrawn d (f d a)) :
    ∀ (l : List α) (d : Display), Redrawn d (l.foldl f d) := by
  intro l
  induction l with
  | nil => exact redrawn_refl
  | cons a l ih => intro d; exact redrawn_trans (hf d a) (ih (f d a))

theorem redrawn_setPixel (d : Display) (x y color : U32) : Redrawn d (displaySetPixel d x y color) := by
  rw [displaySetPixel]
  split
  · exact redrawn_refl d
  · rfl

theorem redrawn_drawChar (d : Display) (c : U8) (x y color : U32) :
    Redrawn d (drawChar d c x y color) := by
  refine redrawn_foldl (fun d row => redrawn_foldl (fun d col => ?_) _ d) _ d
  split
  · exact redrawn_setPixel _ _ _ _
  · exact redrawn_refl d

/-! ### The cursor -/

/-- The cursor stands where a character fits. -/
structure OnScreen (w h : U32) (d : Display) : Prop where
  width : d.fbW = w
  height : d.fbH = h
  left : 8 ≤ d.cursorX.toNat
  right : d.cursorX.toNat + 9 ≤ w.toNat
  top : 8 ≤ d.cursorY.toNat
  bottom : d.cursorY.toNat + 12 ≤ h.toNat

theorem OnScreen.pixel {w h : U32} {d : Display} (hd : OnScreen w h d) (hw : w.toNat < 2 ^ 31)
    (hh : h.toNat < 2 ^ 31) {row col : Nat} (hrow : row < 8) (hcol : col < 8) :
    ¬ (d.cursorX + BitVec.ofNat 32 col ≥ d.fbW ∨ d.cursorY + BitVec.ofNat 32 row ≥ d.fbH) := by
  have hright := hd.right
  have hbottom := hd.bottom
  rw [hd.width, hd.height, ge_iff_le, ge_iff_le, BitVec.le_def, BitVec.le_def, BitVec.toNat_add,
    BitVec.toNat_add, BitVec.toNat_ofNat, BitVec.toNat_ofNat]
  omega

theorem onScreen_clear {w h : U32} {d : Display} (hw : d.fbW = w) (hh : d.fbH = h)
    (hroomW : 17 ≤ w.toNat) (hroomH : 20 ≤ h.toNat) : OnScreen w h (displayClear d) := by
  have hsame : Redrawn d ((List.range d.fbH.toNat).foldl (fun d y =>
      (List.range d.fbW.toNat).foldl (fun d x =>
        displaySetPixel d (BitVec.ofNat 32 x) (BitVec.ofNat 32 y) 0x00101010) d) d) :=
    redrawn_foldl (fun d y => redrawn_foldl (fun d x => redrawn_setPixel _ _ _ _) _ d) _ d
  rw [displayClear, hsame]
  exact ⟨hw, hh, le_refl 8, hroomW, le_refl 8, hroomH⟩

/-- The last line of the loop: back to the top if the next line does not fit. -/
theorem onScreen_wrapRows {w h : U32} {d : Display} (hroom : 20 ≤ h.toNat) (hh : h.toNat < 2 ^ 31)
    (width : d.fbW = w) (height : d.fbH = h) (left : 8 ≤ d.cursorX.toNat)
    (right : d.cursorX.toNat + 9 ≤ w.toNat) (top : 8 ≤ d.cursorY.toNat)
    (below : d.cursorY.toNat ≤ h.toNat) : OnScreen w h (wrapRows d) := by
  rw [wrapRows]
  by_cases hlast : d.cursorY + 12 > d.fbH
  · rw [if_pos hlast]
    exact ⟨width, height, left, right, le_refl 8, hroom⟩
  · have htwelve : (12 : U32).toNat = 12 := rfl
    rw [if_neg hlast]
    rw [height, gt_iff_lt, BitVec.lt_def, BitVec.toNat_add, htwelve] at hlast
    exact ⟨width, height, left, right, top, by omega⟩

theorem onScreen_newLine {w h : U32} {d : Display} (hroomW : 17 ≤ w.toNat) (hroomH : 20 ≤ h.toNat)
    (hh : h.toNat < 2 ^ 31) (width : d.fbW = w) (height : d.fbH = h)
    (bottom : d.cursorY.toNat + 12 ≤ h.toNat) : OnScreen w h (wrapRows (newLine d)) := by
  have hdown : (newLine d).cursorY.toNat = d.cursorY.toNat + 12 := by
    have htwelve : (12 : U32).toNat = 12 := rfl
    rw [newLine, BitVec.toNat_add, htwelve]
    omega
  apply onScreen_wrapRows hroomH hh
  case width => exact width
  case height => exact height
  case left => exact le_refl 8
  case right => exact hroomW
  case top => omega
  case below => omega

/-- To the next column, or to the next line where it does not fit. -/
theorem onScreen_advance {w h : U32} {d : Display} (hroomW : 17 ≤ w.toNat) (hw : w.toNat < 2 ^ 31)
    (hroomH : 20 ≤ h.toNat) (hh : h.toNat < 2 ^ 31) (hd : OnScreen w h d) : OnScreen w h (wrapRows (advance d)) := by
  have hright := hd.right
  have hbottom := hd.bottom
  rw [advance]
  dsimp only
  split
  next hend => exact onScreen_newLine hroomW hroomH hh hd.width hd.height hbottom
  next hend =>
    have hnine : (9 : U32).toNat = 9 := rfl
    have hnext : (d.cursorX + 9).toNat = d.cursorX.toNat + 9 := by
      rw [BitVec.toNat_add, hnine]
      omega
    rw [hd.width, gt_iff_lt, BitVec.lt_def, BitVec.toNat_add, hnext, hnine] at hend
    apply onScreen_wrapRows hroomH hh
    case width => exact hd.width
    case height => exact hd.height
    case left => exact le_of_le_of_eq (Nat.le_add_right_of_le hd.left) hnext.symm
    case right => exact le_of_eq_of_le (congrArg (· + 9) hnext) (by omega)
    case top => exact hd.top
    case below => exact Nat.le_of_add_right_le hbottom

theorem OnScreen.redrawn {w h : U32} {d d' : Display} (hd : OnScreen w h d) (h' : Redrawn d d') : OnScreen w h d' := by
  rw [h']
  exact ⟨hd.width, hd.height, hd.left, hd.right, hd.top, hd.bottom⟩

/-- **One character** leaves the cursor where the next one fits. -/
theorem onScreen_printChar {w h : U32} {d : Display} (hroomW : 17 ≤ w.toNat)
    (hw : w.toNat < 2 ^ 31) (hroomH : 20 ≤ h.toNat) (hh : h.toNat < 2 ^ 31) (color : U32)
    (hd : OnScreen w h d) (c : U8) : OnScreen w h (printChar color d c) := by
  rw [printChar]
  split
  · exact onScreen_newLine hroomW hroomH hh hd.width hd.height hd.bottom
  · exact onScreen_advance hroomW hw hroomH hh (hd.redrawn (redrawn_drawChar d c d.cursorX d.cursorY color))

theorem onScreen_printString {w h : U32} (hroomW : 17 ≤ w.toNat) (hw : w.toNat < 2 ^ 31)
    (hroomH : 20 ≤ h.toNat) (hh : h.toNat < 2 ^ 31) (color : U32) (s : List U8) {d : Display}
    (hd : OnScreen w h d) : OnScreen w h (displayPrintString d s color) := by
  induction s generalizing d with
  | nil => exact hd
  | cons c s ih => exact ih (onScreen_printChar hroomW hw hroomH hh color hd c)

theorem onScreen_run {w h : U32} (hroomW : 17 ≤ w.toNat) (hw : w.toNat < 2 ^ 31)
    (hroomH : 20 ≤ h.toNat) (hh : h.toNat < 2 ^ 31) (ops : List DisplayOp) {d : Display}
    (hd : OnScreen w h d) : OnScreen w h (displayMachine.run d ops) := by
  refine Machine.run_keeps (I := fun d : Display => OnScreen w h d) (fun d op hd => ?_) ops hd
  cases op with
  | clear => exact onScreen_clear hd.width hd.height hroomW hroomH
  | print s color => exact onScreen_printString hroomW hw hroomH hh color s.bytes hd

/-- **Text stays on the screen**: after any calls and any part of a text, the next character is a newline or
the cell that `draw_char` gets for it lies inside the screen, pixel by pixel; and the cursor is left where the
one after it fits. -/
theorem text_on_screen (d : Display) (fb : U64) (pitch : U32) {w h : U32} (hroomW : 17 ≤ w.toNat)
    (hw : w.toNat < 2 ^ 31) (hroomH : 20 ≤ h.toNat) (hh : h.toNat < 2 ^ 31)
    (ops : List DisplayOp) (s : CString) (color : U32) {before after : List U8} {c : U8}
    (hs : s.bytes = before ++ c :: after) :
    let d' := displayPrintString (displayMachine.run (displayInit d fb w h pitch) ops) before color
    let d'' := printChar color d' c
    (c = charByte '\n' → d'' = wrapRows (newLine d')) ∧
    (c ≠ charByte '\n' → d'' = wrapRows (advance (drawChar d' c d'.cursorX d'.cursorY color)) ∧
      d'.cursorX.toNat + 8 ≤ w.toNat ∧ d'.cursorY.toNat + 8 ≤ h.toNat ∧ ∀ row < 8, ∀ col < 8,
        ¬ (d'.cursorX + BitVec.ofNat 32 col ≥ d'.fbW ∨ d'.cursorY + BitVec.ofNat 32 row ≥ d'.fbH)) ∧
    8 ≤ d''.cursorX.toNat ∧ d''.cursorX.toNat + 9 ≤ w.toNat ∧
    8 ≤ d''.cursorY.toNat ∧ d''.cursorY.toNat + 12 ≤ h.toNat ∧
    displayPrintString (displayMachine.run (displayInit d fb w h pitch) ops) s.bytes color =
      displayPrintString d'' after color := by
  intro d' d''
  have hinit : OnScreen w h (displayInit d fb w h pitch) := onScreen_clear rfl rfl hroomW hroomH
  have hbefore : OnScreen w h d' := onScreen_printString hroomW hw hroomH hh color before
    (onScreen_run hroomW hw hroomH hh ops hinit)
  have hafter : OnScreen w h d'' := onScreen_printChar hroomW hw hroomH hh color hbefore c
  refine ⟨fun hnewline => congrArg wrapRows (if_pos hnewline), fun hletter => ⟨congrArg wrapRows (if_neg hletter),
    ?_, ?_, fun row hrow col hcol => hbefore.pixel hw hh hrow hcol⟩, hafter.left, hafter.right, hafter.top,
    hafter.bottom, ?_⟩
  · have := hbefore.right
    omega
  · have := hbefore.bottom
    omega
  · rw [hs, displayPrintString, List.foldl_append]
    rfl

def blankDisplay : Display := ⟨0, 0, 0, 0, 0, 0, fun _ => 0⟩

/-- Two texts, the first with a newline and a byte that is no letter, and a clear screen between them. -/
def screenOps : List DisplayOp :=
  [.print ⟨[charByte 'A', charByte '\n', 0x80], by decide⟩ 0xFFFFFF, .clear, .print ⟨[charByte '!'], by decide⟩ 0x88CCFF]

/-- The letter after a newline. -/
theorem text_on_screen_sample :
    let d' := displayPrintString (displayMachine.run (displayInit blankDisplay 0 40 32 160) screenOps)
      [charByte 'A', charByte '\n'] 0
    let d'' := printChar 0 d' (charByte 'B')
    (d'' = wrapRows (advance (drawChar d' (charByte 'B') d'.cursorX d'.cursorY 0)) ∧
      d'.cursorX.toNat + 8 ≤ 40 ∧ d'.cursorY.toNat + 8 ≤ 32) ∧
    d''.cursorX.toNat + 9 ≤ 40 ∧ d''.cursorY.toNat + 12 ≤ 32 := by
  obtain ⟨_, hcell, _, hright, _, hbottom, _⟩ :=
    text_on_screen blankDisplay 0 160 (w := 40) (h := 32) (by decide) (by decide) (by decide) (by decide)
      screenOps ⟨[charByte 'A', charByte '\n', charByte 'B', charByte '\n'], by decide⟩ 0
      (show [charByte 'A', charByte '\n', charByte 'B', charByte '\n'] =
        [charByte 'A', charByte '\n'] ++ charByte 'B' :: [charByte '\n'] from rfl)
  obtain ⟨hdraw, hx, hy, _⟩ := hcell (by decide)
  exact ⟨⟨hdraw, hx, hy⟩, hright, hbottom⟩

end AionOs
