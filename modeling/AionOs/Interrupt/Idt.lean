import AionOs.Lib.Machine
import AionOs.Lib.Pic8259
import AionOs.Memory.Pmm

/-!
# Interrupts

`kernel/arch/x86_64/idt.c`: the descriptor table, the two interrupt controllers, and the
handlers that drivers register.  The addresses of the stubs and of the table are parameters;
port writes go to the chips.

* `idtInit_spec`: the gates, the masks and the vectors after `idt_init`.
* `call_spec`: what a registration or a removal does to the lines.
* `deliverable_iff`: when every registered line is delivered.
-/

namespace AionOs

/-! ### State -/

structure IdtEntry where
  offsetLow : BitVec 16
  selector : BitVec 16
  ist : U8
  typeAttr : U8
  offsetMid : BitVec 16
  offsetHigh : U32
  reserved : U32

def idtEntries : Nat := 256

def idtPresent : U8 := 1#8 <<< 7
def idtRing0 : U8 := 0#8 <<< 5
/-- Interrupts are disabled on entry. -/
def idtIntGate : U8 := 0x0E
def idtTrapGate : U8 := 0x0F

/-- The static variables, the chips, the IDTR and the interrupt flag. -/
structure IdtState where
  idt : U8 → IdtEntry
  userHandlers : U8 → U64
  userHandlerCtx : U8 → U64
  pic1 : Pic
  pic2 : Pic
  idtLimit : BitVec 16
  idtBase : U64
  interruptFlag : Bool

/-- The static variables before `idt_init`, with the chips as the firmware left them. -/
def IdtState.powerOn (pic1 pic2 : Pic) : IdtState where
  idt _ := ⟨0, 0, 0, 0, 0, 0, 0⟩
  userHandlers _ := 0
  userHandlerCtx _ := 0
  pic1 := pic1
  pic2 := pic2
  idtLimit := 0
  idtBase := 0
  interruptFlag := false

/-! ### Ports -/

def pic1Cmd : BitVec 16 := 0x20
def pic1Data : BitVec 16 := 0x21
def pic2Cmd : BitVec 16 := 0xA0
def pic2Data : BitVec 16 := 0xA1

/-- `IRQ_BASE`: hardware IRQs start at vector 0x20. -/
def irqBase : U8 := 0x20

/-- A write to a port of no chip does nothing here. -/
def outb (port : BitVec 16) (val : U8) (s : IdtState) : IdtState :=
  if port = pic1Cmd then { s with pic1 := s.pic1.writeCommand val }
  else if port = pic1Data then { s with pic1 := s.pic1.writeData val }
  else if port = pic2Cmd then { s with pic2 := s.pic2.writeCommand val }
  else if port = pic2Data then { s with pic2 := s.pic2.writeData val }
  else s

def inb (port : BitVec 16) (s : IdtState) : U8 :=
  if port = pic1Data then s.pic1.readData else if port = pic2Data then s.pic2.readData else 0

def ioWait (s : IdtState) : IdtState := outb 0x80 0 s

def picRemap (s : IdtState) : IdtState :=
  let mask1 := inb pic1Data s
  let mask2 := inb pic2Data s
  let s := ioWait (outb pic2Cmd 0x11 (outb pic1Cmd 0x11 s))
  let s := ioWait (outb pic2Data (irqBase + 8) (outb pic1Data irqBase s))
  let s := ioWait (outb pic2Data 0x02 (outb pic1Data 0x04 s))
  let s := ioWait (outb pic2Data 0x01 (outb pic1Data 0x01 s))
  outb pic2Data mask2 (outb pic1Data mask1 s)

def picPort (irq : U8) : BitVec 16 := if irq < 8 then pic1Data else pic2Data

/-- `1 << irq`, with the lines of the second chip counted from 0. -/
def picBit (irq : U8) : U8 := 1#8 <<< (if irq ≥ 8 then irq - 8 else irq).toNat

def picMask (irq : U8) (s : IdtState) : IdtState :=
  outb (picPort irq) (inb (picPort irq) s ||| picBit irq) s

def picUnmask (irq : U8) (s : IdtState) : IdtState :=
  outb (picPort irq) (inb (picPort irq) s &&& ~~~picBit irq) s

/-! ### `idt_init` -/

/-- The arguments of a call of `idt_set_entry`. -/
structure Gate where
  vec : U8
  handler : U64
  typeAttr : U8
  ist : U8

def idtSetEntry (s : IdtState) (g : Gate) : IdtState :=
  { s with idt := Function.update s.idt g.vec {
      offsetLow := g.handler.setWidth 16
      selector := 0x08
      ist := g.ist
      typeAttr := idtPresent ||| idtRing0 ||| g.typeAttr
      offsetMid := (g.handler >>> 16).setWidth 16
      offsetHigh := (g.handler >>> 32).setWidth 32
      reserved := 0 } }

/-- The addresses of `isr_stub_N` and `irq_stub_N`. -/
structure Stubs where
  isr : Nat → U64
  irq : Nat → U64

/-- The stubs that `idt_init` installs.  `irq_stub_generic` is declared and not installed. -/
def gates (stubs : Stubs) : List Gate :=
  [⟨0, stubs.isr 0, idtIntGate, 0⟩, ⟨1, stubs.isr 1, idtIntGate, 0⟩, ⟨2, stubs.isr 2, idtIntGate, 0⟩,
    ⟨3, stubs.isr 3, idtTrapGate, 0⟩, ⟨4, stubs.isr 4, idtIntGate, 0⟩, ⟨5, stubs.isr 5, idtIntGate, 0⟩,
    ⟨6, stubs.isr 6, idtIntGate, 0⟩, ⟨7, stubs.isr 7, idtIntGate, 0⟩, ⟨8, stubs.isr 8, idtIntGate, 1⟩,
    ⟨13, stubs.isr 13, idtIntGate, 0⟩, ⟨14, stubs.isr 14, idtIntGate, 0⟩,
    ⟨0x20, stubs.irq 0, idtIntGate, 0⟩, ⟨0x21, stubs.irq 1, idtIntGate, 0⟩, ⟨0x22, stubs.irq 2, idtIntGate, 0⟩,
    ⟨0x23, stubs.irq 3, idtIntGate, 0⟩, ⟨0x24, stubs.irq 4, idtIntGate, 0⟩, ⟨0x28, stubs.irq 8, idtIntGate, 0⟩,
    ⟨0x29, stubs.irq 9, idtIntGate, 0⟩, ⟨0x2B, stubs.irq 11, idtIntGate, 0⟩,
    ⟨0x2C, stubs.irq 12, idtIntGate, 0⟩, ⟨0x2E, stubs.irq 14, idtIntGate, 0⟩,
    ⟨0x2F, stubs.irq 15, idtIntGate, 0⟩]

def idtInit (stubs : Stubs) (base : U64) (s : IdtState) : IdtState :=
  let s := picRemap ((gates stubs).foldl idtSetEntry s)
  let s := outb pic2Data 0xFF (outb pic1Data 0xFF s)
  { s with idtLimit := BitVec.ofNat 16 (16 * idtEntries - 1), idtBase := base, interruptFlag := true }

/-! ### `idt_register_handler`, `idt_unregister_handler` -/

/-- `vec >= IRQ_BASE && vec < IRQ_BASE + 16` -/
def IsIrq (vec : U8) : Prop := vec ≥ irqBase ∧ vec < irqBase + 16

instance (vec : U8) : Decidable (IsIrq vec) := inferInstanceAs (Decidable (_ ∧ _))

def idtRegisterHandler (vec : U8) (handler ctx : U64) (s : IdtState) : IdtState :=
  let s := { s with
    userHandlers := Function.update s.userHandlers vec handler
    userHandlerCtx := Function.update s.userHandlerCtx vec ctx }
  if IsIrq vec then picUnmask (vec - irqBase) s else s

def idtUnregisterHandler (vec : U8) (s : IdtState) : IdtState :=
  let s := { s with
    userHandlers := Function.update s.userHandlers vec 0
    userHandlerCtx := Function.update s.userHandlerCtx vec 0 }
  if IsIrq vec then picMask (vec - irqBase) s else s

inductive IdtCall where
  | register (vec : U8) (handler ctx : U64)
  | unregister (vec : U8)

def IdtCall.vec : IdtCall → U8
  | .register vec _ _ => vec
  | .unregister vec => vec

def IdtState.call (s : IdtState) : IdtCall → IdtState
  | .register vec handler ctx => idtRegisterHandler vec handler ctx s
  | .unregister vec => idtUnregisterHandler vec s

/-! ### Gates -/

def IdtEntry.present (e : IdtEntry) : Bool := e.typeAttr.getLsbD 7

theorem present_setEntry (s : IdtState) (g : Gate) (v : U8) :
    ((idtSetEntry s g).idt v).present = true ↔ v = g.vec ∨ (s.idt v).present = true := by
  have hbit : (idtPresent ||| idtRing0 ||| g.typeAttr).getLsbD 7 = true := by
    rw [BitVec.getLsbD_or, BitVec.getLsbD_or, show idtPresent.getLsbD 7 = true by decide, Bool.true_or,
      Bool.true_or]
  unfold idtSetEntry
  by_cases hv : v = g.vec
  · subst hv
    simp only [Function.update_self, IdtEntry.present, hbit, true_or]
  · simp only [Function.update_of_ne hv, hv, false_or]

theorem present_foldl (v : U8) : ∀ (gs : List Gate) (s : IdtState),
    ((gs.foldl idtSetEntry s).idt v).present = true ↔ v ∈ gs.map Gate.vec ∨ (s.idt v).present = true := by
  intro gs
  induction gs with
  | nil => intro s; simp
  | cons g gs ih =>
    intro s
    rw [List.foldl_cons, ih, present_setEntry, List.map_cons, List.mem_cons]
    tauto

/-! ### Lines -/

def lineVec (i : Nat) : U8 := irqBase + BitVec.ofNat 8 i

def IdtState.lineMasked (s : IdtState) (i : Nat) : Bool :=
  if i < 8 then s.pic1.mask.getLsbD i else s.pic2.mask.getLsbD (i - 8)

def gateLines : List Nat := [0, 1, 2, 3, 4, 8, 9, 11, 12, 14, 15]

/-- The chips are initialized, and line `i` raises vector `0x20 + i`. -/
structure IdtState.Remapped (s : IdtState) : Prop where
  ready1 : s.pic1.phase = .ready
  ready2 : s.pic2.phase = .ready
  offset1 : s.pic1.offset = irqBase
  offset2 : s.pic2.offset = irqBase + 8

theorem IdtState.Remapped.vector {s : IdtState} (h : s.Remapped) {i : Nat} (hi : i < 16) :
    (if i < 8 then s.pic1.vector i else s.pic2.vector (i - 8)) = lineVec i := by
  rw [Pic.vector, Pic.vector, h.offset1, h.offset2]
  revert i
  decide

theorem mem_gates_iff (stubs : Stubs) {i : Nat} (hi : i < 16) :
    lineVec i ∈ (gates stubs).map Gate.vec ↔ i ∈ gateLines := by
  have hvecs : (gates stubs).map Gate.vec = [0, 1, 2, 3, 4, 5, 6, 7, 8, 13, 14, 0x20, 0x21, 0x22, 0x23, 0x24,
    0x28, 0x29, 0x2B, 0x2C, 0x2E, 0x2F] := rfl
  rw [hvecs]
  revert i
  decide

/-- **What `idt_init` leaves**: gates for some of the lines, and every line masked. -/
theorem idtInit_spec (stubs : Stubs) (base : U64) (pic1 pic2 : Pic) :
    let s := idtInit stubs base (IdtState.powerOn pic1 pic2)
    s.Remapped ∧ (∀ i < 16, s.lineMasked i = true) ∧
      ∀ i < 16, (s.idt (lineVec i)).present = true ↔ i ∈ gateLines := by
  intro s
  obtain ⟨hready1, hoffset1⟩ := Pic.init_ready pic1 irqBase 0x04 0x01
  obtain ⟨hready2, hoffset2⟩ := Pic.init_ready pic2 (irqBase + 8) 0x02 0x01
  -- the old masks are restored, then every line is masked
  obtain ⟨_, hold1, holdOffset1⟩ := Pic.writeData_ready hready1 pic1.mask
  obtain ⟨_, hold2, holdOffset2⟩ := Pic.writeData_ready hready2 pic2.mask
  obtain ⟨hmask1, hphase1, hlast1⟩ := Pic.writeData_ready hold1 0xFF
  obtain ⟨hmask2, hphase2, hlast2⟩ := Pic.writeData_ready hold2 0xFF
  have hremapped : s.Remapped := ⟨hphase1, hphase2, hlast1.trans (holdOffset1.trans hoffset1),
    hlast2.trans (holdOffset2.trans hoffset2)⟩
  change s.pic1.mask = 0xFF at hmask1
  change s.pic2.mask = 0xFF at hmask2
  refine ⟨hremapped, fun i hi => ?_, fun i hi => ?_⟩
  · rw [IdtState.lineMasked, hmask1, hmask2]
    revert i
    decide
  · have hidt : s.idt = ((gates stubs).foldl idtSetEntry (IdtState.powerOn pic1 pic2)).idt := rfl
    rw [hidt, present_foldl, mem_gates_iff stubs hi]
    refine ⟨fun h => h.resolve_right ?_, .inl⟩
    show ¬ (0#8).getLsbD 7 = true
    decide

section PicWrite

-- `f x y` has the value `r` at the bits of `y`, and else the bits of `x`
variable {f : U8 → U8 → U8} {r : Bool}

theorem getLsbD_maskByte (hon : ∀ x y k, k < 8 → y.getLsbD k = true → (f x y).getLsbD k = r)
    (hoff : ∀ x y k, k < 8 → y.getLsbD k = false → (f x y).getLsbD k = x.getLsbD k) (x : U8) {n k : Nat}
    (hn : n < 8) (hk : k < 8) : (f x (1#8 <<< n)).getLsbD k = if k = n then r else x.getLsbD k := by
  have hbit := ByteSet.getLsbD_one_shift hn k
  by_cases heq : k = n
  · rw [decide_eq_true heq] at hbit
    rw [if_pos heq, hon x _ k hk hbit]
  · rw [decide_eq_false heq] at hbit
    rw [if_neg heq, hoff x _ k hk hbit]

/-- A write of a mask in which one line is changed. -/
theorem picWrite_spec {s : IdtState} (h : s.Remapped) {irq : U8} (hirq : irq.toNat < 16)
    (hon : ∀ x y k, k < 8 → y.getLsbD k = true → (f x y).getLsbD k = r)
    (hoff : ∀ x y k, k < 8 → y.getLsbD k = false → (f x y).getLsbD k = x.getLsbD k) :
    let t := outb (picPort irq) (f (inb (picPort irq) s) (picBit irq)) s
    t.Remapped ∧ t.idt = s.idt ∧ ∀ i < 16, t.lineMasked i = if i = irq.toNat then r else s.lineMasked i := by
  intro t
  by_cases hlow : irq < 8
  · have hport : picPort irq = pic1Data := if_pos hlow
    have hlt : irq.toNat < 8 := BitVec.lt_def.mp hlow
    have hbit : picBit irq = 1#8 <<< irq.toNat := by
      rw [picBit, if_neg (BitVec.not_le.mpr hlow)]
    obtain ⟨hmask, hphase, hoffset⟩ := Pic.writeData_ready h.ready1 (f s.pic1.mask (1#8 <<< irq.toNat))
    have ht : t = { s with pic1 := s.pic1.writeData (f s.pic1.mask (1#8 <<< irq.toNat)) } := by
      show outb (picPort irq) (f (inb (picPort irq) s) (picBit irq)) s = _
      rw [hport, hbit]
      rfl
    rw [ht]
    refine ⟨⟨hphase, h.ready2, hoffset.trans h.offset1, h.offset2⟩, rfl, fun i hi => ?_⟩
    unfold IdtState.lineMasked
    by_cases hi8 : i < 8
    · rw [if_pos hi8, if_pos hi8, hmask, getLsbD_maskByte hon hoff _ hlt hi8]
    · rw [if_neg hi8, if_neg hi8, if_neg (by omega)]
  · have hport : picPort irq = pic2Data := if_neg hlow
    have hge : irq ≥ 8 := BitVec.not_lt.mp hlow
    have hle : 8 ≤ irq.toNat := BitVec.le_def.mp hge
    have hsub : (irq - 8).toNat = irq.toNat - 8 := BitVec.toNat_sub_of_le hge
    have hbit : picBit irq = 1#8 <<< (irq.toNat - 8) := by rw [picBit, if_pos hge, hsub]
    obtain ⟨hmask, hphase, hoffset⟩ := Pic.writeData_ready h.ready2 (f s.pic2.mask (1#8 <<< (irq.toNat - 8)))
    have ht : t = { s with pic2 := s.pic2.writeData (f s.pic2.mask (1#8 <<< (irq.toNat - 8))) } := by
      show outb (picPort irq) (f (inb (picPort irq) s) (picBit irq)) s = _
      rw [hport, hbit]
      rfl
    rw [ht]
    refine ⟨⟨h.ready1, hphase, h.offset1, hoffset.trans h.offset2⟩, rfl, fun i hi => ?_⟩
    unfold IdtState.lineMasked
    by_cases hi8 : i < 8
    · rw [if_pos hi8, if_pos hi8, if_neg (by omega)]
    · have hsame : i - 8 = irq.toNat - 8 ↔ i = irq.toNat := by omega
      rw [if_neg hi8, if_neg hi8, hmask, getLsbD_maskByte hon hoff _ (by omega) (by omega)]
      simp only [hsame]

end PicWrite

theorem picMask_spec {s : IdtState} (h : s.Remapped) {irq : U8} (hirq : irq.toNat < 16) :
    (picMask irq s).Remapped ∧ (picMask irq s).idt = s.idt ∧
      ∀ i < 16, (picMask irq s).lineMasked i = if i = irq.toNat then true else s.lineMasked i := by
  refine @picWrite_spec (fun x y => x ||| y) true s h irq hirq (fun x y k _ hy => ?_) fun x y k _ hy => ?_
  · rw [BitVec.getLsbD_or, hy, Bool.or_true]
  · rw [BitVec.getLsbD_or, hy, Bool.or_false]

theorem picUnmask_spec {s : IdtState} (h : s.Remapped) {irq : U8} (hirq : irq.toNat < 16) :
    (picUnmask irq s).Remapped ∧ (picUnmask irq s).idt = s.idt ∧
      ∀ i < 16, (picUnmask irq s).lineMasked i = if i = irq.toNat then false else s.lineMasked i := by
  refine @picWrite_spec (fun x y => x &&& ~~~y) false s h irq hirq (fun x y k _ hy => ?_) fun x y k hk hy => ?_
  · rw [BitVec.getLsbD_and, BitVec.getLsbD_not, hy, Bool.not_true, Bool.and_false, Bool.and_false]
  · rw [BitVec.getLsbD_and, BitVec.getLsbD_not, hy, decide_eq_true hk, Bool.not_false, Bool.and_true,
      Bool.and_true]

/-! ### Calls -/

def IdtCall.removes : IdtCall → Bool
  | .register _ _ _ => false
  | .unregister _ => true

theorem eq_lineVec_iff {vec : U8} {i : Nat} (hi : i < 16) :
    vec = lineVec i ↔ IsIrq vec ∧ i = (vec - irqBase).toNat := by
  unfold lineVec IsIrq irqBase
  constructor
  · rintro rfl
    refine ⟨⟨?_, ?_⟩, ?_⟩ <;> bv_omega
  · rintro ⟨⟨hlow, hhigh⟩, rfl⟩
    bv_omega

/-- **What a call does**: it opens or closes the line of its vector, and nothing else. -/
theorem call_spec {s : IdtState} (h : s.Remapped) (c : IdtCall) :
    (s.call c).Remapped ∧ (s.call c).idt = s.idt ∧
      (∀ i < 16, (s.call c).lineMasked i = if c.vec = lineVec i then c.removes else s.lineMasked i) ∧
      (¬ IsIrq c.vec → (s.call c).pic1 = s.pic1 ∧ (s.call c).pic2 = s.pic2) := by
  by_cases hirq : IsIrq c.vec
  · have hlt : (c.vec - irqBase).toNat < 16 := by
      unfold IsIrq irqBase at hirq
      unfold irqBase
      bv_omega
    have hline : ∀ i < 16, i = (c.vec - irqBase).toNat ↔ c.vec = lineVec i := fun i hi => by
      rw [eq_lineVec_iff hi, and_iff_right hirq]
    cases c with
    | register vec handler ctx =>
      obtain ⟨hremapped, hidt, hmask⟩ := @picUnmask_spec { s with
        userHandlers := Function.update s.userHandlers vec handler
        userHandlerCtx := Function.update s.userHandlerCtx vec ctx } ⟨h.1, h.2, h.3, h.4⟩ (vec - irqBase) hlt
      have hcall : s.call (.register vec handler ctx) = picUnmask (vec - irqBase) _ := if_pos hirq
      rw [hcall]
      exact ⟨hremapped, hidt, fun i hi => (hmask i hi).trans (if_congr (hline i hi) rfl rfl),
        fun hno => absurd hirq hno⟩
    | unregister vec =>
      obtain ⟨hremapped, hidt, hmask⟩ := @picMask_spec { s with
        userHandlers := Function.update s.userHandlers vec 0
        userHandlerCtx := Function.update s.userHandlerCtx vec 0 } ⟨h.1, h.2, h.3, h.4⟩ (vec - irqBase) hlt
      have hcall : s.call (.unregister vec) = picMask (vec - irqBase) _ := if_pos hirq
      rw [hcall]
      exact ⟨hremapped, hidt, fun i hi => (hmask i hi).trans (if_congr (hline i hi) rfl rfl),
        fun hno => absurd hirq hno⟩
  · have hsame : ∃ handlers ctxs, s.call c = { s with userHandlers := handlers, userHandlerCtx := ctxs } := by
      cases c with
      | register vec handler ctx => exact ⟨_, _, if_neg hirq⟩
      | unregister vec => exact ⟨_, _, if_neg hirq⟩
    obtain ⟨handlers, ctxs, hcall⟩ := hsame
    have hline : ∀ i < 16, ¬ c.vec = lineVec i := fun i hi he => hirq ((eq_lineVec_iff hi).mp he).1
    rw [hcall]
    exact ⟨⟨h.1, h.2, h.3, h.4⟩, rfl, fun i hi => (if_neg (hline i hi)).symm, fun _ => ⟨rfl, rfl⟩⟩

/-! ### Runs -/

def idtMachine : Machine IdtState IdtCall := ⟨IdtState.call, fun _ _ => True⟩

def latestCall (calls : List IdtCall) (vec : U8) : Option IdtCall :=
  (calls.filter fun c => c.vec = vec).getLast?

theorem latestCall_concat (calls : List IdtCall) (c : IdtCall) (vec : U8) :
    latestCall (calls ++ [c]) vec = if c.vec = vec then some c else latestCall calls vec := by
  rw [latestCall, List.filter_append, latestCall]
  by_cases hvec : c.vec = vec
  · have hlast : [c].filter (fun c => c.vec = vec) = [c] := List.filter_cons_of_pos (by simpa using hvec)
    rw [if_pos hvec, hlast, List.getLast?_concat]
  · have hnone : [c].filter (fun c => c.vec = vec) = [] := List.filter_cons_of_neg (by simpa using hvec)
    rw [if_neg hvec, hnone, List.append_nil]

/-- A driver has its handler on the vector. -/
def Registered (calls : List IdtCall) (vec : U8) : Prop :=
  ∃ c, latestCall calls vec = some c ∧ c.removes = false

/-- The handler on the vector was removed. -/
def Removed (calls : List IdtCall) (vec : U8) : Prop :=
  ∃ c, latestCall calls vec = some c ∧ c.removes = true

def idtAfter (stubs : Stubs) (base : U64) (pic1 pic2 : Pic) (calls : List IdtCall) : IdtState :=
  idtMachine.run (idtInit stubs base (IdtState.powerOn pic1 pic2)) calls

/-- **The lines in a run**: a line is open exactly while a handler is registered on it. -/
theorem idtAfter_spec (stubs : Stubs) (base : U64) (pic1 pic2 : Pic) (calls : List IdtCall) :
    let s := idtAfter stubs base pic1 pic2 calls
    s.Remapped ∧ (∀ i < 16, s.lineMasked i = (latestCall calls (lineVec i)).elim true IdtCall.removes) ∧
      ∀ i < 16, (s.idt (lineVec i)).present = true ↔ i ∈ gateLines := by
  induction calls using List.reverseRecOn with
  | nil => exact idtInit_spec stubs base pic1 pic2
  | append_singleton calls c ih =>
    obtain ⟨hremapped, hmask, hgate⟩ := ih
    obtain ⟨hremapped', hidt, hmask', _⟩ := call_spec hremapped c
    have hrun : idtAfter stubs base pic1 pic2 (calls ++ [c]) = (idtAfter stubs base pic1 pic2 calls).call c :=
      Machine.run_concat _ _ calls c
    rw [hrun]
    refine ⟨hremapped', fun i hi => ?_, fun i hi => ?_⟩
    · rw [hmask' i hi, latestCall_concat]
      split
      · rfl
      · exact hmask i hi
    · rw [hidt]
      exact hgate i hi

/-- Every registered line is delivered, and the others are closed. -/
structure Deliverable (s : IdtState) (calls : List IdtCall) : Prop where
  delivered : ∀ i < 16, Registered calls (lineVec i) →
    s.lineMasked i = false ∧ (8 ≤ i → s.lineMasked 2 = false) ∧ (s.idt (lineVec i)).present = true
  removed : ∀ i < 16, Removed calls (lineVec i) → s.lineMasked i = true
  outside : ∀ c, ¬ IsIrq c.vec →
    (s.call c).pic1.mask = s.pic1.mask ∧ (s.call c).pic2.mask = s.pic2.mask

/-- **Registered lines are delivered** in a run if and only if none of them is a line without a
gate, and the cascade is registered itself while a line of the second chip is. -/
theorem deliverable_iff (stubs : Stubs) (base : U64) (pic1 pic2 : Pic) (calls : List IdtCall) :
    Deliverable (idtAfter stubs base pic1 pic2 calls) calls ↔
      (∀ i < 16, Registered calls (lineVec i) → i ∉ [5, 6, 7, 10, 13]) ∧
        ∀ i < 16, 8 ≤ i → Registered calls (lineVec i) → Registered calls (lineVec 2) := by
  obtain ⟨hremapped, hmask, hgate⟩ := idtAfter_spec stubs base pic1 pic2 calls
  have hopen : ∀ i < 16, Registered calls (lineVec i) →
      (idtAfter stubs base pic1 pic2 calls).lineMasked i = false := by
    rintro i hi ⟨c, hc, hkeeps⟩
    rw [hmask i hi, hc]
    exact hkeeps
  have hgaps : ∀ i < 16, i ∈ gateLines ↔ i ∉ [5, 6, 7, 10, 13] := by decide
  constructor
  · intro h
    refine ⟨fun i hi hreg => ?_, fun i hi h8 hreg => ?_⟩
    · exact (hgaps i hi).mp ((hgate i hi).mp (h.delivered i hi hreg).2.2)
    · have hcascade := (h.delivered i hi hreg).2.1 h8
      rw [hmask 2 (by omega)] at hcascade
      cases hlast : latestCall calls (lineVec 2) with
      | none =>
        rw [hlast] at hcascade
        cases hcascade
      | some c =>
        rw [hlast] at hcascade
        exact ⟨c, hlast, hcascade⟩
  · rintro ⟨hgates, hcascade⟩
    refine ⟨fun i hi hreg => ?_, fun i hi hremoved => ?_, fun c hc => ?_⟩
    · exact ⟨hopen i hi hreg, fun h8 => hopen 2 (by omega) (hcascade i hi h8 hreg),
        (hgate i hi).mpr ((hgaps i hi).mpr (hgates i hi hreg))⟩
    · obtain ⟨c, hc, hremoves⟩ := hremoved
      rw [hmask i hi, hc]
      exact hremoves
    · obtain ⟨_, _, _, hsame⟩ := call_spec hremapped c
      obtain ⟨hpic1, hpic2⟩ := hsame hc
      rw [hpic1, hpic2]
      exact ⟨rfl, rfl⟩

def sampleStubs : Stubs :=
  ⟨fun n => BitVec.ofNat 64 (0x100000 + 16 * n), fun n => BitVec.ofNat 64 (0x101000 + 16 * n)⟩

/-- A chip that the firmware has initialized. -/
def samplePic : Pic := ⟨.ready, false, true, 0xB8, 0x08, 0x04, 0x01⟩

/-- A handler for the clock, which is on the second chip. -/
def clockCalls : List IdtCall := [.register 0x28 0x102000 0]

/-- The clock's line is open, and the line behind which its chip is stays masked. -/
theorem clock_not_delivered :
    ¬ Deliverable (idtAfter sampleStubs 0x103000 samplePic samplePic clockCalls) clockCalls := by
  obtain ⟨_, hmask, _⟩ := idtAfter_spec sampleStubs 0x103000 samplePic samplePic clockCalls
  intro h
  have hclock : Registered clockCalls (lineVec 8) := ⟨.register 0x28 0x102000 0, rfl, rfl⟩
  have hcascade := (h.delivered 8 (by omega) hclock).2.1 (Nat.le_refl 8)
  have hnone : latestCall clockCalls (lineVec 2) = none := by decide
  rw [hmask 2 (by omega), hnone] at hcascade
  cases hcascade

end AionOs
