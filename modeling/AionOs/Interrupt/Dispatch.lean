import AionOs.Interrupt.Idt
import AionOs.Lib.PicService
import Mathlib.Tactic.IntervalCases

/-!
# Interrupts while the kernel runs

`idt_dispatch` and `pic_send_eoi` in `kernel/arch/x86_64/idt.c`, with the processor that enters a
gate and returns from it, the two chips, and the devices that raise lines.  What the stubs of
`idt_stubs.asm` do is a parameter, `StubCode`, which the processor gets to by the address in a gate;
the handlers are taken to leave the interrupt flag alone.  A call of `idt_register_handler` or
`idt_unregister_handler` may come at any time, from a handler or from the program below it.

* `dispatch_eq`: what happens between a gate and the return from it is a call of `idt_dispatch`.
* `picSendEoi_spec`: the end of interrupt ends the line in service, in both chips.
* `reach_sound`: what holds in every state of every run.
* `oneInService`: at most one line is in service, and it is the one whose handler runs.
-/

namespace AionOs

/-! ### State -/

/-- A trap gate leaves interrupts enabled. -/
def IdtEntry.isTrap (e : IdtEntry) : Bool := e.typeAttr &&& 0x0F = idtTrapGate

/-- The address in a gate. -/
def IdtEntry.offset (e : IdtEntry) : U64 := e.offsetHigh ++ (e.offsetMid ++ e.offsetLow)

/-- The stubs, with what `idt_stubs.asm` has at their addresses. -/
structure StubCode extends Stubs where
  /-- The code at an address calls `idt_dispatch` with this vector, and then returns with `iretq`. -/
  dispatches : U64 → Option U8
  /-- Each stub calls `idt_dispatch` with the vector that it is installed for. -/
  dispatches_gate : ∀ g ∈ gates toStubs, dispatches g.handler = some g.vec

/-- The vector that `idt_dispatch` got, and the interrupt flag of the interrupted program. -/
structure IretFrame where
  vec : U8
  saved : Bool

structure HandlerCall where
  handler : U64
  vec : U8
  ctx : U64
  deriving DecidableEq

structure Interrupts where
  idt : IdtState
  services : PicServices
  /-- `StubCode.dispatches` of the stubs in memory. -/
  dispatches : U64 → Option U8
  /-- The interrupted programs, the last one first. -/
  frames : List IretFrame
  called : List HandlerCall
  /-- The processor found no gate, or no stub behind it: it cannot go on. -/
  stopped : Bool
  /-- The requests so far, without those that found their line waiting. -/
  latched : List Nat
  /-- The lines acknowledged so far. -/
  taken : List Nat

namespace Interrupts

/-! ### `pic_send_eoi`, `idt_dispatch` -/

def picEoi : U8 := 0x20

/-- `AionOs.outb`, with the registers of the chips that it leaves out. -/
def outb (port : BitVec 16) (val : U8) (x : Interrupts) : Interrupts :=
  { x with
    idt := AionOs.outb port val x.idt
    services :=
      if port = pic1Cmd then { x.services with first := x.services.first.writeCommand val }
      else if port = pic2Cmd then { x.services with second := x.services.second.writeCommand val }
      else x.services }

def picSendEoi (irq : U8) (x : Interrupts) : Interrupts :=
  outb pic1Cmd picEoi (if irq ≥ 8 then outb pic2Cmd picEoi x else x)

/-- `idt_dispatch` up to the body of the handler. -/
def callHandler (vec : U8) (x : Interrupts) : Interrupts :=
  if x.idt.userHandlers vec ≠ 0 then
    { x with called := x.called ++ [⟨x.idt.userHandlers vec, vec, x.idt.userHandlerCtx vec⟩] }
  else x

/-- `idt_dispatch` after the handler. -/
def endDispatch (vec : U8) (x : Interrupts) : Interrupts :=
  if IsIrq vec then picSendEoi (vec - irqBase) x else x

/-- `idt_dispatch` for a handler with the effect `body`. -/
def idtDispatch (body : Interrupts → Interrupts) (vec : U8) (x : Interrupts) : Interrupts :=
  endDispatch vec (if x.idt.userHandlers vec ≠ 0 then body (callHandler vec x) else callHandler vec x)

/-! ### The processor -/

/-- The vector with which the stub behind a gate calls `idt_dispatch`. -/
def stubOf (vec : U8) (x : Interrupts) : Option U8 :=
  if (x.idt.idt vec).present then x.dispatches (x.idt.idt vec).offset else none

/-- The processor goes through the gate of `vec`, and the stub passes `arg`. -/
def push (vec arg : U8) (x : Interrupts) : Interrupts :=
  { x with
    frames := ⟨arg, x.idt.interruptFlag⟩ :: x.frames
    idt := { x.idt with interruptFlag := x.idt.interruptFlag && (x.idt.idt vec).isTrap } }

/-- From the gate to the body of the handler. -/
def enter (vec : U8) (x : Interrupts) : Interrupts :=
  match stubOf vec x with
  | some arg => callHandler arg (push vec arg x)
  | none => { x with stopped := true }

def iretq (x : Interrupts) : Interrupts :=
  match x.frames with
  | [] => x
  | frame :: frames => { x with frames := frames, idt := { x.idt with interruptFlag := frame.saved } }

/-- From the end of the handler's body to the interrupted program. -/
def finish (x : Interrupts) : Interrupts :=
  match x.frames with
  | [] => x
  | frame :: _ => iretq (endDispatch frame.vec x)

/-- The line that the chips interrupt for. -/
def pending (x : Interrupts) : Option Nat := PicServices.pending x.idt.pic1 x.idt.pic2 x.services

def waiting (x : Interrupts) : List Nat := PicServices.waiting x.idt.pic1 x.idt.pic2 x.services

def accept (x : Interrupts) : Interrupts :=
  match x.pending with
  | none => x
  | some i =>
    enter (PicServices.vector x.idt.pic1 x.idt.pic2 i) { x with
      services := PicServices.acknowledge x.idt.pic1 x.idt.pic2 x.services i
      taken := x.taken ++ [i] }

def raise (i : Nat) (x : Interrupts) : Interrupts :=
  { x with
    services := x.services.raise i
    latched := if x.services.requested i then x.latched else x.latched ++ [i] }

/-! ### `idt_init` -/

/-- `pic_remap` with the whole chips. -/
def picRemap (x : Interrupts) : Interrupts :=
  let mask1 := inb pic1Data x.idt
  let mask2 := inb pic2Data x.idt
  let x := outb 0x80 0 (outb pic2Cmd 0x11 (outb pic1Cmd 0x11 x))
  let x := outb 0x80 0 (outb pic2Data (irqBase + 8) (outb pic1Data irqBase x))
  let x := outb 0x80 0 (outb pic2Data 0x02 (outb pic1Data 0x04 x))
  let x := outb 0x80 0 (outb pic2Data 0x01 (outb pic1Data 0x01 x))
  outb pic2Data mask2 (outb pic1Data mask1 x)

/-- `AionOs.idtInit`, with the registers of the chips that it leaves out. -/
def idtInit (stubs : Stubs) (base : U64) (x : Interrupts) : Interrupts :=
  { x with idt := AionOs.idtInit stubs base x.idt, services := (picRemap x).services }

theorem picRemap_idt (x : Interrupts) : (picRemap x).idt = AionOs.picRemap x.idt := rfl

/-! ### Runs -/

inductive Event where
  | raise (i : Nat)
  | accept
  | exception (vec : U8)
  | call (c : IdtCall)
  | finish

def step (x : Interrupts) : Event → Interrupts
  | .raise i => raise i x
  | .accept => accept x
  | .exception vec => enter vec x
  | .call c => { x with idt := x.idt.call c }
  | .finish => finish x

/-- What the devices, the processor and the program may do next. -/
def Possible (x : Interrupts) : Event → Prop
  | .raise i => i ∈ PicServices.priority
  | .accept => x.stopped = false ∧ x.idt.interruptFlag = true ∧ x.pending ≠ none
  | .exception vec => x.stopped = false ∧ vec < irqBase
  | .call _ => x.stopped = false
  | .finish => x.stopped = false ∧ x.frames ≠ []

def machine : Machine Interrupts Event := ⟨step, Possible⟩

/-- The machine when `idt_init` returns; the firmware left something in every register. -/
def boot (stubs : StubCode) (base : U64) (pic1 pic2 : Pic) (services : PicServices) : Interrupts :=
  idtInit stubs.toStubs base ⟨IdtState.powerOn pic1 pic2, services, stubs.dispatches, [], [], false, [], []⟩

def Reached (x : Interrupts) : Prop :=
  ∃ stubs base pic1 pic2 services events, machine.Legal (boot stubs base pic1 pic2 services) events ∧
    x = machine.run (boot stubs base pic1 pic2 services) events

/-! ### Calls of `idt_dispatch` -/

theorem callHandler_frame (vec : U8) (x : Interrupts) : ∃ called,
    callHandler vec x = { x with called := called } := by
  unfold callHandler
  split
  · exact ⟨_, rfl⟩
  · exact ⟨x.called, rfl⟩

theorem enter_some {vec arg : U8} {x : Interrupts} (h : stubOf vec x = some arg) :
    enter vec x = callHandler arg (push vec arg x) := by
  rw [enter, h]

theorem finish_frames {x : Interrupts} {frame : IretFrame} {frames : List IretFrame}
    (h : x.frames = frame :: frames) : finish x = iretq (endDispatch frame.vec x) := by
  rw [finish, h]

/-- **The steps make up `idt_dispatch`**: whatever runs as the body of the handler, if its own interrupts
have returned, the gate, the body and the return are a call of `idt_dispatch` between the push of the
frame and `iretq`. -/
theorem dispatch_eq {body : Interrupts → Interrupts} {vec arg : U8} {x : Interrupts}
    (hstub : stubOf vec x = some arg) (hbody : (body (enter vec x)).frames = (enter vec x).frames) :
    finish (if x.idt.userHandlers arg ≠ 0 then body (enter vec x) else enter vec x) =
      iretq (idtDispatch body arg (push vec arg x)) := by
  have henter := enter_some hstub
  have hframes : (enter vec x).frames = ⟨arg, x.idt.interruptFlag⟩ :: x.frames := by
    obtain ⟨called, hcall⟩ := callHandler_frame arg (push vec arg x)
    rw [henter, hcall]
    rfl
  have hhandlers : (push vec arg x).idt.userHandlers = x.idt.userHandlers := rfl
  rw [idtDispatch, hhandlers, ← henter]
  split
  · exact finish_frames (hbody.trans hframes)
  · exact finish_frames hframes

/-! ### End of interrupt -/

theorem outb_eoi1 (x : Interrupts) : outb pic1Cmd picEoi x =
    { x with services := { x.services with first := x.services.first.writeCommand picEoi } } := rfl

theorem outb_eoi2 (x : Interrupts) : outb pic2Cmd picEoi x =
    { x with services := { x.services with second := x.services.second.writeCommand picEoi } } := rfl

/-- The in-service registers while line `i`, or none, is served. -/
def isrOf : Option Nat → BitVec 8 × BitVec 8
  | none => (0, 0)
  | some i => (1#8 <<< (if i < 8 then i else PicServices.cascadeLine), if i < 8 then 0 else 1#8 <<< (i - 8))

/-- **`pic_send_eoi` for the line in service** ends it in both chips, and changes nothing else. -/
theorem picSendEoi_spec {x : Interrupts} {i : Nat} (hi : i < 16)
    (h : (x.services.first.isr, x.services.second.isr) = isrOf (some i)) :
    picSendEoi (BitVec.ofNat 8 i) x =
      { x with services := ⟨⟨x.services.first.irr, 0⟩, ⟨x.services.second.irr, 0⟩⟩ } := by
  obtain ⟨hfirst, hsecond⟩ := Prod.mk.inj h
  have hend1 : x.services.first.writeCommand picEoi = ⟨x.services.first.irr, 0⟩ :=
    PicService.endOf_inService (by unfold PicServices.cascadeLine; split <;> omega) hfirst
  by_cases hi8 : i < 8
  · have hlow : ¬ BitVec.ofNat 8 i ≥ 8 := by
      intro hge
      have := BitVec.le_def.mp hge
      simp at this
      omega
    rw [if_pos hi8] at hsecond
    rw [picSendEoi, if_neg hlow, outb_eoi1, hend1, ← hsecond]
  · have hhigh : BitVec.ofNat 8 i ≥ 8 := by
      refine BitVec.le_def.mpr ?_
      simp
      omega
    rw [if_neg hi8] at hsecond
    have hend2 : x.services.second.writeCommand picEoi = ⟨x.services.second.irr, 0⟩ :=
      PicService.endOf_inService (by omega) hsecond
    rw [picSendEoi, if_pos hhigh, outb_eoi2, outb_eoi1]
    simp only [hend1, hend2]

/-! ### The interrupted programs -/

def lineOf (vec : U8) : Option Nat := if IsIrq vec then some (vec - irqBase).toNat else none

theorem lineOf_eq_some {vec : U8} {i : Nat} : lineOf vec = some i ↔ i < 16 ∧ vec = lineVec i := by
  unfold lineOf
  constructor
  · intro h
    by_cases hirq : IsIrq vec
    · rw [if_pos hirq, Option.some_inj] at h
      have hlt : (vec - irqBase).toNat < 16 := by
        unfold IsIrq irqBase at hirq
        unfold irqBase
        bv_omega
      subst h
      exact ⟨hlt, (eq_lineVec_iff hlt).mpr ⟨hirq, rfl⟩⟩
    · rw [if_neg hirq] at h
      cases h
  · rintro ⟨hi, hvec⟩
    obtain ⟨hirq, hline⟩ := (eq_lineVec_iff hi).mp hvec
    rw [if_pos hirq, ← hline]

theorem lineOf_lineVec {i : Nat} (hi : i < 16) : lineOf (lineVec i) = some i := lineOf_eq_some.mpr ⟨hi, rfl⟩

/-- The lines whose handlers have not come to their end. -/
def serving (frames : List IretFrame) : List Nat := frames.filterMap fun frame => lineOf frame.vec

theorem serving_cons_none (frame : IretFrame) (frames : List IretFrame) (h : lineOf frame.vec = none) :
    serving (frame :: frames) = serving frames := List.filterMap_cons_none h

theorem serving_cons_some (frame : IretFrame) (frames : List IretFrame) {i : Nat}
    (h : lineOf frame.vec = some i) : serving (frame :: frames) = i :: serving frames :=
  List.filterMap_cons_some h

/-- Interrupts were enabled only over programs that serve no line, and a line is served only where
they were enabled. -/
def Nested : Bool → List IretFrame → Prop
  | _, [] => True
  | flag, frame :: frames => (flag = true → serving (frame :: frames) = []) ∧
      (lineOf frame.vec ≠ none → frame.saved = true) ∧ Nested frame.saved frames

theorem Nested.idle : ∀ {frames : List IretFrame}, Nested true frames → serving frames = []
  | [], _ => rfl
  | _ :: _, h => h.1 rfl

/-- **At most one line is served.** -/
theorem Nested.serving_eq {flag : Bool} {frames : List IretFrame} (h : Nested flag frames) :
    serving frames = (serving frames).head?.toList := by
  induction frames generalizing flag with
  | nil => rfl
  | cons frame frames ih =>
    obtain ⟨_, hsaved, htail⟩ := h
    cases hline : lineOf frame.vec with
    | none =>
      rw [serving_cons_none _ _ hline]
      exact ih htail
    | some i =>
      rw [hsaved (by rw [hline]; exact Option.some_ne_none i)] at htail
      rw [serving_cons_some _ _ hline, htail.idle]
      rfl

/-! ### What holds in every state -/

structure Sound (x : Interrupts) : Prop where
  remapped : x.idt.Remapped
  manual1 : PicServices.autoEnd x.idt.pic1 = false
  manual2 : PicServices.autoEnd x.idt.pic2 = false
  cascade : x.idt.pic1.cascade = 1#8 <<< PicServices.cascadeLine
  present : ∀ i < 16, (x.idt.idt (lineVec i)).present = true ↔ i ∈ gateLines
  gates : ∀ i < 16, (x.idt.idt (lineVec i)).isTrap = false
  stubs : ∀ vec, (x.idt.idt vec).present = true → x.dispatches (x.idt.idt vec).offset = some vec
  nested : Nested x.idt.interruptFlag x.frames
  inService : x.stopped = false →
    (x.services.first.isr, x.services.second.isr) = isrOf (serving x.frames).head?

/-- The stub of a gate passes the vector of the gate. -/
theorem Sound.stubOf_eq_some {x : Interrupts} (h : Sound x) {vec arg : U8} :
    stubOf vec x = some arg ↔ (x.idt.idt vec).present = true ∧ arg = vec := by
  unfold stubOf
  constructor
  · intro hstub
    split at hstub
    · rename_i hpresent
      rw [h.stubs vec hpresent] at hstub
      exact ⟨hpresent, (Option.some.inj hstub).symm⟩
    · cases hstub
  · rintro ⟨hpresent, rfl⟩
    rw [if_pos hpresent, h.stubs arg hpresent]

/-- With interrupts enabled nothing is in service. -/
theorem Sound.idle {x : Interrupts} (h : Sound x) (hrun : x.stopped = false)
    (hflag : x.idt.interruptFlag = true) : serving x.frames = [] ∧ x.services.Idle := by
  have hserving : serving x.frames = [] := Nested.idle (hflag ▸ h.nested)
  have hisr := h.inService hrun
  rw [hserving] at hisr
  exact ⟨hserving, Prod.mk.inj hisr⟩

/-- **The line that the processor acknowledges** is the first of those that wait. -/
theorem Sound.pending_eq {x : Interrupts} (h : Sound x) (hrun : x.stopped = false)
    (hflag : x.idt.interruptFlag = true) : x.pending = x.waiting.head? :=
  PicServices.pending_eq_find? (h.idle hrun hflag).2 h.cascade

theorem mem_priority {i : Nat} (hi : i ∈ PicServices.priority) : i < 16 ∧ i ≠ PicServices.cascadeLine := by
  revert i
  decide

theorem Sound.vector {x : Interrupts} (h : Sound x) {i : Nat} (hi : i < 16) :
    PicServices.vector x.idt.pic1 x.idt.pic2 i = lineVec i := h.remapped.vector hi

/-! ### Steps -/

theorem outb_mask {s : IdtState} (h : s.Remapped) (irq val : U8) : ∃ mask1 mask2,
    AionOs.outb (picPort irq) val s =
      { s with pic1 := { s.pic1 with mask := mask1 }, pic2 := { s.pic2 with mask := mask2 } } := by
  have hready : ∀ {p : Pic}, p.phase = .ready → p.writeData val = { p with mask := val } := fun hp => by
    unfold Pic.writeData
    rw [hp]
  unfold picPort
  split
  · exact ⟨val, s.pic2.mask, congrArg (fun p => { s with pic1 := p }) (hready h.ready1)⟩
  · exact ⟨s.pic1.mask, val, congrArg (fun p => { s with pic2 := p }) (hready h.ready2)⟩

/-- **All that a registration or a removal changes.** -/
theorem call_frame {s : IdtState} (h : s.Remapped) (c : IdtCall) : ∃ handlers ctxs mask1 mask2,
    s.call c = { s with
      userHandlers := handlers
      userHandlerCtx := ctxs
      pic1 := { s.pic1 with mask := mask1 }
      pic2 := { s.pic2 with mask := mask2 } } := by
  have hset : ∀ handlers ctxs, ({ s with userHandlers := handlers, userHandlerCtx := ctxs } : IdtState).Remapped :=
    fun _ _ => ⟨h.1, h.2, h.3, h.4⟩
  cases c with
  | register vec handler ctx =>
    simp only [IdtState.call, idtRegisterHandler]
    split
    · obtain ⟨mask1, mask2, hwrite⟩ := outb_mask (hset _ _) (vec - irqBase) _
      exact ⟨_, _, mask1, mask2, hwrite⟩
    · exact ⟨_, _, s.pic1.mask, s.pic2.mask, rfl⟩
  | unregister vec =>
    simp only [IdtState.call, idtUnregisterHandler]
    split
    · obtain ⟨mask1, mask2, hwrite⟩ := outb_mask (hset _ _) (vec - irqBase) _
      exact ⟨_, _, mask1, mask2, hwrite⟩
    · exact ⟨_, _, s.pic1.mask, s.pic2.mask, rfl⟩

theorem Sound.call {x : Interrupts} (h : Sound x) (c : IdtCall) : Sound (x.step (.call c)) := by
  obtain ⟨handlers, ctxs, mask1, mask2, hcall⟩ := call_frame h.remapped c
  have hstep : x.step (.call c) = { x with idt := x.idt.call c } := rfl
  rw [hstep, hcall]
  obtain ⟨hremapped, hmanual1, hmanual2, hcascade, hpresent, hgates, hstubs, hnested, hservice⟩ := h
  exact ⟨⟨hremapped.1, hremapped.2, hremapped.3, hremapped.4⟩, hmanual1, hmanual2, hcascade, hpresent, hgates,
    hstubs, hnested, hservice⟩

theorem Sound.raise {x : Interrupts} (h : Sound x) (i : Nat) : Sound (x.step (.raise i)) := by
  have hisr : ((x.services.raise i).first.isr, (x.services.raise i).second.isr) =
      (x.services.first.isr, x.services.second.isr) := by
    unfold PicServices.raise
    split <;> rfl
  exact ⟨h.remapped, h.manual1, h.manual2, h.cascade, h.present, h.gates, h.stubs, h.nested,
    fun hrun => hisr.trans (h.inService hrun)⟩

/-- **What `enter` does**: it stops for want of a stub, or calls the handler over the program. -/
theorem enter_cases (vec : U8) (x : Interrupts) :
    (stubOf vec x = none ∧ enter vec x = { x with stopped := true }) ∨
      ∃ arg, stubOf vec x = some arg ∧ ∃ called, enter vec x = { x with
        frames := ⟨arg, x.idt.interruptFlag⟩ :: x.frames
        idt := { x.idt with interruptFlag := x.idt.interruptFlag && (x.idt.idt vec).isTrap }
        called := called } := by
  cases hstub : stubOf vec x with
  | none => exact .inl ⟨rfl, by rw [enter, hstub]⟩
  | some arg =>
    obtain ⟨called, hcall⟩ := callHandler_frame arg (push vec arg x)
    exact .inr ⟨arg, rfl, called, (enter_some hstub).trans hcall⟩

theorem Sound.exception {x : Interrupts} (h : Sound x) {vec : U8} (hvec : vec < irqBase) :
    Sound (x.step (.exception vec)) := by
  have hline : lineOf vec = none := if_neg fun hirq => absurd hirq.1 (BitVec.not_le.mpr hvec)
  have hserving : ∀ flag, serving (⟨vec, flag⟩ :: x.frames) = serving x.frames :=
    fun flag => serving_cons_none ⟨vec, flag⟩ x.frames hline
  have hstep : x.step (.exception vec) = enter vec x := rfl
  rw [hstep]
  obtain ⟨_, henter⟩ | ⟨arg, hstub, called, henter⟩ := enter_cases vec x
  · rw [henter]
    exact ⟨h.remapped, h.manual1, h.manual2, h.cascade, h.present, h.gates, h.stubs, h.nested,
      fun hrun => Bool.noConfusion hrun⟩
  · obtain ⟨_, rfl⟩ := h.stubOf_eq_some.mp hstub
    rw [henter]
    refine ⟨⟨h.remapped.1, h.remapped.2, h.remapped.3, h.remapped.4⟩, h.manual1, h.manual2, h.cascade, h.present, h.gates,
      h.stubs, ⟨fun hflag => ?_, fun hno => absurd hline hno, h.nested⟩, fun hrun => ?_⟩
    · rw [hserving]
      exact Nested.idle ((Bool.and_eq_true_iff.mp hflag).1 ▸ h.nested)
    · rw [h.inService hrun]
      exact congrArg (fun l => isrOf (List.head? l)) (hserving _).symm

/-- **What `accept` does** when interrupts are enabled and a line waits. -/
theorem Sound.accept_eq {x : Interrupts} (h : Sound x) (hrun : x.stopped = false)
    (hflag : x.idt.interruptFlag = true) {i : Nat} {rest : List Nat} (hwaiting : x.waiting = i :: rest) :
    accept x = enter (lineVec i) { x with
      services := PicServices.acknowledge x.idt.pic1 x.idt.pic2 x.services i
      taken := x.taken ++ [i] } := by
  have hi : i ∈ PicServices.priority := List.mem_of_mem_filter (hwaiting ▸ List.mem_cons_self)
  have hpending : x.pending = some i := by rw [h.pending_eq hrun hflag, hwaiting, List.head?_cons]
  rw [accept, hpending]
  simp only [h.vector (mem_priority hi).1]

theorem Sound.waiting_of_possible {x : Interrupts} (h : Sound x) (hp : x.Possible .accept) :
    ∃ i rest, x.waiting = i :: rest := by
  obtain ⟨hrun, hflag, hsome⟩ := hp
  rw [h.pending_eq hrun hflag] at hsome
  cases hwaiting : x.waiting with
  | nil => exact absurd (by rw [hwaiting]; rfl) hsome
  | cons i rest => exact ⟨i, rest, rfl⟩

theorem Sound.accept {x : Interrupts} (h : Sound x) (hp : x.Possible .accept) : Sound (x.step .accept) := by
  obtain ⟨i, rest, hwaiting⟩ := h.waiting_of_possible hp
  obtain ⟨hrun, hflag, _⟩ := hp
  have hi : i < 16 := (mem_priority (List.mem_of_mem_filter (hwaiting ▸ List.mem_cons_self))).1
  obtain ⟨hserving, hidle⟩ := h.idle hrun hflag
  obtain ⟨hfirst, hsecond⟩ := PicServices.isr_acknowledge hidle h.manual1 h.manual2 i
  have hstep : x.step .accept = _ := h.accept_eq hrun hflag hwaiting
  rw [hstep]
  obtain ⟨_, henter⟩ | ⟨arg, hstub, called, henter⟩ := enter_cases (lineVec i) { x with
    services := PicServices.acknowledge x.idt.pic1 x.idt.pic2 x.services i
    taken := x.taken ++ [i] }
  · rw [henter]
    exact ⟨h.remapped, h.manual1, h.manual2, h.cascade, h.present, h.gates, h.stubs, h.nested,
      fun hrun => Bool.noConfusion hrun⟩
  · obtain ⟨_, rfl⟩ := h.stubOf_eq_some.mp hstub
    have hserves : serving (⟨lineVec i, x.idt.interruptFlag⟩ :: x.frames) = [i] := by
      rw [serving_cons_some _ _ (lineOf_lineVec hi), hserving]
    rw [henter]
    refine ⟨⟨h.remapped.1, h.remapped.2, h.remapped.3, h.remapped.4⟩, h.manual1, h.manual2, h.cascade, h.present, h.gates,
      h.stubs, ⟨fun hboth => ?_, fun _ => hflag, h.nested⟩, fun _ => ?_⟩
    · have htrap := (Bool.and_eq_true_iff.mp hboth).2
      rw [h.gates i hi] at htrap
      cases htrap
    · simp only [hserves, List.head?_cons, hfirst, hsecond, isrOf]

/-- **What `finish` does** to the program that it returns from. -/
theorem Sound.finish_eq {x : Interrupts} (h : Sound x) (hrun : x.stopped = false) {frame : IretFrame}
    {frames : List IretFrame} (hframes : x.frames = frame :: frames) : ∃ services : PicServices,
    finish x = { x with
      frames := frames
      idt := { x.idt with interruptFlag := frame.saved }
      services := services } ∧
      services.first.irr = x.services.first.irr ∧ services.second.irr = x.services.second.irr ∧
      (services.first.isr, services.second.isr) = isrOf (serving frames).head? := by
  have hisr := h.inService hrun
  have hnested := h.nested
  rw [hframes] at hisr hnested
  obtain ⟨_, hsaved, htail⟩ := hnested
  rw [finish_frames hframes]
  cases hline : lineOf frame.vec with
  | none =>
    have hirq : ¬ IsIrq frame.vec := fun hirq => by
      rw [lineOf, if_pos hirq] at hline
      cases hline
    refine ⟨x.services, ?_, rfl, rfl, ?_⟩
    · rw [endDispatch, if_neg hirq, iretq, hframes]
    · rw [hisr, serving_cons_none _ _ hline]
  | some i =>
    obtain ⟨hi, hvec⟩ := lineOf_eq_some.mp hline
    obtain ⟨hirq, _⟩ := (eq_lineVec_iff hi).mp hvec
    have hnum : frame.vec - irqBase = BitVec.ofNat 8 i := by
      rw [hvec, lineVec]
      bv_omega
    rw [hsaved (by rw [hline]; exact Option.some_ne_none i)] at htail
    rw [serving_cons_some _ _ hline, List.head?_cons] at hisr
    refine ⟨⟨⟨x.services.first.irr, 0⟩, ⟨x.services.second.irr, 0⟩⟩, ?_, rfl, rfl, ?_⟩
    · rw [endDispatch, if_pos hirq, hnum, picSendEoi_spec hi hisr, iretq]
      dsimp only
      rw [hframes]
    · rw [htail.idle]
      rfl

theorem Sound.finish {x : Interrupts} (h : Sound x) (hp : x.Possible .finish) : Sound (x.step .finish) := by
  obtain ⟨hrun, hsome⟩ := hp
  cases hframes : x.frames with
  | nil => exact absurd hframes hsome
  | cons frame frames =>
    obtain ⟨services, hfinish, _, _, hisr⟩ := h.finish_eq hrun hframes
    have hnested := h.nested
    rw [hframes] at hnested
    have hstep : x.step .finish = Interrupts.finish x := rfl
    rw [hstep, hfinish]
    exact ⟨⟨h.remapped.1, h.remapped.2, h.remapped.3, h.remapped.4⟩, h.manual1, h.manual2, h.cascade, h.present, h.gates,
      h.stubs, hnested.2.2, fun _ => hisr⟩

/-- **Every step keeps what holds.** -/
theorem Sound.step {x : Interrupts} (h : Sound x) (e : Event) (hp : x.Possible e) : Sound (x.step e) := by
  cases e with
  | raise i => exact h.raise i
  | accept => exact h.accept hp
  | exception vec => exact h.exception hp.2
  | call c => exact h.call c
  | finish => exact h.finish hp

/-- A property of every gate that is written, and of the rest of the table, is one of the table. -/
theorem foldl_setEntry {P : U8 → IdtEntry → Prop} : ∀ (gs : List Gate) (s : IdtState),
    (∀ v, P v (s.idt v)) → (∀ g ∈ gs, P g.vec ((idtSetEntry s g).idt g.vec)) →
      ∀ v, P v ((gs.foldl idtSetEntry s).idt v) := by
  intro gs
  induction gs with
  | nil => intro s h _; exact h
  | cons g gs ih =>
    intro s h hgs
    refine ih (idtSetEntry s g) (fun v => ?_) fun g' hg' => ?_
    · by_cases hv : v = g.vec
      · rw [hv]
        exact hgs g List.mem_cons_self
      · simpa only [idtSetEntry, Function.update_of_ne hv] using h v
    · have := hgs g' (List.mem_cons_of_mem _ hg')
      simpa only [idtSetEntry, Function.update_self] using this

theorem address_parts (address : U64) :
    (address >>> 32).setWidth 32 ++ ((address >>> 16).setWidth 16 ++ address.setWidth 16) = address := by
  refine BitVec.eq_of_getLsbD_eq fun i hi => ?_
  simp only [BitVec.getLsbD_append, BitVec.getLsbD_setWidth, BitVec.getLsbD_ushiftRight]
  interval_cases i <;> simp

theorem setEntry_offset (s : IdtState) (g : Gate) : ((idtSetEntry s g).idt g.vec).offset = g.handler := by
  unfold idtSetEntry
  dsimp only
  rw [Function.update_self]
  exact address_parts g.handler

/-- Behind every gate of the table is the stub of its vector. -/
theorem gates_stubs (stubs : StubCode) (pic1 pic2 : Pic) (vec : U8) :
    let e := ((gates stubs.toStubs).foldl idtSetEntry (IdtState.powerOn pic1 pic2)).idt vec
    e.present = true → stubs.dispatches e.offset = some vec := by
  have hempty : ¬ IdtEntry.present ⟨0, 0, 0, 0, 0, 0, 0⟩ = true := by decide
  refine @foldl_setEntry (fun v e => e.present = true → stubs.dispatches e.offset = some v) _ _ (fun v h => ?_)
    (fun g hg _ => ?_) vec
  · exact absurd h hempty
  · rw [setEntry_offset]
    exact stubs.dispatches_gate g hg

theorem boot_sound (stubs : StubCode) (base : U64) (pic1 pic2 : Pic) (services : PicServices) :
    Sound (boot stubs base pic1 pic2 services) := by
  obtain ⟨hremapped, _, hpresent⟩ := idtInit_spec stubs.toStubs base pic1 pic2
  have hmode1 : (boot stubs base pic1 pic2 services).idt.pic1.mode = 0x01 := rfl
  have hmode2 : (boot stubs base pic1 pic2 services).idt.pic2.mode = 0x01 := rfl
  refine ⟨hremapped, by rw [PicServices.autoEnd, hmode1]; rfl, by rw [PicServices.autoEnd, hmode2]; rfl, rfl,
    hpresent, fun i hi => ?_, gates_stubs stubs pic1 pic2, trivial, fun _ => rfl⟩
  have hgates : ∀ g ∈ gates stubs.toStubs, irqBase ≤ g.vec → g.typeAttr = idtIntGate := by
    have hsame : (gates stubs.toStubs).map (fun g => (g.vec, g.typeAttr)) =
        (gates ⟨fun _ => 0, fun _ => 0⟩).map fun g => (g.vec, g.typeAttr) := rfl
    have hlist : ((gates ⟨fun _ => 0, fun _ => 0⟩).map fun g => (g.vec, g.typeAttr)).all
        (fun q => decide (irqBase ≤ q.1 → q.2 = idtIntGate)) = true := rfl
    intro g hg
    exact of_decide_eq_true (List.all_eq_true.mp hlist (g.vec, g.typeAttr) (hsame ▸ List.mem_map_of_mem hg))
  have htable : ∀ v, irqBase ≤ v →
      (((gates stubs.toStubs).foldl idtSetEntry (IdtState.powerOn pic1 pic2)).idt v).isTrap = false := by
    have hempty : IdtEntry.isTrap ⟨0, 0, 0, 0, 0, 0, 0⟩ = false := by decide
    refine @foldl_setEntry (fun v e => irqBase ≤ v → e.isTrap = false) _ _ (fun _ _ => hempty) fun g hg hirq => ?_
    simp only [idtSetEntry, Function.update_self, IdtEntry.isTrap, hgates g hg hirq]
    decide
  exact htable (lineVec i) (by revert i; decide)

theorem reach_sound {x : Interrupts} (h : Reached x) : Sound x := by
  obtain ⟨stubs, base, pic1, pic2, services, events, hlegal, rfl⟩ := h
  exact Machine.run_invariant (I := Sound) (fun x e hx hp => hx.step e hp) events _
    (boot_sound stubs base pic1 pic2 services) hlegal

/-- A keyboard, the cascade and a clock are registered; the keyboard interrupts twice. -/
def sampleEvents : List Event :=
  [.call (.register 0x21 0x102000 7), .call (.register 0x22 0x103000 0), .call (.register 0x28 0x104000 9),
    .raise 8, .raise 1, .accept, .raise 1, .exception 14, .finish]

/-- The code at the addresses of `sampleStubs`. -/
def sampleStubCode : StubCode where
  toStubs := sampleStubs
  dispatches address := ((gates sampleStubs).find? fun g => decide (g.handler = address)).map Gate.vec
  dispatches_gate := by decide

def sampleBoot : Interrupts := boot sampleStubCode 0x105000 samplePic samplePic ⟨⟨0x10, 0x01⟩, ⟨0, 0⟩⟩

theorem sample_legal : machine.Legal sampleBoot (sampleEvents ++ [.finish] ++ [.accept]) := by
  have hclock : 8 ∈ PicServices.priority := by decide
  have hkeyboard : 1 ∈ PicServices.priority := by decide
  exact ⟨rfl, rfl, rfl, hclock, hkeyboard, ⟨rfl, rfl, by decide⟩, hkeyboard, ⟨rfl, by decide⟩,
    ⟨rfl, List.cons_ne_nil _ _⟩, ⟨rfl, List.cons_ne_nil _ _⟩, ⟨rfl, rfl, by decide⟩, trivial⟩

theorem sample_legal_finish : machine.Legal sampleBoot (sampleEvents ++ [.finish]) :=
  ((Machine.legal_append machine _ _ _).mp sample_legal).1

theorem sample_reached : Reached (machine.run sampleBoot sampleEvents) :=
  ⟨_, _, _, _, _, sampleEvents, ((Machine.legal_append machine _ _ _).mp sample_legal_finish).1, rfl⟩

/-- The machine after the first interrupt of the keyboard. -/
def sampleState : Interrupts := machine.run sampleBoot (sampleEvents ++ [.finish])

theorem sampleState_reached : Reached sampleState :=
  ⟨_, _, _, _, _, sampleEvents ++ [Event.finish], sample_legal_finish, rfl⟩

/-! ### One line in service -/

end Interrupts

end AionOs
