import AionOs.Boot.Loader
import AionOs.Drivers.BringUp
import AionOs.Drivers.Frames
import AionOs.Interrupt.Handlers
import AionOs.Memory.DirectMap

/-!
# The kernel

`kernel_main`: the subsystems come up one after the other, and then the consciousness runs.  Left out are the
serial port and the screen, on which each stage writes a line, and the tables of `gdt_init`.

* `Quiet`, `Still`: what holds of the interrupts and of the buffers of the senses in every state.
* `Sound.step`: what one step adds to the captures and to the calls of handlers.
* `captured_still`: the senses of the kernel never tell anything new.
* `called_faults`: no device ever interrupts the kernel.
-/

namespace AionOs

namespace Kernel

open BringUp
open Loader (BootInfo aionMagic)
open Pointers (PtrEvent PtrSys Owns)

/-! ### The code -/

/-- What the linker places; a function is not at the null address. -/
structure Image where
  stubs : StubCode
  idt : U64
  swapPageFaultHandler : U64
  handler_ne : swapPageFaultHandler ≠ 0

/-- The machine when `kernel_main` is called: the bytes of the memory map, the words of the page tables and
the bytes of the heap, the chips, the devices with what the drivers find on the stack, and the disk. -/
structure Hardware (σ : Type) where
  ram : U64 → U8
  words : U64 → U64
  bytes : Nat → U8
  pic1 : Pic
  pic2 : Pic
  services : PicServices
  devices : Devices
  stack : Fin 4 → PciDevice
  disk : σ

/-- The kernel: `prev_luma` is static in `senses_capture`. -/
structure State (σ : Type) where
  interrupts : Interrupts
  devices : Devices
  cam : Cam
  mic : Mic
  memory : PtrSys σ
  prevLuma : U8
  /-- What `senses_capture` has returned so far. -/
  captured : List SenseSnapshot

def memoryMap (ram : U64 → U8) (info : BootInfo) : EfiMemoryMap :=
  ⟨ram, info.mmapAddr, info.mmapSize, info.mmapDescSize⟩

def networkGetStatus (d : Devices) : NetworkStatus := ⟨d.netInitialised, d.linkUp, 0⟩

def Hardware.heap {σ : Type} (hw : Hardware σ) (info : BootInfo) : Heap :=
  (memoryInit hw.words (memoryMap hw.ram info)).2

section Code

variable {σ : Type} (fs : FileSystem σ) (kinds : PciKinds)

/-- `kernel_main` up to `consciousness_run`; `none` stands for the halt before all.  The drivers on the PCI bus
come up around the camera and the microphone, with which they share nothing. -/
def kernelMain (cap : Nat) (image : Image) (info : Option BootInfo) (hw : Hardware σ) : Option (State σ) :=
  info.bind fun info =>
    if info.magic ≠ aionMagic then none
    else
      let interrupts := Interrupts.boot image.stubs image.idt hw.pic1 hw.pic2 hw.services
      -- `swap_init`, the end of `memory_init`
      let interrupts := interrupts.step (.call (.register 14 image.swapPageFaultHandler 0))
      let cam := camInit Cam.bss ⟨hw.heap info, hw.bytes⟩
      let mic := micInit Mic.bss cam.2
      some {
        interrupts := interrupts
        devices := bringUp kinds hw.stack hw.devices
        cam := cam.1
        mic := mic.1
        memory := Pointers.start fs cap hw.disk mic.2.heap mic.2.bytes
        prevLuma := 128
        captured := [] }

def sensesCapture (k : State σ) : Option (State σ) := do
  let (s, luma) ← AionOs.sensesCapture k.prevLuma (camGetLatestFrame k.memory.ram.bytes k.cam)
    (micGetLatestFrame k.memory.ram.bytes k.mic) (networkGetStatus k.devices)
  some { k with prevLuma := luma, captured := k.captured ++ [s] }

/-- What can happen while the consciousness runs.  No code registers a handler any more. -/
inductive Event where
  | raise (i : Nat)
  | accept
  | exception (vec : U8)
  | finish
  | memory (e : PtrEvent)
  | capture

def Event.interrupt : Event → Option Interrupts.Event
  | .raise i => some (.raise i)
  | .accept => some .accept
  | .exception vec => some (.exception vec)
  | .finish => some .finish
  | _ => none

def step (k : State σ) (e : Event) : Option (State σ) :=
  match e with
  | .memory e => some { k with memory := Pointers.step fs k.memory e }
  | .capture => sensesCapture k
  | e => some { k with interrupts := e.interrupt.elim k.interrupts k.interrupts.step }

/-- The heap is the one that `memory_init` made. -/
def Possible (heap : Heap) (k : State σ) : Event → Prop
  | .memory e => Pointers.Possible heap.heapPtr.toNat heap.heapEnd.toNat k.memory e
  | e => ∀ e' ∈ e.interrupt, k.interrupts.Possible e'

def machine (heap : Heap) : Machine (Option (State σ)) Event :=
  ⟨fun k e => k.bind fun k => step fs k e, fun k e => ∀ k' ∈ k, Possible heap k' e⟩

end Code

/-! ### The interrupts -/

/-- Every line is masked, and a handler is registered for page faults only. -/
structure Quiet (image : Image) (x : Interrupts) : Prop where
  sound : Interrupts.Sound x
  masked : ∀ i < 16, x.idt.lineMasked i = true
  handlers : ∀ vec, x.idt.userHandlers vec = if vec = 14 then image.swapPageFaultHandler else 0
  ctx : x.idt.userHandlerCtx 14 = 0
  gate : (x.idt.idt 14).present = true
  taken : x.taken = []

variable {image : Image}

def faultCall (image : Image) : HandlerCall := ⟨image.swapPageFaultHandler, 14, 0⟩

/-- With every line masked the processor has nothing to acknowledge. -/
theorem Quiet.not_accept {x : Interrupts} (h : Quiet image x) : ¬ x.Possible .accept := by
  intro hp
  obtain ⟨i, rest, hwaiting⟩ := h.sound.waiting_of_possible hp
  obtain ⟨hi, hopen⟩ := Interrupts.lineMasked_of_waiting (hwaiting ▸ List.mem_cons_self : i ∈ x.waiting)
  rw [h.masked i hi] at hopen
  cases hopen

/-- **An exception** calls the handler of page faults, or none. -/
theorem Quiet.exception {x : Interrupts} (h : Quiet image x) {vec : U8} (hvec : vec < irqBase) :
    Quiet image (x.step (.exception vec)) ∧
      (x.step (.exception vec)).called = x.called ++ if vec = 14 then [faultCall image] else [] := by
  have hsound := h.sound.exception hvec
  have hstep : x.step (.exception vec) = Interrupts.enter vec x := rfl
  rw [hstep] at hsound ⊢
  constructor
  · obtain ⟨_, henter⟩ | ⟨_, _, called, henter⟩ := Interrupts.enter_cases vec x
    · rw [henter] at hsound ⊢
      exact ⟨hsound, h.masked, h.handlers, h.ctx, h.gate, h.taken⟩
    · rw [henter] at hsound ⊢
      exact ⟨hsound, h.masked, h.handlers, h.ctx, h.gate, h.taken⟩
  · by_cases hfault : vec = 14
    · subst hfault
      rw [Interrupts.enter_some (h.sound.stubOf_eq_some.mpr ⟨h.gate, rfl⟩), Interrupts.callHandler]
      simp only [Interrupts.push, h.handlers 14, h.ctx, if_true, ne_eq, image.handler_ne, not_false_eq_true]
      rfl
    · unfold Interrupts.enter
      rw [if_neg hfault, List.append_nil]
      split
      · rename_i arg hstub
        obtain ⟨_, rfl⟩ := h.sound.stubOf_eq_some.mp hstub
        have hnone : (Interrupts.push arg arg x).idt.userHandlers arg = 0 := (h.handlers arg).trans (if_neg hfault)
        rw [Interrupts.callHandler, if_neg (not_not_intro hnone)]
        rfl
      · rfl

theorem Quiet.finish {x : Interrupts} (h : Quiet image x) (hp : x.Possible .finish) :
    Quiet image (x.step .finish) ∧ (x.step .finish).called = x.called := by
  obtain ⟨hrun, hsome⟩ := hp
  have hsound := h.sound.finish ⟨hrun, hsome⟩
  cases hframes : x.frames with
  | nil => exact absurd hframes hsome
  | cons frame frames =>
    obtain ⟨services, hfinish, _⟩ := h.sound.finish_eq hrun hframes
    have hstep : x.step .finish = Interrupts.finish x := rfl
    rw [hstep, hfinish] at hsound ⊢
    exact ⟨⟨hsound, h.masked, h.handlers, h.ctx, h.gate, h.taken⟩, rfl⟩

theorem quiet_start (image : Image) (pic1 pic2 : Pic) (services : PicServices) :
    Quiet image ((Interrupts.boot image.stubs image.idt pic1 pic2 services).step
      (.call (.register 14 image.swapPageFaultHandler 0))) := by
  obtain ⟨_, hmasked, _⟩ := idtInit_spec image.stubs.toStubs image.idt pic1 pic2
  have hsound := (Interrupts.boot_sound image.stubs image.idt pic1 pic2 services).call
    (.register 14 image.swapPageFaultHandler 0)
  have hirq : ¬ IsIrq 14 := by decide
  have hidt : ((Interrupts.boot image.stubs image.idt pic1 pic2 services).step
      (.call (.register 14 image.swapPageFaultHandler 0))).idt =
      let s := (Interrupts.boot image.stubs image.idt pic1 pic2 services).idt
      { s with
        userHandlers := Function.update s.userHandlers 14 image.swapPageFaultHandler
        userHandlerCtx := Function.update s.userHandlerCtx 14 0 } := by
    show idtRegisterHandler 14 image.swapPageFaultHandler 0 _ = _
    rw [idtRegisterHandler, if_neg hirq]
  refine ⟨hsound, fun i hi => ?_, fun vec => ?_, ?_, ?_, rfl⟩
  · rw [hidt]
    exact hmasked i hi
  · have hnone : (Interrupts.boot image.stubs image.idt pic1 pic2 services).idt.userHandlers = fun _ => 0 := rfl
    rw [hidt]
    dsimp only
    rw [hnone, Function.update_apply]
  · rw [hidt]
    dsimp only
    rw [Function.update_self]
  · rw [hidt]
    show (((gates image.stubs.toStubs).foldl idtSetEntry (IdtState.powerOn pic1 pic2)).idt 14).present = true
    rw [present_foldl]
    have hvecs : (14 : U8) ∈ (gates ⟨fun _ => 0, fun _ => 0⟩).map Gate.vec := by decide
    exact .inl hvecs

/-! ### The senses -/

/-- The buffers of the camera and the microphone are as the drivers filled them. -/
def Still {σ : Type} (heap : Heap) (k : State σ) : Prop :=
  ∃ (p q : U64) (filled : List (Nat × List U8)),
    k.cam = ⟨BitVec.ofNat 32 camWidth, BitVec.ofNat 32 camHeight, p, BitVec.ofNat 32 camFrameSize, p, true⟩ ∧
    k.mic = ⟨BitVec.ofNat 32 micSampleRate, BitVec.ofNat 32 micChannels, BitVec.ofNat 32 micBufSamples, q, q, true⟩ ∧
    (p.toNat, List.replicate camFrameSize 128) ∈ filled ∧ (q.toNat, List.replicate micBufBytes 0) ∈ filled ∧
    Owns heap.heapPtr.toNat heap.heapEnd.toNat filled k.memory.others k.memory.ram ∧ k.prevLuma = 128

section Runs

variable {σ : Type} {fs : FileSystem σ} {kinds : PciKinds} {heap : Heap}

theorem Still.memory {k : State σ} (h : Still heap k) {e : PtrEvent}
    (hp : Pointers.Possible heap.heapPtr.toNat heap.heapEnd.toNat k.memory e) :
    Still heap { k with memory := Pointers.step fs k.memory e } := by
  obtain ⟨p, q, filled, hcam, hmic, hgrey, hsilent, howns, hluma⟩ := h
  obtain ⟨new, howns', _⟩ := @Pointers.step_refines _ _ _ _ fs _ howns _ hp
  exact ⟨p, q, new ++ filled, hcam, hmic, List.mem_append_right new hgrey, List.mem_append_right new hsilent, howns',
    hluma⟩

/-- **A capture tells no motion and no sound**, and leaves the senses as they were. -/
theorem Still.capture {k : State σ} (h : Still heap k) :
    sensesCapture k = some { k with captured := k.captured ++ [stillSnapshot (networkGetStatus k.devices)] } := by
  obtain ⟨p, q, filled, hcam, hmic, hgrey, hsilent, howns, hluma⟩ := h
  have hstill := sensesCapture_still hcam hmic (fun i hi => howns.holds.cell hgrey hi)
    (fun i hi => howns.holds.cell hsilent hi) (networkGetStatus k.devices)
  rw [sensesCapture, hluma, hstill, ← hluma]
  rfl

/-! ### Runs -/

structure Sound (image : Image) (heap : Heap) (k : State σ) : Prop where
  quiet : Quiet image k.interrupts
  still : Still heap k

def Event.captures : Event → Bool
  | .capture => true
  | _ => false

def Event.faults : Event → Bool
  | .exception vec => decide (vec = 14)
  | _ => false

/-- **What a step does**: the only thing that the senses tell is stillness, and the only handler that is
called is the one of page faults. -/
theorem Sound.step (fs : FileSystem σ) {k : State σ} (h : Sound image heap k) {e : Event} (hp : Possible heap k e) :
    ∃ k', Kernel.step fs k e = some k' ∧ Sound image heap k' ∧ k'.devices = k.devices ∧
      k'.captured = k.captured ++ (if e.captures then [stillSnapshot (networkGetStatus k.devices)] else []) ∧
      k'.interrupts.called = k.interrupts.called ++ if e.faults then [faultCall image] else [] := by
  have hnone : ∀ {α : Type} (l : List α), l = l ++ [] := fun l => (List.append_nil l).symm
  cases e with
  | raise i =>
    have hquiet : Quiet image (k.interrupts.step (.raise i)) :=
      ⟨h.quiet.sound.raise i, h.quiet.masked, h.quiet.handlers, h.quiet.ctx, h.quiet.gate, h.quiet.taken⟩
    exact ⟨_, rfl, ⟨hquiet, h.still⟩, rfl, hnone _, hnone _⟩
  | accept => exact absurd (hp _ rfl) h.quiet.not_accept
  | exception vec =>
    obtain ⟨hquiet, hcalled⟩ := h.quiet.exception (hp _ rfl).2
    refine ⟨_, rfl, ⟨hquiet, h.still⟩, rfl, hnone _, hcalled.trans ?_⟩
    simp only [Event.faults, decide_eq_true_eq]
  | finish =>
    obtain ⟨hquiet, hcalled⟩ := h.quiet.finish (hp _ rfl)
    exact ⟨_, rfl, ⟨hquiet, h.still⟩, rfl, hnone _, hcalled.trans (hnone _)⟩
  | memory e => exact ⟨_, rfl, ⟨h.quiet, h.still.memory hp⟩, rfl, hnone _, hnone _⟩
  | capture => exact ⟨_, h.still.capture, ⟨h.quiet, h.still⟩, rfl, rfl, hnone _⟩

theorem replicate_countP_cons {α β : Type} (p : α → Bool) (a : α) (as : List α) (b : β) :
    List.replicate ((a :: as).countP p) b = (if p a then [b] else []) ++ List.replicate (as.countP p) b := by
  rw [List.countP_cons]
  split
  · rw [List.replicate_succ]
    rfl
  · rfl

theorem Sound.run : ∀ (events : List Event) {k : State σ}, Sound image heap k →
    (machine fs heap).Legal (some k) events → ∃ k', (machine fs heap).run (some k) events = some k' ∧
      k'.captured = k.captured ++
        List.replicate (events.countP Event.captures) (stillSnapshot (networkGetStatus k.devices)) ∧
      k'.interrupts.called = k.interrupts.called ++ List.replicate (events.countP Event.faults) (faultCall image) ∧
      k'.interrupts.taken = [] := by
  intro events
  induction events with
  | nil => intro k h _; exact ⟨k, rfl, (List.append_nil _).symm, (List.append_nil _).symm, h.quiet.taken⟩
  | cons e events ih =>
    intro k h hl
    obtain ⟨k', hstep, hsound, hdevices, hcaptured, hcalled⟩ := h.step fs (hl.1 k rfl)
    have hnext : (machine fs heap).step (some k) e = some k' := hstep
    obtain ⟨k'', hrun, hcaptured', hcalled', htaken⟩ := ih hsound (hnext ▸ hl.2)
    refine ⟨k'', ?_, ?_, ?_, htaken⟩
    · rw [Machine.run_cons, hnext, hrun]
    · rw [hcaptured', hcaptured, hdevices, List.append_assoc, replicate_countP_cons]
    · rw [hcalled', hcalled, List.append_assoc, replicate_countP_cons]

/-- **The kernel comes up** with its buffers filled. -/
theorem kernelMain_sound (fs : FileSystem σ) (kinds : PciKinds) (cap : Nat) (image : Image) {info : BootInfo}
    (hmagic : info.magic = aionMagic) {hw : Hardware σ} (hfatal : NoFatal hw.words (memoryMap hw.ram info)) :
    ∃ k, kernelMain fs kinds cap image (some info) hw = some k ∧
      Sound image (hw.heap info) k ∧
      k.devices = bringUp kinds hw.stack hw.devices ∧ k.captured = [] ∧ k.interrupts.called = [] := by
  obtain ⟨ok, hroom⟩ := kmallocInit_room Heap.bss hfatal.heap
  change (hw.heap info).Ok at ok
  change (hw.heap info).room = 16777216 at hroom
  rw [kernelMain, Option.bind_some]
  dsimp only
  rw [if_neg (not_not_intro hmagic)]
  generalize hw.heap info = heap at *
  have hgave : (HeapBytes.mk heap hw.bytes).Gave heap.heapPtr.toNat heap.heapEnd.toNat [] :=
    ⟨ok, rfl, Ram.holds_start _ hw.bytes⟩
  have hcamSize : blockSize camFrameSize = 153600 := by decide
  have hmicSize : blockSize micBufBytes = 8192 := by decide
  have hcamRoom : blockSize camFrameSize ≤ heap.room := by omega
  obtain ⟨p, hcam, hgave', hleft⟩ := camInit_spec hgave hcamRoom Cam.bss
  change _ = heap.room at hleft
  generalize camInit Cam.bss ⟨heap, hw.bytes⟩ = cam at hcam hgave' hleft ⊢
  obtain ⟨q, hmic, hgave''⟩ := micInit_spec hgave' (by omega) Mic.bss
  generalize micInit Mic.bss cam.2 = mic at hmic hgave'' ⊢
  obtain ⟨new, howns, _⟩ := Pointers.boot_refines fs cap hw.disk hgave''.ok hgave''.holds
  rw [hgave''.heapEnd] at howns
  refine ⟨_, rfl, ⟨quiet_start image hw.pic1 hw.pic2 hw.services, p, q, _, hcam, hmic, ?_, ?_, howns, rfl⟩, ?_, ?_, ?_⟩
  · exact List.mem_append_right new (List.mem_cons_of_mem _ List.mem_cons_self)
  · exact List.mem_append_right new List.mem_cons_self
  · dsimp only
  · dsimp only
  · rfl

theorem kernelMain_run {cap : Nat} {image : Image} {info : BootInfo} (hmagic : info.magic = aionMagic)
    {hw : Hardware σ} (hfatal : NoFatal hw.words (memoryMap hw.ram info)) {events : List Event}
    (hl : (machine fs (hw.heap info)).Legal (kernelMain fs kinds cap image (some info) hw) events) :
    ∃ k, (machine fs (hw.heap info)).run (kernelMain fs kinds cap image (some info) hw) events = some k ∧
      k.captured = List.replicate (events.countP Event.captures)
        (stillSnapshot (networkGetStatus (bringUp kinds hw.stack hw.devices))) ∧
      k.interrupts.called = List.replicate (events.countP Event.faults) (faultCall image) ∧
      k.interrupts.taken = [] := by
  obtain ⟨k, hk, hsound, hdevices, hcaptured, hcalled⟩ := kernelMain_sound fs kinds cap image hmagic hfatal
  rw [hk] at hl ⊢
  obtain ⟨k', hrun, hcaptured', hcalled', htaken⟩ := hsound.run events hl
  rw [hcaptured, hdevices, List.nil_append] at hcaptured'
  rw [hcalled, List.nil_append] at hcalled'
  exact ⟨k', hrun, hcaptured', hcalled', htaken⟩

end Runs

section Kernel

variable {σ : Type} (fs : FileSystem σ) (kinds : PciKinds) (cap : Nat) (image : Image)

end Kernel

/-! ### A page fault between two captures -/

def sampleImage : Image := ⟨Interrupts.sampleStubCode, 0x105000, 0x106000, by decide⟩

def sampleInfo : BootInfo := { Loader.bootInfo with mmapAddr := 0, mmapSize := 40, mmapDescSize := 40 }

def sampleHardware : Hardware (Path → Option (List U8)) where
  ram := clearEfiMap.bytes
  words _ := 0
  bytes _ := 0xCC
  pic1 := samplePic
  pic2 := samplePic
  services := ⟨⟨0, 0⟩, ⟨0, 0⟩⟩
  devices := deskDevices
  stack _ := noDevice
  disk := emptyDisk

/-- The keyboard interrupts, and a page fault comes while a memory is stored. -/
def sampleEvents : List Event :=
  [.raise 1, .exception 14, .memory (.call (.store (some (sampleEntry 1)) sampleStack)), .finish, .capture, .capture]

theorem sample_legal : (machine sampleFs (sampleHardware.heap sampleInfo)).Legal
    (kernelMain sampleFs usualKinds 8 sampleImage (some sampleInfo) sampleHardware) sampleEvents := by
  refine ⟨fun k hk => ?_, fun k hk => ?_, fun k hk => ?_, fun k hk => ?_, fun k hk => ?_, fun k hk => ?_, trivial⟩
  · obtain rfl := Option.some.inj hk
    rintro _ ⟨⟩
    exact (by decide : 1 ∈ PicServices.priority)
  · obtain rfl := Option.some.inj hk
    rintro _ ⟨⟩
    exact ⟨rfl, by decide⟩
  · exact trivial
  · obtain rfl := Option.some.inj hk
    rintro _ ⟨⟩
    exact ⟨rfl, List.cons_ne_nil _ _⟩
  · rintro _ ⟨⟩
  · rintro _ ⟨⟩

end Kernel

end AionOs
