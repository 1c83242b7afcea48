import AionOs.Interrupt.Dispatch

/-!
# The requests of the devices

What becomes of a line that a device raises, in any interleaving of the devices, the processor
and the handlers.

* `latched_eq`: no request is lost or served twice.
* `round_spec`: one acknowledgement and the return from it.
* `rounds_spec`: everything that waits is served once, in the order of priority.
-/

namespace AionOs

namespace Interrupts

/-! ### No request is lost -/

/-- Every request is acknowledged once, or waits. -/
def Conserved (x : Interrupts) : Prop :=
  ∀ i ∈ PicServices.priority, x.latched.count i = x.taken.count i + (x.services.requested i).toNat

theorem requested_congr {s t : PicServices} (h1 : s.first.irr = t.first.irr) (h2 : s.second.irr = t.second.irr)
    (i : Nat) : s.requested i = t.requested i := by
  unfold PicServices.requested
  rw [h1, h2]

theorem Conserved.raise {x : Interrupts} (h : Conserved x) {j : Nat} (hj : j ∈ PicServices.priority) :
    Conserved (x.step (.raise j)) := by
  intro i hi
  have hrequested := PicServices.requested_raise (s := x.services) (mem_priority hj).1 (mem_priority hi).1
  have hold := h i hi
  show (if x.services.requested j then x.latched else x.latched ++ [j]).count i =
    x.taken.count i + ((x.services.raise j).requested i).toNat
  rw [hrequested]
  by_cases hij : i = j
  · subst hij
    cases hreq : x.services.requested i with
    | true => simpa [hreq] using hold
    | false => simpa [hreq] using hold
  · have hcount : (x.latched ++ [j]).count i = x.latched.count i := by
      rw [List.count_append, List.count_singleton, beq_false_of_ne (Ne.symm hij)]
      rfl
    rw [decide_eq_false hij, Bool.or_false, ← hold]
    split
    · rfl
    · exact hcount

theorem enter_history (vec : U8) (x : Interrupts) : (enter vec x).services = x.services ∧
    (enter vec x).latched = x.latched ∧ (enter vec x).taken = x.taken := by
  obtain ⟨_, henter⟩ | ⟨_, _, called, henter⟩ := enter_cases vec x
  · rw [henter]
    exact ⟨rfl, rfl, rfl⟩
  · rw [henter]
    exact ⟨rfl, rfl, rfl⟩

theorem Conserved.accept {x : Interrupts} (h : Conserved x) (hsound : Sound x) (hp : x.Possible .accept) :
    Conserved (x.step .accept) := by
  obtain ⟨i, rest, hwaiting⟩ := hsound.waiting_of_possible hp
  have hmem : i ∈ x.waiting := hwaiting ▸ List.mem_cons_self
  obtain ⟨hi, hwaits⟩ := List.mem_filter.mp hmem
  have hrequested : x.services.requested i = true := (Bool.and_eq_true_iff.mp hwaits).1
  have hstep : x.step .accept = _ := hsound.accept_eq hp.1 hp.2.1 hwaiting
  rw [hstep]
  obtain ⟨hservices, hlatched, htaken⟩ := enter_history (lineVec i) { x with
    services := PicServices.acknowledge x.idt.pic1 x.idt.pic2 x.services i
    taken := x.taken ++ [i] }
  intro j hj
  rw [hservices, hlatched, htaken, PicServices.requested_acknowledge (mem_priority hi).1 (mem_priority hj).1
    (mem_priority hj).2, List.count_append, List.count_singleton]
  have hold := h j hj
  by_cases hji : j = i
  · subst hji
    rw [hrequested] at hold
    simpa using hold
  · have hne : ¬ i = j := fun he => hji he.symm
    simpa [hji, hne] using hold

theorem Conserved.step {x : Interrupts} (h : Conserved x) (hsound : Sound x) (e : Event) (hp : x.Possible e) :
    Conserved (x.step e) := by
  cases e with
  | raise i => exact h.raise hp
  | accept => exact h.accept hsound hp
  | exception vec =>
    obtain ⟨hservices, hlatched, htaken⟩ := enter_history vec x
    intro i hi
    show (enter vec x).latched.count i = _
    rw [hlatched, h i hi, ← htaken, ← hservices]
    rfl
  | call c => exact h
  | finish =>
    obtain ⟨hrun, hsome⟩ := hp
    cases hframes : x.frames with
    | nil => exact absurd hframes hsome
    | cons frame frames =>
      obtain ⟨services, hfinish, hirr1, hirr2, _⟩ := hsound.finish_eq hrun hframes
      have hstep : x.step .finish = Interrupts.finish x := rfl
      intro i hi
      rw [hstep, hfinish, requested_congr hirr1 hirr2 i]
      exact h i hi

/-- The initialization of the chips drops what waited. -/
theorem boot_conserved (stubs : StubCode) (base : U64) (pic1 pic2 : Pic) (services : PicServices) :
    Conserved (boot stubs base pic1 pic2 services) := by
  have hservices : (boot stubs base pic1 pic2 services).services = ⟨⟨0, 0⟩, ⟨0, 0⟩⟩ := rfl
  have hnone : ∀ i ∈ PicServices.priority, PicServices.requested ⟨⟨0, 0⟩, ⟨0, 0⟩⟩ i = false := by decide
  intro i hi
  rw [hservices, hnone i hi]
  rfl

/-- **No request is lost or served twice**: the requests that a line has made are those for which
it was acknowledged, and one more while it waits. -/
theorem latched_eq {x : Interrupts} (h : Reached x) {i : Nat} (hi : i ∈ PicServices.priority) :
    x.latched.count i = x.taken.count i + (x.services.requested i).toNat := by
  obtain ⟨stubs, base, pic1, pic2, services, events, hlegal, rfl⟩ := h
  have hboth : Sound (machine.run (boot stubs base pic1 pic2 services) events) ∧
      Conserved (machine.run (boot stubs base pic1 pic2 services) events) :=
    Machine.run_invariant (I := fun x => Sound x ∧ Conserved x)
      (fun x e hx hp => ⟨Sound.step hx.1 e hp, hx.2.step hx.1 e hp⟩) events _
      ⟨boot_sound stubs base pic1 pic2 services, boot_conserved stubs base pic1 pic2 services⟩ hlegal
  exact hboth.2 i hi

/-- The keyboard's second request waits. -/
theorem keyboard_latched : (machine.run sampleBoot sampleEvents).latched.count 1 =
    (machine.run sampleBoot sampleEvents).taken.count 1 +
      ((machine.run sampleBoot sampleEvents).services.requested 1).toNat :=
  latched_eq sample_reached (by decide)

/-! ### Everything that waits is served -/

def callOf (s : IdtState) (i : Nat) : Option HandlerCall :=
  if s.userHandlers (lineVec i) ≠ 0 then
    some ⟨s.userHandlers (lineVec i), lineVec i, s.userHandlerCtx (lineVec i)⟩
  else none

theorem callHandler_lineVec (i : Nat) (x : Interrupts) :
    callHandler (lineVec i) x = { x with called := x.called ++ (callOf x.idt i).toList } := by
  unfold callHandler callOf
  split
  · rfl
  · simp only [Option.toList_none, List.append_nil]

/-- The processor serves one line after the other, and nothing else happens. -/
def rounds : Nat → List Event
  | 0 => []
  | n + 1 => .accept :: .finish :: rounds n

/-- **One round** serves the first line that waits. -/
theorem round_spec {x : Interrupts} (h : Sound x) (hrun : x.stopped = false)
    (hflag : x.idt.interruptFlag = true) {i : Nat} {rest : List Nat} (hwaiting : x.waiting = i :: rest)
    (hgate : i ∈ gateLines) : x.Possible .accept ∧ (x.step .accept).Possible .finish ∧
      ∃ services, (x.step .accept).step .finish = { x with
        services := services
        called := x.called ++ (callOf x.idt i).toList
        taken := x.taken ++ [i] } ∧ ((x.step .accept).step .finish).waiting = rest := by
  have hi : i < 16 := (mem_priority (List.mem_of_mem_filter (hwaiting ▸ List.mem_cons_self))).1
  have hpossible : x.Possible .accept :=
    ⟨hrun, hflag, by rw [h.pending_eq hrun hflag, hwaiting]; exact Option.some_ne_none i⟩
  have haccept : x.step .accept = { x with
      services := PicServices.acknowledge x.idt.pic1 x.idt.pic2 x.services i
      taken := x.taken ++ [i]
      frames := ⟨lineVec i, true⟩ :: x.frames
      idt := { x.idt with interruptFlag := false }
      called := x.called ++ (callOf x.idt i).toList } := by
    have hstep : x.step .accept = _ := h.accept_eq hrun hflag hwaiting
    have hstub : stubOf (lineVec i) { x with
        services := PicServices.acknowledge x.idt.pic1 x.idt.pic2 x.services i
        taken := x.taken ++ [i] } = some (lineVec i) :=
      h.stubOf_eq_some.mpr ⟨(h.present i hi).mpr hgate, rfl⟩
    rw [hstep, enter_some hstub, callHandler_lineVec, push, h.gates i hi, hflag]
    rfl
  have hsound := h.accept hpossible
  rw [haccept] at hsound ⊢
  obtain ⟨services, hfinish, hirr1, hirr2, _⟩ := hsound.finish_eq hrun rfl
  have hidt : ({ x.idt with interruptFlag := true } : IdtState) = x.idt := by
    rw [← hflag]
  have hround := hfinish.trans (by rw [hidt] : _ = { x with
    services := services
    called := x.called ++ (callOf x.idt i).toList
    taken := x.taken ++ [i] })
  refine ⟨hpossible, ⟨hrun, List.cons_ne_nil _ _⟩, services, hround, ?_⟩
  have hwaits : PicServices.waits x.idt.pic1 x.idt.pic2 services = PicServices.waits x.idt.pic1 x.idt.pic2
      (PicServices.acknowledge x.idt.pic1 x.idt.pic2 x.services i) := funext fun j => by
    rw [PicServices.waits, requested_congr hirr1 hirr2 j, PicServices.waits]
  have hlines : ((({ x with services := services } : Interrupts)).waiting) = rest := by
    rw [waiting, PicServices.waiting, hwaits]
    exact PicServices.waiting_acknowledge hwaiting
  exact (congrArg waiting hround).trans hlines

/-- **Everything that waits is served** once and in the order of priority, if nothing else
happens, and the interrupted program goes on as before. -/
theorem rounds_sound {x : Interrupts} (h : Sound x) (hrun : x.stopped = false)
    (hflag : x.idt.interruptFlag = true) (hgates : ∀ i ∈ x.waiting, i ∈ gateLines) :
    machine.Legal x (rounds x.waiting.length) ∧ ∃ services,
      machine.run x (rounds x.waiting.length) = { x with
        services := services
        called := x.called ++ x.waiting.filterMap (callOf x.idt)
        taken := x.taken ++ x.waiting } ∧
      (machine.run x (rounds x.waiting.length)).waiting = [] := by
  induction hwaiting : x.waiting generalizing x with
  | nil =>
    refine ⟨trivial, x.services, ?_, hwaiting⟩
    rw [List.filterMap_nil, List.append_nil, List.append_nil]
    rfl
  | cons i rest ih =>
    obtain ⟨haccept, hfinish, services, hround, hrest⟩ :=
      round_spec h hrun hflag hwaiting (hgates i (hwaiting ▸ List.mem_cons_self))
    have hsound := (h.accept haccept).finish hfinish
    rw [hround] at hsound hrest
    obtain ⟨hlegal, services', hruns, hnone⟩ := ih hsound hrun hflag
      (fun j hj => hgates j (hwaiting ▸ List.mem_cons_of_mem i (hrest ▸ hj))) hrest
    have hsteps : machine.run x (rounds (i :: rest).length) =
        machine.run ((x.step .accept).step .finish) (rounds rest.length) := rfl
    rw [hround] at hsteps
    refine ⟨⟨haccept, hfinish, ?_⟩, services', ?_, hsteps ▸ hnone⟩
    · have hnext : machine.step (machine.step x .accept) .finish = _ := hround
      rw [hnext]
      exact hlegal
    · rw [hsteps, hruns, List.filterMap_cons]
      cases callOf x.idt i with
      | none => simp only [Option.toList_none, List.append_nil, List.append_assoc, List.cons_append, List.nil_append]
      | some c => simp only [Option.toList_some, List.append_assoc, List.cons_append, List.nil_append]

/-- `rounds_sound` in a run. -/
theorem rounds_spec {x : Interrupts} (h : Reached x) (hrun : x.stopped = false)
    (hflag : x.idt.interruptFlag = true) (hgates : ∀ i ∈ x.waiting, i ∈ gateLines) :
    machine.Legal x (rounds x.waiting.length) ∧ ∃ services,
      machine.run x (rounds x.waiting.length) = { x with
        services := services
        called := x.called ++ x.waiting.filterMap (callOf x.idt)
        taken := x.taken ++ x.waiting } ∧
      (machine.run x (rounds x.waiting.length)).waiting = [] :=
  rounds_sound (reach_sound h) hrun hflag hgates

/-- The keyboard and then the clock are served. -/
theorem sample_rounds : (machine.run sampleState (rounds sampleState.waiting.length)).waiting = [] := by
  have hgates : ∀ i ∈ sampleState.waiting, i ∈ gateLines := by decide +kernel
  obtain ⟨_, _, _, hnone⟩ := rounds_spec sampleState_reached rfl rfl hgates
  exact hnone

end Interrupts

end AionOs
