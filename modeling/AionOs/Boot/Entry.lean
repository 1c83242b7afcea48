import AionOs.Lib.Cpu

/-!
# The entry of the kernel

`kernel_entry` of `kernel/arch/asm/entry.asm`, from its first instruction to the call of
`kernel_main`, for any layout of the kernel.

* `entry_reaches`, `callState_spec`: the run comes to the call, with the end of `.bss` in RDI.
* `callState_prepared`: the segments, the stack and the table at the call.
* `pushed_apart`, `pushSpares_of_bss`: where the two words go that are pushed.
* `boot_handoff_iff`, `handoff_address`: when `kernel_main` gets what the bootloader passes.
-/

namespace AionOs

open Cpu

/-! ### The code -/

/-- The addresses that the linker gives: of the instructions of `kernel_entry` and of the symbols
they use. -/
structure Layout where
  addr : Nat → Word
  gdtDescriptor : Word
  kernelStackTop : Word
  bssStart : Word
  bssEnd : Word
  bss_le : bssStart.toNat ≤ bssEnd.toNat

/-- `kernel_entry`, up to the call; `.reload_cs` is the address of instruction 7. -/
def kernelEntryCode (l : Layout) : List Instr := [
  .mov .rsp l.kernelStackTop,
  .and .rsp (~~~ 0xF),
  .cld,
  .lgdt l.gdtDescriptor,
  .push 0x08,
  .push (l.addr 7),
  .retfq,
  .mov16 .rax 0x10,
  .movSeg .ds .rax,
  .movSeg .es .rax,
  .movSeg .fs .rax,
  .movSeg .gs .rax,
  .movSeg .ss .rax,
  .mov .rdi l.bssStart,
  .mov .rcx l.bssEnd,
  .sub .rcx .rdi,
  .zero8 .rax,
  .repStosb]

/-- The sizes of the fields of `AionBootInfo`, which is packed: from `magic` to `mmap_desc_size`,
`mmap_desc_version`, `mmap_key`, `fb_addr`, the four numbers of the screen, `rsdp_addr` and
`reserved`. -/
def bootInfoFields : List Nat := [8, 8, 8, 8, 8, 8, 4, 8, 8, 4, 4, 4, 4, 8] ++ List.replicate 8 8

def bootInfoSize : Nat := bootInfoFields.sum

/-! ### The run -/

variable (l : Layout) (s : State)

def InBss (a : Word) : Prop := l.bssStart.toNat ≤ a.toNat ∧ a.toNat < l.bssEnd.toNat

instance (a : Word) : Decidable (InBss l a) := inferInstanceAs (Decidable (_ ∧ _))

def stackBase : Word := l.kernelStackTop &&& ~~~ 0xF

def pushedMem : Word → BitVec 8 :=
  store64 (store64 s.mem (stackBase l - 8) 0x08) (stackBase l - 8 - 8) (l.addr 7)

theorem inBss_iff (a : Word) :
    (a - l.bssStart).toNat < (l.bssEnd - l.bssStart).toNat ↔ InBss l a := by
  have hle := l.bss_le
  rw [InBss]
  bv_omega

def beforeReload : List Instr := (kernelEntryCode l).take 6

def afterReload : List Instr := ((kernelEntryCode l).drop 7).take 10

theorem beforeReload_straight : ∀ i ∈ beforeReload l, i ≠ .retfq := by
  rintro i hi rfl
  simp [beforeReload, kernelEntryCode] at hi

theorem afterReload_straight : ∀ i ∈ afterReload l, i ≠ .retfq := by
  rintro i hi rfl
  simp [afterReload, kernelEntryCode] at hi

def returnState : State := execs l.addr (beforeReload l) 0 s

theorem returnState_rsp : (returnState l s).regs .rsp = stackBase l - 8 - 8 := rfl

theorem returnState_mem : (returnState l s).mem = pushedMem l s := rfl

def reloadState : State := Instr.exec (l.addr 7) (returnState l s) .retfq

/-- **The far return** comes to `.reload_cs`, as its address was pushed. -/
theorem reload_rip : (reloadState l s).rip = l.addr 7 := by
  have hpopped : (reloadState l s).rip =
      load64 (returnState l s).mem ((returnState l s).regs .rsp) := rfl
  rw [hpopped, returnState_mem, returnState_rsp, pushedMem, load64_store64]

/-- It loads the segment that was pushed first. -/
theorem reload_cs : (reloadState l s).segs .cs = 0x08 := by
  have hpopped : (reloadState l s).segs .cs =
      (load64 (returnState l s).mem ((returnState l s).regs .rsp + 8)).truncate 16 := rfl
  rw [hpopped, returnState_mem, returnState_rsp, pushedMem, load64_store64_below,
    BitVec.sub_add_cancel, load64_store64]
  rfl

def storeState : State := execs l.addr (afterReload l) 7 (reloadState l s)

theorem storeState_rax : ((storeState l s).regs .rax).truncate 8 = (0 : BitVec 8) := by
  have hcleared : ∃ x : BitVec 56, (storeState l s).regs .rax = x ++ (0 : BitVec 8) := ⟨_, rfl⟩
  obtain ⟨x, hx⟩ := hcleared
  rw [hx]
  exact BitVec.setWidth_append_eq_right

def callState : State := Instr.exec (l.addr 18) (storeState l s) .repStosb

variable {l s}

/-- **The run** comes to the call. -/
theorem entry_reaches (hrip : s.rip = l.addr 0) :
    run l.addr (kernelEntryCode l) 0 s = some (callState l s) := by
  have hcode : kernelEntryCode l = beforeReload l ++ .retfq :: (afterReload l ++ [.repStosb]) := rfl
  obtain ⟨hrun, hreturn⟩ := run_straight (beforeReload_straight l)
    (.retfq :: (afterReload l ++ [.repStosb])) hrip
  obtain ⟨hrun', hstore⟩ := run_straight (afterReload_straight l) [.repStosb] (reload_rip l s)
  rw [hcode, hrun, run_cons hreturn]
  refine hrun'.trans ?_
  rw [run_cons hstore]
  exact run_nil rfl

variable (l s)

theorem callState_spec : (callState l s).regs .rdi = l.bssEnd ∧
    ∀ a, (callState l s).mem a = if InBss l a then 0 else pushedMem l s a := by
  obtain ⟨hrdi, hmem⟩ := stos_spec (l.bssEnd - l.bssStart).toNat (storeState l s)
    (Nat.le_of_lt (BitVec.isLt _)) rfl
  have hstart : (storeState l s).regs .rdi = l.bssStart := rfl
  have hkept : (storeState l s).mem = pushedMem l s := rfl
  refine ⟨hrdi.trans ?_, fun a => (hmem a).trans ?_⟩
  · rw [hstart, BitVec.ofNat_toNat, BitVec.setWidth_eq, BitVec.add_comm, BitVec.sub_add_cancel]
  · rw [hstart, storeState_rax, hkept]
    exact if_congr (inBss_iff l a) rfl rfl

/-! ### The processor at the call -/

/-- The processor as compiled code expects it. -/
structure Prepared (s' : State) : Prop where
  code : s'.segs .cs = 0x08
  data : ∀ sg, sg ≠ .cs → s'.segs sg = 0x10
  stack : s'.regs .rsp = stackBase l
  aligned : s'.regs .rsp &&& 0xF = 0
  upwards : s'.down = false
  table : s'.gdtr = fun i => s.mem (l.gdtDescriptor + BitVec.ofNat 64 i)

theorem stackBase_aligned : stackBase l &&& 0xF = 0 := by
  rw [stackBase, BitVec.and_assoc]
  exact BitVec.and_zero

/-- The other segments get the selector that is moved into AX. -/
theorem storeState_data {sg : Seg} (hsg : sg ≠ .cs) : (storeState l s).segs sg = 0x10 := by
  have hselector : ∃ x : BitVec 48,
      (storeState l s).segs sg = (x ++ (0x10 : BitVec 16)).truncate 16 := by
    refine ⟨((reloadState l s).regs .rax).extractLsb' 16 48, ?_⟩
    cases sg with
    | cs => exact absurd rfl hsg
    | _ => rfl
  obtain ⟨x, hx⟩ := hselector
  rw [hx]
  exact BitVec.setWidth_append_eq_right

/-- **At the call** the segments, the stack and the table are the kernel's own. -/
theorem callState_prepared : Prepared l s (callState l s) := by
  obtain ⟨hsegs, hdown, htable⟩ := stos_kept (l.bssEnd - l.bssStart).toNat (storeState l s)
  have hstack : (callState l s).regs .rsp = stackBase l := by
    refine (stos_regs _ (storeState l s) (by decide) (by decide)).trans ?_
    have hpopped : (storeState l s).regs .rsp = (returnState l s).regs .rsp + 16 := rfl
    rw [hpopped, returnState_rsp]
    bv_omega
  constructor
  · exact (congrFun hsegs .cs).trans (reload_cs l s)
  · intro sg hsg
    exact (congrFun hsegs sg).trans (storeState_data l s hsg)
  · exact hstack
  · rw [hstack, stackBase_aligned]
  · exact hdown
  · exact htable

/-! ### What `kernel_main` gets -/

/-- The two words below the top of the stack. -/
def InStack (a : Word) : Prop := a - (stackBase l - 16) < 16

/-- The two words that are pushed leave the structure as it was. -/
def PushSpares : Prop := ∀ i < bootInfoSize, InStack l (s.regs .rdi + BitVec.ofNat 64 i) →
  pushedMem l s (s.regs .rdi + BitVec.ofNat 64 i) = s.mem (s.regs .rdi + BitVec.ofNat 64 i)

theorem pushed_apart {a : Word} (h : ¬ InStack l a) : pushedMem l s a = s.mem a := by
  rw [InStack] at h
  rw [pushedMem, store64_apart _ (by bv_omega), store64_apart _ (by bv_omega)]

/-- What the kernel expects at the call: the address that was in RDI, the structure there as it
was, and an empty `.bss`. -/
structure Handoff (s' : State) : Prop where
  rdi : s'.regs .rdi = s.regs .rdi
  info : ∀ i < bootInfoSize,
    s'.mem (s.regs .rdi + BitVec.ofNat 64 i) = s.mem (s.regs .rdi + BitVec.ofNat 64 i)
  bss : ∀ a, InBss l a → s'.mem a = 0

/-- The structure lies outside `.bss`. -/
def InfoOutside : Prop := ∀ i < bootInfoSize, ¬ InBss l (s.regs .rdi + BitVec.ofNat 64 i)

/-- With the stack in `.bss`, as `entry.asm` has it, nothing is pushed over the structure. -/
theorem pushSpares_of_bss (hlow : l.bssStart.toNat + 16 ≤ (stackBase l).toNat)
    (hhigh : (stackBase l).toNat ≤ l.bssEnd.toNat) (h : InfoOutside l s) : PushSpares l s := by
  intro i hi hstack
  refine absurd ?_ (h i hi)
  rw [InStack] at hstack
  rw [InBss]
  bv_omega

variable {l s}

theorem handoff_iff {s' : State} (houtside : InfoOutside l s) (hrdi : s'.regs .rdi = l.bssEnd)
    (hmem : ∀ a, s'.mem a = if InBss l a then 0 else pushedMem l s a) :
    Handoff l s s' ↔ s.regs .rdi = l.bssEnd ∧ PushSpares l s := by
  have hinfo : ∀ i < bootInfoSize, s'.mem (s.regs .rdi + BitVec.ofNat 64 i) =
      pushedMem l s (s.regs .rdi + BitVec.ofNat 64 i) := by
    intro i hi
    rw [hmem, if_neg (houtside i hi)]
  constructor
  · intro h
    refine ⟨by rw [← h.rdi, hrdi], fun i hi _ => ?_⟩
    rw [← hinfo i hi, h.info i hi]
  · rintro ⟨hend, hspares⟩
    refine ⟨hrdi.trans hend.symm, fun i hi => ?_, fun a ha => ?_⟩
    · rw [hinfo i hi]
      by_cases hstack : InStack l (s.regs .rdi + BitVec.ofNat 64 i)
      · exact hspares i hi hstack
      · exact pushed_apart l s hstack
    · rw [hmem, if_pos ha]

/-- **When `kernel_main` gets the structure**: if and only if it lies right behind `.bss`, and
nothing is pushed over it. -/
theorem boot_handoff_iff (hrip : s.rip = l.addr 0) (houtside : InfoOutside l s) :
    ∃ s', run l.addr (kernelEntryCode l) 0 s = some s' ∧
      (Handoff l s s' ↔ s.regs .rdi = l.bssEnd ∧ PushSpares l s) := by
  obtain ⟨hrdi, hmem⟩ := callState_spec l s
  exact ⟨callState l s, entry_reaches hrip, handoff_iff houtside hrdi hmem⟩

theorem handoff_address (hlow : l.bssStart.toNat + 16 ≤ (stackBase l).toNat)
    (hhigh : (stackBase l).toNat ≤ l.bssEnd.toNat) (hrip : s.rip = l.addr 0)
    (houtside : InfoOutside l s) {s' : State}
    (hrun : run l.addr (kernelEntryCode l) 0 s = some s') :
    Handoff l s s' ↔ s.regs .rdi = l.bssEnd := by
  obtain ⟨hrdi, hmem⟩ := callState_spec l s
  obtain rfl : s' = callState l s := Option.some.inj (hrun.symm.trans (entry_reaches hrip))
  rw [handoff_iff houtside hrdi hmem]
  exact and_iff_left (pushSpares_of_bss l s hlow hhigh houtside)

/-- A kernel with a stack of 64 KiB in the middle of its `.bss`. -/
def sampleLayout : Layout where
  addr k := 0x100000 + BitVec.ofNat 64 k
  gdtDescriptor := 0x104000
  kernelStackTop := 0x115000
  bssStart := 0x105000
  bssEnd := 0x11A000
  bss_le := by decide

/-- The machine as the bootloader leaves it, with the structure on its own stack. -/
def loaderState : State where
  rip := 0x100000
  regs r := if r = .rdi then 0x7F00000 else 0
  segs _ := 0
  down := false
  gdtr _ := 0
  mem _ := 1

theorem loaderState_outside : InfoOutside sampleLayout loaderState := by
  rw [InfoOutside]
  decide +kernel

theorem boot_handoff_sample : ∃ s', run sampleLayout.addr (kernelEntryCode sampleLayout) 0
    loaderState = some s' ∧ (Handoff sampleLayout loaderState s' ↔
      loaderState.regs .rdi = sampleLayout.bssEnd ∧ PushSpares sampleLayout loaderState) :=
  boot_handoff_iff rfl loaderState_outside

/-- The address of the structure is lost. -/
theorem boot_info_lost : ¬ ∃ s', run sampleLayout.addr (kernelEntryCode sampleLayout) 0
    loaderState = some s' ∧ Handoff sampleLayout loaderState s' := by
  rintro ⟨s', hrun, hhandoff⟩
  have hend := (handoff_address (by decide) (by decide) rfl loaderState_outside hrun).mp hhandoff
  exact absurd hend (by decide)

end AionOs
