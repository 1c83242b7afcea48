import AionOs.Interrupt.Handlers
import AionOs.Lib.Descriptors

/-!
# Segments and gates

`kernel/arch/x86_64/gdt.c`, and what the processor makes of its table and of that of `idt.c`.  The
addresses of the variables are parameters.

* `gdtSetEntry_read`, `gdtSetTss_read`: a descriptor is read as it was written, but for the high bits
  of its limit.
* `codeAt_gdt`: the selectors with which code can be entered.
* `gdtGetTssRsp0_tables`: the stack for interrupts of user code, after any calls.
* `gate_entered`: what an interrupt goes on with, after any calls; a double fault has no stack.
-/

namespace AionOs

open Descriptors (Word Table Segment Entered readSegment codeAt taskBase enterGate)

namespace Gdt

/-! ### The code -/

structure GdtEntry where
  limitLow : BitVec 16
  baseLow : BitVec 16
  baseMid : U8
  access : U8
  granularity : U8
  baseHigh : U8

/-- `Tss`, without the fields that nothing writes. -/
structure Tss where
  rsp0 : U64
  ist : Fin 7 → U64
  iopbOffset : BitVec 16

/-- The sizes of the fields of `Tss`, which is packed. -/
def tssFields : List Nat := [4, 8, 8, 8, 8, 7 * 8, 8, 2, 2]

def tssSize : Nat := tssFields.sum

/-- The static variables, the GDTR and the task register. -/
structure GdtState where
  gdt : Fin 7 → GdtEntry
  kernelTss : Tss
  gdtLimit : BitVec 16
  gdtBase : U64
  taskRegister : BitVec 16

def GdtState.powerOn : GdtState := ⟨fun _ => ⟨0, 0, 0, 0, 0, 0⟩, ⟨0, fun _ => 0, 0⟩, 0, 0, 0⟩

/-- The addresses of `gdt`, `kernel_tss` and `interrupt_stack`. -/
structure GdtAddrs where
  gdt : U64
  kernelTss : U64
  interruptStack : U64

def segKcode : BitVec 16 := 0x08
def segTss : BitVec 16 := 0x28

def accessPresent : U8 := 1#8 <<< 7
def accessRing0 : U8 := 0#8 <<< 5
def accessRing3 : U8 := 3#8 <<< 5
def accessTypeCode : U8 := 0x1A
def accessTypeData : U8 := 0x12
def accessTypeTss : U8 := 0x09

def gran64bit : U8 := 1#8 <<< 5
def gran4k : U8 := 1#8 <<< 7

def gdtSetEntry (idx : Fin 7) (base limit : U32) (access granularity : U8) (s : GdtState) : GdtState :=
  { s with gdt := Function.update s.gdt idx {
      limitLow := (limit &&& 0xFFFF).setWidth 16
      baseLow := (base &&& 0xFFFF).setWidth 16
      baseMid := ((base >>> 16) &&& 0xFF).setWidth 8
      access := access
      granularity := ((limit >>> 16) &&& 0x0F).setWidth 8 ||| (granularity &&& 0xF0)
      baseHigh := ((base >>> 24) &&& 0xFF).setWidth 8 } }

/-- The first half of `TssDescriptor`, in entry 5. -/
def tssDescLow (tssAddr : U64) (tssLimit : U32) : GdtEntry where
  limitLow := (tssLimit &&& 0xFFFF).setWidth 16
  baseLow := (tssAddr &&& 0xFFFF).setWidth 16
  baseMid := ((tssAddr >>> 16) &&& 0xFF).setWidth 8
  access := accessPresent ||| accessTypeTss
  granularity := ((tssLimit >>> 16) &&& 0x0F).setWidth 8
  baseHigh := ((tssAddr >>> 24) &&& 0xFF).setWidth 8

/-- The second half, `base_upper` and `reserved`, as it lies in entry 6. -/
def tssDescHigh (tssAddr : U64) : GdtEntry :=
  let baseUpper : U32 := ((tssAddr >>> 32) &&& 0xFFFFFFFF).setWidth 32
  ⟨baseUpper.setWidth 16, (baseUpper >>> 16).setWidth 16, 0, 0, 0, 0⟩

def gdtSetTss (tssAddr : U64) (tssLimit : U32) (s : GdtState) : GdtState :=
  { s with gdt := Function.update (Function.update s.gdt 5 (tssDescLow tssAddr tssLimit)) 6 (tssDescHigh tssAddr) }

/-- `ltr` marks the task segment as busy. -/
def ltr (sel : BitVec 16) (s : GdtState) : GdtState :=
  { s with
    gdt := Function.update s.gdt 5 { s.gdt 5 with access := (s.gdt 5).access ||| 2 }
    taskRegister := sel }

def gdtInit (addrs : GdtAddrs) (s : GdtState) : GdtState :=
  let s := gdtSetEntry 0 0 0 0 0 s
  let s := gdtSetEntry 1 0 0xFFFFF (accessPresent ||| accessRing0 ||| accessTypeCode) (gran64bit ||| gran4k) s
  let s := gdtSetEntry 2 0 0xFFFFF (accessPresent ||| accessRing0 ||| accessTypeData) gran4k s
  let s := gdtSetEntry 3 0 0xFFFFF (accessPresent ||| accessRing3 ||| accessTypeCode) (gran64bit ||| gran4k) s
  let s := gdtSetEntry 4 0 0xFFFFF (accessPresent ||| accessRing3 ||| accessTypeData) gran4k s
  let s := { s with kernelTss := { s.kernelTss with
    rsp0 := addrs.interruptStack + 8192, iopbOffset := BitVec.ofNat 16 tssSize } }
  let s := gdtSetTss addrs.kernelTss (BitVec.ofNat 32 (tssSize - 1)) s
  ltr segTss { s with gdtLimit := BitVec.ofNat 16 (7 * 8 - 1), gdtBase := addrs.gdt }

def gdtGetTssRsp0 (s : GdtState) : U64 := s.kernelTss.rsp0

def gdtSetTssRsp0 (rsp0 : U64) (s : GdtState) : GdtState := { s with kernelTss := { s.kernelTss with rsp0 := rsp0 } }

/-! ### What the processor reads -/

/-- The bytes of an entry, the first one lowest. -/
def GdtEntry.word (e : GdtEntry) : Word :=
  e.baseHigh ++ (e.granularity ++ (e.access ++ (e.baseMid ++ (e.baseLow ++ e.limitLow))))

/-- The table that the GDTR tells. -/
def GdtState.table (s : GdtState) : Table := ⟨fun i => if h : i < 7 then (s.gdt ⟨i, h⟩).word else 0, s.gdtLimit⟩

def GdtState.task (s : GdtState) : Descriptors.Task := ⟨s.kernelTss.rsp0, s.kernelTss.ist⟩

/-- The bytes of a gate, in two words. -/
def gateLow (e : IdtEntry) : Word := e.offsetMid ++ (e.typeAttr ++ (e.ist ++ (e.selector ++ e.offsetLow)))

def gateHigh (e : IdtEntry) : Word := e.reserved ++ e.offsetHigh

/-- The table that the IDTR tells. -/
def idtTable (s : IdtState) : Table :=
  ⟨fun i => if i % 2 = 0 then gateLow (s.idt (BitVec.ofNat 8 (i / 2))) else gateHigh (s.idt (BitVec.ofNat 8 (i / 2))),
    s.idtLimit⟩

/-! ### Descriptors -/

theorem gdtSetEntry_word (idx : Fin 7) (base limit : U32) (access granularity : U8) (s : GdtState) :
    ((gdtSetEntry idx base limit access granularity s).gdt idx).word =
      Segment.pack ⟨base, limit.setWidth 20, access, granularity.extractLsb' 4 4⟩ := by
  unfold gdtSetEntry
  dsimp only
  rw [Function.update_self]
  refine BitVec.eq_of_getLsbD_eq fun i hi => ?_
  simp only [Segment.pack, GdtEntry.word, BitVec.getLsbD_append, BitVec.getLsbD_extractLsb',
    BitVec.getLsbD_setWidth, BitVec.getLsbD_and, BitVec.getLsbD_or, BitVec.getLsbD_ushiftRight]
  interval_cases i <;> simp

/-- **A descriptor is read as it was written**: of the limit the low 20 bits, of the flags the high half
of the byte; and the other entries are kept. -/
theorem gdtSetEntry_read (idx : Fin 7) (base limit : U32) (access granularity : U8) (s : GdtState) :
    readSegment ((gdtSetEntry idx base limit access granularity s).gdt idx).word =
        ⟨base, limit.setWidth 20, access, granularity.extractLsb' 4 4⟩ ∧
      ∀ j, j ≠ idx → (gdtSetEntry idx base limit access granularity s).gdt j = s.gdt j := by
  rw [gdtSetEntry_word, Descriptors.readSegment_pack]
  exact ⟨rfl, fun j hj => Function.update_of_ne hj _ _⟩

theorem access_word (e : GdtEntry) : (readSegment e.word).access = e.access := by
  refine BitVec.eq_of_getLsbD_eq fun i hi => ?_
  simp only [readSegment, GdtEntry.word, BitVec.getLsbD_append, BitVec.getLsbD_extractLsb']
  interval_cases i <;> simp

theorem taskBase_entry (tssAddr : U64) (tssLimit : U32) (access : U8) :
    taskBase { tssDescLow tssAddr tssLimit with access := access }.word (tssDescHigh tssAddr).word = tssAddr := by
  refine BitVec.eq_of_getLsbD_eq fun i hi => ?_
  simp only [taskBase, readSegment, GdtEntry.word, tssDescLow, tssDescHigh, BitVec.getLsbD_append,
    BitVec.getLsbD_extractLsb', BitVec.getLsbD_setWidth, BitVec.getLsbD_and, BitVec.getLsbD_ushiftRight]
  interval_cases i <;> simp

/-- **The task segment is read as it was written**, over both of its entries. -/
theorem gdtSetTss_read (tssAddr : U64) (tssLimit : U32) (s : GdtState) :
    let t := gdtSetTss tssAddr tssLimit s
    taskBase (t.gdt 5).word (t.gdt 6).word = tssAddr ∧
      (readSegment (t.gdt 5).word).limit = tssLimit.setWidth 20 ∧ (readSegment (t.gdt 5).word).access = 0x89 := by
  intro t
  have hlow : t.gdt 5 = tssDescLow tssAddr tssLimit := rfl
  have hhigh : t.gdt 6 = tssDescHigh tssAddr := rfl
  rw [hlow, hhigh]
  refine ⟨taskBase_entry tssAddr tssLimit (accessPresent ||| accessTypeTss), ?_, ?_⟩
  · refine BitVec.eq_of_getLsbD_eq fun i hi => ?_
    simp only [readSegment, GdtEntry.word, tssDescLow, BitVec.getLsbD_append, BitVec.getLsbD_extractLsb',
      BitVec.getLsbD_setWidth, BitVec.getLsbD_and, BitVec.getLsbD_ushiftRight]
    interval_cases i <;> simp
  · exact access_word (tssDescLow tssAddr tssLimit)

theorem gdtInit_words (addrs : GdtAddrs) (s : GdtState) :
    ((gdtInit addrs s).gdt 0).word = 0 ∧ ((gdtInit addrs s).gdt 1).word = 0x00AF9A000000FFFF ∧
      ((gdtInit addrs s).gdt 2).word = 0x008F92000000FFFF ∧ ((gdtInit addrs s).gdt 3).word = 0x00AFFA000000FFFF ∧
      ((gdtInit addrs s).gdt 4).word = 0x008FF2000000FFFF := by
  have h4 : (gdtInit addrs s).gdt 4 = ⟨0xFFFF, 0, 0, 0xF2, 0x8F, 0⟩ := rfl
  have h3 : (gdtInit addrs s).gdt 3 = ⟨0xFFFF, 0, 0, 0xFA, 0xAF, 0⟩ := rfl
  have h2 : (gdtInit addrs s).gdt 2 = ⟨0xFFFF, 0, 0, 0x92, 0x8F, 0⟩ := rfl
  have h1 : (gdtInit addrs s).gdt 1 = ⟨0xFFFF, 0, 0, 0x9A, 0xAF, 0⟩ := rfl
  have h0 : (gdtInit addrs s).gdt 0 = ⟨0, 0, 0, 0, 0, 0⟩ := rfl
  rw [h0, h1, h2, h3, h4]
  decide

def kernelCode : Segment := ⟨0, 0xFFFFF, 0x9A, 0xA⟩

def userCode : Segment := ⟨0, 0xFFFFF, 0xFA, 0xA⟩

theorem gdtInit_word (addrs : GdtAddrs) (s : GdtState) (i : Fin 7) :
    (gdtInit addrs s).table.word i = some ((gdtInit addrs s).gdt i).word := by
  have hlimit : 8 * i.val + 7 ≤ ((gdtInit addrs s).table.limit).toNat := by
    show 8 * i.val + 7 ≤ 55
    omega
  rw [Table.word, if_pos hlimit, GdtState.table]
  exact congrArg some (dif_pos i.isLt)

theorem gdtInit_word_none (addrs : GdtAddrs) (s : GdtState) {i : Nat} (hi : 7 ≤ i) :
    (gdtInit addrs s).table.word i = none := by
  refine if_neg ?_
  show ¬ 8 * i + 7 ≤ 55
  omega

theorem codeAt_word {gdt : Table} {cpl : BitVec 2} {sel : BitVec 16} {d : Word} (hlocal : ¬ sel.getLsbD 2 = true)
    (hnull : sel.extractLsb' 3 13 ≠ 0) (hword : gdt.word (sel.extractLsb' 3 13).toNat = some d) :
    codeAt gdt cpl sel =
      if (readSegment d).IsCode64 ∧ (readSegment d).present = true ∧ (readSegment d).dpl ≤ cpl then
        some (readSegment d)
      else none := by
  rw [codeAt, Descriptors.segmentAt, if_neg (not_or.mpr ⟨hnull, hlocal⟩), hword, Option.map_some, Option.filter_some]
  simp only [Bool.and_eq_true, decide_eq_true_eq, and_assoc]

theorem not_code {e : GdtEntry} (h : e.access.getLsbD 4 = false) : ¬ (readSegment e.word).IsCode64 := fun hcode => by
  have hbit := hcode.1
  rw [access_word, h] at hbit
  cases hbit

/-- **The selectors with which code can be entered**: those of the kernel's code segment at every level,
and those of the user's at level 3. -/
theorem codeAt_gdt (addrs : GdtAddrs) (s : GdtState) (cpl : BitVec 2) (sel : BitVec 16) :
    codeAt (gdtInit addrs s).table cpl sel =
      if sel.getLsbD 2 = true then none
      else if sel.extractLsb' 3 13 = 1 then some kernelCode
      else if sel.extractLsb' 3 13 = 3 ∧ cpl = 3 then some userCode
      else none := by
  obtain ⟨h0, h1, h2, h3, h4⟩ := gdtInit_words addrs s
  by_cases hlocal : sel.getLsbD 2 = true
  · rw [if_pos hlocal, codeAt, Descriptors.segmentAt, if_pos (.inr hlocal)]
    rfl
  rw [if_neg hlocal]
  by_cases hlarge : 7 ≤ (sel.extractLsb' 3 13).toNat
  · have hother : ∀ k < 7, sel.extractLsb' 3 13 ≠ BitVec.ofNat 13 k := by
      intro k hk heq
      rw [heq, BitVec.toNat_ofNat] at hlarge
      omega
    have hone : sel.extractLsb' 3 13 ≠ 1 := hother 1 (by decide)
    have hthree : ¬ (sel.extractLsb' 3 13 = 3 ∧ cpl = 3) := fun h => hother 3 (by decide) h.1
    have hnull : ¬ (sel.extractLsb' 3 13 = 0 ∨ sel.getLsbD 2 = true) := not_or.mpr ⟨hother 0 (by decide), hlocal⟩
    rw [if_neg hone, if_neg hthree, codeAt, Descriptors.segmentAt, if_neg hnull, gdtInit_word_none addrs s hlarge]
    rfl
  obtain ⟨k, hk, hidx⟩ : ∃ k, k < 7 ∧ sel.extractLsb' 3 13 = BitVec.ofNat 13 k := by
    refine ⟨_, Nat.lt_of_not_le hlarge, ?_⟩
    rw [BitVec.ofNat_toNat, BitVec.setWidth_eq]
  have hword : (gdtInit addrs s).table.word (sel.extractLsb' 3 13).toNat =
      some ((gdtInit addrs s).gdt ⟨k, hk⟩).word := by
    rw [hidx, BitVec.toNat_ofNat, Nat.mod_eq_of_lt (by omega)]
    exact gdtInit_word addrs s ⟨k, hk⟩
  have hbusy : ((gdtInit addrs s).gdt 5).access = accessPresent ||| accessTypeTss ||| 2 := rfl
  have hupper : ((gdtInit addrs s).gdt 6).access = 0 := rfl
  interval_cases k
  · rw [codeAt, Descriptors.segmentAt, if_pos (.inl hidx), hidx]
    rfl
  · have hcode : readSegment 0x00AF9A000000FFFF = kernelCode := by decide
    rw [codeAt_word hlocal (by rw [hidx]; decide) (hword.trans (congrArg some h1)), hcode, hidx]
    exact if_pos ⟨by decide, by decide, by revert cpl; decide⟩
  · rw [codeAt_word hlocal (by rw [hidx]; decide) (hword.trans (congrArg some h2)), hidx]
    exact if_neg fun h => absurd h.1 (by decide)
  · have hcode : readSegment 0x00AFFA000000FFFF = userCode := by decide
    rw [codeAt_word hlocal (by rw [hidx]; decide) (hword.trans (congrArg some h3)), hcode, hidx]
    revert cpl
    decide
  · rw [codeAt_word hlocal (by rw [hidx]; decide) (hword.trans (congrArg some h4)), hidx]
    exact if_neg fun h => absurd h.1 (by decide)
  · have hcode : ¬ (readSegment ((gdtInit addrs s).gdt 5).word).IsCode64 := not_code (by rw [hbusy]; rfl)
    rw [codeAt_word hlocal (by rw [hidx]; decide) hword, hidx]
    exact if_neg fun h => hcode h.1
  · have hcode : ¬ (readSegment ((gdtInit addrs s).gdt 6).word).IsCode64 := not_code (by rw [hupper]; rfl)
    rw [codeAt_word hlocal (by rw [hidx]; decide) hword, hidx]
    exact if_neg fun h => hcode h.1

/-! ### Gates -/

def gateEntry (g : Gate) : IdtEntry :=
  ⟨g.handler.setWidth 16, 0x08, g.ist, idtPresent ||| idtRing0 ||| g.typeAttr, (g.handler >>> 16).setWidth 16,
    (g.handler >>> 32).setWidth 32, 0⟩

/-- The processor goes to the address in the gate. -/
theorem readGate_offset (e : IdtEntry) : (Descriptors.readGate (gateLow e) (gateHigh e)).offset = e.offset := by
  refine BitVec.eq_of_getLsbD_eq fun i hi => ?_
  simp only [Descriptors.readGate, gateLow, gateHigh, IdtEntry.offset, BitVec.getLsbD_append,
    BitVec.getLsbD_extractLsb']
  interval_cases i <;> simp

/-- **A gate is read as it was written.** -/
theorem readGate_entry (g : Gate) : Descriptors.readGate (gateLow (gateEntry g)) (gateHigh (gateEntry g)) =
    ⟨g.handler, 0x08, g.ist.extractLsb' 0 3, g.typeAttr.extractLsb' 0 4, true⟩ := by
  have hpresent : idtPresent ||| idtRing0 = 0x80 := by decide
  refine Descriptors.Gate.ext ?_ ?_ ?_ ?_ ?_
  · exact (readGate_offset _).trans (Interrupts.address_parts g.handler)
  · refine BitVec.eq_of_getLsbD_eq fun i hi => ?_
    simp only [Descriptors.readGate, gateLow, gateEntry, BitVec.getLsbD_append, BitVec.getLsbD_extractLsb']
    interval_cases i <;> rfl
  · refine BitVec.eq_of_getLsbD_eq fun i hi => ?_
    simp only [Descriptors.readGate, gateLow, gateEntry, BitVec.getLsbD_append, BitVec.getLsbD_extractLsb']
    interval_cases i <;> simp
  · refine BitVec.eq_of_getLsbD_eq fun i hi => ?_
    simp only [Descriptors.readGate, gateLow, gateEntry, hpresent, BitVec.getLsbD_append,
      BitVec.getLsbD_extractLsb', BitVec.getLsbD_or]
    interval_cases i <;> simp
  · simp only [Descriptors.readGate, gateLow, gateEntry, hpresent, BitVec.getLsbD_append, BitVec.getLsbD_or]
    simp

theorem idt_foldl : ∀ (gs : List Gate) (s : IdtState) (v : U8), (gs.map Gate.vec).Nodup →
    (gs.foldl idtSetEntry s).idt v = ((gs.find? fun g => decide (g.vec = v)).map gateEntry).getD (s.idt v) := by
  intro gs
  induction gs with
  | nil => intro s v _; rfl
  | cons g gs ih =>
    intro s v hnodup
    obtain ⟨hnew, hgs⟩ := List.nodup_cons.mp hnodup
    have hentry : (idtSetEntry s g).idt = Function.update s.idt g.vec (gateEntry g) := rfl
    rw [List.foldl_cons, ih _ v hgs, List.find?_cons, hentry]
    by_cases hv : g.vec = v
    · have hnone : (gs.find? fun g => decide (g.vec = v)) = none := by
        refine List.find?_eq_none.mpr fun g' hg' heq => ?_
        exact hnew (List.mem_map.mpr ⟨g', hg', (of_decide_eq_true heq).trans hv.symm⟩)
      rw [hnone, decide_eq_true hv, hv, Function.update_self]
      rfl
    · rw [decide_eq_false hv, Function.update_of_ne (Ne.symm hv)]

/-! ### The tables in a run -/

theorem outb_limit (port : BitVec 16) (val : U8) (s : IdtState) : (outb port val s).idtLimit = s.idtLimit := by
  unfold outb
  split_ifs <;> rfl

theorem call_limit (s : IdtState) (c : IdtCall) : (s.call c).idtLimit = s.idtLimit := by
  cases c with
  | register vec handler ctx =>
    show (idtRegisterHandler vec handler ctx s).idtLimit = s.idtLimit
    unfold idtRegisterHandler picUnmask
    split_ifs
    · exact outb_limit _ _ _
    · rfl
  | unregister vec =>
    show (idtUnregisterHandler vec s).idtLimit = s.idtLimit
    unfold idtUnregisterHandler picMask
    split_ifs
    · exact outb_limit _ _ _
    · rfl

theorem idtAfter_limit (stubs : Stubs) (base : U64) (pic1 pic2 : Pic) (calls : List IdtCall) :
    (idtAfter stubs base pic1 pic2 calls).idtLimit = 4095 := by
  have hinit : (idtInit stubs base (IdtState.powerOn pic1 pic2)).idtLimit = 4095 := rfl
  exact Machine.run_keeps (M := idtMachine) (I := fun s => s.idtLimit = 4095)
    (fun s c h => (call_limit s c).trans h) calls hinit

structure Tables where
  gdt : GdtState
  idt : IdtState

inductive TableCall where
  | idt (c : IdtCall)
  | setTssRsp0 (rsp0 : U64)

def Tables.call (s : Tables) : TableCall → Tables
  | .idt c => { s with idt := s.idt.call c }
  | .setTssRsp0 rsp0 => { s with gdt := gdtSetTssRsp0 rsp0 s.gdt }

def tablesAfter (addrs : GdtAddrs) (stubs : Stubs) (base : U64) (pic1 pic2 : Pic) (calls : List TableCall) : Tables :=
  calls.foldl Tables.call ⟨gdtInit addrs GdtState.powerOn, idtInit stubs base (IdtState.powerOn pic1 pic2)⟩

theorem setTssRsp0_setTssRsp0 (a b : U64) (s : GdtState) :
    gdtSetTssRsp0 a (gdtSetTssRsp0 b s) = gdtSetTssRsp0 a s := rfl

theorem setTssRsp0_table (a : U64) (s : GdtState) : (gdtSetTssRsp0 a s).table = s.table := rfl

/-- The argument of the last `gdt_set_tss_rsp0`, or what `gdt_init` set. -/
def latestRsp0 (addrs : GdtAddrs) (calls : List TableCall) : U64 :=
  (calls.filterMap fun
    | .setTssRsp0 rsp0 => some rsp0
    | _ => none).getLast?.getD (addrs.interruptStack + 8192)

theorem latestRsp0_concat (addrs : GdtAddrs) (calls : List TableCall) (c : TableCall) :
    latestRsp0 addrs (calls ++ [c]) =
      match c with
      | .setTssRsp0 rsp0 => rsp0
      | _ => latestRsp0 addrs calls := by
  rw [latestRsp0, List.filterMap_append]
  cases c with
  | idt c => exact congrArg (fun l : List U64 => l.getLast?.getD _) (List.append_nil _)
  | setTssRsp0 rsp0 => exact congrArg (fun o : Option U64 => o.getD _) List.getLast?_concat

theorem tablesAfter_spec (addrs : GdtAddrs) (stubs : Stubs) (base : U64) (pic1 pic2 : Pic) (calls : List TableCall) :
    (tablesAfter addrs stubs base pic1 pic2 calls).gdt =
        gdtSetTssRsp0 (latestRsp0 addrs calls) (gdtInit addrs GdtState.powerOn) ∧
      ∃ idtCalls, (tablesAfter addrs stubs base pic1 pic2 calls).idt = idtAfter stubs base pic1 pic2 idtCalls := by
  induction calls using List.reverseRecOn with
  | nil => exact ⟨rfl, [], rfl⟩
  | append_singleton calls c ih =>
    obtain ⟨hgdt, idtCalls, hidt⟩ := ih
    have hrun : tablesAfter addrs stubs base pic1 pic2 (calls ++ [c]) =
        (tablesAfter addrs stubs base pic1 pic2 calls).call c := List.foldl_concat _ _ _ _
    rw [hrun, latestRsp0_concat]
    cases c with
    | idt c =>
      refine ⟨hgdt, idtCalls ++ [c], ?_⟩
      show (tablesAfter addrs stubs base pic1 pic2 calls).idt.call c = _
      rw [hidt]
      exact (Machine.run_concat idtMachine _ idtCalls c).symm
    | setTssRsp0 rsp0 =>
      exact ⟨(congrArg (gdtSetTssRsp0 rsp0) hgdt).trans (setTssRsp0_setTssRsp0 _ _ _), idtCalls, hidt⟩

/-- `gdt_get_tss_rsp0` returns the stack that was set last. -/
theorem gdtGetTssRsp0_tables (addrs : GdtAddrs) (stubs : Stubs) (base : U64) (pic1 pic2 : Pic)
    (calls : List TableCall) :
    gdtGetTssRsp0 (tablesAfter addrs stubs base pic1 pic2 calls).gdt = latestRsp0 addrs calls :=
  congrArg gdtGetTssRsp0 (tablesAfter_spec addrs stubs base pic1 pic2 calls).1

theorem codeAt_kernel (addrs : GdtAddrs) (s : GdtState) (cpl : BitVec 2) :
    codeAt (gdtInit addrs s).table cpl segKcode = some kernelCode := by
  have hcode : readSegment 0x00AF9A000000FFFF = kernelCode := by decide
  have hidx : (segKcode.extractLsb' 3 13).toNat = (1 : Fin 7).val := by decide
  have hword : (gdtInit addrs s).table.word (segKcode.extractLsb' 3 13).toNat = some 0x00AF9A000000FFFF := by
    rw [hidx, gdtInit_word, (gdtInit_words addrs s).2.1]
  rw [codeAt_word (by decide) (by decide) hword, hcode]
  exact if_pos ⟨by decide, by decide, by revert cpl; decide⟩

/-- Only a breakpoint has a trap gate, and only a double fault an interrupt stack. -/
theorem gates_kinds (stubs : Stubs) {g : Gate} (h : g ∈ gates stubs) :
    g.typeAttr = (if g.vec = 3 then idtTrapGate else idtIntGate) ∧ g.ist = (if g.vec = 8 then 1 else 0) := by
  have hall : (gates stubs).all (fun g => decide (g.typeAttr = (if g.vec = 3 then idtTrapGate else idtIntGate) ∧
      g.ist = (if g.vec = 8 then 1 else 0))) = true := rfl
  exact of_decide_eq_true (List.all_eq_true.mp hall g h)

/-- The stack of a gate into the kernel, when no interrupt stack is set. -/
theorem gateStack_kernel (rsp0 rsp : U64) (cpl : BitVec 2) (vec : U8) :
    Descriptors.gateStack ⟨rsp0, fun _ => 0⟩ ((if vec = 8 then 1 else 0 : U8).extractLsb' 0 3)
        (decide (kernelCode.dpl < cpl)) rsp =
      if vec = 8 then 0 else if cpl = 0 then rsp else rsp0 := by
  by_cases hdouble : vec = 8
  · rw [if_pos hdouble, if_pos hdouble]
    rfl
  have hinner : decide (kernelCode.dpl < cpl) = !decide (cpl = 0) := by
    revert cpl
    decide
  rw [if_neg hdouble, if_neg hdouble, hinner]
  by_cases hkernel : cpl = 0
  · rw [decide_eq_true hkernel, if_pos hkernel]
    rfl
  · rw [decide_eq_false hkernel, if_neg hkernel]
    rfl

theorem idtAfter_entry (stubs : Stubs) (base : U64) (pic1 pic2 : Pic) (calls : List IdtCall) (vec : U8) :
    (idtAfter stubs base pic1 pic2 calls).idt vec =
      (((gates stubs).find? fun g => decide (g.vec = vec)).map gateEntry).getD ⟨0, 0, 0, 0, 0, 0, 0⟩ := by
  have hnodup : ((gates stubs).map Gate.vec).Nodup := by
    have hvecs : (gates stubs).map Gate.vec = [0, 1, 2, 3, 4, 5, 6, 7, 8, 13, 14, 0x20, 0x21, 0x22, 0x23, 0x24,
      0x28, 0x29, 0x2B, 0x2C, 0x2E, 0x2F] := rfl
    rw [hvecs]
    decide
  rw [Interrupts.run_table, idt_foldl _ _ _ hnodup]
  rfl

theorem idtTable_words {s : IdtState} (h : s.idtLimit = 4095) (vec : U8) :
    (idtTable s).word (2 * vec.toNat) = some (gateLow (s.idt vec)) ∧
      (idtTable s).word (2 * vec.toNat + 1) = some (gateHigh (s.idt vec)) := by
  have hvec : BitVec.ofNat 8 vec.toNat = vec := by rw [BitVec.ofNat_toNat, BitVec.setWidth_eq]
  have hlimit : (idtTable s).limit.toNat = 4095 := by
    rw [idtTable, h]
    rfl
  have hlow : (2 * vec.toNat) % 2 = 0 := by omega
  have hhigh : ¬ (2 * vec.toNat + 1) % 2 = 0 := by omega
  have hlowDiv : 2 * vec.toNat / 2 = vec.toNat := by omega
  have hhighDiv : (2 * vec.toNat + 1) / 2 = vec.toNat := by omega
  have hlt := vec.isLt
  constructor
  · rw [Table.word, if_pos (by omega), idtTable]
    dsimp only
    rw [if_pos hlow, hlowDiv, hvec]
  · rw [Table.word, if_pos (by omega), idtTable]
    dsimp only
    rw [if_neg hhigh, hhighDiv, hvec]

/-- **What an interrupt goes on with** after any calls, at every level and for every vector: the stub that
`idt_init` gave the vector, in the kernel's code segment; on the present stack if it interrupts the kernel,
and else on the one set last.  A double fault gets the null pointer for a stack: no interrupt stack is ever
set.  The vectors without a gate fault. -/
theorem gate_entered (addrs : GdtAddrs) (stubs : Stubs) (base : U64) (pic1 pic2 : Pic) (calls : List TableCall)
    (cpl : BitVec 2) (rsp : U64) (vec : U8) :
    let s := tablesAfter addrs stubs base pic1 pic2 calls
    taskBase (s.gdt.table.words 5) (s.gdt.table.words 6) = addrs.kernelTss ∧
      enterGate s.gdt.table (idtTable s.idt) s.gdt.task cpl rsp vec =
        ((gates stubs).find? fun g => decide (g.vec = vec)).map fun g =>
          { rip := g.handler
            cs := segKcode
            rsp := (if vec = 8 then 0 else if cpl = 0 then rsp else latestRsp0 addrs calls) &&& ~~~0xF
            flagKept := decide (vec = 3) } := by
  intro s
  obtain ⟨hgdt, idtCalls, hidt⟩ := tablesAfter_spec addrs stubs base pic1 pic2 calls
  have htable : s.gdt.table = (gdtInit addrs GdtState.powerOn).table :=
    (congrArg GdtState.table hgdt).trans (setTssRsp0_table _ _)
  have hrsp0 : gdtGetTssRsp0 s.gdt = latestRsp0 addrs calls := gdtGetTssRsp0_tables addrs stubs base pic1 pic2 calls
  have hstacks : s.gdt.kernelTss.ist = fun _ => 0 := congrArg (fun s => s.kernelTss.ist) hgdt
  have htask : s.gdt.task = ⟨latestRsp0 addrs calls, fun _ => 0⟩ := by
    rw [← hrsp0, ← hstacks]
    rfl
  have hentry : s.idt.idt vec = _ :=
    (congrArg (fun s => s.idt vec) hidt).trans (idtAfter_entry stubs base pic1 pic2 idtCalls vec)
  have hlimit : s.idt.idtLimit = 4095 := (congrArg IdtState.idtLimit hidt).trans (idtAfter_limit _ _ _ _ _)
  obtain ⟨hlow, hhigh⟩ := idtTable_words hlimit vec
  refine ⟨?_, ?_⟩
  · rw [htable]
    exact taskBase_entry addrs.kernelTss _ _
  rw [enterGate, hlow, hhigh, htable, htask, hentry]
  cases hfind : (gates stubs).find? fun g => decide (g.vec = vec) with
  | none => rfl
  | some g =>
    have hvec : g.vec = vec := of_decide_eq_true (List.find?_some (p := fun g : Gate => decide (g.vec = vec)) hfind)
    obtain ⟨htype, hist⟩ := gates_kinds stubs (List.mem_of_find?_eq_some hfind)
    have hkind : g.typeAttr.extractLsb' 0 4 = if vec = 3 then 0xF else 0xE := by
      rw [htype, hvec]
      split <;> rfl
    dsimp only [Option.map_some, Option.getD_some]
    rw [readGate_entry]
    dsimp only
    rw [hkind, if_pos ⟨rfl, by split <;> simp⟩, show (8 : BitVec 16) = segKcode from rfl, codeAt_kernel,
      Option.map_some, hist, hvec, gateStack_kernel]
    refine congrArg some (Descriptors.Entered.ext rfl rfl rfl ?_)
    by_cases htrap : vec = 3 <;> simp [htrap]

end Gdt

end AionOs
