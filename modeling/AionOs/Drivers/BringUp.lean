import AionOs.Drivers.Pci
import AionOs.Lib.StatusReg

/-!
# The drivers are brought up

`usb_init`, `nvme_init`, `audio_init` and `network_init`, one after the other as in `kernel_main`, with
`pci_write32`, `pci_enable_bus_master` and `pci_get_bar`.  All four share one configuration space, in
which each register has its kinds of bits.

* `enableClasses_eq`: what the drivers leave of the registers, whatever their order.
* `bringUp_registers`: one bit after the other.
* `pciGetBar_regs`: an address is read back from the registers that tell it.
* `bringUp_bases`: the addresses that the drivers end up with.
-/

namespace AionOs

open StatusReg (Kinds)

namespace BringUp

/-! ### The code -/

abbrev PciKinds := BitVec 8 → BitVec 5 → BitVec 3 → BitVec 6 → Kinds 32

section Code

variable (kinds : PciKinds)

/-- What a write to the data port does after an address is written to the address port. -/
def pciStore (config : PciConfig) (addr v : U32) : PciConfig := fun bus slot func reg =>
  if addr.getLsbD 31 ∧ bus = addr.extractLsb' 16 8 ∧ slot = addr.extractLsb' 11 5 ∧
      func = addr.extractLsb' 8 3 ∧ reg = addr.extractLsb' 2 6 then
    (kinds bus slot func reg).write (config bus slot func reg) v
  else config bus slot func reg

def pciWrite32 (config : PciConfig) (bus slot func off : U8) (v : U32) : PciConfig :=
  pciStore kinds config (configAddr bus slot func off) v

def pciEnableBusMaster (dev : PciDevice) (config : PciConfig) : PciConfig :=
  let cmd := pciRead32 config dev.bus dev.slot dev.func 4
  pciWrite32 kinds config dev.bus dev.slot dev.func 4 (cmd ||| 0x07)

/-- `idx + 1` is an index of the registers too. -/
def pciGetBar (dev : PciDevice) (idx : Fin 5) : U64 :=
  let lo := dev.bar[idx.val]
  if lo &&& 1 ≠ 0 then lo.zeroExtend 64 &&& ~~~3#64
  else if (lo >>> 1) &&& 3 = 2 then
    let hi := dev.bar[idx.val + 1]
    (lo.zeroExtend 64 &&& ~~~0xF#64) ||| (hi.zeroExtend 64 <<< 32)
  else lo.zeroExtend 64 &&& ~~~0xF#64

structure Devices where
  config : PciConfig
  nvmeBase : U64
  totalSectors : U64
  hdaBase : U64
  hdaReady : Bool
  /-- What is written to the registers of the sound controller. -/
  hdaWrites : List (U64 × U32)
  netInitialised : Bool
  linkUp : Bool

/-- The search of each driver: without a device it returns. -/
def attach (class_ subclass : U8) (ready : PciDevice → Devices → Devices) (pci : PciDevice) (d : Devices) :
    Devices :=
  let (r, pci) := pciFindClass d.config class_ subclass pci
  if r ≠ 0 then d else ready pci d

def enable (pci : PciDevice) (d : Devices) : Devices := { d with config := pciEnableBusMaster kinds pci d.config }

def usbInit : PciDevice → Devices → Devices := attach 0x0C 0x03 (enable kinds)

def nvmeInit : PciDevice → Devices → Devices := attach 0x01 0x08 fun pci d =>
  let d := enable kinds pci { d with nvmeBase := pciGetBar pci 0 }
  { d with totalSectors := 1024 * 1024 * 1024 * 500 / 512 }

def hdaWrite32 (reg : U64) (val : U32) (d : Devices) : Devices :=
  { d with hdaWrites := d.hdaWrites ++ [(d.hdaBase + reg, val)] }

/-- The controller is reset; the loops between are for time only. -/
def audioInit : PciDevice → Devices → Devices := attach 0x04 0x03 fun pci d =>
  let d := { enable kinds pci d with hdaBase := pciGetBar pci 0 }
  { hdaWrite32 0x08 1 (hdaWrite32 0x08 0 d) with hdaReady := true }

def networkInit : PciDevice → Devices → Devices := attach 0x02 0x00 fun pci d =>
  { enable kinds pci d with netInitialised := true, linkUp := true }

/-- The drivers in the order of `kernel_main`, each with the device that its stack holds. -/
def bringUp (stack : Fin 4 → PciDevice) (d : Devices) : Devices :=
  networkInit kinds (stack 3) (audioInit kinds (stack 2) (nvmeInit kinds (stack 1) (usbInit kinds (stack 0) d)))

end Code

/-! ### The command registers -/

/-- The register of a function 0 with its three low bits set. -/
def enabledAt (kinds : PciKinds) (place : U8 × U8) (config : PciConfig) : PciConfig := fun bus slot func reg =>
  if bus = place.1 ∧ slot = place.2.truncate 5 ∧ func = 0 ∧ reg = 1 then
    (kinds bus slot func reg).write (config bus slot func reg) (config bus slot func reg ||| 7)
  else config bus slot func reg

variable {kinds : PciKinds} {config : PciConfig}

/-- The address of a register has its four parts, as a read of the register shows. -/
theorem configAddr_parts {bus slot func off : U8} (hslot : slot.toNat < 2 ^ 5) (hfunc : func.toNat < 2 ^ 3) :
    (configAddr bus slot func off).getLsbD 31 = true ∧
      bus = (configAddr bus slot func off).extractLsb' 16 8 ∧
      slot.truncate 5 = (configAddr bus slot func off).extractLsb' 11 5 ∧
      func.truncate 3 = (configAddr bus slot func off).extractLsb' 8 3 ∧
      off.extractLsb' 2 6 = (configAddr bus slot func off).extractLsb' 2 6 := by
  have hread := @pciRead32_eq (fun b s f r =>
    if bus = b ∧ slot.truncate 5 = s ∧ func.truncate 3 = f ∧ off.extractLsb' 2 6 = r then 1 else 0)
    bus slot func off hslot hfunc
  rw [if_pos ⟨rfl, rfl, rfl, rfl⟩, pciRead32, pciData] at hread
  by_cases henable : (configAddr bus slot func off).getLsbD 31 = true
  · rw [if_pos henable] at hread
    refine ⟨henable, ?_⟩
    by_contra hparts
    rw [if_neg hparts] at hread
    exact absurd hread (by decide)
  · rw [if_neg henable] at hread
    exact absurd hread (by decide)

theorem enableBusMaster_eq {pci : PciDevice} (hslot : pci.slot.toNat < 2 ^ 5) (hfunc : pci.func = 0) :
    pciEnableBusMaster kinds pci config = enabledAt kinds (pci.bus, pci.slot) config := by
  have hzero : (0 : U8).truncate 3 = (0 : BitVec 3) := rfl
  have hreg : (4 : U8).extractLsb' 2 6 = (1 : BitVec 6) := by decide
  have hread : pciRead32 config pci.bus pci.slot 0 4 = config pci.bus (pci.slot.truncate 5) 0 1 := by
    rw [pciRead32_eq hslot (by decide), hzero, hreg]
  obtain ⟨henable, hb, hs, hf, ho⟩ := @configAddr_parts pci.bus pci.slot 0 4 hslot (by decide)
  rw [hzero] at hf
  rw [hreg] at ho
  funext bus slot func reg
  rw [pciEnableBusMaster, hfunc, hread, pciWrite32, pciStore, henable, ← hb, ← hs, ← hf, ← ho, enabledAt]
  by_cases hplace : bus = pci.bus ∧ slot = pci.slot.truncate 5 ∧ func = 0 ∧ reg = 1
  · rw [if_pos ⟨rfl, hplace⟩, if_pos hplace]
    obtain ⟨rfl, rfl, rfl, rfl⟩ := hplace
    rfl
  · rw [if_neg fun h => hplace h.2, if_neg hplace]

/-- Two configuration spaces that differ in command registers only. -/
def Alike (config config' : PciConfig) : Prop :=
  ∀ bus slot func reg, reg ≠ 1 → config' bus slot func reg = config bus slot func reg

theorem alike_enabledAt (place : U8 × U8) : Alike config (enabledAt kinds place config) :=
  fun _ _ _ _ hreg => if_neg fun h => hreg h.2.2.2

variable {config' : PciConfig}

theorem Alike.classAt (h : Alike config config') (c : U8 × U8) (place : U8 × U8) :
    ClassAt config' c.1 c.2 place ↔ ClassAt config c.1 c.2 place := by
  simp only [ClassAt, Present, classOf, subclassOf, h _ _ _ _ (show (0 : BitVec 6) ≠ 1 by decide),
    h _ _ _ _ (show (2 : BitVec 6) ≠ 1 by decide)]

theorem Alike.firstAt (h : Alike config config') (c : U8 × U8) (place : U8 × U8) :
    FirstAt (ClassAt config' c.1 c.2) place ↔ FirstAt (ClassAt config c.1 c.2) place := by
  have hsame : (fun q => decide (ClassAt config' c.1 c.2 q)) = fun q => decide (ClassAt config c.1 c.2 q) :=
    funext fun q => decide_eq_decide.mpr (h.classAt c q)
  rw [FirstAt, FirstAt, hsame]

theorem Alike.deviceAt (h : Alike config config') (place : U8 × U8) :
    deviceAt config' place = deviceAt config place := by
  have hbars : barsOf config' place.1 (place.2.truncate 5) 0 = barsOf config place.1 (place.2.truncate 5) 0 := by
    rw [barsOf, barsOf]
    congr 1
    funext b
    refine h _ _ _ _ ?_
    revert b
    decide
  simp only [AionOs.deviceAt, vendorOf, deviceOf, classOf, subclassOf, irqOf, hbars,
    h _ _ _ _ (show (0 : BitVec 6) ≠ 1 by decide), h _ _ _ _ (show (2 : BitVec 6) ≠ 1 by decide),
    h _ _ _ _ (show (15 : BitVec 6) ≠ 1 by decide)]

/-! ### The searches in a row -/

/-- What a driver of a class does to the registers: the first device of the class is enabled. -/
def enableClass (kinds : PciKinds) (config : PciConfig) (c : U8 × U8) : PciConfig :=
  match pciPlaces.find? fun q => decide (ClassAt config c.1 c.2 q) with
  | some place => enabledAt kinds place config
  | none => config

theorem alike_enableClass (c : U8 × U8) : Alike config (enableClass kinds config c) := by
  rw [enableClass]
  split
  · exact alike_enabledAt _
  · exact fun _ _ _ _ _ => rfl

theorem Alike.trans {config'' : PciConfig} (h : Alike config config') (h' : Alike config' config'') :
    Alike config config'' :=
  fun bus slot func reg hreg => (h' bus slot func reg hreg).trans (h bus slot func reg hreg)

/-- The slot has a driver among those of the classes. -/
def Driven (config : PciConfig) (cs : List (U8 × U8)) (bus : BitVec 8) (slot : BitVec 5) : Prop :=
  ∃ c ∈ cs, FirstAt (ClassAt config c.1 c.2) (bus, slot.zeroExtend 8)

instance (config : PciConfig) (cs : List (U8 × U8)) (bus : BitVec 8) (slot : BitVec 5) :
    Decidable (Driven config cs bus slot) :=
  inferInstanceAs (Decidable (∃ c ∈ cs, pciPlaces.find? (fun q => decide (ClassAt config c.1 c.2 q)) = _))

/-- The command register is written back where there is a driver. -/
def enabledIn (kinds : PciKinds) (cs : List (U8 × U8)) (config : PciConfig) : PciConfig := fun bus slot func reg =>
  if Driven config cs bus slot ∧ func = 0 ∧ reg = 1 then
    (kinds bus slot func reg).write (config bus slot func reg) (config bus slot func reg ||| 7)
  else config bus slot func reg

section Registers

variable {cs : List (U8 × U8)} {bus : BitVec 8} {slot : BitVec 5} {func : BitVec 3} {reg : BitVec 6}

theorem enabledIn_pos (h : Driven config cs bus slot ∧ func = 0 ∧ reg = 1) :
    enabledIn kinds cs config bus slot func reg =
      (kinds bus slot func reg).write (config bus slot func reg) (config bus slot func reg ||| 7) := if_pos h

theorem enabledIn_neg (h : ¬ (Driven config cs bus slot ∧ func = 0 ∧ reg = 1)) :
    enabledIn kinds cs config bus slot func reg = config bus slot func reg := if_neg h

end Registers

theorem enableClass_eq (c : U8 × U8) : enableClass kinds config c = enabledIn kinds [c] config := by
  have hone : ∀ bus slot, Driven config [c] bus slot ↔
      FirstAt (ClassAt config c.1 c.2) (bus, slot.zeroExtend 8) := by
    intro bus slot
    simp [Driven]
  funext bus slot func reg
  rw [enableClass, enabledIn]
  cases hfind : pciPlaces.find? fun q => decide (ClassAt config c.1 c.2 q) with
  | none =>
    refine (if_neg fun h => ?_).symm
    have hfirst := (hone bus slot).mp h.1
    rw [FirstAt, hfind] at hfirst
    cases hfirst
  | some place =>
    have hslot := mem_pciPlaces.mp (List.mem_of_find?_eq_some hfind)
    have hiff : Driven config [c] bus slot ↔ bus = place.1 ∧ slot = place.2.truncate 5 := by
      rw [hone, FirstAt, hfind]
      constructor
      · intro h
        obtain rfl := Option.some.inj h
        exact ⟨rfl, (place_of_slot bus slot).2.symm⟩
      · rintro ⟨rfl, rfl⟩
        refine congrArg some (Prod.ext rfl ?_)
        refine BitVec.eq_of_toNat_eq ?_
        dsimp only
        rw [BitVec.toNat_setWidth, BitVec.toNat_setWidth, Nat.mod_eq_of_lt (by omega : place.2.toNat < 2 ^ 5),
          Nat.mod_eq_of_lt place.2.isLt]
    show enabledAt kinds place config bus slot func reg = _
    unfold enabledAt
    simp only [hiff, and_assoc]

theorem alike_enabledIn (cs : List (U8 × U8)) : Alike config (enabledIn kinds cs config) :=
  fun _ _ _ _ hreg => if_neg fun h => hreg h.2.2

theorem Alike.driven (h : Alike config config') (cs : List (U8 × U8)) (bus : BitVec 8) (slot : BitVec 5) :
    Driven config' cs bus slot ↔ Driven config cs bus slot := by
  simp only [Driven, h.firstAt]

theorem driven_notMem {c : U8 × U8} {cs : List (U8 × U8)} {bus : BitVec 8} {slot : BitVec 5}
    (h : Driven config [c] bus slot) (h' : Driven config cs bus slot) : c ∈ cs := by
  obtain ⟨d, hd, hfirst⟩ := h
  obtain ⟨d', hd', hfirst'⟩ := h'
  obtain rfl := List.mem_singleton.mp hd
  obtain ⟨_, hclass, hsub⟩ := hfirst.holds
  obtain ⟨_, hclass', hsub'⟩ := hfirst'.holds
  rwa [Prod.ext (hclass.symm.trans hclass') (hsub.symm.trans hsub')]

/-- **What the drivers leave of the registers**: the command registers of their devices are written
back once each, and nothing else is touched, as no driver changes what the next one searches. -/
theorem enableClasses_eq {cs : List (U8 × U8)} (hcs : cs.Nodup) : ∀ config : PciConfig,
    cs.foldl (enableClass kinds) config = enabledIn kinds cs config := by
  induction cs with
  | nil =>
    intro config
    funext bus slot func reg
    refine (if_neg fun h => ?_).symm
    obtain ⟨⟨c, hc, _⟩, _⟩ := h
    cases hc
  | cons c cs ih =>
    intro config
    obtain ⟨hnew, hcs⟩ := List.nodup_cons.mp hcs
    rw [List.foldl_cons, ih hcs, enableClass_eq]
    funext bus slot func reg
    have hcons : Driven config (c :: cs) bus slot ↔ Driven config [c] bus slot ∨ Driven config cs bus slot := by
      simp [Driven]
    have hlater : Driven (enabledIn kinds [c] config) cs bus slot ↔ Driven config cs bus slot :=
      (alike_enabledIn [c]).driven cs bus slot
    by_cases hfirst : Driven config [c] bus slot ∧ func = 0 ∧ reg = 1
    · have hrest : ¬ Driven config cs bus slot := fun h => hnew (driven_notMem hfirst.1 h)
      rw [enabledIn_neg fun h => hrest (hlater.mp h.1), enabledIn_pos hfirst,
        enabledIn_pos ⟨hcons.mpr (.inl hfirst.1), hfirst.2⟩]
    · by_cases hsecond : Driven config cs bus slot ∧ func = 0 ∧ reg = 1
      · rw [enabledIn_pos ⟨hlater.mpr hsecond.1, hsecond.2⟩, enabledIn_neg hfirst,
          enabledIn_pos ⟨hcons.mpr (.inr hsecond.1), hsecond.2⟩]
      · rw [enabledIn_neg fun h => hsecond ⟨hlater.mp h.1, h.2⟩, enabledIn_neg hfirst, enabledIn_neg fun h =>
          (hcons.mp h.1).elim (fun hd => hfirst ⟨hd, h.2⟩) fun hd => hsecond ⟨hd, h.2⟩]

/-! ### The drivers -/

def driverClasses : List (U8 × U8) := [(0x0C, 0x03), (0x01, 0x08), (0x04, 0x03), (0x02, 0x00)]

/-- **A driver** gets the first device of its class, or does nothing. -/
theorem attach_cases (c : U8 × U8) (ready : PciDevice → Devices → Devices) (pci : PciDevice) (d : Devices) :
    (∃ place, FirstAt (ClassAt d.config c.1 c.2) place ∧ attach c.1 c.2 ready pci d =
      ready { deviceAt d.config place with class_ := pci.class_, subclass := pci.subclass } d) ∨
    ((∀ place, ¬ FirstAt (ClassAt d.config c.1 c.2) place) ∧ attach c.1 c.2 ready pci d = d) := by
  rcases pciFindClass_cases d.config c.1 c.2 pci with ⟨place, hfirst, hfound⟩ | ⟨hnone, hfound⟩
  · refine .inl ⟨place, hfirst, ?_⟩
    rw [attach, hfound]
    rfl
  · refine .inr ⟨fun place hfirst => hnone place (mem_pciPlaces.mpr hfirst.mem) hfirst.holds, ?_⟩
    rw [attach, hfound]
    rfl

theorem attach_config (c : U8 × U8) {ready : PciDevice → Devices → Devices} (pci : PciDevice) (d : Devices)
    (hready : ∀ pci, (ready pci d).config = pciEnableBusMaster kinds pci d.config) :
    (attach c.1 c.2 ready pci d).config = enableClass kinds d.config c := by
  rcases attach_cases c ready pci d with ⟨place, hfirst, heq⟩ | ⟨hnone, heq⟩
  · rw [heq, hready, enableBusMaster_eq hfirst.mem rfl, enableClass]
    rw [FirstAt] at hfirst
    rw [hfirst]
    rfl
  · rw [heq, enableClass]
    cases hfind : pciPlaces.find? fun q => decide (ClassAt d.config c.1 c.2 q) with
    | none => rfl
    | some place => exact absurd hfind (hnone place)

theorem bringUp_config (stack : Fin 4 → PciDevice) (d : Devices) :
    (bringUp kinds stack d).config = enabledIn kinds driverClasses d.config := by
  have hnodup : driverClasses.Nodup := by decide
  rw [← enableClasses_eq hnodup, bringUp, networkInit, attach_config (0x02, 0x00) _ _ fun _ => rfl, audioInit,
    attach_config (0x04, 0x03) _ _ fun _ => rfl, nvmeInit, attach_config (0x01, 0x08) _ _ fun _ => rfl, usbInit,
    attach_config (0x0C, 0x03) _ _ fun _ => rfl]
  rfl

/-- **The registers after the drivers.**  In the command register of each of their devices the three low
bits are set where they can be set, and all bits that a one clears are lost; every other bit of every
register is as it was. -/
theorem bringUp_registers (kinds : PciKinds) (stack : Fin 4 → PciDevice) (d : Devices) (bus : BitVec 8)
    (slot : BitVec 5) (func : BitVec 3) (reg : BitVec 6) (i : Fin 32) :
    ((bringUp kinds stack d).config bus slot func reg).getLsbD i =
      if Driven d.config driverClasses bus slot ∧ func = 0 ∧ reg = 1 then
        if (kinds bus slot func reg).once.getLsbD i then false
        else (d.config bus slot func reg).getLsbD i ||
          ((kinds bus slot func reg).plain.getLsbD i && decide (i.val < 3))
      else (d.config bus slot func reg).getLsbD i := by
  have hlow : (7 : U32).getLsbD i = decide (i.val < 3) := by
    revert i
    decide
  rw [bringUp_config]
  by_cases hplace : Driven d.config driverClasses bus slot ∧ func = 0 ∧ reg = 1
  · rw [enabledIn_pos hplace, if_pos hplace, StatusReg.getLsbD_writeBack _ _ _ i.isLt, hlow]
  · rw [enabledIn_neg hplace, if_neg hplace]

/-! ### The addresses -/

/-- What an address register tells: an address of ports, or one of memory of 32 or of 64 bits. -/
inductive Bar where
  | ports (q : BitVec 30)
  | mem32 (q : BitVec 28) (prefetch : BitVec 1)
  | mem64 (high : U32) (q : BitVec 28) (prefetch : BitVec 1)

def Bar.base : Bar → U64
  | .ports q => (q ++ 0#2 : U32).zeroExtend 64
  | .mem32 q _ => (q ++ 0#4 : U32).zeroExtend 64
  | .mem64 high q _ => (q ++ 0#4 : U32).zeroExtend 64 ||| (high.zeroExtend 64 <<< 32)

/-- The registers from `idx` on tell the address: the low bits of the first one tell the kind. -/
def Bar.Told (bars : Vector U32 6) (idx : Fin 5) : Bar → Prop
  | .ports q => bars[idx.val] = q ++ 0b01#2
  | .mem32 q prefetch => bars[idx.val] = q ++ (prefetch ++ 0b000#3 : BitVec 4)
  | .mem64 high q prefetch => bars[idx.val] = q ++ (prefetch ++ 0b100#3 : BitVec 4) ∧ bars[idx.val + 1] = high

theorem masked {x y : U32} {m : U64} {k : Nat} (hm : ∀ i < 64, m.getLsbD i = decide (k ≤ i))
    (h : ∀ i, y.getLsbD i = (decide (k ≤ i) && x.getLsbD i)) : x.zeroExtend 64 &&& m = y.zeroExtend 64 := by
  refine BitVec.eq_of_getLsbD_eq fun i hi => ?_
  rw [BitVec.getLsbD_and, BitVec.getLsbD_setWidth, BitVec.getLsbD_setWidth, hm i hi, h i]
  simp only [hi, decide_true, Bool.true_and]
  exact Bool.and_comm _ _

theorem append_cleared {a k : Nat} (q : BitVec a) (low : BitVec k) (i : Nat) :
    (q ++ 0#k).getLsbD i = (decide (k ≤ i) && (q ++ low).getLsbD i) := by
  rw [BitVec.getLsbD_append, BitVec.getLsbD_append]
  by_cases h : i < k
  · simp [h]
  · simp [h]
    omega

theorem even_iff (x : U32) : x &&& 1 = 0 ↔ x.getLsbD 0 = false := by
  constructor
  · intro h
    have hbit := congrArg (fun x : U32 => x.getLsbD 0) h
    simpa using hbit
  · intro h
    refine BitVec.eq_of_getLsbD_eq fun i hi => ?_
    rw [BitVec.getLsbD_and]
    cases i with
    | zero => rw [h]; rfl
    | succ i => simp [BitVec.getLsbD_one]

theorem long_iff (x : U32) : (x >>> 1) &&& 3 = 2 ↔ x.getLsbD 1 = false ∧ x.getLsbD 2 = true := by
  constructor
  · intro h
    have hbit := congrArg (fun x : U32 => x.getLsbD 0) h
    have hbit' := congrArg (fun x : U32 => x.getLsbD 1) h
    simp at hbit hbit'
    simp [hbit, hbit']
  · rintro ⟨h, h'⟩
    have hbit : x[1] = false := by simpa using h
    have hbit' : x[2] = true := by simpa using h'
    refine BitVec.eq_of_getLsbD_eq fun i hi => ?_
    rw [BitVec.getLsbD_and, BitVec.getLsbD_ushiftRight]
    interval_cases i <;> simp [hbit, hbit']

theorem getLsbD_low {a k : Nat} (q : BitVec a) (low : BitVec k) {i : Nat} (hi : i < k) :
    (q ++ low).getLsbD i = low.getLsbD i := by
  rw [BitVec.getLsbD_append, if_pos hi]

theorem mask_ports : ∀ i < 64, (~~~3#64).getLsbD i = decide (2 ≤ i) := by decide

theorem mask_memory : ∀ i < 64, (~~~0xF#64).getLsbD i = decide (4 ≤ i) := by decide

/-- **An address is read back** from the registers that tell it. -/
theorem pciGetBar_regs {dev : PciDevice} {idx : Fin 5} {b : Bar} (h : b.Told dev.bar idx) :
    pciGetBar dev idx = b.base := by
  unfold pciGetBar
  dsimp only
  cases b with
  | ports q =>
    rw [show dev.bar[idx.val] = q ++ 0b01#2 from h]
    have hodd : ¬ (q ++ 0b01#2 : U32) &&& 1 = 0 := by
      rw [even_iff, getLsbD_low q _ (by decide)]
      decide
    rw [if_pos hodd, masked mask_ports (append_cleared q 0b01#2)]
    rfl
  | mem32 q prefetch =>
    rw [show dev.bar[idx.val] = q ++ (prefetch ++ 0b000#3 : BitVec 4) from h]
    have heven : (q ++ (prefetch ++ 0b000#3 : BitVec 4) : U32) &&& 1 = 0 := by
      rw [even_iff, getLsbD_low q _ (by decide), getLsbD_low prefetch _ (by decide)]
      rfl
    have hshort : ¬ ((q ++ (prefetch ++ 0b000#3 : BitVec 4) : U32) >>> 1) &&& 3 = 2 := by
      rw [long_iff, @getLsbD_low _ _ q _ 2 (by decide), getLsbD_low prefetch _ (by decide)]
      exact fun h => absurd h.2 (by decide)
    rw [if_neg (not_not.mpr heven), if_neg hshort, masked mask_memory (append_cleared q _)]
    rfl
  | mem64 high q prefetch =>
    obtain ⟨hlo, hhi⟩ := h
    rw [hlo, hhi]
    have heven : (q ++ (prefetch ++ 0b100#3 : BitVec 4) : U32) &&& 1 = 0 := by
      rw [even_iff, getLsbD_low q _ (by decide), getLsbD_low prefetch _ (by decide)]
      rfl
    have hlong : ((q ++ (prefetch ++ 0b100#3 : BitVec 4) : U32) >>> 1) &&& 3 = 2 := by
      rw [long_iff, getLsbD_low q _ (by decide), getLsbD_low prefetch _ (by decide), getLsbD_low q _ (by decide),
        getLsbD_low prefetch _ (by decide)]
      decide
    rw [if_neg (not_not.mpr heven), if_pos hlong, masked mask_memory (append_cleared q _)]
    rfl

/-- The address registers of a slot tell the address. -/
def TellsBase (config : PciConfig) (place : U8 × U8) (b : Bar) : Prop :=
  b.Told (barsOf config place.1 (place.2.truncate 5) 0) 0

theorem alike_attach (c : U8 × U8) {ready : PciDevice → Devices → Devices} (pci : PciDevice) (d : Devices)
    (hready : ∀ pci, (ready pci d).config = pciEnableBusMaster kinds pci d.config) :
    Alike d.config (attach c.1 c.2 ready pci d).config := by
  rw [attach_config c pci d hready]
  exact alike_enableClass c

theorem attach_keeps {α : Type} (f : Devices → α) (c : U8 × U8) {ready : PciDevice → Devices → Devices}
    (pci : PciDevice) (d : Devices) (hready : ∀ pci, f (ready pci d) = f d) :
    f (attach c.1 c.2 ready pci d) = f d := by
  rcases attach_cases c ready pci d with ⟨place, _, heq⟩ | ⟨_, heq⟩
  · rw [heq, hready]
  · rw [heq]

/-- A driver whose device is there gets it, with the address that its registers told at the start. -/
theorem attach_first {c : U8 × U8} {ready : PciDevice → Devices → Devices} (pci : PciDevice) {d d' : Devices}
    (halike : Alike d.config d'.config) {place : U8 × U8} (hfirst : FirstAt (ClassAt d.config c.1 c.2) place) {b : Bar}
    (hb : TellsBase d.config place b) :
    ∃ dev, attach c.1 c.2 ready pci d' = ready dev d' ∧ pciGetBar dev 0 = b.base := by
  rcases attach_cases c ready pci d' with ⟨place', hfirst', heq⟩ | ⟨hnone, _⟩
  · obtain rfl := ((halike.firstAt c place').mp hfirst').unique hfirst
    refine ⟨_, heq, pciGetBar_regs ?_⟩
    show b.Told (deviceAt d'.config place').bar 0
    rw [halike.deviceAt]
    exact hb
  · exact absurd ((halike.firstAt c place).mpr hfirst) (hnone place)

/-- **The addresses of the drivers.**  Whatever the drivers before them did to the registers, the disk
and the sound controller are used at the addresses that the firmware has given them. -/
theorem bringUp_bases (kinds : PciKinds) (stack : Fin 4 → PciDevice) (d : Devices) {disk sound : U8 × U8}
    {b b' : Bar} (hdisk : FirstAt (ClassAt d.config 0x01 0x08) disk) (hb : TellsBase d.config disk b)
    (hsound : FirstAt (ClassAt d.config 0x04 0x03) sound) (hb' : TellsBase d.config sound b') :
    (bringUp kinds stack d).nvmeBase = b.base ∧ (bringUp kinds stack d).hdaBase = b'.base ∧
      (bringUp kinds stack d).hdaReady = true ∧
      (bringUp kinds stack d).hdaWrites = d.hdaWrites ++ [(b'.base + 8, 0), (b'.base + 8, 1)] := by
  have husb : Alike d.config (usbInit kinds (stack 0) d).config :=
    alike_attach (0x0C, 0x03) (stack 0) d fun _ => rfl
  have hwrites : (usbInit kinds (stack 0) d).hdaWrites = d.hdaWrites :=
    attach_keeps Devices.hdaWrites (0x0C, 0x03) (stack 0) d fun _ => rfl
  rw [bringUp]
  generalize usbInit kinds (stack 0) d = d₁ at husb hwrites ⊢
  have hnvme : Alike d.config (nvmeInit kinds (stack 1) d₁).config :=
    husb.trans (alike_attach (0x01, 0x08) (stack 1) d₁ fun _ => rfl)
  have hbase : (nvmeInit kinds (stack 1) d₁).nvmeBase = b.base := by
    obtain ⟨dev, heq, hbar⟩ := attach_first (c := (0x01, 0x08)) (stack 1) husb hdisk hb
    rw [nvmeInit, heq]
    exact hbar
  have hwrites' : (nvmeInit kinds (stack 1) d₁).hdaWrites = d.hdaWrites :=
    (attach_keeps Devices.hdaWrites (0x01, 0x08) (stack 1) d₁ fun _ => rfl).trans hwrites
  generalize nvmeInit kinds (stack 1) d₁ = d₂ at hnvme hbase hwrites' ⊢
  obtain ⟨dev, heq, hbar⟩ := attach_first (c := (0x04, 0x03)) (stack 2) hnvme hsound hb'
  rw [audioInit, heq]
  refine ⟨?_, ?_, ?_, ?_⟩
  · rw [networkInit, attach_keeps Devices.nvmeBase (0x02, 0x00) _ _ fun _ => rfl]
    exact hbase
  · rw [networkInit, attach_keeps Devices.hdaBase (0x02, 0x00) _ _ fun _ => rfl]
    exact hbar
  · exact attach_keeps Devices.hdaReady (0x02, 0x00) _ _ fun _ => rfl
  · rw [networkInit, attach_keeps Devices.hdaWrites (0x02, 0x00) _ _ fun _ => rfl]
    show d₂.hdaWrites ++ [(pciGetBar dev 0 + 8, 0)] ++ [(pciGetBar dev 0 + 8, 1)] = _
    rw [hbar, hwrites', List.append_assoc]
    rfl

/-- A disk in slot 4 and a sound controller in slot 27 of bus 0. -/
def deskConfig : PciConfig := fun bus slot func reg =>
  if bus = 0 ∧ slot = 4 ∧ func = 0 then
    if reg = 0 then 0xA808144D else if reg = 2 then 0x01080200 else if reg = 4 then 0xFEA00004
    else if reg = 5 then 1 else 0
  else if bus = 0 ∧ slot = 27 ∧ func = 0 then
    if reg = 0 then 0x26688086 else if reg = 2 then 0x04030000 else if reg = 4 then 0xFEBF0000 else 0
  else 0xFFFFFFFF

def deskDevices : Devices := ⟨deskConfig, 0, 0, 0, false, [], false, false⟩

/-- The low half of the command registers keeps what is written, a one clears the errors. -/
def usualKinds : PciKinds := fun _ _ _ reg =>
  if reg = 1 then ⟨0x00000547, 0xF9000000, by decide⟩ else ⟨0, 0, by decide⟩

theorem desk_bases : (bringUp usualKinds (fun _ => noDevice) deskDevices).nvmeBase = 0x1FEA00000 ∧
    (bringUp usualKinds (fun _ => noDevice) deskDevices).hdaBase = 0xFEBF0000 ∧
    (bringUp usualKinds (fun _ => noDevice) deskDevices).hdaReady = true ∧
    (bringUp usualKinds (fun _ => noDevice) deskDevices).hdaWrites = [(0xFEBF0008, 0), (0xFEBF0008, 1)] := by
  have hdisk : FirstAt (ClassAt deskConfig 0x01 0x08) (0, 4) := by
    rw [FirstAt]
    decide +kernel
  have hsound : FirstAt (ClassAt deskConfig 0x04 0x03) (0, 27) := by
    rw [FirstAt]
    decide +kernel
  have hbase : TellsBase deskConfig (0, 4) (.mem64 1 0xFEA0000 0) := ⟨by decide, by decide⟩
  have hbase' : TellsBase deskConfig (0, 27) (.mem32 0xFEBF000 0) := show _ = _ by decide
  exact bringUp_bases usualKinds (fun _ => noDevice) deskDevices hdisk hbase hsound hbase'

end BringUp

end AionOs
