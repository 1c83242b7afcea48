import Mathlib.Tactic.IntervalCases
import AionOs.Memory.Pmm

/-!
# The PCI bus

`pci_read32`, `pci_find_class` and `pci_find_device` of `kernel/drivers/pci/pci.c`, over any
configuration space.

* `pciRead32_eq`: the register that an address selects.
* `pciScan_cases`: a search ends at the first place of a kind.
* `pciFindClass_cases`, `pciFindDevice_cases`: what each search fills in.
* `pci_class_iff`: which classes are found.
* `pci_searches_agree_iff`: when the two searches fill in the same device.
-/

namespace AionOs

abbrev U16 := BitVec 16

/-! ### The code -/

abbrev PciConfig := BitVec 8 → BitVec 5 → BitVec 3 → BitVec 6 → U32

/-- What the data port reads after an address is written to the address port. -/
def pciData (config : PciConfig) (addr : U32) : U32 :=
  if addr.getLsbD 31 then
    config (addr.extractLsb' 16 8) (addr.extractLsb' 11 5) (addr.extractLsb' 8 3) (addr.extractLsb' 2 6)
  else 0xFFFFFFFF

def configAddr (bus slot func off : U8) : U32 :=
  (0x80000000 : U32) ||| (bus.zeroExtend 32 <<< 16) ||| (slot.zeroExtend 32 <<< 11) |||
    (func.zeroExtend 32 <<< 8) ||| (off &&& 0xFC).zeroExtend 32

def pciRead32 (config : PciConfig) (bus slot func off : U8) : U32 :=
  pciData config (configAddr bus slot func off)

structure PciDevice where
  vendor : U16
  device : U16
  class_ : U8
  subclass : U8
  bus : U8
  slot : U8
  func : U8
  bar : Vector U32 6
  irq : U8
  deriving DecidableEq

def pciPlaces : List (U8 × U8) :=
  (List.range 256).flatMap fun bus => (List.range 32).map fun slot =>
    (BitVec.ofNat 8 bus, BitVec.ofNat 8 slot)

/-- The loop over the address registers. -/
def readBars (config : PciConfig) (bus slot : U8) : Vector U32 6 :=
  Vector.ofFn fun b => pciRead32 config bus slot 0 (0x10 + BitVec.ofNat 8 b.val * 4)

/-- The loops over the buses and the slots: `body` fills in what is found, or goes on. -/
def pciScan (body : U8 × U8 → Option PciDevice) (out : PciDevice) : Int × PciDevice :=
  match pciPlaces.findSome? body with
  | some out => (0, out)
  | none => (-1, out)

def pciFindClass (config : PciConfig) (class_ subclass : U8) (out : PciDevice) : Int × PciDevice :=
  pciScan (fun (bus, slot) =>
    let id := pciRead32 config bus slot 0 0
    if id = 0xFFFFFFFF then none
    else
      let cc := pciRead32 config bus slot 0 8
      if (cc >>> 24) &&& 0xFF = class_.zeroExtend 32 ∧ (cc >>> 16) &&& 0xFF = subclass.zeroExtend 32 then
        some { out with
          vendor := (id &&& 0xFFFF).truncate 16
          device := (id >>> 16).truncate 16
          bus := bus
          slot := slot
          func := 0
          bar := readBars config bus slot
          irq := (pciRead32 config bus slot 0 0x3C &&& 0xFF).truncate 8 }
      else none) out

def pciFindDevice (config : PciConfig) (vendor device : U16) (out : PciDevice) : Int × PciDevice :=
  pciScan (fun (bus, slot) =>
    let id := pciRead32 config bus slot 0 0
    if (id &&& 0xFFFF).truncate 16 = vendor ∧ (id >>> 16).truncate 16 = device then
      some { out with
        vendor := vendor
        device := device
        bus := bus
        slot := slot
        func := 0
        bar := readBars config bus slot }
    else none) out

/-! ### The registers -/

/-- A function that is there does not read as all ones. -/
def Present (config : PciConfig) (bus : BitVec 8) (slot : BitVec 5) (func : BitVec 3) : Prop :=
  config bus slot func 0 ≠ 0xFFFFFFFF

instance (config : PciConfig) (bus : BitVec 8) (slot : BitVec 5) (func : BitVec 3) :
    Decidable (Present config bus slot func) := inferInstanceAs (Decidable (_ ≠ _))

def vendorOf (config : PciConfig) (bus : BitVec 8) (slot : BitVec 5) (func : BitVec 3) : U16 :=
  (config bus slot func 0).extractLsb' 0 16

def deviceOf (config : PciConfig) (bus : BitVec 8) (slot : BitVec 5) (func : BitVec 3) : U16 :=
  (config bus slot func 0).extractLsb' 16 16

def classOf (config : PciConfig) (bus : BitVec 8) (slot : BitVec 5) (func : BitVec 3) : U8 :=
  (config bus slot func 2).extractLsb' 24 8

def subclassOf (config : PciConfig) (bus : BitVec 8) (slot : BitVec 5) (func : BitVec 3) : U8 :=
  (config bus slot func 2).extractLsb' 16 8

def irqOf (config : PciConfig) (bus : BitVec 8) (slot : BitVec 5) (func : BitVec 3) : U8 :=
  (config bus slot func 15).extractLsb' 0 8

/-- The address registers are the registers from 4 on. -/
def barsOf (config : PciConfig) (bus : BitVec 8) (slot : BitVec 5) (func : BitVec 3) : Vector U32 6 :=
  Vector.ofFn fun b => config bus slot func (BitVec.ofNat 6 (4 + b.val))

theorem getLsbD_of_lt {w k i : Nat} {x : BitVec w} (hx : x.toNat < 2 ^ k) (hi : k ≤ i) :
    x.getLsbD i = false := by
  rw [BitVec.getLsbD, Nat.testBit_lt_two_pow]
  exact lt_of_lt_of_le hx (Nat.pow_le_pow_right (by omega) hi)

theorem configAddr_bit (bus slot func off : U8) {i : Nat} (hi : i < 32) :
    (configAddr bus slot func off).getLsbD i = (decide (i = 31) ||
      (decide (16 ≤ i) && bus.getLsbD (i - 16)) || (decide (11 ≤ i) && slot.getLsbD (i - 11)) ||
      (decide (8 ≤ i) && func.getLsbD (i - 8)) || (decide (2 ≤ i) && off.getLsbD i)) := by
  rw [configAddr]
  interval_cases i <;> simp

/-- **The register that an address selects.** -/
theorem pciRead32_eq {config : PciConfig} {bus slot func off : U8} (hslot : slot.toNat < 2 ^ 5)
    (hfunc : func.toNat < 2 ^ 3) : pciRead32 config bus slot func off =
      config bus (slot.truncate 5) (func.truncate 3) (off.extractLsb' 2 6) := by
  have henable : (configAddr bus slot func off).getLsbD 31 = true := by
    rw [configAddr_bit _ _ _ _ (by omega)]
    rfl
  have hbusBits : (configAddr bus slot func off).extractLsb' 16 8 = bus := by
    refine BitVec.eq_of_getLsbD_eq fun i hi => ?_
    rw [BitVec.getLsbD_extractLsb', configAddr_bit _ _ _ _ (by omega),
      getLsbD_of_lt hslot (by omega), getLsbD_of_lt hfunc (by omega), BitVec.getLsbD_of_ge off _ (by omega)]
    simp [hi]
    omega
  have hslotBits : (configAddr bus slot func off).extractLsb' 11 5 = slot.truncate 5 := by
    refine BitVec.eq_of_getLsbD_eq fun i hi => ?_
    rw [BitVec.getLsbD_extractLsb', configAddr_bit _ _ _ _ (by omega), getLsbD_of_lt hfunc (by omega),
      BitVec.getLsbD_of_ge off _ (by omega)]
    simp [hi]
    omega
  have hfuncBits : (configAddr bus slot func off).extractLsb' 8 3 = func.truncate 3 := by
    refine BitVec.eq_of_getLsbD_eq fun i hi => ?_
    rw [BitVec.getLsbD_extractLsb', configAddr_bit _ _ _ _ (by omega),
      BitVec.getLsbD_of_ge off _ (by omega)]
    simp [hi]
    omega
  have hoffBits : (configAddr bus slot func off).extractLsb' 2 6 = off.extractLsb' 2 6 := by
    refine BitVec.eq_of_getLsbD_eq fun i hi => ?_
    rw [BitVec.getLsbD_extractLsb', configAddr_bit _ _ _ _ (by omega), BitVec.getLsbD_extractLsb']
    simp [hi]
    omega
  rw [pciRead32, pciData, if_pos henable, hbusBits, hslotBits, hfuncBits, hoffBits]

/-! ### The searches -/

theorem mem_pciPlaces {place : U8 × U8} : place ∈ pciPlaces ↔ place.2.toNat < 2 ^ 5 := by
  simp only [pciPlaces, List.mem_flatMap, List.mem_map, List.mem_range]
  constructor
  · rintro ⟨bus, _, slot, hslot, rfl⟩
    rw [BitVec.toNat_ofNat]
    omega
  · intro h
    have hsame : ∀ b : U8, BitVec.ofNat 8 b.toNat = b := by
      intro b
      rw [BitVec.ofNat_toNat, BitVec.setWidth_eq]
    exact ⟨place.1.toNat, place.1.isLt, place.2.toNat, h, Prod.ext (hsame place.1) (hsame place.2)⟩

/-- The first place of a kind, in the order of the loops. -/
def FirstAt (p : U8 × U8 → Prop) [DecidablePred p] (place : U8 × U8) : Prop :=
  pciPlaces.find? (fun q => decide (p q)) = some place

section Scan

variable {p : U8 × U8 → Prop} [DecidablePred p]

theorem FirstAt.mem {place : U8 × U8} (h : FirstAt p place) : place.2.toNat < 2 ^ 5 :=
  mem_pciPlaces.mp (List.mem_of_find?_eq_some h)

theorem FirstAt.holds {place : U8 × U8} (h : FirstAt p place) : p place :=
  of_decide_eq_true (List.find?_some (p := fun q => decide (p q)) h)

theorem FirstAt.unique {place place' : U8 × U8} (h : FirstAt p place) (h' : FirstAt p place') :
    place = place' := Option.some.inj (h.symm.trans h')

theorem findSome?_guard {α β : Type} {p : α → Prop} [DecidablePred p] {f : α → Option β} {g : α → β}
    {l : List α} (hf : ∀ a ∈ l, f a = if p a then some (g a) else none) :
    l.findSome? f = (l.find? fun a => decide (p a)).map g := by
  induction l with
  | nil => rfl
  | cons a l ih =>
    have htail := ih fun b hb => hf b (List.mem_cons_of_mem a hb)
    rw [List.findSome?_cons, List.find?_cons, hf a List.mem_cons_self, htail]
    by_cases ha : p a
    · rw [if_pos ha, decide_eq_true ha]
      rfl
    · rw [if_neg ha, decide_eq_false ha]

/-- **A search** ends at the first place of its kind, or finds none. -/
theorem pciScan_cases {body : U8 × U8 → Option PciDevice} {fill : U8 × U8 → PciDevice}
    (hbody : ∀ place ∈ pciPlaces, body place = if p place then some (fill place) else none)
    (out : PciDevice) : (∃ place, FirstAt p place ∧ pciScan body out = (0, fill place)) ∨
      ((∀ place ∈ pciPlaces, ¬ p place) ∧ pciScan body out = (-1, out)) := by
  rw [pciScan, findSome?_guard hbody]
  cases hfind : pciPlaces.find? (fun q => decide (p q)) with
  | some place => exact .inl ⟨place, hfind, rfl⟩
  | none =>
    refine .inr ⟨fun place hplace hp => ?_, rfl⟩
    exact List.find?_eq_none.mp hfind place hplace (decide_eq_true hp)

end Scan

section Searches

variable (config : PciConfig)

/-- A device of the class whose function 0 is there. -/
def ClassAt (class_ subclass : U8) (place : U8 × U8) : Prop :=
  Present config place.1 (place.2.truncate 5) 0 ∧ classOf config place.1 (place.2.truncate 5) 0 = class_ ∧
    subclassOf config place.1 (place.2.truncate 5) 0 = subclass

instance (class_ subclass : U8) : DecidablePred (ClassAt config class_ subclass) :=
  fun _ => inferInstanceAs (Decidable (_ ∧ _ ∧ _))

/-- A place that reads as the two numbers. -/
def IdsAt (vendor device : U16) (place : U8 × U8) : Prop :=
  vendorOf config place.1 (place.2.truncate 5) 0 = vendor ∧
    deviceOf config place.1 (place.2.truncate 5) 0 = device

instance (vendor device : U16) : DecidablePred (IdsAt config vendor device) :=
  fun _ => inferInstanceAs (Decidable (_ ∧ _))

def deviceAt (place : U8 × U8) : PciDevice where
  vendor := vendorOf config place.1 (place.2.truncate 5) 0
  device := deviceOf config place.1 (place.2.truncate 5) 0
  class_ := classOf config place.1 (place.2.truncate 5) 0
  subclass := subclassOf config place.1 (place.2.truncate 5) 0
  bus := place.1
  slot := place.2
  func := 0
  bar := barsOf config place.1 (place.2.truncate 5) 0
  irq := irqOf config place.1 (place.2.truncate 5) 0

end Searches

variable {config : PciConfig}

theorem readBars_eq {place : U8 × U8} (h : place.2.toNat < 2 ^ 5) :
    readBars config place.1 place.2 = barsOf config place.1 (place.2.truncate 5) 0 := by
  rw [readBars, barsOf]
  congr 1
  funext b
  have hoff : (0x10 + BitVec.ofNat 8 b.val * 4 : U8).extractLsb' 2 6 = BitVec.ofNat 6 (4 + b.val) := by
    revert b
    decide
  rw [pciRead32_eq h (by decide), hoff]
  rfl

theorem low_half (id : U32) : (id &&& 0xFFFF).truncate 16 = id.extractLsb' 0 16 := by
  refine BitVec.eq_of_getLsbD_eq fun i hi => ?_
  interval_cases i <;> simp

theorem high_half (id : U32) : (id >>> 16).truncate 16 = id.extractLsb' 16 16 := by
  refine BitVec.eq_of_getLsbD_eq fun i hi => ?_
  simp [hi]

theorem low_byte (r : U32) : (r &&& 0xFF).truncate 8 = r.extractLsb' 0 8 := by
  refine BitVec.eq_of_getLsbD_eq fun i hi => ?_
  interval_cases i <;> simp

theorem byte_eq_iff {cc : U32} {c : U8} (k : Nat) :
    (cc >>> k) &&& 0xFF = c.zeroExtend 32 ↔ cc.extractLsb' k 8 = c := by
  have hbyte : (cc >>> k) &&& 0xFF = (cc.extractLsb' k 8).zeroExtend 32 := by
    refine BitVec.eq_of_getLsbD_eq fun i hi => ?_
    interval_cases i <;> simp
  rw [hbyte]
  constructor
  · intro h
    have hnarrow := congrArg (BitVec.truncate 8) h
    simpa using hnarrow
  · intro h
    rw [h]

theorem id_eq {place : U8 × U8} (h : place.2.toNat < 2 ^ 5) :
    pciRead32 config place.1 place.2 0 0 = config place.1 (place.2.truncate 5) 0 0 :=
  pciRead32_eq h (by decide)

/-- **The search for a class** fills in the first device of the class, but not its class. -/
theorem pciFindClass_cases (config : PciConfig) (class_ subclass : U8) (out : PciDevice) :
    (∃ place, FirstAt (ClassAt config class_ subclass) place ∧ pciFindClass config class_ subclass out =
      (0, { deviceAt config place with class_ := out.class_, subclass := out.subclass })) ∨
    ((∀ place ∈ pciPlaces, ¬ ClassAt config class_ subclass place) ∧
      pciFindClass config class_ subclass out = (-1, out)) := by
  refine pciScan_cases (fun place hplace => ?_) out
  have hslot := mem_pciPlaces.mp hplace
  have hclass : pciRead32 config place.1 place.2 0 8 = config place.1 (place.2.truncate 5) 0 2 :=
    pciRead32_eq hslot (by decide)
  have hirq : pciRead32 config place.1 place.2 0 0x3C = config place.1 (place.2.truncate 5) 0 15 :=
    pciRead32_eq hslot (by decide)
  dsimp only
  rw [id_eq hslot, hclass, hirq, low_half, high_half, low_byte, readBars_eq hslot]
  by_cases hpresent : config place.1 (place.2.truncate 5) 0 0 = 0xFFFFFFFF
  · rw [if_pos hpresent, if_neg fun h => h.1 hpresent]
  · rw [if_neg hpresent]
    exact if_congr ((and_congr (byte_eq_iff 24) (byte_eq_iff 16)).trans (and_iff_right hpresent).symm)
      rfl rfl

/-- **The search for two numbers** fills in the first place that reads as them, but neither its
class nor its interrupt line. -/
theorem pciFindDevice_cases (config : PciConfig) (vendor device : U16) (out : PciDevice) :
    (∃ place, FirstAt (IdsAt config vendor device) place ∧ pciFindDevice config vendor device out =
      (0, { deviceAt config place with
        class_ := out.class_, subclass := out.subclass, irq := out.irq })) ∨
    ((∀ place ∈ pciPlaces, ¬ IdsAt config vendor device place) ∧
      pciFindDevice config vendor device out = (-1, out)) := by
  refine pciScan_cases (fun place hplace => ?_) out
  have hslot := mem_pciPlaces.mp hplace
  dsimp only
  rw [id_eq hslot, low_half, high_half, readBars_eq hslot]
  refine if_ctx_congr Iff.rfl (fun hids => ?_) (fun _ => rfl)
  obtain ⟨hvendor, hdevice⟩ := hids
  rw [← hvendor, ← hdevice]
  rfl

/-! ### Which classes are found -/

theorem place_of_slot (bus : BitVec 8) (slot : BitVec 5) :
    (bus, slot.zeroExtend 8) ∈ pciPlaces ∧ (slot.zeroExtend 8).truncate 5 = slot := by
  have hslot := slot.isLt
  refine ⟨mem_pciPlaces.mpr ?_, ?_⟩
  · rw [BitVec.toNat_setWidth, Nat.mod_eq_of_lt (by omega)]
    exact hslot
  · exact BitVec.setWidth_setWidth_of_le slot (by omega)

/-- **Which classes are found**: those of a function 0 that is there, and such a function is then
filled in. -/
theorem pci_class_iff (config : PciConfig) (class_ subclass : U8) (out : PciDevice) :
    ((pciFindClass config class_ subclass out).1 = 0 ↔ ∃ bus slot, Present config bus slot 0 ∧
      classOf config bus slot 0 = class_ ∧ subclassOf config bus slot 0 = subclass) ∧
    ((pciFindClass config class_ subclass out).1 = 0 →
      let d := (pciFindClass config class_ subclass out).2
      d.slot.toNat < 32 ∧ d.func = 0 ∧ Present config d.bus (d.slot.truncate 5) 0 ∧
      classOf config d.bus (d.slot.truncate 5) 0 = class_ ∧
      subclassOf config d.bus (d.slot.truncate 5) 0 = subclass ∧
      d.vendor = vendorOf config d.bus (d.slot.truncate 5) 0 ∧
      d.device = deviceOf config d.bus (d.slot.truncate 5) 0) := by
  rcases pciFindClass_cases config class_ subclass out with ⟨place, hfirst, hfound⟩ | ⟨hnone, hfound⟩
  · obtain ⟨hpresent, hclass, hsubclass⟩ := hfirst.holds
    rw [hfound]
    refine ⟨iff_of_true rfl ⟨place.1, place.2.truncate 5, hpresent, hclass, hsubclass⟩, fun _ => ?_⟩
    exact ⟨hfirst.mem, rfl, hpresent, hclass, hsubclass, rfl, rfl⟩
  · rw [hfound]
    have hnot : (-1 : Int) ≠ 0 := by decide
    refine ⟨iff_of_false hnot ?_, fun h => absurd h hnot⟩
    rintro ⟨bus, slot, hpresent, hclass, hsubclass⟩
    obtain ⟨hmem, hslot⟩ := place_of_slot bus slot
    refine hnone _ hmem ?_
    rw [ClassAt]
    dsimp only
    rw [hslot]
    exact ⟨hpresent, hclass, hsubclass⟩

/-- A sound function behind a bridge in the last slot of bus 0, with nothing else there. -/
def soundConfig : PciConfig := fun bus slot func reg =>
  if bus = 0 ∧ slot = 31 then
    if func = 0 then (if reg = 0 then 0xA3098086 else if reg = 2 then 0x06010000 else 0)
    else if func = 3 then (if reg = 0 then 0xA3488086 else if reg = 2 then 0x04030000 else 0)
    else 0xFFFFFFFF
  else 0xFFFFFFFF

def noDevice : PciDevice := ⟨0, 0, 0, 0, 0, 0, 0, Vector.replicate 6 0, 0⟩

/-- A function that is there and is not found. -/
theorem sound_missed :
    (Present soundConfig 0 31 3 ∧ classOf soundConfig 0 31 3 = 4 ∧ subclassOf soundConfig 0 31 3 = 3) ∧
      (pciFindClass soundConfig 4 3 noDevice).1 ≠ 0 := by
  refine ⟨by decide, ?_⟩
  rcases pciFindClass_cases soundConfig 4 3 noDevice with ⟨place, hfirst, _⟩ | ⟨_, hfound⟩
  · obtain ⟨hpresent, hclass, _⟩ := hfirst.holds
    rw [Present, soundConfig] at hpresent
    rw [classOf, soundConfig] at hclass
    by_cases hplace : place.1 = 0 ∧ place.2.truncate 5 = 31
    · rw [if_pos hplace] at hclass
      exact absurd hclass (by decide)
    · exact absurd (if_neg hplace) hpresent
  · rw [hfound]
    decide

/-! ### The two searches -/

/-- Where both searches find the same place, they fill in the same device, as the registers have
it; and neither finds a place where nothing is. -/
def SearchesAgree (config : PciConfig) (class_ subclass : U8) (vendor device : U16)
    (out out' : PciDevice) : Prop :=
  let r := pciFindClass config class_ subclass out
  let r' := pciFindDevice config vendor device out'
  (r.1 = 0 ∧ r'.1 = 0 ∧ r.2.bus = r'.2.bus ∧ r.2.slot = r'.2.slot →
    r.2 = deviceAt config (r.2.bus, r.2.slot) ∧ r'.2 = deviceAt config (r.2.bus, r.2.slot)) ∧
  (r.1 = 0 → Present config r.2.bus (r.2.slot.truncate 5) 0) ∧
  (r'.1 = 0 → Present config r'.2.bus (r'.2.slot.truncate 5) 0)

/-- What neither search fills in is there already. -/
def FilledIn (config : PciConfig) (out out' : PciDevice) (place : U8 × U8) : Prop :=
  out.class_ = classOf config place.1 (place.2.truncate 5) 0 ∧
  out.subclass = subclassOf config place.1 (place.2.truncate 5) 0 ∧
  out'.class_ = classOf config place.1 (place.2.truncate 5) 0 ∧
  out'.subclass = subclassOf config place.1 (place.2.truncate 5) 0 ∧
  out'.irq = irqOf config place.1 (place.2.truncate 5) 0

/-- A place whose two numbers are all ones is a place where nothing is. -/
theorem absent_iff {id : U32} :
    id = 0xFFFFFFFF ↔ id.extractLsb' 0 16 = 0xFFFF ∧ id.extractLsb' 16 16 = 0xFFFF := by
  constructor
  · rintro rfl
    decide
  · rintro ⟨hlow, hhigh⟩
    have hjoin : id = id.extractLsb' 16 16 ++ id.extractLsb' 0 16 := by
      refine BitVec.eq_of_getLsbD_eq fun i hi => ?_
      rw [BitVec.getLsbD_append]
      interval_cases i <;> simp
    rw [hjoin, hlow, hhigh]
    decide

theorem class_present (config : PciConfig) (class_ subclass : U8) (out : PciDevice)
    (h : (pciFindClass config class_ subclass out).1 = 0) :
    let d := (pciFindClass config class_ subclass out).2
    Present config d.bus (d.slot.truncate 5) 0 := by
  rcases pciFindClass_cases config class_ subclass out with ⟨place, hfirst, hfound⟩ | ⟨_, hfound⟩
  · rw [hfound]
    exact hfirst.holds.1
  · rw [hfound] at h
    exact absurd h (show (-1 : Int) ≠ 0 by decide)

/-- A search for all ones finds the first empty slot. -/
theorem device_present_iff (config : PciConfig) (vendor device : U16) (out : PciDevice) :
    ((pciFindDevice config vendor device out).1 = 0 →
      let d := (pciFindDevice config vendor device out).2
      Present config d.bus (d.slot.truncate 5) 0) ↔
    (vendor = 0xFFFF → device = 0xFFFF → ∀ bus slot, Present config bus slot 0) := by
  rcases pciFindDevice_cases config vendor device out with ⟨place, hfirst, hfound⟩ | ⟨hnone, hfound⟩
  · obtain ⟨hvendor, hdevice⟩ := hfirst.holds
    rw [hfound, forall_prop_of_true rfl]
    dsimp only
    constructor
    · intro hpresent hv hd
      exact absurd (absent_iff.mpr ⟨hvendor.trans hv, hdevice.trans hd⟩) hpresent
    · intro hones habsent
      obtain ⟨hv, hd⟩ := absent_iff.mp habsent
      exact hones (hvendor.symm.trans hv) (hdevice.symm.trans hd) _ _ habsent
  · rw [hfound]
    refine iff_of_true (fun h => absurd h (show (-1 : Int) ≠ 0 by decide)) ?_
    intro hv hd bus slot habsent
    obtain ⟨hmem, hslot⟩ := place_of_slot bus slot
    refine hnone _ hmem ?_
    rw [IdsAt, hv, hd]
    dsimp only
    rw [hslot]
    exact absent_iff.mp habsent

/-- What is filled in at one place is the device there, if the rest is there already. -/
theorem filledIn_iff (config : PciConfig) (out out' : PciDevice) (place : U8 × U8) :
    ({ deviceAt config place with class_ := out.class_, subclass := out.subclass } = deviceAt config place ∧
      { deviceAt config place with
        class_ := out'.class_, subclass := out'.subclass, irq := out'.irq } = deviceAt config place) ↔
    FilledIn config out out' place := by
  simp only [deviceAt, PciDevice.mk.injEq, true_and, and_true, FilledIn, and_assoc]

theorem same_place_iff (config : PciConfig) (class_ subclass : U8) (vendor device : U16)
    (out out' : PciDevice) :
    (let r := pciFindClass config class_ subclass out
      let r' := pciFindDevice config vendor device out'
      r.1 = 0 ∧ r'.1 = 0 ∧ r.2.bus = r'.2.bus ∧ r.2.slot = r'.2.slot →
        r.2 = deviceAt config (r.2.bus, r.2.slot) ∧ r'.2 = deviceAt config (r.2.bus, r.2.slot)) ↔
    ∀ place, FirstAt (ClassAt config class_ subclass) place →
      FirstAt (IdsAt config vendor device) place → FilledIn config out out' place := by
  have hnot : (-1 : Int) ≠ 0 := by decide
  rcases pciFindClass_cases config class_ subclass out with ⟨place, hfirst, hfound⟩ | ⟨hnone, hfound⟩
  case inr =>
    rw [hfound]
    exact iff_of_true (fun h => absurd h.1 hnot)
      fun place hclass => absurd hclass.holds (hnone place (mem_pciPlaces.mpr hclass.mem))
  rcases pciFindDevice_cases config vendor device out' with ⟨place', hfirst', hfound'⟩ | ⟨hnone, hfound'⟩
  case inr =>
    rw [hfound']
    exact iff_of_true (fun h => absurd h.2.1 hnot)
      fun place _ hids => absurd hids.holds (hnone place (mem_pciPlaces.mpr hids.mem))
  rw [hfound, hfound']
  dsimp only
  constructor
  · intro h q hclass hids
    obtain rfl := hfirst.unique hclass
    obtain rfl := hfirst'.unique hids
    exact (filledIn_iff config out out' _).mp (h ⟨rfl, rfl, rfl, rfl⟩)
  · rintro h ⟨_, _, hbus, hslot⟩
    obtain rfl : place = place' := Prod.ext hbus hslot
    exact (filledIn_iff config out out' place).mpr (h place hfirst hfirst')

/-- **When the two searches agree**: if and only if the fields that a search leaves alone are
already right wherever both find the same place, and all ones are not searched for while a slot
is empty. -/
theorem pci_searches_agree_iff (config : PciConfig) (class_ subclass : U8) (vendor device : U16)
    (out out' : PciDevice) : SearchesAgree config class_ subclass vendor device out out' ↔
      (∀ place, FirstAt (ClassAt config class_ subclass) place →
        FirstAt (IdsAt config vendor device) place → FilledIn config out out' place) ∧
      (vendor = 0xFFFF → device = 0xFFFF → ∀ bus slot, Present config bus slot 0) := by
  rw [← device_present_iff config vendor device out', ← same_place_iff, SearchesAgree]
  exact and_congr_right fun _ => and_iff_right (class_present config class_ subclass out)

/-- A network card in slot 3 of bus 0. -/
def cardConfig : PciConfig := fun bus slot func reg =>
  if bus = 0 ∧ slot = 3 ∧ func = 0 then
    if reg = 0 then 0x100E8086 else if reg = 2 then 0x02000000 else if reg = 15 then 0x0000010B else 0
  else 0xFFFFFFFF

/-- The class of a card that is found is not filled in. -/
theorem card_unclassed : ¬ SearchesAgree cardConfig 2 0 0x8086 0x100E noDevice noDevice := by
  rw [SearchesAgree]
  decide +kernel

end AionOs
