import AionOs.Lib.Ledger
import AionOs.Memory.Pmm

/-!
# The bootloader

`load_file`, `get_gop`, `get_mmap` and `efi_main` of `bootloader/bootloader.c`, on any firmware: its
services are functions of a state of its own, and may fail at every call.  `find_rsdp` is called
there and defined nowhere; it is taken to set `rsdp_addr`.

* `loadFile_uses`, `getMmap_spec`: what the two helpers hold when they return.
* `efiMain_balanced`: nothing is released that is not held, on any path.
* `efiMain_entered`: the kernel is entered only after boot services have ended.
* `handed_map_current`: the kernel gets the last memory map of the firmware.
-/

namespace AionOs

open Ledger (Use held)

namespace Loader

/-! ### The firmware -/

/-- What `GetMemoryMap` says: on a failure the sizes are set all the same. -/
structure MapReply where
  ok : Bool
  size : U64
  descSize : U64
  descVersion : U32
  key : U64
  /-- The descriptors that are written to the buffer. -/
  content : List U8

structure Gop where
  frameBufferBase : U64
  horizontalResolution : U32
  verticalResolution : U32
  pixelsPerScanLine : U32
  pixelFormat : U32

/-- The services that the bootloader uses; `none` and `false` stand for the status of an error. -/
structure Firmware (σ : Type) where
  /-- `sizeof(EFI_FILE_INFO)` in the headers. -/
  fileInfoSize : U64
  print : σ → σ
  locateGop : σ → Option Gop × σ
  findRsdp : σ → U64 × σ
  loadedImage : σ → Bool × σ
  fileSystem : σ → Bool × σ
  openVolume : σ → Option U64 × σ
  openFile : U64 → σ → Option U64 × σ
  getInfo : U64 → U64 → σ → Option U64 × σ
  readFile : U64 → U64 → U64 → σ → Option U64 × σ
  close : U64 → σ → σ
  allocatePool : U64 → σ → Option U64 × σ
  freePool : U64 → σ → σ
  copyMem : U64 → U64 → U64 → σ → σ
  getMemoryMap : U64 → U64 → σ → MapReply × σ
  exitBootServices : U64 → σ → Bool × σ

inductive Call where
  | other
  | openVolume (root : Option U64)
  | openFile (root : U64) (file : Option U64)
  | close (file : U64)
  | allocatePool (size : U64) (buf : Option U64)
  | freePool (buf : U64)
  | getMemoryMap (size buf : U64) (reply : MapReply)
  | exitBootServices (key : U64) (ok : Bool)

/-- The state of the firmware, and the calls so far, each with the state it was made in. -/
structure Run (σ : Type) where
  fw : σ
  log : List (σ × Call)

def Run.call {σ : Type} (r : Run σ) (c : Call) (fw : σ) : Run σ := ⟨fw, r.log ++ [(r.fw, c)]⟩

/-! ### The code -/

def kernelLoadAddr : U64 := 0x100000
def aionMagic : U64 := 0x41494F4E

/-- `AionBootInfo`, without `reserved`. -/
structure BootInfo where
  magic : U64
  kernelPhysAddr : U64
  kernelSize : U64
  mmapAddr : U64
  mmapSize : U64
  mmapDescSize : U64
  mmapDescVersion : U32
  mmapKey : U64
  fbAddr : U64
  fbWidth : U32
  fbHeight : U32
  fbPitch : U32
  fbFormat : U32
  rsdpAddr : U64

section Code

variable {σ : Type} (fw : Firmware σ)

def loadedImage (r : Run σ) : Bool × Run σ :=
  let (ok, s) := fw.loadedImage r.fw
  (ok, r.call .other s)

def fileSystem (r : Run σ) : Bool × Run σ :=
  let (ok, s) := fw.fileSystem r.fw
  (ok, r.call .other s)

def openVolume (r : Run σ) : Option U64 × Run σ :=
  let (root, s) := fw.openVolume r.fw
  (root, r.call (.openVolume root) s)

def openRoot (r : Run σ) : Option U64 × Run σ :=
  match loadedImage fw r with
  | (false, r) => (none, r)
  | (true, r) =>
    match fileSystem fw r with
    | (false, r) => (none, r)
    | (true, r) => openVolume fw r

def closeFile (file : U64) (r : Run σ) : Run σ := r.call (.close file) (fw.close file r.fw)

def freePool (buf : U64) (r : Run σ) : Run σ := r.call (.freePool buf) (fw.freePool buf r.fw)

def allocatePool (size : U64) (r : Run σ) : Option U64 × Run σ :=
  let (buf, s) := fw.allocatePool size r.fw
  (buf, r.call (.allocatePool size buf) s)

def loadFile (root : U64) (r : Run σ) : Option (U64 × U64) × Run σ :=
  let (file, s) := fw.openFile root r.fw
  let r := r.call (.openFile root file) s
  match file with
  | none => (none, r)
  | some file =>
    match allocatePool fw (fw.fileInfoSize + 512) r with
    | (none, r) => (none, closeFile fw file r)
    | (some info, r) =>
      let (size, s) := fw.getInfo file info r.fw
      let r := freePool fw info (r.call .other s)
      match size with
      | none => (none, closeFile fw file r)
      | some size =>
        match allocatePool fw size r with
        | (none, r) => (none, closeFile fw file r)
        | (some buf, r) =>
          let (read, s) := fw.readFile file buf size r.fw
          let r := r.call .other s
          match read with
          | none => (none, closeFile fw file (freePool fw buf r))
          | some read => (some (buf, read), closeFile fw file r)

/-- The status is ignored: without a screen the fields stay zero. -/
def getGop (info : BootInfo) (r : Run σ) : BootInfo × Run σ :=
  let (gop, s) := fw.locateGop r.fw
  let r := r.call .other s
  match gop with
  | none => (info, r)
  | some gop => ({ info with
      fbAddr := gop.frameBufferBase
      fbWidth := gop.horizontalResolution
      fbHeight := gop.verticalResolution
      fbPitch := gop.pixelsPerScanLine * 4
      fbFormat := gop.pixelFormat }, r)

def getMemoryMap (size buf : U64) (r : Run σ) : MapReply × Run σ :=
  let (reply, s) := fw.getMemoryMap size buf r.fw
  (reply, r.call (.getMemoryMap size buf reply) s)

/-- The first call is for the sizes; on a failure `info` is as before. -/
def getMmap (info : BootInfo) (r : Run σ) : Bool × BootInfo × Run σ :=
  let (sizes, r) := getMemoryMap fw 0 0 r
  let size := sizes.size + 2 * sizes.descSize
  match allocatePool fw size r with
  | (none, r) => (false, info, r)
  | (some mmap, r) =>
    let (reply, r) := getMemoryMap fw size mmap r
    if reply.ok then
      (true, { info with
        mmapAddr := mmap
        mmapSize := reply.size
        mmapDescSize := reply.descSize
        mmapDescVersion := reply.descVersion
        mmapKey := reply.key }, r)
    else (false, info, freePool fw mmap r)

def print (r : Run σ) : Run σ := r.call .other (fw.print r.fw)

def exitBootServices (key : U64) (r : Run σ) : Bool × Run σ :=
  let (ok, s) := fw.exitBootServices key r.fw
  (ok, r.call (.exitBootServices key ok) s)

/-- `efi_main` from `ExitBootServices` on: what the kernel is entered with, unless it returns. -/
def exitAndEnter (info : BootInfo) (r : Run σ) : Option BootInfo × Run σ :=
  let (ok, r) := exitBootServices fw info.mmapKey r
  if ok then (some info, r)
  else
    let (_, info, r) := getMmap fw info r
    let (ok, r) := exitBootServices fw info.mmapKey r
    if ok then (some info, r) else (none, r)

/-- `efi_main` from the memory map on. -/
def mapAndEnter (info : BootInfo) (r : Run σ) : Option BootInfo × Run σ :=
  match getMmap fw info r with
  | (false, _, r) => (none, print fw r)
  | (true, info, r) => exitAndEnter fw info (print fw (print fw r))

/-- `SetMem`, and the magic number. -/
def bootInfo : BootInfo := ⟨aionMagic, 0, 0, 0, 0, 0, 0, 0, 0, 0, 0, 0, 0, 0⟩

/-- `efi_main`: what the kernel is entered with, unless it returns. -/
def efiMain (s : σ) : Option BootInfo × Run σ :=
  let r := print fw (print fw (print fw ⟨s, []⟩))
  let (info, r) := getGop fw bootInfo (print fw r)
  let r := print fw (print fw r)
  let (rsdp, s) := fw.findRsdp r.fw
  let info := { info with rsdpAddr := rsdp }
  let r := print fw (print fw (r.call .other s))
  match openRoot fw r with
  | (none, r) => (none, print fw r)
  | (some root, r) =>
    match loadFile fw root r with
    | (none, r) => (none, print fw r)
    | (some (kbuf, ksz), r) =>
      let r := r.call .other (fw.copyMem kernelLoadAddr kbuf ksz r.fw)
      let info := { info with kernelPhysAddr := kernelLoadAddr, kernelSize := ksz }
      mapAndEnter fw info (print fw (print fw (freePool fw kbuf r)))

end Code

/-! ### What is held -/

inductive Resource where
  | pool (a : U64)
  | file (h : U64)
  deriving DecidableEq

/-- What a call gives out or takes back. -/
def Call.uses : Call → List (Use Resource)
  | .openVolume (some root) => [.acquire (.file root)]
  | .openFile _ (some file) => [.acquire (.file file)]
  | .close file => [.release (.file file)]
  | .allocatePool _ (some buf) => [.acquire (.pool buf)]
  | .freePool buf => [.release (.pool buf)]
  | _ => []

section Runs

variable {σ : Type} (fw : Firmware σ)

/-- The calls for memory maps and the end of boot services are answered by the firmware in the
state that they were made in. -/
def Answered : σ × Call → Prop
  | (s, .getMemoryMap size buf reply) => reply = (fw.getMemoryMap size buf s).1
  | (s, .exitBootServices key ok) => ok = (fw.exitBootServices key s).1
  | _ => True

/-- Boot services go on after the call. -/
def Call.GoesOn : Call → Prop
  | .exitBootServices _ ok => ok = false
  | _ => True

/-- Some calls between two states, with what is held before and after them. -/
def Ran (r r' : Run σ) (l l' : List Resource) : Prop :=
  ∃ new, r'.log = r.log ++ new ∧ held l (new.flatMap fun e => e.2.uses) = some l' ∧
    ∀ e ∈ new, Answered fw e ∧ e.2.GoesOn

variable {fw}

theorem Ran.refl (r : Run σ) (l : List Resource) : Ran fw r r l l :=
  ⟨[], (List.append_nil _).symm, rfl, fun _ he => nomatch he⟩

theorem Ran.trans {r r' r'' : Run σ} {l l' l'' : List Resource} (h : Ran fw r r' l l')
    (h' : Ran fw r' r'' l' l'') : Ran fw r r'' l l'' := by
  obtain ⟨new, hlog, hheld, hnew⟩ := h
  obtain ⟨new', hlog', hheld', hnew'⟩ := h'
  refine ⟨new ++ new', by rw [hlog', hlog, List.append_assoc], ?_, fun e he => ?_⟩
  · rw [List.flatMap_append, Ledger.held_append, hheld, Option.bind_some, hheld']
  · exact (List.mem_append.mp he).elim (hnew e) (hnew' e)

theorem ran_call (r : Run σ) (c : Call) (s : σ) {l l' : List Resource} (hheld : held l c.uses = some l')
    (hanswered : Answered fw (r.fw, c)) (hgoes : c.GoesOn) : Ran fw r (r.call c s) l l' := by
  refine ⟨[(r.fw, c)], rfl, ?_, fun e he => ?_⟩
  · rw [List.flatMap_singleton]
    exact hheld
  · rw [List.mem_singleton.mp he]
    exact ⟨hanswered, hgoes⟩

theorem ran_other (r : Run σ) (l : List Resource) (s : σ) : Ran fw r (r.call .other s) l l :=
  ran_call r .other s rfl trivial trivial

theorem ran_print (r : Run σ) (l : List Resource) : Ran fw r (print fw r) l l := ran_other r l _

theorem ran_freePool (r : Run σ) (buf : U64) (l : List Resource) :
    Ran fw r (freePool fw buf r) (.pool buf :: l) l :=
  ran_call r (.freePool buf) _ (Ledger.held_release l _ []) trivial trivial

theorem ran_closeFile (r : Run σ) (file : U64) (l : List Resource) :
    Ran fw r (closeFile fw file r) (.file file :: l) l :=
  ran_call r (.close file) _ (Ledger.held_release l _ []) trivial trivial

/-- The file is closed while the buffer with its bytes is held. -/
theorem ran_closeFile_under (r : Run σ) (file buf : U64) (l : List Resource) :
    Ran fw r (closeFile fw file r) (.pool buf :: .file file :: l) (.pool buf :: l) :=
  ran_call r (.close file) _ (Ledger.held_release_under l (by simp) []) trivial trivial

theorem ran_allocatePool (size : U64) (r : Run σ) (l : List Resource) :
    Ran fw r (allocatePool fw size r).2 l ((allocatePool fw size r).1.toList.map Resource.pool ++ l) := by
  unfold allocatePool
  dsimp only
  cases (fw.allocatePool size r.fw).1 with
  | none => exact ran_call r (.allocatePool size none) _ rfl trivial trivial
  | some buf => exact ran_call r (.allocatePool size (some buf)) _ rfl trivial trivial

theorem ran_getMemoryMap (size buf : U64) (r : Run σ) (l : List Resource) :
    Ran fw r (getMemoryMap fw size buf r).2 l l :=
  ran_call r (.getMemoryMap size buf _) _ rfl rfl trivial

/-- **`load_file` holds the buffer that it hands out**, and else nothing: on every path the file is
closed once and each pool is freed once. -/
theorem loadFile_uses (root : U64) (r : Run σ) (l : List Resource) :
    Ran fw r (loadFile fw root r).2 l ((loadFile fw root r).1.toList.map (fun p => .pool p.1) ++ l) := by
  unfold loadFile
  dsimp only
  cases hfile : (fw.openFile root r.fw).1 with
  | none => exact ran_call r (.openFile root none) _ rfl trivial trivial
  | some file =>
    have hopen : Ran fw r (r.call (.openFile root (some file)) (fw.openFile root r.fw).2) l (.file file :: l) :=
      ran_call r (.openFile root (some file)) _ rfl trivial trivial
    generalize r.call (.openFile root (some file)) (fw.openFile root r.fw).2 = r₁ at hopen
    have hinfo := @ran_allocatePool _ fw (fw.fileInfoSize + 512) r₁ (.file file :: l)
    dsimp only
    cases halloc : allocatePool fw (fw.fileInfoSize + 512) r₁ with
    | mk info r₂ =>
      rw [halloc] at hinfo
      cases info with
      | none => exact (hopen.trans hinfo).trans (ran_closeFile r₂ file l)
      | some info =>
        have hfree := ((hopen.trans hinfo).trans (ran_other r₂ _ (fw.getInfo file info r₂.fw).2)).trans
          (ran_freePool _ info (.file file :: l))
        dsimp only
        generalize freePool fw info (r₂.call .other (fw.getInfo file info r₂.fw).2) = r₃ at hfree
        cases (fw.getInfo file info r₂.fw).1 with
        | none => exact hfree.trans (ran_closeFile r₃ file l)
        | some size =>
          have hbuf := @ran_allocatePool _ fw size r₃ (.file file :: l)
          dsimp only
          cases halloc' : allocatePool fw size r₃ with
          | mk buf r₄ =>
            rw [halloc'] at hbuf
            cases buf with
            | none => exact (hfree.trans hbuf).trans (ran_closeFile r₄ file l)
            | some buf =>
              have hread := (hfree.trans hbuf).trans (ran_other r₄ _ (fw.readFile file buf size r₄.fw).2)
              dsimp only
              cases (fw.readFile file buf size r₄.fw).1 with
              | none => exact (hread.trans (ran_freePool _ buf _)).trans (ran_closeFile _ file l)
              | some read => exact hread.trans (ran_closeFile_under _ file buf l)

theorem ran_openVolume (r : Run σ) (l : List Resource) :
    Ran fw r (openVolume fw r).2 l ((openVolume fw r).1.toList.map Resource.file ++ l) := by
  unfold openVolume
  dsimp only
  cases (fw.openVolume r.fw).1 with
  | none => exact ran_call r (.openVolume none) _ rfl trivial trivial
  | some root => exact ran_call r (.openVolume (some root)) _ rfl trivial trivial

theorem openRoot_uses (r : Run σ) (l : List Resource) :
    Ran fw r (openRoot fw r).2 l ((openRoot fw r).1.toList.map Resource.file ++ l) := by
  unfold openRoot
  have himage : Ran fw r (loadedImage fw r).2 l l := ran_other r l _
  cases hcall : loadedImage fw r with
  | mk image r₁ =>
    rw [hcall] at himage
    cases image with
    | false => exact himage
    | true =>
      have hsfs : Ran fw r₁ (fileSystem fw r₁).2 l l := ran_other r₁ l _
      dsimp only
      cases hcall' : fileSystem fw r₁ with
      | mk sfs r₂ =>
        rw [hcall'] at hsfs
        cases sfs with
        | false => exact himage.trans hsfs
        | true => exact (himage.trans hsfs).trans (ran_openVolume r₂ l)

theorem getGop_uses (info : BootInfo) (r : Run σ) (l : List Resource) :
    Ran fw r (getGop fw info r).2 l l := by
  unfold getGop
  dsimp only
  cases (fw.locateGop r.fw).1 with
  | none => exact ran_other r l _
  | some gop => exact ran_other r l _

/-- The buffer holds the memory map that the fields of `info` tell about. -/
def Mapped (info : BootInfo) (r : Run σ) : Prop :=
  ∃ s size reply, (s, Call.getMemoryMap size info.mmapAddr reply) ∈ r.log ∧ reply.ok = true ∧
    info.mmapSize = reply.size ∧ info.mmapDescSize = reply.descSize ∧
    info.mmapDescVersion = reply.descVersion ∧ info.mmapKey = reply.key

theorem Mapped.mono {info : BootInfo} {r r' : Run σ} {l l' : List Resource} (h : Mapped info r)
    (hran : Ran fw r r' l l') : Mapped info r' := by
  obtain ⟨new, hlog, _⟩ := hran
  obtain ⟨s, size, reply, hmem, hrest⟩ := h
  exact ⟨s, size, reply, hlog ▸ List.mem_append_left new hmem, hrest⟩

/-- **`get_mmap`** holds the buffer of the map that it tells about, or holds nothing and leaves
`info` as it was. -/
theorem getMmap_spec (info : BootInfo) (r : Run σ) (l : List Resource) :
    let out := getMmap fw info r
    (out.1 = true ∧ Ran fw r out.2.2 l (.pool out.2.1.mmapAddr :: l) ∧ Mapped out.2.1 out.2.2) ∨
      (out.1 = false ∧ Ran fw r out.2.2 l l ∧ out.2.1 = info) := by
  intro out
  have hsizes := @ran_getMemoryMap _ fw 0 0 r l
  have hout : out = getMmap fw info r := rfl
  unfold getMmap at hout
  cases hfirst : getMemoryMap fw 0 0 r with
  | mk sizes r₁ =>
    rw [hfirst] at hsizes hout
    have halloc := @ran_allocatePool _ fw (sizes.size + 2 * sizes.descSize) r₁ l
    dsimp only at hout
    cases hbuf : allocatePool fw (sizes.size + 2 * sizes.descSize) r₁ with
    | mk buf r₂ =>
      rw [hbuf] at halloc hout
      cases buf with
      | none =>
        rw [hout]
        exact .inr ⟨rfl, hsizes.trans halloc, rfl⟩
      | some mmap =>
        have hmap := (hsizes.trans halloc).trans
          (@ran_getMemoryMap _ fw (sizes.size + 2 * sizes.descSize) mmap r₂ (.pool mmap :: l))
        dsimp only at hout
        cases hreply : getMemoryMap fw (sizes.size + 2 * sizes.descSize) mmap r₂ with
        | mk reply r₃ =>
          have hlog : r₃.log = r₂.log ++
              [(r₂.fw, .getMemoryMap (sizes.size + 2 * sizes.descSize) mmap reply)] := by
            obtain ⟨rfl, rfl⟩ := Prod.mk.inj hreply
            rfl
          rw [hreply] at hmap hout
          dsimp only at hout
          cases hok : reply.ok with
          | true =>
            rw [if_pos hok] at hout
            rw [hout]
            refine .inl ⟨rfl, hmap, r₂.fw, sizes.size + 2 * sizes.descSize, reply, ?_, hok, ?_⟩
            · rw [hlog]
              exact List.mem_append_right _ (List.mem_singleton_self _)
            · exact ⟨rfl, rfl, rfl, rfl⟩
          | false =>
            rw [if_neg (by rw [hok]; exact Bool.false_ne_true)] at hout
            rw [hout]
            exact .inr ⟨rfl, hmap.trans (ran_freePool r₃ mmap l), rfl⟩

/-- What `efi_main` leaves: it returned and boot services go on, or the kernel is entered, and the
last call has ended them with the key of the map that the kernel gets. -/
inductive Left (fw : Firmware σ) (r r' : Run σ) (l l' : List Resource) : Option BootInfo → Prop
  | returned : Ran fw r r' l l' → Left fw r r' l l' none
  | entered {info : BootInfo} {r₁ : Run σ} : Ran fw r r₁ l l' → Mapped info r₁ →
      Resource.pool info.mmapAddr ∈ l' → (fw.exitBootServices info.mmapKey r₁.fw).1 = true →
      r'.log = r₁.log ++ [(r₁.fw, .exitBootServices info.mmapKey true)] → Left fw r r' l l' (some info)

theorem Left.after {r₀ r r' : Run σ} {l₀ l l' : List Resource} {o : Option BootInfo}
    (h : Left fw r r' l l' o) (h₀ : Ran fw r₀ r l₀ l) : Left fw r₀ r' l₀ l' o := by
  cases h with
  | returned hran => exact .returned (h₀.trans hran)
  | entered hran hmapped hheld hexit hlog => exact .entered (h₀.trans hran) hmapped hheld hexit hlog

theorem exit_cases (info : BootInfo) (r : Run σ) (l : List Resource) (hmapped : Mapped info r)
    (hheld : Resource.pool info.mmapAddr ∈ l) :
    let out := exitBootServices fw info.mmapKey r
    (out.1 = true ∧ Left fw r out.2 l l (some info)) ∨ (out.1 = false ∧ Ran fw r out.2 l l) := by
  intro out
  have hout : out = ((fw.exitBootServices info.mmapKey r.fw).1, r.call (.exitBootServices info.mmapKey
      (fw.exitBootServices info.mmapKey r.fw).1) (fw.exitBootServices info.mmapKey r.fw).2) := rfl
  cases hok : (fw.exitBootServices info.mmapKey r.fw).1 with
  | true =>
    rw [hok] at hout
    rw [hout]
    exact .inl ⟨rfl, .entered (Ran.refl r l) hmapped hheld hok rfl⟩
  | false =>
    rw [hok] at hout
    rw [hout]
    exact .inr ⟨rfl, ran_call r (.exitBootServices info.mmapKey false) _ rfl hok.symm rfl⟩

/-- **The end of boot services**, with the second attempt. -/
theorem exitAndEnter_left (info : BootInfo) (r : Run σ) (l : List Resource) (hmapped : Mapped info r)
    (hheld : Resource.pool info.mmapAddr ∈ l) : ∃ bufs : List U64, bufs.length ≤ 1 ∧
      Left fw r (exitAndEnter fw info r).2 l (bufs.map Resource.pool ++ l) (exitAndEnter fw info r).1 := by
  unfold exitAndEnter
  rcases @exit_cases _ fw info r l hmapped hheld with ⟨hok, hleft⟩ | ⟨hok, hran⟩
  · dsimp only
    rw [if_pos hok]
    exact ⟨[], Nat.zero_le 1, hleft⟩
  · dsimp only
    rw [if_neg (by rw [hok]; exact Bool.false_ne_true)]
    generalize (exitBootServices fw info.mmapKey r).2 = r₁ at hran
    rcases @getMmap_spec _ fw info r₁ l with ⟨_, hmap, hmapped'⟩ | ⟨_, hmap, hsame⟩
    · generalize getMmap fw info r₁ = out at hmap hmapped'
      rcases @exit_cases _ fw out.2.1 out.2.2 _ hmapped' List.mem_cons_self with
        ⟨hok', hleft⟩ | ⟨hok', hran'⟩
      · rw [if_pos hok']
        exact ⟨[out.2.1.mmapAddr], Nat.le_refl 1, hleft.after (hran.trans hmap)⟩
      · rw [if_neg (by rw [hok']; exact Bool.false_ne_true)]
        exact ⟨[out.2.1.mmapAddr], Nat.le_refl 1, .returned ((hran.trans hmap).trans hran')⟩
    · have hmapped' := hmapped.mono (hran.trans hmap)
      generalize getMmap fw info r₁ = out at hmap hmapped' hsame
      obtain ⟨ok, info', r₂⟩ := out
      obtain rfl : info' = info := hsame
      rcases @exit_cases _ fw info' r₂ l hmapped' hheld with ⟨hok', hleft⟩ | ⟨hok', hran'⟩
      · rw [if_pos hok']
        exact ⟨[], Nat.zero_le 1, hleft.after (hran.trans hmap)⟩
      · rw [if_neg (by rw [hok']; exact Bool.false_ne_true)]
        exact ⟨[], Nat.zero_le 1, .returned ((hran.trans hmap).trans hran')⟩

theorem mapAndEnter_left (info : BootInfo) (r : Run σ) (l : List Resource) : ∃ bufs : List U64,
    bufs.length ≤ 2 ∧
      Left fw r (mapAndEnter fw info r).2 l (bufs.map Resource.pool ++ l) (mapAndEnter fw info r).1 := by
  unfold mapAndEnter
  have hmap := @getMmap_spec _ fw info r l
  cases hcall : getMmap fw info r with
  | mk ok out =>
    obtain ⟨info', r₁⟩ := out
    rw [hcall] at hmap
    cases ok with
    | false =>
      obtain ⟨h, _⟩ | ⟨_, hran, _⟩ := hmap
      · cases h
      · exact ⟨[], Nat.zero_le 2, .returned (hran.trans (ran_print r₁ l))⟩
    | true =>
      obtain ⟨_, hran, hmapped⟩ | ⟨h, _⟩ := hmap
      · have hprinted := (@ran_print _ fw r₁ (.pool info'.mmapAddr :: l)).trans (ran_print _ _)
        obtain ⟨bufs, hbufs, hleft⟩ := exitAndEnter_left info' (print fw (print fw r₁)) _
          (hmapped.mono hprinted) List.mem_cons_self
        refine ⟨bufs ++ [info'.mmapAddr], by simpa using hbufs, ?_⟩
        rw [List.map_append, List.append_assoc]
        exact hleft.after (hran.trans hprinted)
      · cases h

theorem efiMain_left (s : σ) : ∃ bufs roots : List U64, bufs.length ≤ 2 ∧ roots.length ≤ 1 ∧
    Left fw ⟨s, []⟩ (efiMain fw s).2 [] (bufs.map Resource.pool ++ roots.map Resource.file) (efiMain fw s).1 := by
  unfold efiMain
  dsimp only
  have hstart : Ran fw ⟨s, []⟩ (print fw (print fw (print fw (print fw ⟨s, []⟩)))) [] [] :=
    (((ran_print _ _).trans (ran_print _ _)).trans (ran_print _ _)).trans (ran_print _ _)
  have hgop := hstart.trans (getGop_uses bootInfo _ [])
  generalize getGop fw bootInfo (print fw (print fw (print fw (print fw ⟨s, []⟩)))) = gop at hgop ⊢
  have hrsdp := ((hgop.trans (ran_print _ [])).trans (ran_print _ [])).trans (ran_other _ []
    (fw.findRsdp (print fw (print fw gop.2)).fw).2)
  have hbefore := (hrsdp.trans (ran_print _ [])).trans (ran_print _ [])
  generalize print fw (print fw ((print fw (print fw gop.2)).call .other
    (fw.findRsdp (print fw (print fw gop.2)).fw).2)) = r₀ at hbefore ⊢
  have hroot := @openRoot_uses _ fw r₀ []
  cases hcall : openRoot fw r₀ with
  | mk root r₁ =>
    rw [hcall] at hroot
    cases root with
    | none => exact ⟨[], [], by simp, by simp, .returned ((hbefore.trans hroot).trans (ran_print r₁ []))⟩
    | some root =>
      have hfile := @loadFile_uses _ fw root r₁ [.file root]
      dsimp only
      cases hcall' : loadFile fw root r₁ with
      | mk file r₂ =>
        rw [hcall'] at hfile
        cases file with
        | none => exact ⟨[], [root], by simp, by simp,
            .returned (((hbefore.trans hroot).trans hfile).trans (ran_print r₂ _))⟩
        | some file =>
          obtain ⟨kbuf, ksz⟩ := file
          dsimp only
          have hcopied := ((hbefore.trans hroot).trans hfile).trans
            (ran_other r₂ _ (fw.copyMem kernelLoadAddr kbuf ksz r₂.fw))
          have hfreed := ((hcopied.trans (ran_freePool _ kbuf _)).trans (ran_print _ _)).trans (ran_print _ _)
          generalize print fw (print fw (freePool fw kbuf (r₂.call .other
            (fw.copyMem kernelLoadAddr kbuf ksz r₂.fw)))) = r₃ at hfreed ⊢
          obtain ⟨bufs, hbufs, hleft⟩ := @mapAndEnter_left _ fw
            { gop.1 with rsdpAddr := (fw.findRsdp (print fw (print fw gop.2)).fw).1
                         kernelPhysAddr := kernelLoadAddr
                         kernelSize := ksz } r₃ [.file root]
          exact ⟨bufs, [root], hbufs, Nat.le_refl 1, hleft.after hfreed⟩

end Runs

/-! ### The boot -/

section Boot

variable {σ : Type} (fw : Firmware σ)

/-- **Nothing is released twice** by `efi_main`, nor before it was acquired.  At the end the root and
the buffers of two memory maps at most are held, that of the kernel's map among them. -/
theorem efiMain_balanced (s : σ) : ∃ bufs roots : List U64, bufs.length ≤ 2 ∧ roots.length ≤ 1 ∧
    held [] ((efiMain fw s).2.log.flatMap fun e => e.2.uses) =
      some (bufs.map Resource.pool ++ roots.map Resource.file) ∧
    ∀ info, (efiMain fw s).1 = some info → info.mmapAddr ∈ bufs := by
  obtain ⟨bufs, roots, hbufs, hroots, hleft⟩ := @efiMain_left _ fw s
  refine ⟨bufs, roots, hbufs, hroots, ?_⟩
  generalize efiMain fw s = out at hleft ⊢
  obtain ⟨entered, r⟩ := out
  cases hleft with
  | returned hran =>
    obtain ⟨new, hlog, hheld, _⟩ := hran
    refine ⟨?_, fun _ h => nomatch h⟩
    rw [hlog]
    exact hheld
  | @entered info r₁ hran hmapped hmem hexit hend =>
    obtain ⟨new, hlog, hheld, _⟩ := hran
    refine ⟨?_, fun info' h => ?_⟩
    · dsimp only
      rw [hend, hlog, List.nil_append, List.flatMap_append, Ledger.held_append, hheld]
      rfl
    · obtain rfl := Option.some.inj h
      simpa using hmem

/-- **The kernel is entered if and only if boot services have ended.**  The call that ends them is the
last one, and is made with the key of the memory map that the kernel gets. -/
theorem efiMain_entered (s : σ) : match (efiMain fw s).1 with
    | none => ∀ e ∈ (efiMain fw s).2.log, e.2.GoesOn
    | some info => ∃ r : Run σ,
        (efiMain fw s).2.log = r.log ++ [(r.fw, .exitBootServices info.mmapKey true)] ∧
        (∀ e ∈ r.log, e.2.GoesOn) ∧ Mapped info r := by
  obtain ⟨bufs, roots, _, _, hleft⟩ := @efiMain_left _ fw s
  generalize efiMain fw s = out at hleft ⊢
  obtain ⟨entered, r⟩ := out
  cases hleft with
  | returned hran =>
    obtain ⟨new, hlog, _, hnew⟩ := hran
    intro e he
    exact (hnew e (by rwa [hlog] at he)).2
  | @entered info r₁ hran hmapped hmem hexit hend =>
    obtain ⟨new, hlog, _, hnew⟩ := hran
    exact ⟨r₁, hend, fun e he => (hnew e (by rwa [hlog] at he)).2, hmapped⟩

/-- The firmware has a memory map in each state, and a key that tells the maps apart. -/
structure Lawful (mapOf : σ → List U8) (keyOf : σ → U64) : Prop where
  reply : ∀ size buf s, (fw.getMemoryMap size buf s).1.ok = true →
    (fw.getMemoryMap size buf s).1.content = mapOf s ∧ (fw.getMemoryMap size buf s).1.key = keyOf s
  exit : ∀ key s, (fw.exitBootServices key s).1 = true → key = keyOf s
  key : ∀ s s', keyOf s = keyOf s' → mapOf s = mapOf s'

/-- **The memory map of the kernel is the last one**: the bytes in its buffer are the map that the
firmware had when boot services ended. -/
theorem handed_map_current {mapOf : σ → List U8} {keyOf : σ → U64} (hlawful : Lawful fw mapOf keyOf)
    {s : σ} {info : BootInfo} (hentered : (efiMain fw s).1 = some info) : ∃ (r : Run σ) (s₀ : σ) (size : U64)
      (reply : MapReply), (efiMain fw s).2.log = r.log ++ [(r.fw, .exitBootServices info.mmapKey true)] ∧
        (s₀, Call.getMemoryMap size info.mmapAddr reply) ∈ r.log ∧ reply.content = mapOf r.fw ∧
        info.mmapSize = reply.size ∧ info.mmapDescSize = reply.descSize ∧
        info.mmapDescVersion = reply.descVersion := by
  obtain ⟨bufs, roots, _, _, hleft⟩ := @efiMain_left _ fw s
  generalize efiMain fw s = out at hleft hentered ⊢
  obtain ⟨entered, r⟩ := out
  obtain rfl : entered = some info := hentered
  cases hleft with
  | @entered _ r₁ hran hmapped hmem hexit hend =>
    obtain ⟨new, hlog, _, hnew⟩ := hran
    obtain ⟨s₀, size, reply, hcall, hok, hsize, hdesc, hversion, hkey⟩ := hmapped
    refine ⟨r₁, s₀, size, reply, hend, hcall, ?_, hsize, hdesc, hversion⟩
    have hreply : reply = (fw.getMemoryMap size info.mmapAddr s₀).1 :=
      (hnew (s₀, .getMemoryMap size info.mmapAddr reply) (by rwa [hlog] at hcall)).1
    rw [hreply] at hok hkey ⊢
    obtain ⟨hcontent, hcurrent⟩ := hlawful.reply size info.mmapAddr s₀ hok
    rw [hcontent]
    -- the key was current then and is current now
    exact hlawful.key s₀ r₁.fw (by rw [← hcurrent, ← hkey, hlawful.exit _ _ hexit])

/-- Each line on the screen changes the memory map, so the first `ExitBootServices` fails. -/
def sampleFirmware : Firmware U64 where
  fileInfoSize := 80
  print s := s + 1
  locateGop s := (none, s)
  findRsdp s := (0, s)
  loadedImage s := (true, s)
  fileSystem s := (true, s)
  openVolume s := (some 1, s)
  openFile _ s := (some 2, s)
  getInfo _ _ s := (some 4, s)
  readFile _ _ size s := (some size, s)
  close _ s := s
  allocatePool _ s := (some (0x1000 * (s + 1)), s + 1)
  freePool _ s := s + 1
  copyMem _ _ _ s := s
  getMemoryMap size _ s := (⟨size ≠ 0, 48, 48, 1, s, [s.setWidth 8]⟩, s)
  exitBootServices key s := (key = s, s)

theorem sampleFirmware_lawful : Lawful sampleFirmware (fun s => [s.setWidth 8]) id where
  reply _ _ _ _ := ⟨rfl, rfl⟩
  exit _ _ h := of_decide_eq_true h
  key _ _ h := congrArg (fun s => [s.setWidth 8]) h

theorem sample_handed_map : ∃ (info : BootInfo) (r : Run U64) (s₀ size : U64) (reply : MapReply),
    (efiMain sampleFirmware 0).2.log = r.log ++ [(r.fw, .exitBootServices info.mmapKey true)] ∧
      (s₀, Call.getMemoryMap size info.mmapAddr reply) ∈ r.log ∧ reply.content = [r.fw.setWidth 8] ∧
      info.mmapSize = reply.size ∧ info.mmapDescSize = reply.descSize ∧
      info.mmapDescVersion = reply.descVersion := by
  have hentered : (efiMain sampleFirmware 0).1.isSome = true := by decide
  obtain ⟨info, hinfo⟩ := Option.isSome_iff_exists.mp hentered
  exact ⟨info, handed_map_current sampleFirmware sampleFirmware_lawful hinfo⟩

end Boot

end Loader

end AionOs
