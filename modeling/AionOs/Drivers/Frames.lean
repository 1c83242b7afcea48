import AionOs.Runtime.Perception
import AionOs.Store.Pointers

/-!
# The camera and the microphone

`cam.c` and `mic.c`.  Each driver takes a buffer from the heap, fills it, and gives out the same
frame ever after.

* `frameBuffer_spec`: a buffer is a block of its own.
* `sensesCapture_still`: what the senses tell while the buffers are as the drivers filled them.
-/

namespace AionOs

open Finset

/-! ### The code -/

structure HeapBytes where
  heap : Heap
  bytes : Nat → U8

/-- `kmalloc`, and `memset` unless it fails. -/
def frameBuffer (n : Nat) (b : U8) (h : HeapBytes) : U64 × HeapBytes :=
  let r := kmalloc h.heap (BitVec.ofNat 64 n)
  (r.1, ⟨r.2, if r.1 = 0 then h.bytes else Ram.copy h.bytes r.1.toNat (List.replicate n b)⟩)

def camWidth : Nat := 320
def camHeight : Nat := 240
/-- YUV422 -/
def camFrameSize : Nat := camWidth * camHeight * 2

structure Cam where
  width : U32
  height : U32
  data : U64
  dataLen : U32
  frameBuf : U64
  camReady : Bool

def Cam.bss : Cam := ⟨0, 0, 0, 0, 0, false⟩

def camInit (cam : Cam) (h : HeapBytes) : Cam × HeapBytes :=
  let r := frameBuffer camFrameSize 128 h
  (if r.1 = 0 then { cam with frameBuf := r.1 }
    else ⟨BitVec.ofNat 32 camWidth, BitVec.ofNat 32 camHeight, r.1, BitVec.ofNat 32 camFrameSize, r.1, true⟩, r.2)

def camGetLatestFrame (bytes : Nat → U8) (cam : Cam) : Option CamFrame :=
  if cam.camReady then some ⟨cam.width, cam.height, fun i => bytes (cam.data.toNat + i)⟩ else none

def micSampleRate : Nat := 16000
def micChannels : Nat := 1
def micBufSamples : Nat := 4096
def micBufBytes : Nat := micBufSamples * 2

structure Mic where
  sampleRate : U32
  channels : U32
  sampleCount : U32
  data : U64
  micBuf : U64
  micReady : Bool

def Mic.bss : Mic := ⟨0, 0, 0, 0, 0, false⟩

def micInit (mic : Mic) (h : HeapBytes) : Mic × HeapBytes :=
  let r := frameBuffer micBufBytes 0 h
  (if r.1 = 0 then { mic with micBuf := r.1 }
    else ⟨BitVec.ofNat 32 micSampleRate, BitVec.ofNat 32 micChannels, BitVec.ofNat 32 micBufSamples, r.1, r.1, true⟩,
    r.2)

def micGetLatestFrame (bytes : Nat → U8) (mic : Mic) : Option MicFrame :=
  if mic.micReady then some ⟨mic.sampleCount, fun i => bytes (mic.data.toNat + i)⟩ else none

/-! ### The buffers -/

/-- A heap from `lo` to `hi` out of which these blocks were taken. -/
structure HeapBytes.Gave (lo hi : Nat) (blocks : List (Nat × List U8)) (h : HeapBytes) : Prop where
  ok : h.heap.Ok
  heapEnd : h.heap.heapEnd.toNat = hi
  holds : Ram.Holds lo h.heap.heapPtr.toNat blocks [] h.bytes

variable {lo hi : Nat} {blocks : List (Nat × List U8)}

/-- **A buffer that fits** is a block of its own, with the same byte all over. -/
theorem frameBuffer_spec {h : HeapBytes} (hgave : h.Gave lo hi blocks) {n : Nat} (hn : n + 15 < 2 ^ 32)
    (hroom : blockSize n ≤ h.heap.room) (b : U8) :
    let r := frameBuffer n b h
    r.1 ≠ 0 ∧ r.2.Gave lo hi ((r.1.toNat, List.replicate n b) :: blocks) ∧
      r.2.heap.room + blockSize n = h.heap.room := by
  intro r
  have hsize : (BitVec.ofNat 64 n).toNat = n := by
    rw [BitVec.toNat_ofNat, Nat.mod_eq_of_lt (by omega)]
  have hptr := hgave.ok.le
  have htop := hgave.ok.top
  have hup := roundUp_le n 16
  rcases kmalloc_spec hgave.ok hn with ⟨_, hnz, _, hleft⟩ | ⟨hless, _⟩
  · rcases @Pointers.kmalloc_block h.heap hgave.ok (BitVec.ofNat 64 n) (by rw [hsize]; omega) with
      hnone | ⟨_, hstart, hok, hend, hmoved⟩
    · exact absurd (congrArg Prod.fst hnone) hnz
    · refine ⟨hnz, ⟨hok, (congrArg BitVec.toNat hend).trans hgave.heapEnd, ?_⟩, hleft⟩
      show Ram.Holds lo (kmalloc h.heap (BitVec.ofNat 64 n)).2.heapPtr.toNat
        (((kmalloc h.heap (BitVec.ofNat 64 n)).1.toNat, List.replicate n b) :: blocks) []
        (if (kmalloc h.heap (BitVec.ofNat 64 n)).1 = 0 then h.bytes
          else Ram.copy h.bytes (kmalloc h.heap (BitVec.ofNat 64 n)).1.toNat (List.replicate n b))
      rw [if_neg hnz, hmoved, hstart, hsize]
      exact hgave.holds.fill (by rw [List.length_replicate]; exact le_roundUp n (by decide))
  · exact absurd hroom (Nat.not_le.mpr hless)

theorem camInit_spec {h : HeapBytes} (hgave : h.Gave lo hi blocks) (hroom : blockSize camFrameSize ≤ h.heap.room)
    (cam : Cam) : ∃ p : U64, (camInit cam h).1 =
        ⟨BitVec.ofNat 32 camWidth, BitVec.ofNat 32 camHeight, p, BitVec.ofNat 32 camFrameSize, p, true⟩ ∧
      (camInit cam h).2.Gave lo hi ((p.toNat, List.replicate camFrameSize 128) :: blocks) ∧
      (camInit cam h).2.heap.room + blockSize camFrameSize = h.heap.room := by
  obtain ⟨hnz, hgave', hleft⟩ := frameBuffer_spec hgave (n := camFrameSize) (by decide) hroom 128
  refine ⟨(frameBuffer camFrameSize 128 h).1, ?_, hgave', hleft⟩
  rw [camInit]
  dsimp only
  rw [if_neg hnz]

theorem micInit_spec {h : HeapBytes} (hgave : h.Gave lo hi blocks) (hroom : blockSize micBufBytes ≤ h.heap.room)
    (mic : Mic) : ∃ p : U64, (micInit mic h).1 =
        ⟨BitVec.ofNat 32 micSampleRate, BitVec.ofNat 32 micChannels, BitVec.ofNat 32 micBufSamples, p, p, true⟩ ∧
      (micInit mic h).2.Gave lo hi ((p.toNat, List.replicate micBufBytes 0) :: blocks) := by
  obtain ⟨hnz, hgave', _⟩ := frameBuffer_spec hgave (n := micBufBytes) (by decide) hroom 0
  refine ⟨(frameBuffer micBufBytes 0 h).1, ?_, hgave'⟩
  rw [micInit]
  dsimp only
  rw [if_neg hnz]

/-! ### Still frames -/

theorem luma_grey {f : CamFrame} (hwidth : f.width = BitVec.ofNat 32 camWidth)
    (hheight : f.height = BitVec.ofNat 32 camHeight) (hdata : ∀ i < camFrameSize, f.data i = 128) :
    f.counted = 10000 ∧ f.luma = 128 := by
  have hcounted : f.counted = 10000 := by
    rw [CamFrame.counted, hwidth, hheight]
    decide
  have hsum : ∑ i ∈ range 10000, (f.data i).toNat = ∑ _i ∈ range 10000, 128 := by
    refine Finset.sum_congr rfl fun i hi => ?_
    have hlt := Finset.mem_range.mp hi
    rw [hdata i (hlt.trans (by decide))]
    rfl
  refine ⟨hcounted, ?_⟩
  rw [CamFrame.luma, hcounted, hsum, Finset.sum_const, Finset.card_range, smul_eq_mul]

theorem loudness_silent {m : MicFrame} (hcount : m.sampleCount = BitVec.ofNat 32 micBufSamples)
    (hdata : ∀ i < micBufBytes, m.data i = 0) : m.loudness = 0 := by
  have hcounted : m.counted = micBufSamples := by
    rw [MicFrame.counted, hcount]
    decide
  have hsum : squareSum m.data micBufSamples = 0 := by
    refine Finset.sum_eq_zero fun i hi => ?_
    have hlt : i < micBufSamples := Finset.mem_range.mp hi
    have hbytes : micBufBytes = micBufSamples * 2 := rfl
    rw [sampleAt, hdata (2 * i + 1) (by omega), hdata (2 * i) (by omega)]
    rfl
  rw [MicFrame.loudness, hcounted, hsum, Nat.zero_div, Nat.sqrt_zero]

/-- What a capture tells of a grey frame after a grey frame, and of silence. -/
def stillSnapshot (net : NetworkStatus) : SenseSnapshot where
  cameraAvailable := true
  cameraFrame := ⟨320, 240, 128, 0⟩
  micAvailable := true
  micFrame := ⟨0, true⟩
  networkAvailable := net.initialised
  network := ⟨net.linkUp, net.rxBytes⟩

/-- **A capture of the buffers as the drivers filled them** tells no motion and no sound. -/
theorem sensesCapture_still {bytes : Nat → U8} {cam : Cam} {mic : Mic} {p q : U64}
    (hcam : cam = ⟨BitVec.ofNat 32 camWidth, BitVec.ofNat 32 camHeight, p, BitVec.ofNat 32 camFrameSize, p, true⟩)
    (hmic : mic = ⟨BitVec.ofNat 32 micSampleRate, BitVec.ofNat 32 micChannels, BitVec.ofNat 32 micBufSamples, q, q,
      true⟩)
    (hgrey : ∀ i < camFrameSize, bytes (p.toNat + i) = 128) (hsilent : ∀ i < micBufBytes, bytes (q.toNat + i) = 0)
    (net : NetworkStatus) :
    sensesCapture 128 (camGetLatestFrame bytes cam) (micGetLatestFrame bytes mic) net =
      some (stillSnapshot net, 128) := by
  have hframe : camGetLatestFrame bytes cam =
      some ⟨BitVec.ofNat 32 camWidth, BitVec.ofNat 32 camHeight, fun i => bytes (p.toNat + i)⟩ := by
    rw [hcam]
    rfl
  have hmframe : micGetLatestFrame bytes mic =
      some ⟨BitVec.ofNat 32 micBufSamples, fun i => bytes (q.toNat + i)⟩ := by
    rw [hmic]
    rfl
  rw [hframe, hmframe]
  generalize hf : (⟨BitVec.ofNat 32 camWidth, BitVec.ofNat 32 camHeight, fun i => bytes (p.toNat + i)⟩ : CamFrame) = f
  generalize hm : (⟨BitVec.ofNat 32 micBufSamples, fun i => bytes (q.toNat + i)⟩ : MicFrame) = m
  have hwidth : f.width = BitVec.ofNat 32 camWidth := by rw [← hf]
  have hheight : f.height = BitVec.ofNat 32 camHeight := by rw [← hf]
  obtain ⟨hcounted, hluma⟩ := luma_grey hwidth hheight (by rw [← hf]; exact hgrey)
  have hloud := @loudness_silent m (by rw [← hm]) (by rw [← hm]; exact hsilent)
  have hpixels : ¬∃ g ∈ some f, g.counted = 0 := by
    rintro ⟨g, hg, hzero⟩
    obtain rfl := Option.some.inj hg
    rw [hcounted] at hzero
    cases hzero
  rw [show sensesCapture 128 (some f) (some m) net = _ from sensesCapture_eq 128 ⟨some f, some m, net⟩, if_neg hpixels]
  have hsnapshot : (Capture.mk (some f) (some m) net).snapshot (128 : U8).toNat = stillSnapshot net := by
    simp only [Capture.snapshot, Option.map_some, Option.getD_some, hluma, hloud, hwidth, hheight]
    rfl
  rw [hsnapshot, Option.map_some, Option.getD_some, hluma]
  rfl

end AionOs
