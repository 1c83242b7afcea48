import AionOs.Store.Evict

/-!
# Writes that fail

`fs_write_file_usb` may fail, and then writes nothing.  A flush does not look at its
result: it marks every entry clean and forgets that there was something to write.

* `StoreSys.tryCall`: a call some of whose writes fail.
* `keptOn_restores`: while no write fails, one more flush puts RAM on the disk.
* `keeps_unsaved_iff`: what failed stays marked in every call of a run exactly when
  nothing fails.
-/

namespace AionOs

section Unsaved

variable {σ : Type} (fs : FileSystem σ)

/-- A call with the writes of it that fail.  The names of the writes of a call are pairwise
different, so every pattern of failures is one of these. -/
structure TryCall where
  call : StoreCall
  fails : FileWrite → Bool

/-- A write that fails changes nothing on the disk, and the call does not notice. -/
def StoreSys.tryCall (s : StoreSys σ) (c : TryCall) : StoreSys σ where
  disk := fs.applyAll s.disk ((c.call.exec s.ram).1.filter fun w => !c.fails w)
  ram := (c.call.exec s.ram).2

def TryCall.failed (c : TryCall) (s : StoreSys σ) : List FileWrite :=
  (c.call.exec s.ram).1.filter c.fails

/-- `kmalloc` does not fail, and the index buffer has room. -/
def tryMachine : Machine (StoreSys σ) TryCall :=
  ⟨StoreSys.tryCall fs, fun s c => RoomyCall s c.call⟩

/-- An entry whose record was not written is dirty after the call, something is left to be
written if any write failed, and one more flush puts what is in RAM on the disk. -/
structure KeepsUnsaved (s : StoreSys σ) (c : TryCall) : Prop where
  record : ∀ i e, (s.ram.pushed c.call).memStore[i]? = some e →
    (memPath e.type i, encodeRecord e.toMemory) ∈ c.failed s →
    (∃ e', (s.tryCall fs c).ram.memStore[i]? = some e' ∧ e'.dirty = true) ∧
      (s.tryCall fs c).ram.memDirty ≠ 0
  index : ∀ data, (indexPath, data) ∈ c.failed s → (s.tryCall fs c).ram.memDirty ≠ 0
  restores : ∀ stack, diskMemories fs sizeofIndexBuf ((s.tryCall fs c).call fs (.flush stack)).disk =
    (s.tryCall fs c).ram.memories

def NoneFails (s : StoreSys σ) (c : TryCall) : Prop := ∀ w ∈ (c.call.exec s.ram).1, c.fails w = false

/-! ### While nothing fails -/

/-- The disk holds some memories, and RAM holds those and the ones stored since. -/
def KeptOn (s : StoreSys σ) : Prop := ∃ ms, SavedOn fs s.disk ms ∧ RamOver ms s.ram

variable {fs}

theorem keptOn_start {disk : σ} {ms : List Memory} (h : SavedOn fs disk ms) {heap : Heap}
    (hheap : heap.Serves (requests ms)) : KeptOn fs (StoreSys.start fs sizeofIndexBuf disk heap) := by
  have hdisk := diskMemories_of_savedOn fs h
  have hserves : heap.Serves (requests (diskMemories fs sizeofIndexBuf disk)) := by
    rw [hdisk]
    exact hheap
  obtain ⟨hstore, hdirty, _⟩ := bootMemory_spec fs hserves
  rw [hdisk] at hstore
  refine ⟨ms, h, ⟨[], ?_, hdirty⟩, ?_⟩
  · exact hstore.trans (List.append_nil _).symm
  · show (bootMemory fs sizeofIndexBuf disk heap).memStore.length ≤ indexRoom
    rw [hstore, List.length_map]
    exact h.1

/-- **One more flush puts RAM on the disk.** -/
theorem keptOn_restores {s : StoreSys σ} (h : KeptOn fs s) (stack : Nat → Nat → U8) :
    diskMemories fs sizeofIndexBuf (s.call fs (.flush stack)).disk = s.ram.memories := by
  obtain ⟨ms, hdisk, hram⟩ := h
  by_cases hd : s.ram.memDirty = 0
  · have hsame : (s.call fs (.flush stack)).disk = s.disk := by
      rw [StoreSys.call, StoreCall.exec, aionMemoryFlush_clean hd]
      rfl
    rw [hsame, diskMemories_of_savedOn fs hdisk, hram.memories_of_clean hd]
  · have hflush : (s.call fs (.flush stack)).disk = fs.applyAll s.disk (flushWrites stack s.ram) := by
      rw [StoreSys.call, StoreCall.exec, aionMemoryFlush_dirty hd]
    have hroom := hram.room
    rw [indexRoom_eq] at hroom
    rw [hflush]
    exact (reload_flush (hram.inPlace fs hdisk) (by rw [maxMemories_eq]; omega)
      (by rw [sizeofIndexBuf_eq]; omega) stack).2

theorem keptOn_tryCall {s : StoreSys σ} {c : TryCall} (h : KeptOn fs s) (hl : RoomyCall s c.call)
    (hnone : NoneFails s c) : KeptOn fs (s.tryCall fs c) := by
  obtain ⟨ms, hdisk, hram⟩ := h
  have hall : (c.call.exec s.ram).1.filter (fun w => !c.fails w) = (c.call.exec s.ram).1 :=
    List.filter_eq_self.mpr fun w hw => by rw [hnone w hw]; rfl
  have hinv : PowerInv fs ⟨s.disk, some s.ram, ms⟩ :=
    ⟨hdisk, fun r hr => by obtain rfl := Option.some.inj hr; exact hram⟩
  obtain ⟨hsaved, hover⟩ := savedOn_write fs hinv rfl hl.1 hl.2 (c.call.exec s.ram).1.length none
  rw [List.take_length] at hsaved hover
  rw [StoreSys.tryCall, hall]
  exact ⟨_, hsaved, hover (Nat.le_refl _)⟩

/-- **One call** keeps what failed marked exactly when nothing fails. -/
theorem keepsUnsaved_iff {s : StoreSys σ} {c : TryCall} (h : KeptOn fs s) (hl : RoomyCall s c.call) :
    KeepsUnsaved fs s c ↔ NoneFails s c := by
  constructor
  · intro hk w hw
    by_contra hfail
    rw [Bool.not_eq_false] at hfail
    have hmem : w ∈ c.failed s := List.mem_filter.mpr ⟨hw, hfail⟩
    rcases exec_cases hl.1 with ⟨he, _⟩ | ⟨_, stack, he⟩
    · rw [he] at hw
      cases hw
    · have hzero : (s.tryCall fs c).ram.memDirty = 0 := by
        show (c.call.exec s.ram).2.memDirty = 0
        rw [he]
        rfl
      rw [he] at hw
      rcases List.mem_append.mp hw with hw | hw
      · obtain ⟨i, e, hi, _, hq, hv⟩ := mem_recordWrites.mp hw
        rw [Nat.zero_add] at hq
        have hwrite : w = (memPath e.type i, encodeRecord e.toMemory) := Prod.ext hq hv
        exact (hk.record i e hi (hwrite ▸ hmem)).2 hzero
      · obtain rfl := List.mem_singleton.mp hw
        exact hk.index _ hmem hzero
  · intro hnone
    have hempty : c.failed s = [] := List.filter_eq_nil_iff.mpr fun w hw => by
      rw [hnone w hw]
      exact Bool.false_ne_true
    refine ⟨fun i e _ hw => ?_, fun data hw => ?_, fun stack => ?_⟩
    · rw [hempty] at hw
      cases hw
    · rw [hempty] at hw
      cases hw
    · exact keptOn_restores (keptOn_tryCall h hl hnone) stack

/-- **Unsaved entries stay marked** in every call of a run, from a start on a disk that
holds any memories, exactly when no write of the run fails. -/
theorem keeps_unsaved_iff {disk : σ} {ms : List Memory} (hdisk : SavedOn fs disk ms) {heap : Heap}
    (hheap : heap.Serves (requests ms)) (calls : List TryCall)
    (hl : (tryMachine fs).Legal (StoreSys.start fs sizeofIndexBuf disk heap) calls) :
    (∀ pre c, pre ++ [c] <+: calls →
        KeepsUnsaved fs ((tryMachine fs).run (StoreSys.start fs sizeofIndexBuf disk heap) pre) c) ↔
      ∀ pre c, pre ++ [c] <+: calls →
        NoneFails ((tryMachine fs).run (StoreSys.start fs sizeofIndexBuf disk heap) pre) c :=
  Machine.forall_steps_iff (M := tryMachine fs) (I := KeptOn fs) (P := KeepsUnsaved fs) (Q := NoneFails)
    (fun _ _ h hc => keepsUnsaved_iff h hc) (fun _ _ h hc hnone => keptOn_tryCall h hc hnone)
    calls _ (keptOn_start hdisk hheap) hl

end Unsaved

/-! ### A flush whose writes all fail -/

/-- One memory is stored, and then nothing can be written. -/
def deafCalls : List TryCall :=
  [⟨.store (some (sampleEntry 1)) sampleStack, fun _ => false⟩, ⟨.flush sampleStack, fun _ => true⟩]

theorem savedOn_empty : SavedOn sampleFs (fun _ => none) [] :=
  ⟨by rw [indexRoom_eq]; exact Nat.zero_le _, .inl ⟨rfl, rfl⟩⟩

theorem legal_deafCalls : (tryMachine sampleFs).Legal
    (StoreSys.start sampleFs sizeofIndexBuf (fun _ => none) sampleHeap) deafCalls := by
  have hserved : (StoreCall.store (some (sampleEntry 1)) sampleStack).Served
      (bootMemory sampleFs sizeofIndexBuf (fun _ => none) sampleHeap) :=
    sampleHeap_serves [_] (by rw [List.length_singleton]; omega)
  refine ⟨⟨hserved, ?_⟩, ⟨trivial, ?_⟩, trivial⟩
  · rw [indexRoom_eq]
    show 0 + 1 ≤ 4095
    omega
  · refine Nat.le_trans (exec_length_le hserved) ?_
    rw [indexRoom_eq]
    show 0 + 1 ≤ 4095
    omega

theorem keeps_unsaved_sample :
    (∀ pre c, pre ++ [c] <+: deafCalls → KeepsUnsaved sampleFs ((tryMachine sampleFs).run
        (StoreSys.start sampleFs sizeofIndexBuf (fun _ => none) sampleHeap) pre) c) ↔
      ∀ pre c, pre ++ [c] <+: deafCalls → NoneFails ((tryMachine sampleFs).run
        (StoreSys.start sampleFs sizeofIndexBuf (fun _ => none) sampleHeap) pre) c :=
  keeps_unsaved_iff savedOn_empty (sampleHeap_serves [] (Nat.zero_le _)) deafCalls legal_deafCalls

/-- The flush forgets the memory that it could not write. -/
theorem flush_forgets :
    let s := StoreSys.start sampleFs sizeofIndexBuf (fun _ => none) sampleHeap
    (tryMachine sampleFs).Legal s deafCalls ∧
      ¬ KeepsUnsaved sampleFs
        ((tryMachine sampleFs).run s [⟨.store (some (sampleEntry 1)) sampleStack, fun _ => false⟩])
        ⟨.flush sampleStack, fun _ => true⟩ := by
  intro s
  refine ⟨legal_deafCalls, fun hk => ?_⟩
  have hstart : KeptOn sampleFs s :=
    keptOn_start savedOn_empty (sampleHeap_serves [] (Nat.zero_le _))
  obtain ⟨hfirst, hsecond, _⟩ := legal_deafCalls
  have hzero : s.ram.memDirty = 0 := (start_empty (fun _ => rfl) sizeofIndexBuf sampleHeap).2.1
  have hdirty : (s.ram.push (sampleMemory memEpisodic 1)).memDirty = 1 := by
    show s.ram.memDirty + 1 = 1
    rw [hzero]
    rfl
  have hstore : aionMemoryStore (some (sampleEntry 1)) sampleStack s.ram =
      ([], s.ram.push (sampleMemory memEpisodic 1)) := by
    rw [aionMemoryStore_served rfl hfirst.1.1 sampleStack]
    exact if_neg (by
      show ¬ (s.ram.push (sampleMemory memEpisodic 1)).memDirty ≥ 10
      rw [hdirty]
      decide)
  have hnone : NoneFails s ⟨.store (some (sampleEntry 1)) sampleStack, fun _ => false⟩ :=
    fun _ _ => rfl
  have hall := (keepsUnsaved_iff (keptOn_tryCall hstart hfirst hnone) hsecond).mp hk
  refine Bool.noConfusion (hall (indexPath, encodeIndex sampleStack
    (s.ram.push (sampleMemory memEpisodic 1)).memories) ?_)
  show _ ∈ (aionMemoryFlush sampleStack (aionMemoryStore (some (sampleEntry 1)) sampleStack s.ram).2).1
  rw [hstore, aionMemoryFlush_dirty (by rw [hdirty]; decide)]
  exact List.mem_append_right _ List.mem_cons_self

end AionOs
