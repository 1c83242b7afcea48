import AionOs.Runtime.Life

/-!
# What the model can do outside

The model says any text, so a run of the life loop may try anything.  Its handlers reach the
drivers and the files with bounded arguments only.

* `run_cases`: what a handler does outside, whatever its token.
* `life_allowed`: every call into a driver in a run is within its limits.
* `life_files`: the files in a run are those that `FILE_WRITE` alone would have left, but for the
  files of the store.
* `life_results`: the first results stay, and after 32 of them there are no others.
-/

namespace AionOs

open Bytes CText

/-! ### Calls -/

/-- The limits of the calls: texts are shorter than their buffers, files are written under absolute
paths without `..`, and the frequency control is the one register written, with 400 to 3400 MHz. -/
def DriverCall.Allowed : DriverCall → Prop
  | .displayPrintString text _ => text.length < 512
  | .audioPlayPcm data sampleRate channels => data.length ≤ 2048 ∧ sampleRate = 44100 ∧ channels = 1
  | .fsReadFile path => path.length < 512
  | .fsWriteFileUsb path data =>
    path.head? = some (charByte '/') ∧ ¬ ascii ".." <:+: path ∧ path.length < 512 ∧ data.length < 4096
  | .networkHttpGet url => url.length < 512
  | .wrmsr msr low high => msr = 0x199 ∧ high = 0 ∧ ∃ ratio : U32, 4 ≤ ratio ∧ ratio ≤ 34 ∧ low = ratio <<< 8
  | _ => True

def DriverCall.written : DriverCall → Option FileWrite
  | .fsWriteFileUsb path data => some (path, data)
  | _ => none

theorem length_paramStr (token : Token) (key : List U8) {outSz : Nat} (h : 0 < outSz) :
    (paramStr token key outSz).length < outSz := by
  unfold paramStr parseParamStr
  dsimp only
  split
  · exact h
  · split
    · exact h
    · rw [Option.getD_some, List.length_take]
      split <;> omega

theorem length_pcmBytes (room : Nat) (hex : List U8) : (pcmBytes room hex).length ≤ room := by
  fun_induction pcmBytes room hex with
  | case1 => exact Nat.zero_le _
  | case2 room hi lo hex _ ih => exact Nat.succ_le_succ ih
  | case3 => exact Nat.zero_le _

theorem clampMhz_bounds (mhz : U64) : 400 ≤ (clampMhz mhz).toNat ∧ (clampMhz mhz).toNat ≤ 3400 := by
  have hlow : (400 : U64).toInt = 400 := by decide
  have htop : ∀ m : U64, 400 ≤ m.toInt → 400 ≤ (if m.toInt > 3400 then 3400 else m : U64).toNat ∧
      (if m.toInt > 3400 then 3400 else m : U64).toNat ≤ 3400 := by
    intro m hm
    split
    · decide
    · rw [BitVec.toInt_eq_toNat_bmod, Int.bmod] at *
      omega
  unfold clampMhz
  refine htop _ ?_
  split
  · exact hlow.ge
  · omega

theorem ratio_clamped (mhz : U64) : ∃ ratio : U32, 4 ≤ ratio ∧ ratio ≤ 34 ∧
    ((clampMhz mhz / 100) <<< 8).truncate 32 = ratio <<< 8 := by
  obtain ⟨hlow, hhigh⟩ := clampMhz_bounds mhz
  have hdiv : (clampMhz mhz / 100).toNat = (clampMhz mhz).toNat / 100 := BitVec.toNat_udiv
  have hratio : ((clampMhz mhz / 100).truncate 32).toNat = (clampMhz mhz).toNat / 100 := by
    rw [BitVec.truncate_eq_setWidth, BitVec.toNat_setWidth, hdiv]
    omega
  refine ⟨(clampMhz mhz / 100).truncate 32, ?_, ?_, ?_⟩
  · rw [BitVec.le_def, hratio]
    show 4 ≤ _
    omega
  · rw [BitVec.le_def, hratio]
    show _ ≤ 34
    omega
  · exact BitVec.setWidth_shiftLeft_of_le (by decide)

section Effects

variable {σ : Type} (fs : FileSystem σ)

/-- What a handler does outside: calls that write no file, a call of the store, or the write of a file. -/
inductive Outside (s s' : HandlerSys σ) : Prop where
  | calls (new : List DriverCall) (hcalls : s'.driverCalls = s.driverCalls ++ new)
      (hnew : ∀ c ∈ new, c.Allowed ∧ c.written = none) (hstore : s'.store = s.store)
  | store (c : StoreCall) (hstore : s'.store = s.store.call fs c) (hcalls : s'.driverCalls = s.driverCalls)
  | write (path data : List U8) (hallowed : (DriverCall.fsWriteFileUsb path data).Allowed)
      (hcalls : s'.driverCalls = s.driverCalls ++ [.fsWriteFileUsb path data])
      (hstore : s'.store = { s.store with disk := fs.write s.store.disk path data })

variable {fs}

theorem outside_call {s s' : HandlerSys σ} {c : DriverCall} (hallowed : c.Allowed) (hwritten : c.written = none)
    (hcalls : s'.driverCalls = s.driverCalls ++ [c]) (hstore : s'.store = s.store) : Outside fs s s' :=
  .calls [c] hcalls (fun _ hc => List.mem_singleton.mp hc ▸ ⟨hallowed, hwritten⟩) hstore

theorem outside_nothing {s s' : HandlerSys σ} (hcalls : s'.driverCalls = s.driverCalls)
    (hstore : s'.store = s.store) : Outside fs s s' :=
  .calls [] (hcalls.trans (List.append_nil _).symm) (fun _ hc => nomatch hc) hstore

/-- **A handler** does one of these, whatever its token. -/
theorem run_cases (h : Handler) (token : Token) (env : CallEnv) (s : HandlerSys σ) :
    Outside fs s (h.run fs token env s) := by
  cases h with
  | actDisplay =>
    exact outside_call (c := .displayPrintString _ _) (length_paramStr token _ (by decide)) rfl rfl rfl
  | actDisplayPixel => exact outside_call (c := .displaySetPixel _ _ _) trivial rfl rfl rfl
  | actDisplayClear => exact outside_call (c := .displayClear) trivial rfl rfl rfl
  | actAudioFreq => exact outside_call (c := .audioPlayTone _ _ _) trivial rfl rfl rfl
  | actAudioStop => exact outside_call (c := .audioStop) trivial rfl rfl rfl
  | actFileRead => exact outside_call (c := .fsReadFile _) (length_paramStr token _ (by decide)) rfl rfl rfl
  | actNetFetch => exact outside_call (c := .networkHttpGet _) (length_paramStr token _ (by decide)) rfl rfl rfl
  | actCpuFreqSet => exact outside_call (c := .wrmsr _ _ _) ⟨rfl, rfl, ratio_clamped _⟩ rfl rfl rfl
  | actSleepMs => exact outside_nothing rfl rfl
  | actHardwareQuery => exact outside_nothing rfl rfl
  | actMemoryRecall => exact outside_nothing rfl rfl
  | actMemoryStore => exact .store (.store (some (memoryStoreEntry token)) env.stack) rfl rfl
  | actAudioPcm =>
    show Outside fs s (actAudioPcm token s)
    unfold actAudioPcm
    split
    · exact outside_nothing rfl rfl
    · exact outside_call (c := .audioPlayPcm _ _ _) ⟨length_pcmBytes 2048 _, rfl, rfl⟩ rfl rfl rfl
  | actFileWrite =>
    show Outside fs s (actFileWrite fs token s)
    unfold actFileWrite
    dsimp only
    split
    · exact outside_nothing rfl rfl
    · next hpath =>
      obtain ⟨hroot, hdots⟩ := not_or.mp hpath
      refine .write _ _ ⟨not_ne_iff.mp hroot, fun hin => hdots (strstr_isSome.mpr hin), ?_, ?_⟩ rfl rfl
      · exact length_paramStr token _ (by decide)
      · exact length_paramStr token _ (by decide)

/-! ### Runs -/

variable (fs)

/-- The files that the store writes: the index and the records. -/
def OwnPath (p : Path) : Prop := p = indexPath ∨ ∃ type i, p = memPath type i

/-- What a run has done outside: its calls are allowed, and but for the files of the store the disk is
what the writes among them make of the first one. -/
structure Traced (disk : σ) (s : HandlerSys σ) : Prop where
  allowed : ∀ c ∈ s.driverCalls, c.Allowed
  files : ∀ p, ¬ OwnPath p →
    fs.read s.store.disk p = fs.read (fs.applyAll disk (s.driverCalls.filterMap DriverCall.written)) p

variable {fs}

theorem own_of_mem_flush {stack : Nat → Nat → U8} {s : MemState} {w : FileWrite}
    (h : w ∈ (aionMemoryFlush stack s).1) : OwnPath w.1 := by
  unfold aionMemoryFlush at h
  split at h
  · cases h
  · rcases List.mem_append.mp h with hrecord | hindex
    · obtain ⟨k, e, _, _, hname, _⟩ := mem_recordWrites.mp hrecord
      exact .inr ⟨e.type, 0 + k, hname⟩
    · rw [List.mem_singleton.mp hindex]
      exact .inl rfl

theorem own_of_mem_exec {s : MemState} {c : StoreCall} {w : FileWrite} (h : w ∈ (c.exec s).1) : OwnPath w.1 := by
  cases c with
  | flush stack => exact own_of_mem_flush h
  | store entry stack =>
    have hstore : w ∈ (aionMemoryStore entry stack s).1 := h
    unfold aionMemoryStore at hstore
    cases entry with
    | none => cases hstore
    | some e =>
      dsimp only at hstore
      cases htext : e.content with
      | none =>
        rw [htext] at hstore
        cases hstore
      | some text =>
        rw [htext] at hstore
        dsimp only at hstore
        -- a text that finds no room is not written either
        split at hstore
        · cases hstore
        · unfold appendEntry at hstore
          dsimp only at hstore
          split at hstore
          · exact own_of_mem_flush hstore
          · cases hstore

theorem Traced.step {disk : σ} {s s' : HandlerSys σ} (h : Traced fs disk s) (hout : Outside fs s s') :
    Traced fs disk s' := by
  cases hout with
  | calls new hcalls hnew hstore =>
    have hnone : new.filterMap DriverCall.written = [] := List.filterMap_eq_nil_iff.mpr fun c hc => (hnew c hc).2
    refine ⟨fun c hc => ?_, fun p hp => ?_⟩
    · rw [hcalls, List.mem_append] at hc
      exact hc.elim (h.allowed c) fun hc => (hnew c hc).1
    · rw [hstore, hcalls, List.filterMap_append, hnone, List.append_nil]
      exact h.files p hp
  | store c hstore hcalls =>
    refine ⟨hcalls ▸ h.allowed, fun p hp => ?_⟩
    rw [hcalls, hstore, ← h.files p hp]
    refine fs.read_applyAll_of_notMem _ _ fun hmem => hp ?_
    obtain ⟨w, hw, rfl⟩ := List.mem_map.mp hmem
    exact own_of_mem_exec hw
  | write path data hallowed hcalls hstore =>
    refine ⟨fun c hc => ?_, fun p hp => ?_⟩
    · rw [hcalls, List.mem_append, List.mem_singleton] at hc
      exact hc.elim (h.allowed c) fun hc => hc ▸ hallowed
    · have hwritten : (s.driverCalls ++ [DriverCall.fsWriteFileUsb path data]).filterMap DriverCall.written =
          s.driverCalls.filterMap DriverCall.written ++ [(path, data)] := List.filterMap_append
      have hlast : fs.applyAll disk (s.driverCalls.filterMap DriverCall.written ++ [(path, data)]) =
          fs.write (fs.applyAll disk (s.driverCalls.filterMap DriverCall.written)) path data :=
        List.foldl_concat _ _ _ _
      rw [hstore, hcalls, hwritten, hlast, fs.read_write, fs.read_write, h.files p hp]

theorem Traced.calls {disk : σ} (env : Nat → CallEnv) : ∀ (calls : List (Handler × Token)) (i : Nat)
    {s : HandlerSys σ}, Traced fs disk s → Traced fs disk (runCalls fs env i calls s) := by
  intro calls
  induction calls with
  | nil => intro i s h; exact h
  | cons c calls ih => intro i s h; exact ih (i + 1) (h.step (run_cases c.1 c.2 (env i) s))

/-- A tick leaves the body alone, or acts and stores an experience. -/
theorem tick_body {s s' : Life σ} {a : TickInput} (h : consciousnessTick fs a s = some s') : s'.body = s.body ∨
    ∃ calls c, s'.body = { runCalls fs a.env 0 calls s.body with
      store := (runCalls fs a.env 0 calls s.body).store.call fs c } := by
  unfold consciousnessTick at h
  obtain ⟨r, hfeed, h⟩ := Option.bind_eq_some_iff.mp h
  obtain ⟨⟨len, out, llm⟩, hthink, h⟩ := Option.bind_eq_some_iff.mp h
  dsimp only at h
  split at h
  · obtain rfl := Option.some.inj h
    exact .inl rfl
  · obtain rfl := Option.some.inj h
    exact .inr ⟨_, _, rfl⟩

theorem Traced.tick {disk : σ} {s s' : Life σ} {a : TickInput} (h : Traced fs disk s.body)
    (htick : consciousnessTick fs a s = some s') : Traced fs disk s'.body := by
  rcases tick_body htick with hbody | ⟨calls, c, hbody⟩
  · rw [hbody]
    exact h
  · have hrun := Traced.calls a.env calls 0 h
    rw [hbody]
    exact hrun.step (.store c rfl rfl)

theorem init_start {cap : Nat} {disk : σ} {heap : Heap} {tokenized : Option NewTokens} {recode code : Int}
    {s : Life σ} (h : consciousnessInit fs cap disk heap tokenized recode code = some s) :
    s.tick = 0 ∧ s.body = ⟨⟨StoreSys.start fs cap disk heap, []⟩, []⟩ := by
  unfold consciousnessInit at h
  dsimp only at h
  split at h
  · obtain rfl := Option.some.inj h
    exact ⟨rfl, rfl⟩
  · obtain ⟨r, _, h⟩ := Option.bind_eq_some_iff.mp h
    obtain rfl := Option.some.inj h
    exact ⟨rfl, rfl⟩

/-- **What the start gives and every tick keeps** holds in every life. -/
theorem life_keeps {I : List TickInput → Life σ → Prop} (cap : Nat) (disk : σ) (heap : Heap)
    (tokenized : Option NewTokens) (recode code : Int)
    (hstart : ∀ s, consciousnessInit fs cap disk heap tokenized recode code = some s → I [] s)
    (htick : ∀ ticks a s s', I ticks s → s.llm.Awake → consciousnessTick fs a s = some s' → I (ticks ++ [a]) s')
    (ticks : List TickInput) : ∃ s,
    (consciousnessMachine fs).run (consciousnessInit fs cap disk heap tokenized recode code) ticks = some s ∧
      I ticks s := by
  suffices h : ∃ s,
      (consciousnessMachine fs).run (consciousnessInit fs cap disk heap tokenized recode code) ticks = some s ∧
        s.llm.Awake ∧ I ticks s by
    obtain ⟨s, hs, _, hI⟩ := h
    exact ⟨s, hs, hI⟩
  induction ticks using List.reverseRecOn with
  | nil =>
    obtain ⟨s, hs, hawake⟩ := consciousnessInit_spec fs cap disk heap tokenized recode code
    exact ⟨s, hs, hawake, hstart s hs⟩
  | append_singleton ticks a ih =>
    obtain ⟨s, hs, hawake, hI⟩ := ih
    obtain ⟨s', hs', hawake', _⟩ := consciousnessTick_spec fs hawake a
    refine ⟨s', ?_, hawake', htick ticks a s s' hI hawake hs'⟩
    rw [Machine.run_concat, hs]
    exact hs'

theorem traced_start {cap : Nat} {disk : σ} {heap : Heap} {tokenized : Option NewTokens} {recode code : Int}
    {s : Life σ} (h : consciousnessInit fs cap disk heap tokenized recode code = some s) : Traced fs disk s.body := by
  rw [(init_start h).2]
  refine ⟨fun c hc => ?_, fun p _ => rfl⟩
  cases hc

theorem traced_run (cap : Nat) (disk : σ) (heap : Heap) (tokenized : Option NewTokens) (recode code : Int)
    (ticks : List TickInput) : ∃ s,
    (consciousnessMachine fs).run (consciousnessInit fs cap disk heap tokenized recode code) ticks = some s ∧
      Traced fs disk s.body :=
  @life_keeps _ fs (fun _ s => Traced fs disk s.body) cap disk heap tokenized recode code
    (fun _ hs => traced_start hs) (fun _ _ _ _ h _ hs => h.tick hs) ticks

/-- A format, cut to its cell. -/
def IsResult (t : List U8) : Prop := ∃ fmt ∈ resultFormats, t = fmt.take 255

/-- The results after some calls: those before them, and more up to 32. -/
structure Grown (r r' : List (List U8)) : Prop where
  keeps : r <+: r'
  length : r.length ≤ 32 → r'.length ≤ 32
  formats : (∀ t ∈ r, IsResult t) → ∀ t ∈ r', IsResult t

theorem Grown.refl (r : List (List U8)) : Grown r r := ⟨List.prefix_rfl, id, id⟩

theorem Grown.trans {r r' r'' : List (List U8)} (h : Grown r r') (h' : Grown r' r'') : Grown r r'' :=
  ⟨h.keeps.trans h'.keeps, h'.length ∘ h.length, h'.formats ∘ h.formats⟩

theorem grown_record {fmt : List U8} (h : fmt ∈ resultFormats) (r : List (List U8)) : Grown r (recordResult fmt r) := by
  rw [recordResult]
  split
  · exact .refl r
  · refine ⟨List.prefix_append r _, fun hlen => ?_, fun hr t ht => ?_⟩
    · rw [List.length_append, List.length_singleton]
      omega
    · rcases List.mem_append.mp ht with ht | ht
      · exact hr t ht
      · exact ⟨fmt, h, List.mem_singleton.mp ht⟩

theorem grown_calls (env : Nat → CallEnv) : ∀ (calls : List (Handler × Token)) (i : Nat) (s : HandlerSys σ),
    Grown s.results (runCalls fs env i calls s).results := by
  intro calls
  induction calls with
  | nil => intro i s; exact .refl _
  | cons c calls ih =>
    intro i s
    refine Grown.trans ?_ (ih (i + 1) (c.1.run fs c.2 (env i) s))
    rcases run_results fs c.1 c.2 (env i) s with hquiet | ⟨fmt, hfmt, hrecorded⟩
    · rw [hquiet]
      exact .refl _
    · rw [hrecorded]
      exact grown_record hfmt _

theorem grown_tick {s s' : Life σ} {a : TickInput} (h : consciousnessTick fs a s = some s') :
    Grown s.body.results s'.body.results := by
  rcases tick_body h with hbody | ⟨calls, c, hbody⟩
  · rw [hbody]
    exact .refl _
  · rw [hbody]
    exact grown_calls a.env calls 0 s.body

variable (fs)

/-- **Every call into a driver is within its limits**, in every life and whatever the model says. -/
theorem life_allowed (cap : Nat) (disk : σ) (heap : Heap) (tokenized : Option NewTokens) (recode code : Int)
    (ticks : List TickInput) : ∃ s,
    (consciousnessMachine fs).run (consciousnessInit fs cap disk heap tokenized recode code) ticks = some s ∧
      ∀ c ∈ s.body.driverCalls, c.Allowed := by
  obtain ⟨s, hs, htraced⟩ := @traced_run _ fs cap disk heap tokenized recode code ticks
  exact ⟨s, hs, htraced.allowed⟩

/-- **The files of a life** are those that the writes of `FILE_WRITE` alone would have left, in their order,
but for the files of the store. -/
theorem life_files (cap : Nat) (disk : σ) (heap : Heap) (tokenized : Option NewTokens) (recode code : Int)
    (ticks : List TickInput) : ∃ s,
    (consciousnessMachine fs).run (consciousnessInit fs cap disk heap tokenized recode code) ticks = some s ∧
      ∀ p, ¬ OwnPath p → fs.read s.body.store.disk p =
        fs.read (fs.applyAll disk (s.body.driverCalls.filterMap DriverCall.written)) p := by
  obtain ⟨s, hs, htraced⟩ := @traced_run _ fs cap disk heap tokenized recode code ticks
  exact ⟨s, hs, htraced.files⟩

/-- **The results of a life** are at most 32, each the format of a call; those of any moment stay to the end,
for nothing takes them out. -/
theorem life_results (cap : Nat) (disk : σ) (heap : Heap) (tokenized : Option NewTokens) (recode code : Int)
    (ticks : List TickInput) : ∃ s,
    (consciousnessMachine fs).run (consciousnessInit fs cap disk heap tokenized recode code) ticks = some s ∧
      (s.body.results.length ≤ 32 ∧ ∀ t ∈ s.body.results, IsResult t) ∧
      ∀ pre, pre <+: ticks → ∃ s₀,
        (consciousnessMachine fs).run (consciousnessInit fs cap disk heap tokenized recode code) pre = some s₀ ∧
          s₀.body.results <+: s.body.results := by
  let run := fun l => (consciousnessMachine fs).run (consciousnessInit fs cap disk heap tokenized recode code) l
  let Kept : List TickInput → Life σ → Prop := fun ticks s => run ticks = some s ∧
    (s.body.results.length ≤ 32 ∧ ∀ t ∈ s.body.results, IsResult t) ∧
    ∀ pre, pre <+: ticks → ∃ s₀, run pre = some s₀ ∧ s₀.body.results <+: s.body.results
  have hstart : ∀ s, consciousnessInit fs cap disk heap tokenized recode code = some s → Kept [] s := by
    intro s hs
    have hnone : s.body.results = [] := congrArg (fun b : HandlerSys σ => b.results) (init_start hs).2
    refine ⟨hs, ?_, fun pre hpre => ?_⟩
    · rw [hnone]
      exact ⟨Nat.zero_le 32, fun _ ht => absurd ht List.not_mem_nil⟩
    · obtain rfl := List.prefix_nil.mp hpre
      exact ⟨s, hs, List.prefix_rfl⟩
  have htick : ∀ ticks a s s', Kept ticks s → s.llm.Awake → consciousnessTick fs a s = some s' →
      Kept (ticks ++ [a]) s' := by
    rintro ticks a s s' ⟨hrun, hbound, hpre⟩ _ hs'
    have hgrown := grown_tick hs'
    have hrun' : run (ticks ++ [a]) = some s' := by
      show (consciousnessMachine fs).run _ (ticks ++ [a]) = _
      rw [Machine.run_concat, show (consciousnessMachine fs).run _ ticks = some s from hrun]
      exact hs'
    refine ⟨hrun', ⟨hgrown.length hbound.1, hgrown.formats hbound.2⟩, fun pre h => ?_⟩
    rcases List.prefix_concat_iff.mp h with rfl | h
    · exact ⟨s', hrun', List.prefix_rfl⟩
    · obtain ⟨s₀, hs₀, hkeeps⟩ := hpre pre h
      exact ⟨s₀, hs₀, hkeeps.trans hgrown.keeps⟩
  obtain ⟨s, hs, _, hresults⟩ := life_keeps cap disk heap tokenized recode code hstart htick ticks
  exact ⟨s, hs, hresults⟩

end Effects

end AionOs
