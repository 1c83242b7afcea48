import AionOs.Store.AionMemory

/-!
# The recent memories

`aion_memory_get_recent` counts back from the end and stops after 16 entries.

* `getRecent_spec`: the entries that it gives.
* `getRecent_iff`: when they are the last ones.
-/

namespace AionOs

/-- `AionMemoryContext`: an entry points to the contents in the store. -/
structure AionMemoryContext where
  entries : List Memory
  le : entries.length ≤ 16

/-- The loop of `aion_memory_get_recent` over the entries from `i` on, with room for `room`
more. -/
def recentLoop : List MemEntry → Nat → List Memory
  | [], _ => []
  | _, 0 => []
  | e :: es, room + 1 => e.toMemory :: recentLoop es room

theorem recentLoop_eq : ∀ (es : List MemEntry) (room : Nat),
    recentLoop es room = (es.take room).map MemEntry.toMemory := by
  intro es
  induction es with
  | nil => intro room; simp [recentLoop]
  | cons e es ih =>
    intro room
    cases room with
    | zero => rfl
    | succ room => rw [recentLoop, ih, List.take_succ_cons, List.map_cons]

theorem length_recentLoop_le (es : List MemEntry) (room : Nat) : (recentLoop es room).length ≤ room := by
  rw [recentLoop_eq, List.length_map]
  exact List.length_take_le _ _

def aionMemoryGetRecent (n : Int) (s : MemState) : AionMemoryContext :=
  if s.memStore.length = 0 then ⟨[], Nat.zero_le _⟩
  else
    let start : Int := s.memStore.length - n
    let start := if start < 0 then 0 else start
    ⟨recentLoop (s.memStore.drop start.toNat) 16, length_recentLoop_le _ _⟩

/-- **What is given**: the first 16 of the last `n` entries. -/
theorem getRecent_spec {n : Int} (hn : 0 ≤ n) (s : MemState) :
    (aionMemoryGetRecent n s).entries = (s.memories.drop (s.memories.length - n.toNat)).take 16 := by
  have hlen : s.memories.length = s.memStore.length := List.length_map _
  unfold aionMemoryGetRecent
  by_cases hempty : s.memStore.length = 0
  · have hnil : s.memories = [] := List.length_eq_zero_iff.mp (hlen.trans hempty)
    rw [if_pos hempty, hnil, List.drop_nil, List.take_nil]
  · have hstart : (if (s.memStore.length : Int) - n < 0 then 0 else (s.memStore.length : Int) - n).toNat =
        s.memStore.length - n.toNat := by
      split <;> omega
    rw [if_neg hempty]
    show recentLoop (s.memStore.drop _) 16 = _
    rw [hstart, recentLoop_eq, hlen, MemState.memories, List.map_take, List.map_drop]

def lastOf (m : Nat) (ms : List Memory) : List Memory := ms.drop (ms.length - m)

def storeOf (ms : List Memory) : MemState :=
  { MemState.powerOn 0 Heap.bss with memStore := ms.map (Memory.entry false) }

theorem storeOf_memories (ms : List Memory) : (storeOf ms).memories = ms := by
  rw [MemState.memories, storeOf, List.map_map]
  exact List.map_id _

def oldAndNew (old : Nat) : List Memory :=
  List.replicate old ⟨memEpisodic, 0, 0, ⟨[], Nat.zero_le _⟩⟩ ++
    List.replicate 16 ⟨memEpisodic, 0, 1, ⟨[], Nat.zero_le _⟩⟩

theorem length_oldAndNew (old : Nat) : (oldAndNew old).length = old + 16 := by
  rw [oldAndNew, List.length_append, List.length_replicate, List.length_replicate]

/-- More than 16 of them are asked for: the first one that is given is old. -/
theorem getRecent_old {n : Int} (hn : 16 < n) {old : Nat} (hold : 0 < old) :
    (aionMemoryGetRecent n (storeOf (oldAndNew old))).entries ≠ lastOf 16 (oldAndNew old) := by
  intro hsame
  have hfirst := congrArg List.head? hsame
  rw [getRecent_spec (by omega), storeOf_memories, lastOf, length_oldAndNew, List.head?_eq_getElem?,
    List.head?_eq_getElem?, List.getElem?_take_of_lt (by omega), List.getElem?_drop, List.getElem?_drop,
    oldAndNew, List.getElem?_append_left (by rw [List.length_replicate]; omega),
    List.getElem?_append_right (by rw [List.length_replicate]; omega), List.getElem?_replicate,
    List.getElem?_replicate, List.length_replicate, if_pos (by omega), if_pos (by omega)] at hfirst
  exact absurd (congrArg Memory.tick (Option.some.inj hfirst)) (by decide)

/-- **The most recent memories.**  From every store of `count` entries the last
`min n 16 count` are given if and only if at most 16 are asked for or there are no more. -/
theorem getRecent_iff {n : Int} (hn : 0 ≤ n) (count : Nat) :
    (∀ s : MemState, s.memories.length = count →
      (aionMemoryGetRecent n s).entries = lastOf (min n.toNat (min 16 count)) s.memories) ↔
    n ≤ 16 ∨ count ≤ 16 := by
  constructor
  · intro hall
    by_contra hbad
    rw [not_or, Int.not_le, Nat.not_le] at hbad
    obtain ⟨hmany, hcount⟩ := hbad
    have hlen : (oldAndNew (count - 16)).length = count := by
      rw [length_oldAndNew]
      omega
    have hgiven := hall (storeOf (oldAndNew (count - 16))) (by rw [storeOf_memories, hlen])
    rw [storeOf_memories, Nat.min_eq_left hcount.le, Nat.min_eq_right (by omega)] at hgiven
    exact getRecent_old hmany (by omega) hgiven
  · intro hfew s hcount
    rw [getRecent_spec hn, lastOf, hcount]
    rcases hfew with hn16 | hcount16
    · rw [List.take_of_length_le (by rw [List.length_drop]; omega)]
      congr 1
      omega
    · rw [List.take_of_length_le (by rw [List.length_drop]; omega)]
      congr 1
      omega

theorem getRecent_sample :
    (∀ s : MemState, s.memories.length = 20 →
      (aionMemoryGetRecent 16 s).entries = lastOf (min (16 : Int).toNat (min 16 20)) s.memories) ↔
    (16 : Int) ≤ 16 ∨ 20 ≤ 16 :=
  getRecent_iff (by decide) 20

/-- Of 17 memories the oldest is given and the newest is not. -/
theorem newest_not_given :
    (aionMemoryGetRecent 17 (storeOf (oldAndNew 1))).entries ≠
      lastOf (min (17 : Int).toNat (min 16 (oldAndNew 1).length)) (oldAndNew 1) :=
  getRecent_old (by decide) (by decide)

end AionOs
