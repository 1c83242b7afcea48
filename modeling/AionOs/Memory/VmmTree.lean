import AionOs.Memory.PmmRun
import AionOs.Memory.Vmm

/-!
# The tree of page tables

`TreeInv` says that the tables below a root are used frames and that no table is reached
by two paths.  Every change that the code makes keeps it:

* `linkTable_spec`: a table from the allocator, zeroed and linked.
* `vmmGetPte_create`: the walk that creates what is missing; `Grows` says what it may
  change, and `Created` which paths it may add.
* `treeInv_writeLeaf`, `tableAt_writeLeaf`: writing an entry of a last table.
-/

namespace AionOs

open PathTree (walk IsTree)

/-- The tables below `root` are used frames, and each is reached by one path. -/
structure TreeInv (root : U64) (s : Vmm) : Prop where
  node : ∀ π n, π.length ≤ 3 → tableAt s.mem root π = some n →
    ∃ f, f < maxFrames ∧ n = frameAddr f ∧ ¬ s.pmm.IsFree f
  tree : IsTree (child s.mem) root 3

/-- What a creating walk may change: it adds zeroed tables, made of free frames. -/
structure Grows (root : U64) (s s' : Vmm) : Prop where
  keep : ∀ π n, π.length ≤ 3 → tableAt s.mem root π = some n → tableAt s'.mem root π = some n
  leaf : ∀ π t i, π.length = 3 → tableAt s.mem root π = some t →
    s'.mem (wordAt t i) = s.mem (wordAt t i)
  zero : ∀ π t i, π.length = 3 → tableAt s.mem root π = none → tableAt s'.mem root π = some t →
    s'.mem (wordAt t i) = 0
  free : ∀ f, s'.pmm.IsFree f → s.pmm.IsFree f
  taken : ∀ f, s.pmm.IsFree f → (¬ s'.pmm.IsFree f ↔
    ∃ π, π.length ≤ 3 ∧ tableAt s'.mem root π = some (frameAddr f))
  fresh : ∀ π n, π.length ≤ 3 → tableAt s.mem root π = none → tableAt s'.mem root π = some n →
    ∃ f, n = frameAddr f ∧ s.pmm.IsFree f
  total : s'.pmm.physTotalPages = s.pmm.physTotalPages
  kernelPml4 : s'.kernelPml4 = s.kernelPml4

/-- Every path that `s'` has and `s` has not is a prefix of `α`. -/
def Created (root : U64) (α : List Idx) (s s' : Vmm) : Prop :=
  ∀ π, π.length ≤ 3 → tableAt s.mem root π = none → tableAt s'.mem root π ≠ none → π <+: α

theorem Grows.refl {root : U64} {s : Vmm} (h : TreeInv root s) : Grows root s s := by
  refine ⟨fun _ _ _ h => h, fun _ _ _ _ _ => rfl, fun π t i _ h1 h2 => ?_, fun _ h => h,
    fun f hf => ⟨fun hn => absurd hf hn, ?_⟩, fun π n _ h1 h2 => ?_, rfl, rfl⟩
  · rw [h1] at h2
    cases h2
  · rintro ⟨π, hlen, hπ⟩
    obtain ⟨g, hg, he, hn⟩ := h.node π _ hlen hπ
    rwa [frameAddr_inj hf.lt hg he]
  · rw [h1] at h2
    cases h2

theorem Grows.trans {root : U64} {s s' s'' : Vmm} (h : Grows root s s') (h' : Grows root s' s'') :
    Grows root s s'' := by
  refine ⟨fun π n hl hp => h'.keep π n hl (h.keep π n hl hp), ?_, ?_,
    fun f hf => h.free f (h'.free f hf), ?_, ?_, h'.total.trans h.total,
    h'.kernelPml4.trans h.kernelPml4⟩
  · intro π t i hl hp
    rw [h'.leaf π t i hl (h.keep π t (by omega) hp), h.leaf π t i hl hp]
  · intro π t i hl hnone hp
    cases hmid : tableAt s'.mem root π with
    | none => exact h'.zero π t i hl hmid hp
    | some u =>
      have hu := h'.keep π u (by omega) hmid
      rw [hp] at hu
      rw [Option.some.inj hu, h'.leaf π u i hl hmid]
      exact h.zero π u i hl hnone hmid
  · intro f hf
    by_cases hmid : s'.pmm.IsFree f
    · exact h'.taken f hmid
    · obtain ⟨π, hl, hp⟩ := (h.taken f hf).mp hmid
      exact ⟨fun _ => ⟨π, hl, h'.keep π _ hl hp⟩, fun _ hfree => hmid (h'.free f hfree)⟩
  · intro π n hl hnone hp
    cases hmid : tableAt s'.mem root π with
    | none =>
      obtain ⟨f, he, hf⟩ := h'.fresh π n hl hmid hp
      exact ⟨f, he, h.free f hf⟩
    | some u =>
      rw [h'.keep π u hl hmid] at hp
      exact h.fresh π n hl hnone (hmid.trans hp)

theorem Created.trans {root : U64} {α : List Idx} {s s' s'' : Vmm} (h : Created root α s s')
    (h' : Created root α s' s'') : Created root α s s'' := by
  intro π hl hnone hsome
  by_cases hmid : tableAt s'.mem root π = none
  · exact h' π hl hmid hsome
  · exact h π hl hnone hmid

theorem Created.refl (root : U64) (α : List Idx) (s : Vmm) : Created root α s s :=
  fun _ _ h1 h2 => absurd h1 h2

/-! ### Linking a new table -/

/-- Frame `f` is taken, zeroed and linked by entry `i` of the table `n`. -/
def linkTable (s : Vmm) (n : U64) (i : Idx) (f : Nat) : Vmm :=
  { s with
    mem := writeWord (zeroTable s.mem (frameAddr f + virtPhysMapBase)) (wordAt n i)
      (linkEntry (frameAddr f))
    pmm := pmmTakeFrames s.pmm f 1 }

theorem linkTable_at (s : Vmm) (n : U64) (i : Idx) (f : Nat) :
    (linkTable s n i f).mem (wordAt n i) = linkEntry (frameAddr f) := writeWord_self _ _ _

theorem linkTable_new {s : Vmm} {a f : Nat} (ha : a < maxFrames) (hf : f < maxFrames) (hne : a ≠ f)
    (i j : Idx) : (linkTable s (frameAddr a) i f).mem (wordAt (frameAddr f) j) = 0 := by
  show writeWord _ _ _ _ = 0
  rw [writeWord_of_ne, zeroTable_same]
  exact fun h => hne (wordAt_inj hf ha h).1.symm

theorem linkTable_other {s : Vmm} {a f g : Nat} (ha : a < maxFrames) (hf : f < maxFrames)
    (hg : g < maxFrames) (hne : g ≠ f) {i j : Idx} (hword : ¬ (g = a ∧ j = i)) :
    (linkTable s (frameAddr a) i f).mem (wordAt (frameAddr g) j) = s.mem (wordAt (frameAddr g) j) := by
  show writeWord _ _ _ _ = _
  rw [writeWord_of_ne, zeroTable_other _ hf hg hne]
  exact fun h => hword (wordAt_inj hg ha h)

theorem child_congr {mem mem' : U64 → U64} {n : U64} {i : Idx}
    (h : mem' (wordAt n i) = mem (wordAt n i)) : child mem' n i = child mem n i := by
  rw [child, child, h]

theorem child_of_zero {mem : U64 → U64} {n : U64} {i : Idx} (h : mem (wordAt n i) = 0) :
    child mem n i = none := by
  rw [child, h, if_pos]
  exact BitVec.zero_and

theorem isFree_linkTable (s : Vmm) (n : U64) (i : Idx) (f g : Nat) :
    (linkTable s n i f).pmm.IsFree g ↔ g ≠ f ∧ s.pmm.IsFree g := by
  rw [linkTable, isFree_takeFrames]
  exact and_congr_left fun _ => by omega

/-- Entry `i` of the table at `α` is empty, and the frame `f` is free. -/
structure Linkable (root : U64) (s : Vmm) (α : List Idx) (n : U64) (i : Idx) (f : Nat) : Prop where
  inv : TreeInv root s
  table : tableAt s.mem root α = some n
  depth : α.length < 3
  empty : child s.mem n i = none
  free : s.pmm.IsFree f

section Linkable

variable {root : U64} {s : Vmm} {α : List Idx} {n : U64} {i : Idx} {f : Nat}

theorem Linkable.frame_ne (l : Linkable root s α n i f) {g : Nat} (hg : ¬ s.pmm.IsFree g) : g ≠ f :=
  fun he => hg (he ▸ l.free)

theorem Linkable.node (l : Linkable root s α n i f) :
    ∃ a, a < maxFrames ∧ n = frameAddr a ∧ ¬ s.pmm.IsFree a :=
  l.inv.node α n (Nat.le_of_lt l.depth) l.table

theorem Linkable.entry_other (l : Linkable root s α n i f) {π : List Idx} {t : U64} {j : Idx}
    (hl : π.length ≤ 3) (hπ : tableAt s.mem root π = some t) (hword : ¬ (t = n ∧ j = i)) :
    (linkTable s n i f).mem (wordAt t j) = s.mem (wordAt t j) := by
  obtain ⟨a, ha, rfl, _⟩ := l.node
  obtain ⟨g, hg, rfl, hn⟩ := l.inv.node π t hl hπ
  refine linkTable_other ha l.free.lt hg (l.frame_ne hn) ?_
  rintro ⟨rfl, rfl⟩
  exact hword ⟨rfl, rfl⟩

theorem Linkable.entry_new (l : Linkable root s α n i f) (j : Idx) :
    (linkTable s n i f).mem (wordAt (frameAddr f) j) = 0 := by
  obtain ⟨a, ha, rfl, hused⟩ := l.node
  exact linkTable_new ha l.free.lt (l.frame_ne hused) i j

theorem Linkable.graft (l : Linkable root s α n i f) :
    PathTree.Graft (child s.mem) (child (linkTable s n i f).mem) root 3 α n i (frameAddr f) := by
  refine ⟨l.table, l.depth, l.empty, ?_, ?_, fun j => child_of_zero (l.entry_new j), ?_⟩
  · intro π hl hπ
    obtain ⟨g, hg, he, hn⟩ := l.inv.node π _ hl hπ
    exact l.frame_ne hn (frameAddr_inj hg l.free.lt he.symm)
  · rw [child, linkTable_at, if_neg (linkEntry_present _), linkEntry_addr l.free.lt]
  · intro π m j hl hπ hword
    exact child_congr (l.entry_other (Nat.le_of_lt hl) hπ hword)

/-- **The tables after the link**: the new one, by the one path, and the old ones. -/
theorem Linkable.tableAt_iff (l : Linkable root s α n i f) {π : List Idx} {m : U64}
    (hl : π.length ≤ 3) : tableAt (linkTable s n i f).mem root π = some m ↔
      (π = α ++ [i] ∧ m = frameAddr f) ∨ tableAt s.mem root π = some m := by
  obtain ⟨hnew, hold⟩ := PathTree.walk_graft l.inv.tree l.graft π hl
  by_cases hp : π = α ++ [i]
  · have hnone : tableAt s.mem root π = none := by
      rw [hp, tableAt, PathTree.walk_concat_of l.table, l.empty]
    have hsome : tableAt (linkTable s n i f).mem root π = some (frameAddr f) := hnew hp
    rw [hsome, hnone, Option.some.injEq, eq_comm]
    exact ⟨fun hm => .inl ⟨hp, hm⟩, fun hor => hor.elim And.right fun hm => nomatch hm⟩
  · have hsame : tableAt (linkTable s n i f).mem root π = tableAt s.mem root π := hold hp
    rw [hsame]
    exact ⟨.inr, fun hor => hor.resolve_left fun hm => hp hm.1⟩

theorem Linkable.treeInv (l : Linkable root s α n i f) : TreeInv root (linkTable s n i f) := by
  refine ⟨fun π m hl hπ => ?_, PathTree.isTree_graft l.inv.tree l.graft⟩
  rcases (l.tableAt_iff hl).mp hπ with ⟨_, rfl⟩ | hold
  · exact ⟨f, l.free.lt, rfl, fun hfree => ((isFree_linkTable s n i f f).mp hfree).1 rfl⟩
  · obtain ⟨g, hg, he, hn⟩ := l.inv.node π m hl hold
    exact ⟨g, hg, he, fun hfree => hn ((isFree_linkTable s n i f g).mp hfree).2⟩

theorem Linkable.taken_iff (l : Linkable root s α n i f) {g : Nat} (hg : s.pmm.IsFree g) :
    ¬ (linkTable s n i f).pmm.IsFree g ↔
      ∃ π, π.length ≤ 3 ∧ tableAt (linkTable s n i f).mem root π = some (frameAddr g) := by
  rw [isFree_linkTable, not_and_or, not_not]
  constructor
  · intro hor
    have hdepth := l.depth
    rw [hor.resolve_right (fun hn => hn hg)]
    have hl : (α ++ [i]).length ≤ 3 := by
      rw [List.length_append, List.length_singleton]
      omega
    exact ⟨α ++ [i], hl, (l.tableAt_iff hl).mpr (.inl ⟨rfl, rfl⟩)⟩
  · rintro ⟨π, hl, hπ⟩
    rcases (l.tableAt_iff hl).mp hπ with ⟨_, he⟩ | hold
    · exact .inl (frameAddr_inj hg.lt l.free.lt he)
    · obtain ⟨k, hk, he, hn⟩ := l.inv.node π _ hl hold
      exact .inr (frameAddr_inj hg.lt hk he ▸ hn)

theorem Linkable.grows (l : Linkable root s α n i f) : Grows root s (linkTable s n i f) where
  keep := fun π m hl hπ => (l.tableAt_iff hl).mpr (.inr hπ)
  leaf := by
    intro π t j hl hπ
    have hdepth := l.depth
    refine l.entry_other (by omega) hπ ?_
    rintro ⟨rfl, _⟩
    rw [l.inv.tree π α _ (by omega) (by omega) hπ l.table] at hl
    omega
  zero := by
    intro π t j hl hnone hπ
    rcases (l.tableAt_iff (by omega)).mp hπ with ⟨_, rfl⟩ | hold
    · exact l.entry_new j
    · rw [hnone] at hold
      cases hold
  free := fun g hg => ((isFree_linkTable s n i f g).mp hg).2
  taken := fun g hg => l.taken_iff hg
  fresh := by
    intro π m hl hnone hπ
    rcases (l.tableAt_iff hl).mp hπ with ⟨_, rfl⟩ | hold
    · exact ⟨f, rfl, l.free⟩
    · rw [hnone] at hold
      cases hold
  total := takeFrames_total 1 _ _
  kernelPml4 := rfl

theorem Linkable.created (l : Linkable root s α n i f) :
    Created root (α ++ [i]) s (linkTable s n i f) := by
  intro π hl hnone hsome
  obtain ⟨m, hm⟩ := Option.ne_none_iff_exists'.mp hsome
  rcases (l.tableAt_iff hl).mp hm with ⟨rfl, _⟩ | hold
  · exact List.prefix_rfl
  · rw [hnone] at hold
    cases hold

/-- **A linked table**: the tree stays a tree, and grows by the one path. -/
theorem linkTable_spec (l : Linkable root s α n i f) :
    TreeInv root (linkTable s n i f) ∧ Grows root s (linkTable s n i f) ∧
      Created root (α ++ [i]) s (linkTable s n i f) ∧
      tableAt (linkTable s n i f).mem root (α ++ [i]) = some (frameAddr f) := by
  have hdepth := l.depth
  have hl : (α ++ [i]).length ≤ 3 := by
    rw [List.length_append, List.length_singleton]
    omega
  exact ⟨l.treeInv, l.grows, l.created, (l.tableAt_iff hl).mpr (.inl ⟨rfl, rfl⟩)⟩

end Linkable

/-! ### The creating walk -/

/-- The loop that creates: it ends at the last table of `v`, or the allocator failed. -/
theorem vmmGetPteLoop_create (root v : U64) : ∀ (k : Nat) (π : List Idx) (n : U64) (s : Vmm),
    TreeInv root s → π.length + k = 3 → tableAt s.mem root π = some n →
    let r := vmmGetPteLoop v 1 true k (n + virtPhysMapBase) s
    TreeInv root r.2 ∧ Grows root s r.2 ∧ Created root (π ++ pathFrom v k) s r.2 ∧
      ((∃ t, tableAt r.2.mem root (π ++ pathFrom v k) = some t ∧ r.1 = wordAt t (idx v 1)) ∨
       (r.1 = 0 ∧ tableAt r.2.mem root (π ++ pathFrom v k) = none ∧ (pmmAlloc r.2.pmm).1 = 0)) := by
  intro k
  induction k with
  | zero =>
    intro π n s h _ hπ
    refine ⟨h, Grows.refl h, Created.refl root _ s, .inl ⟨n, by rwa [pathFrom, List.append_nil], ?_⟩⟩
    show entryPtr (n + virtPhysMapBase) (indices v 1) = _
    rw [indices_eq v (by omega) (by omega)]
    rfl
  | succ k ih =>
    intro π n s h hk hπ
    have hentry : entryPtr (n + virtPhysMapBase) (indices v (1 + k + 1)) = wordAt n (idx v (k + 2)) := by
      rw [indices_eq v (by omega) (by omega), show 1 + k + 1 = k + 2 by omega]
      rfl
    have hpath : π ++ pathFrom v (k + 1) = π ++ [idx v (k + 2)] ++ pathFrom v k := by
      rw [pathFrom, List.append_assoc]
      rfl
    have hlen : (π ++ [idx v (k + 2)]).length + k = 3 := by
      rw [List.length_append, List.length_singleton]
      omega
    rw [vmmGetPteLoop, hentry, hpath]
    by_cases hp : s.mem (wordAt n (idx v (k + 2))) &&& ptePresent = 0
    · have hempty : child s.mem n (idx v (k + 2)) = none := if_pos hp
      rw [if_pos hp, if_pos rfl]
      rcases pmmAlloc_cases s.pmm with ⟨he, _⟩ | ⟨f, he, hfit, _⟩
      · -- no frame: the walk stops where it is
        simp only [he, if_pos]
        refine ⟨h, Grows.refl h, Created.refl root _ s, .inr ⟨trivial, ?_, trivial⟩⟩
        rw [tableAt, PathTree.walk_append, PathTree.walk_concat_of hπ, hempty, Option.bind_none]
      · have hf : s.pmm.IsFree f := hfit.free f (Nat.le_refl f) (by omega)
        have hnz : frameAddr f ≠ 0 := frameAddr_ne_zero hf.lt (by have := hfit.lo; omega)
        obtain ⟨h1, h2, h3, h4⟩ := linkTable_spec ⟨h, hπ, by omega, hempty, hf⟩
        obtain ⟨h5, h6, h7, h8⟩ := ih _ _ _ h1 hlen h4
        have hmem : writeWord (zeroTable s.mem (frameAddr f + virtPhysMapBase))
            (wordAt n (idx v (k + 2))) (frameAddr f ||| ptePresent ||| pteWritable) =
            (linkTable s n (idx v (k + 2)) f).mem := rfl
        have hread : (linkTable s n (idx v (k + 2)) f).mem (wordAt n (idx v (k + 2))) &&& pteAddrMask =
            frameAddr f := by rw [linkTable_at, linkEntry_addr hf.lt]
        simp only [he, if_neg hnz, hmem, hread]
        refine ⟨h5, h2.trans h6, Created.trans ?_ h7, h8⟩
        intro ρ hl hn hs
        exact (h3 ρ hl hn hs).trans (List.prefix_append _ _)
    · have hchild : child s.mem n (idx v (k + 2)) =
          some (s.mem (wordAt n (idx v (k + 2))) &&& pteAddrMask) := if_neg hp
      rw [if_neg hp]
      exact ih _ _ s h hlen (by rw [tableAt, PathTree.walk_concat_of hπ, hchild])

/-- **What `vmm_get_pte` does when it may create.** -/
theorem vmmGetPte_create {root : U64} {s : Vmm} (h : TreeInv root s) (v : U64) :
    let r := vmmGetPte s root v 1 true
    TreeInv root r.2 ∧ Grows root s r.2 ∧ Created root (path v) s r.2 ∧
      ((∃ t, tableAt r.2.mem root (path v) = some t ∧ r.1 = wordAt t (idx v 1)) ∨
       (r.1 = 0 ∧ tableAt r.2.mem root (path v) = none ∧ (pmmAlloc r.2.pmm).1 = 0)) :=
  vmmGetPteLoop_create root v 3 [] root s h rfl rfl

/-! ### Writing an entry of a last table -/

theorem tableAt_writeLeaf {root : U64} {s : Vmm} (h : TreeInv root s) {α : List Idx} {t : U64}
    (hα : tableAt s.mem root α = some t) (hlen : α.length = 3) (i : Idx) (w : U64) (π : List Idx)
    (hl : π.length ≤ 3) :
    tableAt (writeWord s.mem (wordAt t i) w) root π = tableAt s.mem root π := by
  refine PathTree.walk_congr (d := 3) ?_ π hl
  intro ρ n hρ hn j
  obtain ⟨a, ha, rfl, _⟩ := h.node α t (by omega) hα
  obtain ⟨g, hg, rfl, _⟩ := h.node ρ n (by omega) hn
  refine child_congr (writeWord_of_ne (fun he => ?_) w)
  obtain ⟨rfl, _⟩ := wordAt_inj hg ha he
  have := h.tree ρ α _ (by omega) (by omega) hn hα
  rw [this] at hρ
  omega

theorem treeInv_writeLeaf {root : U64} {s : Vmm} (h : TreeInv root s) {α : List Idx} {t : U64}
    (hα : tableAt s.mem root α = some t) (hlen : α.length = 3) (i : Idx) (w : U64) :
    TreeInv root { s with mem := writeWord s.mem (wordAt t i) w } := by
  have hsame := tableAt_writeLeaf h hα hlen i w
  refine ⟨fun π n hl hπ => h.node π n hl ((hsame π hl).symm.trans hπ), ?_⟩
  intro π ρ n hπ hρ h1 h2
  exact h.tree π ρ n hπ hρ ((hsame π hπ).symm.trans h1) ((hsame ρ hρ).symm.trans h2)

theorem leafWord_inj {root : U64} {s : Vmm} (h : TreeInv root s) {v w t u : U64}
    (hv : tableAt s.mem root (path v) = some t) (hw : tableAt s.mem root (path w) = some u)
    (he : wordAt t (idx v 1) = wordAt u (idx w 1)) : path v = path w ∧ idx v 1 = idx w 1 := by
  have hl := length_path v
  have hl' := length_path w
  obtain ⟨a, ha, rfl, _⟩ := h.node _ t (by omega) hv
  obtain ⟨b, hb, rfl, _⟩ := h.node _ u (by omega) hw
  obtain ⟨rfl, hi⟩ := wordAt_inj ha hb he
  exact ⟨h.tree _ _ _ (by omega) (by omega) hv hw, hi⟩

end AionOs
