import Xesual.VirtualMemory.Kernel
import Xesual.VirtualMemory.Theorems.Walk

namespace VirtualMemoryManagement

variable {π : Platform} {s : State} {root t : PageTableRef} {p q : List (BitVec 9)} {i : BitVec 9}
variable {v w : BitVec 64} {calls : List Mapping}

section PageLoop

variable {fuel : Nat} {start finish x y : BitVec 64} {l : List (BitVec 64)}

-- If the increment of `i` overflows while the loop is still running, then the loop runs forever.
theorem pageLoop_eq_none (hx : x.toNat ≤ y.toNat) (hd : 4096 ∣ y.toNat - x.toNat) (hy : y < finish)
    (ho : 2 ^ 64 ≤ y.toNat + 4096) : pageLoop fuel x finish = none := by
  induction fuel generalizing x
  case zero => rfl
  case succ ih =>
    have hl : x < finish := by simp only [BitVec.lt_def] at hy ⊢; omega
    have hn : (x + 4096).toNat = (x.toNat + 4096) % 2 ^ 64 := by simp [BitVec.toNat_add]
    rw [pageLoop, if_pos hl, Option.map_eq_none_iff]
    refine ih ?_ ?_
    all_goals
      rw [hn]
      have := y.isLt
      by_cases h : x.toNat = y.toNat <;> omega

theorem length_pageLoop_lt (h : pageLoop fuel start finish = some l) : l.length < fuel := by
  induction fuel generalizing start l
  case zero => contradiction
  case succ ih =>
    rw [pageLoop] at h
    split at h
    case isFalse =>
      cases h
      exact Nat.zero_lt_succ _
    case isTrue =>
      have ⟨_, hm, he⟩ := Option.map_eq_some_iff.mp h
      subst he
      exact Nat.succ_lt_succ (ih hm)

theorem mem_pageLoop_iff (h : pageLoop fuel start finish = some l) :
    x ∈ l ↔ start ≤ x ∧ 4096 ∣ x.toNat - start.toNat ∧ x < finish := by
  induction fuel generalizing start l
  case zero => contradiction
  case succ fuel ih =>
    rw [pageLoop] at h
    split at h
    case isFalse hl =>
      cases h
      simp only [List.not_mem_nil, false_iff, BitVec.lt_def, BitVec.le_def] at hl ⊢
      omega
    case isTrue hl =>
      have ho : start.toNat + 4096 < 2 ^ 64 := by
        by_contra ho
        have hn : pageLoop (fuel + 1) start finish = none := pageLoop_eq_none le_rfl (by simp) hl (by omega)
        rw [pageLoop, if_pos hl] at hn
        exact absurd (h.symm.trans hn) (by simp)
      have hn : (start + 4096).toNat = start.toNat + 4096 := by
        simp only [BitVec.toNat_add, BitVec.ofNat_eq_ofNat, BitVec.toNat_ofNat]
        omega
      have ⟨_, hm, he⟩ := Option.map_eq_some_iff.mp h
      subst he
      rw [List.mem_cons, ih hm]
      simp only [← BitVec.toNat_inj, BitVec.lt_def, BitVec.le_def, hn] at hl ⊢
      omega

-- The loop terminates if the last increment of `i` does not overflow.
theorem pageLoop_isSome (h : finish.toNat + 4095 < 2 ^ 64) (hf : finish.toNat - start.toNat ≤ 4096 * fuel) :
    (pageLoop (fuel + 1) start finish).isSome := by
  induction fuel generalizing start
  case zero =>
    have hl : ¬start < finish := by simp only [BitVec.lt_def]; omega
    rw [pageLoop, if_neg hl]
    rfl
  case succ ih =>
    rw [pageLoop]
    split
    case isFalse => rfl
    case isTrue hl =>
      rw [BitVec.lt_def] at hl
      have hs : (start + 4096).toNat = start.toNat + 4096 := by
        simp only [BitVec.toNat_add, BitVec.ofNat_eq_ofNat, BitVec.toNat_ofNat]
        omega
      rw [Option.isSome_map]
      exact ih (by omega)

end PageLoop

section Preallocate

variable {is : List (BitVec 9)}

theorem allocated_preallocate :
    s.allocated ≤ (preallocate π root s i).allocated ∧ (preallocate π root s i).allocated ≤ s.allocated + 1 := by
  rw [preallocate]
  split
  case isTrue  => simp [allocated_allocatePageTableForTableEntry]
  case isFalse => simp

theorem allocated_foldl_preallocate : s.allocated ≤ (is.foldl (preallocate π root) s).allocated ∧
    (is.foldl (preallocate π root) s).allocated ≤ s.allocated + is.length := by
  induction is generalizing s
  case nil => simp
  case cons i is ih =>
    rw [List.foldl_cons, List.length_cons]
    constructor
    case left  => exact allocated_preallocate.left.trans ih.left
    case right =>
      have : (preallocate π root s i).allocated ≤ s.allocated + 1 := allocated_preallocate.right
      have := ih (s := preallocate π root s i) |>.right
      omega

theorem Tree.of_preallocate (tree : Tree π s root) (h : π.Fresh (preallocate π root s i).allocated) :
    Step π root [i] s (preallocate π root s i) := by
  cases hv : (s.tables root i).isPresent <;>
    simp only [preallocate, hv, Bool.not_true, Bool.not_false, Bool.false_eq_true,
      ↓reduceIte] at h ⊢
  case true  => exact .refl tree
  case false =>
    rw [allocated_allocatePageTableForTableEntry] at h
    exact tree.attach (p := []) h rfl (by decide) hv

theorem isPresent_iff_table : (s.tables root i).isPresent ↔ (s.table π root [i]).isSome := by
  simp [State.table, Trie.descend, Platform.child]

theorem preallocate_eq : preallocate π root s i = (nextLevel π s root i).fst := rfl

theorem Tree.isPresent_preallocate {j : BitVec 9} (tree : Tree π s root)
    (h : π.Fresh (preallocate π root s i).allocated) :
    ((preallocate π root s i).tables root j).isPresent ↔ j = i ∨ (s.tables root j).isPresent := by
  have ⟨step, ht⟩ := tree.follow (p := []) rfl (by decide) h
  simp only [isPresent_iff_table (π := π), preallocate_eq]
  by_cases hj : j = i
  case pos =>
    subst hj
    simp [show (nextLevel π s root j).fst.table π root [j] = _ from ht]
  case neg => simp [hj, step.table [j] (by simpa using hj)]

-- The allocation of tables in advance does not map any pages.
theorem Tree.of_foldl_preallocate (tree : Tree π s root)
    (h : π.Fresh (is.foldl (preallocate π root) s).allocated) :
    Tree π (is.foldl (preallocate π root) s) root ∧ ∀ q i, q.length = 3 →
      (is.foldl (preallocate π root) s).entry π root q i = s.entry π root q i := by
  induction is generalizing s
  case nil => exact ⟨tree, fun _ _ _ => rfl⟩
  case cons i is ih =>
    have step := tree.of_preallocate (i := i) (h.mono allocated_foldl_preallocate.left)
    have ⟨tree, he⟩ := ih step.tree h
    exact ⟨tree, fun q j hq => (he q j hq).trans (step.entry q j hq)⟩

theorem Tree.isPresent_foldl_preallocate {j : BitVec 9} (tree : Tree π s root)
    (h : π.Fresh (is.foldl (preallocate π root) s).allocated) :
    ((is.foldl (preallocate π root) s).tables root j).isPresent ↔ j ∈ is ∨ (s.tables root j).isPresent := by
  induction is generalizing s
  case nil => simp
  case cons i is ih =>
    have h' := h.mono (n := (preallocate π root s i).allocated) allocated_foldl_preallocate.left
    rw [List.foldl_cons, ih (tree.of_preallocate h').tree h, tree.isPresent_preallocate h', List.mem_cons,
      or_assoc, or_left_comm]

theorem mem_higherHalfIndices_iff : i ∈ higherHalfIndices ↔ 256 ≤ i.toNat := by
  have := i.isLt
  simp only [higherHalfIndices, List.mem_map, List.mem_range, ← BitVec.toNat_inj, BitVec.toNat_ofNat]
  constructor
  case mp =>
    intro ⟨k, hk, he⟩
    omega
  case mpr =>
    intro h
    exact ⟨i.toNat - 256, by omega, by omega⟩

end Preallocate

section Copy

variable {s' : State} {r x : PageTableRef}

-- A table that does not belong to the tree has become a copy of its root.
variable (fresh : ∀ q : List (BitVec 9), q.length ≤ 3 → s.table π root q ≠ some r)
variable (hs : s'.tables = Function.update s.tables r (s.tables root))
include fresh hs

-- The entries of a table of the copy are the ones of the table with the same path of the original.
theorem table_of_copy (hq : q.length ≤ 3) (hx : s'.table π r q = some x) :
    ∃ y, s.table π root q = some y ∧ s'.tables x = s.tables y ∧ (x = r ∨ x = y) := by
  cases q
  case nil =>
    cases hx
    exact ⟨root, rfl, by rw [hs, Function.update_self], .inl rfl⟩
  case cons =>
    rw [State.table, hs, Trie.descend_copy fresh hq] at hx
    have hne : x ≠ r := fun he => fresh _ hq (he ▸ hx)
    exact ⟨x, hx, by rw [hs, Function.update_of_ne hne], .inr rfl⟩

theorem entry_of_copy (hq : q.length = 3) : s'.entry π r q i = s.entry π root q i := by
  cases q
  case nil => contradiction
  case cons k q =>
    have hd : s'.table π r (k :: q) = s.table π root (k :: q) := by
      rw [State.table, hs, Trie.descend_copy fresh hq.le, State.table]
    cases hx : s.table π root (k :: q)
    case none   => rw [entry_of_none hx, entry_of_none (hd.trans hx)]
    case some x =>
      have hne : x ≠ r := fun he => fresh _ hq.le (he ▸ hx)
      rw [entry_of_table hx, entry_of_table (hd.trans hx), hs, Function.update_of_ne hne]

end Copy

-- A copy of the root table shares all other tables with the original.
theorem Tree.of_shallowCopy (tree : Tree π s root) (h : π.Fresh (s.allocated + 1)) :
    Tree π (shallowCopy π s root).fst (shallowCopy π s root).snd ∧ ∀ q i, q.length = 3 →
      (shallowCopy π s root).fst.entry π
        (shallowCopy π s root).snd q i = s.entry π root q i := by
  have fresh := fun q hq => tree.table_ne_page (q := q) h hq
  simp only [shallowCopy, allocatePage]
  generalize hs : State.mk _ _ = s'
  have htables : s'.tables = Function.update s.tables (π.page s.allocated) (s.tables root) := by rw [← hs]
  have hallocated : s'.allocated = s.allocated + 1 := by rw [← hs]
  refine ⟨?_, fun q i hq => entry_of_copy fresh htables hq⟩
  constructor
  case unshared  => exact htables ▸ tree.unshared.copy fresh
  case allocated =>
    intro q x hq hx
    obtain ⟨y, hy, _, hxy⟩ := table_of_copy fresh htables hq hx
    rw [hallocated]
    cases hxy
    case inl hxy => exact ⟨s.allocated, Nat.lt_succ_self _, hxy.symm⟩
    case inr hxy =>
      obtain ⟨k, hk, he⟩ := tree.allocated hq hy
      exact ⟨k, Nat.lt_succ_of_lt hk, he.trans hxy.symm⟩
  case clean =>
    intro q x hq hx j
    obtain ⟨y, hy, he, _⟩ := table_of_copy fresh htables hq hx
    exact he ▸ tree.clean hq hy j
  case upper =>
    intro q x hq hx j
    obtain ⟨y, hy, he, _⟩ := table_of_copy fresh htables hq.le hx
    exact he ▸ tree.upper hq hy j

-- A page is mapped by a sequence of calls if it has been mapped before or by one of the calls.
theorem Tree.isPresent_mapAll (tree : Tree π s root) (h : π.Fresh (mapAll π s root calls).allocated) :
    ((mapAll π s root calls).entry π root (path v) (level1Index v)).isPresent ↔
      (s.entry π root (path v) (level1Index v)).isPresent ∨
      ∃ c ∈ calls, pageNumber c.virtualAddress = pageNumber v := by
  induction calls using List.reverseRecOn
  case nil => simp [mapAll]
  case append_singleton calls c ih =>
    rw [mapAll_concat] at h ⊢
    have h' := h.mono allocated_le_map
    rw [(tree.of_mapAll h').entry_map h]
    split
    case isTrue hc  => simp [PageTableEntry.mapTo, hc]
    case isFalse hc => simp [ih h', or_and_right, exists_or, hc]

theorem path_eq_iff : path v = path w ↔ v.toNat / 2 ^ 21 % 2 ^ 27 = w.toNat / 2 ^ 21 % 2 ^ 27 := by
  simp only [path, List.cons.injEq, and_true, level4Index_eq, level3Index_eq, level2Index_eq, ← BitVec.toNat_inj,
    BitVec.extractLsb'_toNat, Nat.shiftRight_eq_div_pow]
  omega

theorem higherHalf_congr (h : pageNumber v = pageNumber w) : HigherHalf v ↔ HigherHalf w := by
  have hb (x : BitVec 64) : (pageNumber x).getLsbD 35 = x.getLsbD 47 := by simp [pageNumber]
  rw [HigherHalf, HigherHalf, ← hb, ← hb, h]

section Kernel

variable {fuel : Nat} {boot : Boot} {tables : PageTableRef → BitVec 9 → PageTableEntry}

-- The page table of the kernel is built by calls of `map`, followed by the allocation of tables in advance.
theorem initializeVirtualMemory_eq_some_iff :
    initializeVirtualMemory fuel π ⟨tables, 0⟩ boot = some (s, root) ↔
    ∃ direct image, pageLoop fuel 0 boot.maxPhysicalMemory = some direct ∧
      pageLoop fuel boot.KernelStart boot.KernelEnd = some image ∧
      root = (build π tables (boot.mappings π direct image)).snd ∧
      s = higherHalfIndices.foldl (preallocate π root) (build π tables (boot.mappings π direct image)).fst := by
  simp only [initializeVirtualMemory, Option.bind_eq_bind, Option.bind_eq_some_iff, Option.some.injEq,
    Prod.mk.injEq, mapAll_append]
  generalize higherHalfIndices = is
  constructor
  case mp =>
    intro ⟨direct, hd, image, hi, hs, hr⟩
    subst hs hr
    exact ⟨direct, image, hd, hi, rfl, rfl⟩
  case mpr =>
    intro ⟨direct, image, hd, hi, hr, hs⟩
    subst hs hr
    exact ⟨direct, hd, image, hi, rfl, rfl⟩

theorem initializeVirtualMemory_isSome (hd : (pageLoop fuel 0 boot.maxPhysicalMemory).isSome)
    (hi : (pageLoop fuel boot.KernelStart boot.KernelEnd).isSome) :
    (initializeVirtualMemory fuel π ⟨tables, 0⟩ boot).isSome := by
  have ⟨direct, hd⟩ := Option.isSome_iff_exists.mp hd
  have ⟨image, hi⟩ := Option.isSome_iff_exists.mp hi
  simp only [initializeVirtualMemory, hd, hi, Option.bind_eq_bind, Option.bind_some, Option.isSome_some]

theorem tree_build (h : π.Fresh (build π tables calls).fst.allocated) :
    Tree π (build π tables calls).fst (build π tables calls).snd := by
  have h₁ := h.mono (n := (allocateRootPageTable π ⟨tables, 0⟩).fst.allocated) allocated_le_mapAll
  rw [allocated_allocateRootPageTable] at h₁
  exact (tree_allocateRootPageTable h₁).left.of_mapAll h

theorem isPresent_build (h : π.Fresh (build π tables calls).fst.allocated) :
    ((build π tables calls).fst.entry π (build π tables calls).snd (path v) (level1Index v)).isPresent ↔
      ∃ c ∈ calls, pageNumber c.virtualAddress = pageNumber v := by
  have h₁ := h.mono (n := (allocateRootPageTable π ⟨tables, 0⟩).fst.allocated) allocated_le_mapAll
  rw [allocated_allocateRootPageTable] at h₁
  have ⟨tree, hz⟩ := tree_allocateRootPageTable h₁
  refine (tree.isPresent_mapAll h).trans ?_
  simp [hz, PageTableEntry.zero]

-- The pages that are mapped by the page table of the kernel.
theorem initializeVirtualMemory_spec
    (h : initializeVirtualMemory fuel π ⟨tables, 0⟩ boot = some (s, root)) (hf : π.Fresh s.allocated) :
    Tree π s root ∧ ∀ v, (s.entry π root (path v) (level1Index v)).isPresent ↔ boot.Maps π v := by
  have ⟨direct, image, hd, hi, hr, hs⟩ := initializeVirtualMemory_eq_some_iff.mp h
  generalize higherHalfIndices = is at hs
  subst hs hr
  have hb := hf.mono (n := (build π _ _).fst.allocated) allocated_foldl_preallocate.left
  have ⟨tree, he⟩ := (tree_build hb).of_foldl_preallocate hf
  refine ⟨tree, fun v => ?_⟩
  rw [he _ _ rfl, isPresent_build hb]
  have hle (i : BitVec 64) : 0#64 ≤ i := by simp [BitVec.le_def]
  simp [Boot.mappings, or_and_right, exists_or, Boot.Maps, mem_pageLoop_iff hd, mem_pageLoop_iff hi, hle,
    and_assoc]

-- The translation by the page table of the kernel is the one of the calls of `map`, and the root table has an
-- entry for every part of the higher half.
theorem walk_initializeVirtualMemory
    (h : initializeVirtualMemory fuel π ⟨tables, 0⟩ boot = some (s, root)) (hf : π.Fresh s.allocated) :
    ∃ direct image, pageLoop fuel 0 boot.maxPhysicalMemory = some direct ∧
      pageLoop fuel boot.KernelStart boot.KernelEnd = some image ∧
      ((∀ c ∈ boot.mappings π direct image, 4096 ∣ c.toPhysical.toNat ∧ c.toPhysical.toNat < 2 ^ 40) →
        ∀ v, walk π supervisor s root v = (lastMapping (boot.mappings π direct image) v).map (·.toPhysical)) ∧
      ∀ i : BitVec 9, 256 ≤ i.toNat → (s.tables root i).isPresent := by
  have ⟨direct, image, hd, hi, hr, hs⟩ := initializeVirtualMemory_eq_some_iff.mp h
  have hm (i : BitVec 9) := mem_higherHalfIndices_iff (i := i)
  generalize higherHalfIndices = is at hs hm
  subst hs hr
  have hb := hf.mono (n := (build π _ _).fst.allocated) allocated_foldl_preallocate.left
  have tree := tree_build hb
  refine ⟨direct, image, hd, hi, fun hc v => ?_, fun i hl => ?_⟩
  case refine_1 =>
    have ⟨tree', he⟩ := tree.of_foldl_preallocate hf
    rw [← walk_build hb hc, tree'.walk_eq fun _ => supervisor_eq, tree.walk_eq fun _ => supervisor_eq,
      he _ _ rfl]
  case refine_2 => exact (tree.isPresent_foldl_preallocate hf).mpr <| .inl ((hm i).mpr hl)

theorem allocated_initializeVirtualMemory_le
    (h : initializeVirtualMemory fuel π ⟨tables, 0⟩ boot = some (s, root)) : s.allocated ≤ 6 * fuel + 257 := by
  have ⟨direct, image, hd, hi, _, hs⟩ := initializeVirtualMemory_eq_some_iff.mp h
  have hd := length_pageLoop_lt hd
  have hi := length_pageLoop_lt hi
  have hl : higherHalfIndices.length = 256 := by simp [higherHalfIndices]
  rw [hs]
  refine allocated_foldl_preallocate.right.trans ?_
  rw [hl, build]
  refine (Nat.add_le_add_right allocated_mapAll_le _).trans ?_
  simp only [allocated_allocateRootPageTable, Boot.mappings, List.length_append, List.length_map]
  omega

-- If the direct mapping and the kernel image need only one table of level 1 each, then most of the pages are
-- used for the tables that are allocated in advance.
theorem allocated_initializeVirtualMemory_le_of_path
    (h : initializeVirtualMemory fuel π ⟨tables, 0⟩ boot = some (s, root)) (hf : π.Fresh s.allocated)
    (hp : ∀ i < boot.maxPhysicalMemory, path (i + π.HigherHalfDirectMapOffset) = p)
    (hq : ∀ i, boot.KernelStart ≤ i → i < boot.KernelEnd → path i = q) : s.allocated ≤ 263 := by
  have ⟨direct, image, hd, hi, hr, hs⟩ := initializeVirtualMemory_eq_some_iff.mp h
  have hl : higherHalfIndices.length = 256 := by simp [higherHalfIndices]
  generalize higherHalfIndices = is at hs hl
  have hb := hf.mono (n := (build π tables (boot.mappings π direct image)).fst.allocated)
    (hs ▸ allocated_foldl_preallocate.left)
  have hs : s.allocated ≤ (build π tables (boot.mappings π direct image)).fst.allocated + 256 :=
    hs ▸ hl ▸ allocated_foldl_preallocate.right
  simp only [build, Boot.mappings, ← mapAll_append] at hb hs
  have hm := hb.mono (n := (mapAll π _ _ _).allocated) allocated_le_mapAll
  have h₁ := hm.mono (n := (allocateRootPageTable π ⟨tables, 0⟩).fst.allocated) allocated_le_mapAll
  rw [allocated_allocateRootPageTable] at h₁
  have tree := (tree_allocateRootPageTable h₁).left
  have hdirect := tree.allocated_mapAll_of_path (p := p) hm fun c hc => by
    have ⟨i, hi, he⟩ := List.mem_map.mp hc
    exact he ▸ hp i ((mem_pageLoop_iff hd).mp hi).right.right
  have himage := (tree.of_mapAll hm).allocated_mapAll_of_path (p := q) hb fun c hc => by
    have ⟨i, hm, he⟩ := List.mem_map.mp hc
    have ⟨hl, _, hu⟩ := (mem_pageLoop_iff hi).mp hm
    exact he ▸ hq i hl hu
  have hroot : (allocateRootPageTable π ⟨tables, 0⟩).fst.allocated = 1 := allocated_allocateRootPageTable
  omega

theorem allocated_processPageTable_le :
    (processPageTable π s root calls).fst.allocated ≤ s.allocated + 1 + 3 * calls.length :=
  allocated_mapAll_le (s := (shallowCopy π s root).fst)

theorem allocated_le_processPageTable : s.allocated + 1 ≤ (processPageTable π s root calls).fst.allocated :=
  allocated_le_mapAll (s := (shallowCopy π s root).fst)

-- Mapping pages to the lower half does not affect the higher half, which is the one of the kernel.
theorem Tree.of_processPageTable (tree : Tree π s root)
    (hf : π.Fresh (processPageTable π s root calls).fst.allocated)
    (hl : ∀ c ∈ calls, ¬HigherHalf c.virtualAddress) (hv : HigherHalf v) :
    Tree π (processPageTable π s root calls).fst (processPageTable π s root calls).snd ∧
    (((processPageTable π s root calls).fst.entry π (processPageTable π s root calls).snd
      (path v) (level1Index v)).isPresent ↔ (s.entry π root (path v) (level1Index v)).isPresent) := by
  have ⟨tree', he⟩ := tree.of_shallowCopy (hf.mono allocated_le_processPageTable)
  refine ⟨tree'.of_mapAll hf, ?_⟩
  have hn : ¬∃ c ∈ calls, pageNumber c.virtualAddress = pageNumber v :=
    fun ⟨c, hc, h⟩ => hl c hc ((higherHalf_congr h).mpr hv)
  refine (tree'.isPresent_mapAll hf).trans ?_
  rw [he _ _ rfl, or_iff_left hn]

-- An address of the higher half is inaccessible in ring 3 if and only if it is not mapped at all.
theorem walk_user_eq_none_iff (h : initializeVirtualMemory fuel π ⟨tables, 0⟩ boot = some (s, root))
    (hf : π.Fresh (processPageTable π s root calls).fst.allocated)
    (hl : ∀ c ∈ calls, ¬HigherHalf c.virtualAddress) (hv : HigherHalf v) :
    walk π user (processPageTable π s root calls).fst (processPageTable π s root calls).snd v = none ↔
      ¬boot.Maps π v := by
  have ⟨tree, hp⟩ := initializeVirtualMemory_spec h (hf.mono <| Nat.le_of_succ_le allocated_le_processPageTable)
  have ⟨tree', hp'⟩ := tree.of_processPageTable hf hl hv
  rw [tree'.walk_eq fun _ => user_eq, ← hp v, ← hp']
  simp

-- A machine with 2 MiB of memory. The kernel has been loaded near their end, and uses two pages and a half.
def smallMachine : Boot where
  maxPhysicalMemory := 0x200000
  KernelStart       := 0xffffffff80000000
  KernelEnd         := 0xffffffff80002800
  physicalBase      := 0x1f0000
  virtualBase       := 0xffffffff80000000

theorem smallMachine_isSome (tables : PageTableRef → BitVec 9 → PageTableEntry) :
    (initializeVirtualMemory 513 lowMemory ⟨tables, 0⟩ smallMachine).isSome :=
  initializeVirtualMemory_isSome (pageLoop_isSome (by decide) (by decide)) (pageLoop_isSome (by decide) (by decide))

-- The pages of the direct mapping and those of the kernel image.
theorem smallMachine_maps_iff : smallMachine.Maps lowMemory v ↔
    (0x800000000 ≤ (pageNumber v).toNat ∧ (pageNumber v).toNat < 0x800000200) ∨
    (0xffff80000 ≤ (pageNumber v).toNat ∧ (pageNumber v).toNat < 0xffff80003) := by
  simp only [Boot.Maps, smallMachine, lowMemory, BitVec.lt_def, BitVec.le_def, BitVec.ofNat_eq_ofNat,
    BitVec.toNat_ofNat, ← BitVec.toNat_inj]
  constructor
  case mp =>
    rintro (⟨i, hd, hi, hp⟩ | ⟨i, hl, hd, hi, hp⟩)
    case inl =>
      rw [toNat_pageNumber, BitVec.toNat_add, BitVec.toNat_ofNat] at hp
      omega
    case inr =>
      rw [toNat_pageNumber] at hp
      omega
  case mpr =>
    have address (n : Nat) (hn : n < 2 ^ 64) : ∃ i : BitVec 64, i.toNat = n :=
      ⟨.ofNatLT n hn, BitVec.toNat_ofNatLT n hn⟩
    generalize (pageNumber v).toNat = n
    rintro (⟨hl, hu⟩ | ⟨hl, hu⟩)
    case inl =>
      obtain ⟨i, hi⟩ := address (4096 * (n - 0x800000000)) (by omega)
      refine .inl ⟨i, by omega, by omega, ?_⟩
      rw [toNat_pageNumber, BitVec.toNat_add, BitVec.toNat_ofNat]
      omega
    case inr =>
      obtain ⟨i, hi⟩ := address (0xffffffff80000000 + 4096 * (n - 0xffff80000)) (by omega)
      refine .inr ⟨i, by omega, by omega, by omega, ?_⟩
      rw [toNat_pageNumber]
      omega

-- The tables of the kernel.
theorem allocated_smallMachine_le
    (h : initializeVirtualMemory 513 lowMemory ⟨tables, 0⟩ smallMachine = some (s, root)) : s.allocated ≤ 263 := by
  have hle := allocated_initializeVirtualMemory_le h
  refine allocated_initializeVirtualMemory_le_of_path (p := path 0xffff800000000000) (q := path smallMachine.KernelStart)
    h (lowMemory_fresh (by omega)) ?_ ?_
  case refine_1 =>
    intro i hi
    simp only [smallMachine, BitVec.lt_def, BitVec.ofNat_eq_ofNat, BitVec.toNat_ofNat] at hi
    simp only [path_eq_iff, lowMemory, BitVec.ofNat_eq_ofNat, BitVec.toNat_ofNat]
    rw [BitVec.toNat_add, BitVec.toNat_ofNat]
    omega
  case refine_2 =>
    intro i hl hu
    have hs : smallMachine.KernelStart.toNat = 0xffffffff80000000 := rfl
    have hf : smallMachine.KernelEnd.toNat = 0xffffffff80002800 := rfl
    rw [BitVec.le_def, hs] at hl
    rw [BitVec.lt_def, hf] at hu
    rw [path_eq_iff, hs]
    omega

theorem allocated_processPageTable_lt
    (h : initializeVirtualMemory 513 lowMemory ⟨tables, 0⟩ smallMachine = some (s, root)) (hc : calls.length < 40) :
    (processPageTable lowMemory s root calls).fst.allocated < 400 := by
  have hs := allocated_smallMachine_le h
  have : (processPageTable lowMemory s root calls).fst.allocated ≤ s.allocated + 1 + 3 * calls.length :=
    allocated_processPageTable_le
  omega

-- These pages, and those of small processes, lie below the kernel.
theorem page_lt_physicalBase {k : Nat} (h : k < 400) :
    lowMemory.toPhysical (lowMemory.page k) < smallMachine.physicalBase := by
  rw [BitVec.lt_def, toNat_page_lowMemory (by omega)]
  simp only [smallMachine, BitVec.ofNat_eq_ofNat, BitVec.toNat_ofNat]
  omega

-- A process with two pages.
def twoPages : List Mapping :=
  [⟨0x400000, 0x120000⟩, ⟨0x401000, 0x121000⟩]

-- The direct mapping can be accessed in ring 3 up to its last page, but not beyond it.
theorem walk_user_eq_none_iff_smallMachine : ∃ s root,
    initializeVirtualMemory 513 lowMemory ⟨fun _ _ => .zero, 0⟩ smallMachine = some (s, root) ∧
    (∀ k < (processPageTable lowMemory s root twoPages).fst.allocated,
      lowMemory.toPhysical (lowMemory.page k) < smallMachine.physicalBase) ∧
    walk lowMemory user (processPageTable lowMemory s root twoPages).fst
      (processPageTable lowMemory s root twoPages).snd 0xffff8000001ff000 ≠ none ∧
    walk lowMemory user (processPageTable lowMemory s root twoPages).fst
      (processPageTable lowMemory s root twoPages).snd 0xffff800000200000 = none := by
  have ⟨⟨s, root⟩, h⟩ := Option.isSome_iff_exists.mp <| smallMachine_isSome fun _ _ => .zero
  have ha := allocated_processPageTable_lt h (show twoPages.length < 40 by decide)
  have hf := lowMemory_fresh (ha.trans (by decide))
  refine ⟨s, root, h, fun k hk => page_lt_physicalBase (hk.trans ha), ?_, ?_⟩
  case refine_1 =>
    rw [Ne, walk_user_eq_none_iff h hf (by decide) (by decide), smallMachine_maps_iff]
    decide
  case refine_2 =>
    rw [walk_user_eq_none_iff h hf (by decide) (by decide), smallMachine_maps_iff]
    decide

-- The first page of the direct mapping can be accessed in ring 3.
theorem not_walk_user_eq_none : ¬∀ (fuel : Nat) (π : Platform) (tables : PageTableRef → BitVec 9 → PageTableEntry)
    (boot : Boot) (s : State) (root : PageTableRef) (calls : List Mapping) (v : BitVec 64),
    initializeVirtualMemory fuel π ⟨tables, 0⟩ boot = some (s, root) →
    π.Fresh (processPageTable π s root calls).fst.allocated →
    (∀ c ∈ calls, ¬HigherHalf c.virtualAddress) → HigherHalf v →
    walk π user (processPageTable π s root calls).fst (processPageTable π s root calls).snd v = none := by
  intro hn
  have ⟨⟨s, root⟩, h⟩ := Option.isSome_iff_exists.mp <| smallMachine_isSome fun _ _ => .zero
  have ha := allocated_processPageTable_lt h (show ([] : List Mapping).length < 40 by decide)
  have hf := lowMemory_fresh (ha.trans (by decide))
  have ⟨tree, hp⟩ := initializeVirtualMemory_spec h (hf.mono <| Nat.le_of_succ_le allocated_le_processPageTable)
  have ⟨tree', hp'⟩ := tree.of_processPageTable (v := 0xffff800000000000) hf (by simp) (by decide)
  have hw := hn _ _ _ _ s root [] 0xffff800000000000 h hf (by simp) (by decide)
  have hm : smallMachine.Maps lowMemory 0xffff800000000000 := smallMachine_maps_iff.mpr (by decide)
  rw [tree'.walk_eq fun _ => user_eq, if_pos (hp'.mpr <| (hp _).mpr hm)] at hw
  exact Option.some_ne_none _ hw

end Kernel
end VirtualMemoryManagement
