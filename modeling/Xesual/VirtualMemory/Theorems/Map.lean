import Xesual.VirtualMemory.Tree
import Xesual.VirtualMemory.Theorems.Entry

namespace VirtualMemoryManagement

variable {π : Platform} {s s' : State} {root t : PageTableRef} {p q : List (BitVec 9)} {i j : BitVec 9}
variable {v w : BitVec 64} {e : PageTableEntry} {x r : PageTableRef} {n n' : Nat}

theorem Platform.Fresh.mono (h : π.Fresh n') (hn : n ≤ n') : π.Fresh n where
  nonNull  := fun k hk => h.nonNull k (by omega)
  distinct := fun k hk l hl => h.distinct k (by omega) l (by omega)
  aligned  := fun k hk => h.aligned k (by omega)
  low      := fun k hk => h.low k (by omega)

theorem Clean.zero : Clean .zero := ⟨rfl, nofun⟩

theorem Clean.mapTo (h : Clean e) : Clean (e.mapTo w) := ⟨h.reserved, fun _ => rfl⟩

theorem child_zero : π.child .zero = none := rfl

theorem entry_of_table (h : s.table π root p = some t) : s.entry π root p i = s.tables t i := by
  simp [State.entry, h]

theorem entry_of_none (h : s.table π root p = none) : s.entry π root p i = .zero := by
  simp [State.entry, h]

section Allocate

-- All decoders of the entry agree, as the page lies in the lower 2 GiB.
theorem refer_agree (h : π.Fresh (n + 1)) (he : Clean e) :
    (e.refer (π.toPhysical (π.page n))).frame = π.toPhysical (π.page n) ∧
    π.pe2v (e.refer (π.toPhysical (π.page n))) = π.page n ∧
    π.tableAddress (e.refer (π.toPhysical (π.page n))) = π.page n := by
  have low := h.low n (by omega)
  have a := agree_of_lt (π := π) (h.aligned n (by omega)) low he.reserved
  have hp : (e.refer (π.toPhysical (π.page n))).physicalAddress =
      (e.setPhysicalAddress (π.toPhysical (π.page n))).physicalAddress := rfl
  refine ⟨?_, ?_, ?_⟩
  case refine_1 => exact (PageTableEntry.frame_congr (by rfl) hp).trans a.frame
  case refine_2 => rw [pe2v_congr hp, a.pe2v, toVirtual_toPhysical]
  case refine_3 => rw [tableAddress_congr hp, a.tableAddress, toVirtual_toPhysical]

theorem tables_allocatePageTableForTableEntry (h : π.Fresh (s.allocated + 1)) (he : Clean (s.tables t i)) :
    (allocatePageTableForTableEntry π s t i).fst.tables = Trie.attach s.tables t i
      ((s.tables t i).refer (π.toPhysical (π.page s.allocated))) (π.page s.allocated) (fun _ => .zero) := by
  have h0 := h.nonNull s.allocated (by omega)
  have ⟨_, _, ha⟩ := refer_agree h he
  simp only [allocatePageTableForTableEntry, allocatePageForTableEntry, allocatePage, h0, ↓reduceIte,
    State.write, State.clear, Trie.write_self, ha, Trie.attach]

-- The page is counted in any case, also if the allocation fails.
theorem allocated_allocatePageTableForTableEntry :
    (allocatePageTableForTableEntry π s t i).fst.allocated = s.allocated + 1 := by
  by_cases h : π.page s.allocated = 0 <;>
    simp only [allocatePageTableForTableEntry, allocatePageForTableEntry, allocatePage, h] <;> rfl

end Allocate

namespace Tree

-- A page that has not been allocated yet does not belong to the tree.
theorem table_ne_page (tree : Tree π s root) (h : π.Fresh (s.allocated + 1)) (hq : q.length ≤ 3) :
    s.table π root q ≠ some (π.page s.allocated) := by
  intro ht
  have ⟨k, hk, he⟩ := tree.allocated hq ht
  have := h.distinct k (by omega) s.allocated (by omega) he
  omega

theorem attachable (tree : Tree π s root) (h : π.Fresh (s.allocated + 1)) (ht : s.table π root p = some t)
    (hp : p.length < 3) (hv : (s.tables t i).isPresent = false) :
    Trie.Attachable π.child s.tables root 3 p t i ((s.tables t i).refer (π.toPhysical (π.page s.allocated)))
      (π.page s.allocated) (fun _ => .zero) where
  unshared := tree.unshared
  path     := ht
  length   := hp
  vacant   := by simp [Platform.child, hv]
  entry    := by
    have ⟨_, ha, _⟩ := refer_agree h (tree.clean hp.le ht i)
    rw [Platform.child, ha]
    rfl
  fresh    := fun _ hq => tree.table_ne_page h hq
  blank    := fun _ => child_zero

-- What a step of `map` to the next level does to the tree: it may add the table at the end of the path `p`.
structure Step (π : Platform) (root : PageTableRef) (p : List (BitVec 9)) (s s' : State) : Prop where
  tree      : Tree π s' root
  table     : ∀ q, q ≠ p → q.length ≤ 3 → s'.table π root q = s.table π root q
  entry     : ∀ q i, q.length = 3 → s'.entry π root q i = s.entry π root q i
  allocated : s.allocated ≤ s'.allocated

-- The entries of the tree after a table has been attached.
theorem attach_cases (ha : Trie.Attachable π.child s.tables root 3 p t i e r fun _ => .zero)
    (hs : s'.tables = Trie.attach s.tables t i e r fun _ => .zero) (hq : q.length ≤ 3)
    (hx : s'.table π root q = some x) (j : BitVec 9) :
    s'.tables x j = .zero ∨ s'.tables x j = e ∨ (s.table π root q = some x ∧ s'.tables x j = s.tables x j) := by
  rw [State.table, hs, ha.descend hq] at hx
  rw [hs]
  split at hx
  case isTrue =>
    cases hx
    exact .inl (by rw [Trie.attach_new])
  case isFalse =>
    have hn : x ≠ r := fun he => ha.fresh q hq (he ▸ hx)
    rw [Trie.attach_of_ne hn]
    by_cases he : x = t ∧ j = i
    case pos => exact .inr <| .inl (by rw [he.left, he.right, Trie.write_self])
    case neg => exact .inr <| .inr ⟨hx, Trie.write_of_ne (not_and_or.mp he)⟩

-- The new table is empty, and the entry that refers to it is not one of level 1.
theorem entry_attach (ha : Trie.Attachable π.child s.tables root 3 p t i e r fun _ => .zero)
    (hs : s'.tables = Trie.attach s.tables t i e r fun _ => .zero) (hq : q.length = 3) :
    s'.entry π root q j = s.entry π root q j := by
  have hd : s'.table π root q = if q = p ++ [i] then some r else s.table π root q := by
    rw [State.table, hs, ha.descend hq.le, State.table]
  split at hd
  case isTrue he =>
    have hn : s.table π root q = none := by
      rw [he, State.table, Trie.descend_concat, ha.path, Option.bind_some, ha.vacant]
    rw [entry_of_table hd, entry_of_none hn, hs, Trie.attach_new]
  case isFalse he =>
    cases hx : s.table π root q
    case none   => rw [entry_of_none (hd.trans hx), entry_of_none hx]
    case some x =>
      have hn : x ≠ r := fun he => ha.fresh q hq.le (he ▸ hx)
      have hxt : x ≠ t := by
        intro he
        cases ha.unshared hq.le ha.length.le (he ▸ hx) ha.path
        exact absurd hq ha.length.ne
      rw [entry_of_table (hd.trans hx), entry_of_table hx, hs, Trie.attach_of_ne hn,
        Trie.write_of_ne (.inl hxt)]

theorem attach (tree : Tree π s root) (h : π.Fresh (s.allocated + 1)) (ht : s.table π root p = some t)
    (hp : p.length < 3) (hv : (s.tables t i).isPresent = false) :
    Step π root (p ++ [i]) s (allocatePageTableForTableEntry π s t i).fst := by
  have ha := tree.attachable h ht hp hv
  have hc := tree.clean hp.le ht i
  have ⟨hf, hpe, _⟩ := refer_agree h hc
  have htables := tables_allocatePageTableForTableEntry h hc
  have hallocated := allocated_allocatePageTableForTableEntry (π := π) (s := s) (t := t) (i := i)
  generalize (allocatePageTableForTableEntry π s t i).fst = s' at htables hallocated
  have hd {q : List (BitVec 9)} (hq : q.length ≤ 3) : s'.table π root q =
      if q = p ++ [i] then some (π.page s.allocated) else s.table π root q := by
    rw [State.table, htables, ha.descend hq, State.table]
  constructor
  case tree =>
    constructor
    case unshared  => exact htables ▸ ha.unshared_attach
    case allocated =>
      intro q x hq hx
      rw [hd hq] at hx
      rw [hallocated]
      split at hx
      case isTrue  => exact ⟨s.allocated, by simp, Option.some.inj hx⟩
      case isFalse =>
        have ⟨k, hk, he⟩ := tree.allocated hq hx
        exact ⟨k, Nat.lt_succ_of_lt hk, he⟩
    case clean =>
      intro q x hq hx j
      obtain he | he | ⟨hx, he⟩ := attach_cases ha htables hq hx j <;> rw [he]
      case inl     => exact .zero
      case inr.inl => exact ⟨hc.reserved, fun _ => rfl⟩
      case inr.inr => exact tree.clean hq hx j
    case upper =>
      intro q x hq hx j
      obtain he | he | ⟨hx, he⟩ := attach_cases ha htables hq.le hx j <;> rw [he]
      case inl     => exact nofun
      case inr.inl => exact fun _ => by rw [hpe, hf, toVirtual_toPhysical]
      case inr.inr => exact tree.upper hq hx j
  case table     => exact fun q hne hq => by rw [hd hq, if_neg hne]
  case entry     => exact fun q j hq => entry_attach ha htables hq
  case allocated => exact hallocated ▸ Nat.le_succ _

theorem Step.refl (tree : Tree π s root) : Step π root p s s :=
  ⟨tree, fun _ _ _ => rfl, fun _ _ _ => rfl, le_rfl⟩

-- One step of `map`: the entry at the index `i` of the table at the end of the path `p` is followed.
theorem follow (tree : Tree π s root) (ht : s.table π root p = some t) (hp : p.length < 3)
    (h : π.Fresh (nextLevel π s t i).fst.allocated) : Step π root (p ++ [i]) s (nextLevel π s t i).fst ∧
    (nextLevel π s t i).fst.table π root (p ++ [i]) = some (nextLevel π s t i).snd := by
  cases hv : (s.tables t i).isPresent <;>
    simp only [nextLevel, hv, Bool.not_true, Bool.not_false, Bool.false_eq_true, ↓reduceIte] at h ⊢
  case true =>
    refine ⟨.refl tree, ?_⟩
    rw [State.table, Trie.descend_concat, show Trie.descend _ _ _ _ = some t from ht]
    simp [Platform.child, hv]
  case false =>
    rw [allocated_allocatePageTableForTableEntry] at h
    refine ⟨tree.attach h ht hp hv, ?_⟩
    have ha := tree.attachable h ht hp hv
    have hc := tree.clean hp.le ht i
    have ⟨_, hpe, _⟩ := refer_agree h hc
    have hn : t ≠ π.page s.allocated := fun he => ha.fresh p hp.le (he ▸ ht)
    have hl : (p ++ [i]).length ≤ 3 := by rw [List.length_append]; exact hp
    rw [State.table, tables_allocatePageTableForTableEntry h hc, ha.descend hl, if_pos rfl,
      Trie.attach_of_ne hn, Trie.write_self, hpe]

-- Writing an entry of a table of level 1.
theorem write (tree : Tree π s root) (ht : s.table π root p = some t) (hp : p.length = 3) (he : Clean e) :
    Tree π (s.write t i e) root := by
  have hd {q : List (BitVec 9)} (hq : q.length ≤ 3) :
      (s.write t i e).table π root q = s.table π root q :=
    tree.unshared.descend_write ht hp hq
  constructor
  case unshared  => exact tree.unshared.write ht hp
  case allocated => exact fun hq hx => tree.allocated hq (hd hq ▸ hx)
  case clean =>
    intro q x hq hx j
    rw [hd hq] at hx
    by_cases h : x = t ∧ j = i
    case pos => simpa [State.write, h.left, h.right] using he
    case neg => simpa [State.write, Trie.write_of_ne (not_and_or.mp h)] using tree.clean hq hx j
  case upper =>
    intro q x hq hx j
    rw [hd hq.le] at hx
    have h : x ≠ t := by
      intro h
      cases tree.unshared hq.le hp.le (h ▸ hx) ht
      omega
    simpa only [State.write, Trie.write_of_ne (.inl h)] using tree.upper hq hx j

theorem entry_write (tree : Tree π s root) (ht : s.table π root p = some t) (hp : p.length = 3)
    (hq : q.length = 3) :
    (s.write t i e).entry π root q j = if q = p ∧ j = i then e else s.entry π root q j := by
  have hd : (s.write t i e).table π root q = s.table π root q := tree.unshared.descend_write ht hp hq.le
  cases hx : s.table π root q
  case none =>
    have h : ¬(q = p ∧ j = i) := fun h => by simp [← h.left, hx] at ht
    rw [if_neg h, entry_of_none hx, entry_of_none (hd.trans hx)]
  case some x =>
    rw [entry_of_table hx, entry_of_table (hd.trans hx)]
    simp only [State.write]
    by_cases h : q = p ∧ j = i
    case pos =>
      cases Option.some.inj <| (h.left ▸ hx).symm.trans ht
      rw [if_pos h, h.right, Trie.write_self]
    case neg =>
      -- As the tree is unshared, another path leads to another table.
      refine (Trie.write_of_ne ?_).trans (if_neg h).symm
      by_cases hj : j = i
      case pos => exact .inl fun he => h ⟨tree.unshared hq.le hp.le (he ▸ hx) ht, hj⟩
      case neg => exact .inr hj

end Tree

section Allocated

theorem allocated_nextLevel :
    s.allocated ≤ (nextLevel π s t i).fst.allocated ∧ (nextLevel π s t i).fst.allocated ≤ s.allocated + 1 := by
  rw [nextLevel]
  split
  case isTrue  => simp [allocated_allocatePageTableForTableEntry]
  case isFalse => simp

theorem allocated_le_nextLevel : s.allocated ≤ (nextLevel π s t i).fst.allocated :=
  allocated_nextLevel.left

theorem allocated_le_map : s.allocated ≤ (map π s root v w).allocated :=
  allocated_le_nextLevel.trans <| allocated_le_nextLevel.trans allocated_le_nextLevel

-- A call of `map` needs at most three pages.
theorem allocated_map_le : (map π s root v w).allocated ≤ s.allocated + 3 :=
  calc (map π s root v w).allocated
    _ ≤ _ + 1           := allocated_nextLevel.right
    _ ≤ _ + 1 + 1       := Nat.succ_le_succ allocated_nextLevel.right
    _ ≤ s.allocated + 3 := Nat.succ_le_succ <| Nat.succ_le_succ allocated_nextLevel.right

end Allocated

-- The way to the table of level 1 may add tables to the tree, but does not change the entries of level 1.
theorem Tree.of_level1Table (tree : Tree π s root) (h : π.Fresh (level1Table π s root v).fst.allocated) :
    Tree π (level1Table π s root v).fst root ∧
    (level1Table π s root v).fst.table π root (path v) = some (level1Table π s root v).snd ∧
    ∀ q i, q.length = 3 → (level1Table π s root v).fst.entry π root q i = s.entry π root q i := by
  have h₀ : s.table π root [] = some root := rfl
  have h₂ := h.mono (n := (nextLevel π _ _ _).fst.allocated) allocated_le_nextLevel
  have h₁ := h₂.mono (n := (nextLevel π _ _ _).fst.allocated) allocated_le_nextLevel
  have ⟨s₁, h₁⟩ := tree.follow h₀ (by decide) h₁
  have ⟨s₂, h₂⟩ := s₁.tree.follow h₁ (by simp) h₂
  have ⟨s₃, h₃⟩ := s₂.tree.follow h₂ (by simp) h
  exact ⟨s₃.tree, h₃, fun q i hq => (s₃.entry q i hq).trans <| (s₂.entry q i hq).trans (s₁.entry q i hq)⟩

-- `map` preserves the tree, and changes exactly one of the entries of level 1.
theorem Tree.of_map (tree : Tree π s root) (h : π.Fresh (map π s root v w).allocated) :
    Tree π (map π s root v w) root ∧ ∀ q i, q.length = 3 → (map π s root v w).entry π root q i =
      if q = path v ∧ i = level1Index v then (s.entry π root q i).mapTo w else s.entry π root q i := by
  have ⟨tree, ht, he⟩ := tree.of_level1Table (v := v) h
  simp only [map]
  generalize level1Table π s root v = r at tree ht he
  refine ⟨tree.write ht rfl (tree.clean (by simp [path]) ht _).mapTo, ?_⟩
  intro q i hq
  rw [tree.entry_write ht rfl hq]
  split
  case isFalse   => exact he q i hq
  case isTrue hi => rw [← entry_of_table ht, hi.left, hi.right, he _ _ rfl]

-- If the table of the next level is there already then no page is needed.
theorem nextLevel_of_table (ht : s.table π root p = some t) (hx : s.table π root (p ++ [i]) = some x) :
    nextLevel π s t i = (s, x) := by
  rw [State.table, Trie.descend_concat, show Trie.descend _ _ _ _ = some t from ht] at hx
  have ⟨hp, hx⟩ := Option.ite_none_right_eq_some.mp hx
  simp [nextLevel, hp, ← Option.some.inj hx]

theorem level1Table_of_table (hx : s.table π root (path v) = some x) : level1Table π s root v = (s, x) := by
  have prior {q : List (BitVec 9)} {i : BitVec 9} {y : PageTableRef} (h : s.table π root (q ++ [i]) = some y) :
      ∃ t, s.table π root q = some t := by
    rw [State.table, Trie.descend_concat] at h
    have ⟨t, ht, _⟩ := Option.bind_eq_some_iff.mp h
    exact ⟨t, ht⟩
  have ⟨t₂, h₂⟩ := prior (q := [level4Index v, level3Index v]) hx
  have ⟨t₃, h₃⟩ := prior (q := [level4Index v]) h₂
  simp only [level1Table, nextLevel_of_table (p := []) rfl h₃, nextLevel_of_table h₃ h₂, nextLevel_of_table h₂ hx]

theorem allocated_map_of_table (hx : s.table π root (path v) = some x) :
    (map π s root v w).allocated = s.allocated := by
  simp only [map, level1Table_of_table hx, State.write]

-- After a call of `map`, the table of level 1 is there.
theorem Tree.table_map (tree : Tree π s root) (h : π.Fresh (map π s root v w).allocated) :
    (map π s root v w).table π root (path v) = some (level1Table π s root v).snd := by
  have ⟨tree, ht, _⟩ := tree.of_level1Table (v := v) h
  exact (tree.unshared.descend_write ht rfl (by simp [path])).trans ht

end VirtualMemoryManagement
