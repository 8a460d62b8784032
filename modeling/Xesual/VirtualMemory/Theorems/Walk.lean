import Xesual.VirtualMemory.Theorems.Map

namespace VirtualMemoryManagement

variable {π : Platform} {s : State} {root t : PageTableRef} {p q : List (BitVec 9)} {i : BitVec 9}
variable {v w : BitVec 64} {e : PageTableEntry} {permits : PageTableEntry → Bool} {calls : List Mapping}

theorem table_append_of_none (h : s.table π root p = none) : s.table π root (p ++ q) = none := by
  rw [State.table, Trie.descend_append, show Trie.descend _ _ _ _ = none from h, Option.bind_none]

section Walk

-- The condition of the walk is met by exactly those clean entries that are present.
variable (ha : ∀ e, Clean e → permits e = e.isPresent)
include ha

-- In the upper levels, the processor finds the same tables as `map`.
theorem Tree.fetch_eq (tree : Tree π s root) (ht : s.table π root p = some t) (hp : p.length < 3) :
    (s.fetch permits t i).map (fun e => π.toVirtual e.frame) = s.table π root (p ++ [i]) := by
  rw [State.table, Trie.descend_concat, show Trie.descend _ _ _ _ = some t from ht, Option.bind_some,
    State.fetch, Platform.child, ha _ (tree.clean hp.le ht i)]
  cases h : (s.tables t i).isPresent
  case false => rfl
  case true  => simp [tree.upper hp ht i h]

-- The walk ends at the entry of level 1, which is taken to be empty if there is no such table.
theorem Tree.walk_eq (tree : Tree π s root) : walk π permits s root v =
    if (s.entry π root (path v) (level1Index v)).isPresent then
      some (s.entry π root (path v) (level1Index v)).frame
    else
      none := by
  have h₀ : s.table π root [] = some root := rfl
  simp only [walk, ← level4Index_eq, ← level3Index_eq, ← level2Index_eq,
    ← level1Index_eq, Option.bind_eq_bind]
  have f₄ := tree.fetch_eq ha (i := level4Index v) h₀ (by decide)
  cases h₄ : s.fetch permits root (level4Index v) <;> rw [h₄] at f₄
  case none =>
    have hn := table_append_of_none (q := [level3Index v, level2Index v]) f₄.symm
    rw [entry_of_none (p := path v) hn]
    rfl
  case some e₄ =>
    have f₃ := tree.fetch_eq ha (i := level3Index v) f₄.symm (by simp)
    rw [Option.bind_some]
    cases h₃ : s.fetch permits (π.toVirtual e₄.frame) (level3Index v) <;> rw [h₃] at f₃
    case none =>
      have hn := table_append_of_none (q := [level2Index v]) f₃.symm
      rw [entry_of_none (p := path v) hn]
      rfl
    case some e₃ =>
      have f₂ := tree.fetch_eq ha (i := level2Index v) f₃.symm (by simp)
      rw [Option.bind_some]
      cases h₂ : s.fetch permits (π.toVirtual e₃.frame) (level2Index v) <;> rw [h₂] at f₂
      case none =>
        rw [entry_of_none (p := path v) f₂.symm]
        rfl
      case some e₂ =>
        have hc := tree.clean (p := path v) (by simp [path]) f₂.symm (level1Index v)
        rw [Option.bind_some, State.fetch, ha _ hc, entry_of_table (p := path v) f₂.symm]
        split <;> rfl

end Walk

theorem supervisor_eq (_ : Clean e) : supervisor e = e.isPresent := rfl

theorem user_eq (h : Clean e) : user e = e.isPresent := by
  cases hp : e.isPresent
  case false => simp [user, hp]
  case true  => simp [user, hp, h.user hp]

-- A new root table has no entries.
theorem tree_allocateRootPageTable (h : π.Fresh (s.allocated + 1)) :
    Tree π (allocateRootPageTable π s).fst (allocateRootPageTable π s).snd ∧
    ∀ q i, (allocateRootPageTable π s).fst.entry π (allocateRootPageTable π s).snd q i = .zero := by
  have h0 := h.nonNull s.allocated (by omega)
  simp only [allocateRootPageTable, allocatePage, h0, ↓reduceIte]
  generalize hs : State.clear _ _ = s'
  have htables (i : BitVec 9) : s'.tables (π.page s.allocated) i = .zero := by simp [← hs, State.clear]
  have hd (q : List (BitVec 9)) : s'.table π (π.page s.allocated) q =
      if q = [] then some (π.page s.allocated) else none := by
    cases q
    case nil  => rfl
    case cons => simp [State.table, Trie.descend, htables, child_zero]
  have hnil {q : List (BitVec 9)} {t : PageTableRef} (ht : s'.table π (π.page s.allocated) q = some t) :
      q = [] ∧ t = π.page s.allocated := by
    rw [hd] at ht
    split at ht
    case isTrue hq => exact ⟨hq, (Option.some.inj ht).symm⟩
    case isFalse   => contradiction
  refine ⟨?_, ?_⟩
  case refine_1 =>
    constructor
    case unshared  => exact fun _ _ _ _ _ hp hq => (hnil hp).left.trans (hnil hq).left.symm
    case allocated => exact fun _ ht => ⟨s.allocated, by simp [← hs, State.clear], (hnil ht).right.symm⟩
    case clean     => exact fun _ ht i => (hnil ht).right ▸ htables i ▸ .zero
    case upper =>
      intro _ _ _ ht i hp
      rw [(hnil ht).right, htables] at hp
      cases hp
  case refine_2 =>
    intro q i
    cases ht : s'.table π (π.page s.allocated) q
    case none   => exact entry_of_none ht
    case some t => rw [entry_of_table ht, (hnil ht).right, htables]

theorem toNat_pageNumber : (pageNumber v).toNat = v.toNat / 4096 % 2 ^ 36 := by
  simp [pageNumber, Nat.shiftRight_eq_div_pow]

theorem pageNumber_eq_iff : pageNumber v = pageNumber w ↔ path v = path w ∧ level1Index v = level1Index w := by
  simp [pageNumber, samePage_iff, path, and_assoc]

-- The address that is stored in an entry of level 1. The entry has room for 40 bits of it.
theorem frame_mapTo (h : Clean e) (ha : 4096 ∣ w.toNat) (hb : w.toNat < 2 ^ 40) : (e.mapTo w).frame = w := by
  have hr : (e.mapTo w).reserved.toNat = 0 := congrArg BitVec.toNat h.reserved
  have hp : (e.mapTo w).physicalAddress.toNat = w.toNat / 4096 % 2 ^ 28 := e.toNat_setPhysicalAddress
  apply BitVec.eq_of_toNat_eq
  rw [PageTableEntry.toNat_frame, hr, hp]
  omega

section MapAll

variable {c : Mapping}

theorem mapAll_concat : mapAll π s root (calls ++ [c]) =
    map π (mapAll π s root calls) root c.virtualAddress c.toPhysical := by
  simp [mapAll]

theorem lastMapping_concat : lastMapping (calls ++ [c]) v =
    if pageNumber c.virtualAddress = pageNumber v then some c else lastMapping calls v := by
  by_cases h : pageNumber c.virtualAddress = pageNumber v <;> simp [lastMapping, h]

theorem mapAll_append {calls' : List Mapping} :
    mapAll π (mapAll π s root calls) root calls' = mapAll π s root (calls ++ calls') := by
  simp [mapAll]

-- If all calls for a page agree about its frame, then it does not matter which of them is the last one.
theorem lastMapping_of_unique (hc : c ∈ calls) (hp : pageNumber c.virtualAddress = pageNumber v)
    (hu : ∀ d ∈ calls, pageNumber d.virtualAddress = pageNumber v → d.toPhysical = c.toPhysical) :
    (lastMapping calls v).map (·.toPhysical) = some c.toPhysical := by
  cases hl : lastMapping calls v
  case none   => simpa using List.find?_eq_none.mp hl c (by simpa using hc) (by simpa using hp)
  case some d =>
    have hd := List.mem_of_find?_eq_some hl
    have hs := List.find?_some hl
    rw [Option.map_some, hu d (by simpa using hd) (by simpa using hs)]

theorem lastMapping_of_none (h : ∀ c ∈ calls, pageNumber c.virtualAddress ≠ pageNumber v) :
    lastMapping calls v = none := by
  simpa [lastMapping] using h

theorem allocated_le_mapAll : s.allocated ≤ (mapAll π s root calls).allocated := by
  induction calls using List.reverseRecOn
  case nil                     => exact le_rfl
  case append_singleton hs _ ih => exact mapAll_concat ▸ ih.trans allocated_le_map

theorem allocated_mapAll_le : (mapAll π s root calls).allocated ≤ s.allocated + 3 * calls.length := by
  induction calls using List.reverseRecOn
  case nil => exact le_rfl
  case append_singleton calls c ih =>
    rw [mapAll_concat, List.length_append, List.length_singleton]
    exact allocated_map_le.trans <| Nat.add_le_add_right ih 3

theorem Tree.of_mapAll (tree : Tree π s root) (h : π.Fresh (mapAll π s root calls).allocated) :
    Tree π (mapAll π s root calls) root := by
  induction calls using List.reverseRecOn
  case nil                       => exact tree
  case append_singleton calls c ih =>
    rw [mapAll_concat] at h ⊢
    exact (ih (h.mono allocated_le_map)).of_map h |>.left

-- The entry of level 1 for an address after a call of `map`.
theorem Tree.entry_map (tree : Tree π s root) (h : π.Fresh (map π s root v w).allocated)
    (a : BitVec 64) : (map π s root v w).entry π root (path a) (level1Index a) =
      if pageNumber v = pageNumber a then (s.entry π root (path a) (level1Index a)).mapTo w
      else s.entry π root (path a) (level1Index a) := by
  rw [(tree.of_map h).right _ _ rfl]
  refine if_congr ?_ rfl rfl
  rw [pageNumber_eq_iff, eq_comm, eq_comm (a := level1Index a)]

theorem Tree.clean_entry (tree : Tree π s root) (hp : p.length ≤ 3) : Clean (s.entry π root p i) := by
  cases ht : s.table π root p
  case none   => exact entry_of_none ht ▸ .zero
  case some t => exact entry_of_table ht ▸ tree.clean hp ht i

-- Pages that share a table of level 1 need at most three tables together.
theorem Tree.allocated_mapAll_of_path (tree : Tree π s root) (h : π.Fresh (mapAll π s root calls).allocated)
    (hp : ∀ c ∈ calls, path c.virtualAddress = p) : (mapAll π s root calls).allocated ≤ s.allocated + 3 := by
  have key : calls = [] ∨ (∃ x, (mapAll π s root calls).table π root p = some x) ∧
      (mapAll π s root calls).allocated ≤ s.allocated + 3 := by
    induction calls using List.reverseRecOn
    case nil => exact .inl rfl
    case append_singleton calls c ih =>
      right
      have hc : path c.virtualAddress = p := hp c (by simp)
      rw [mapAll_concat] at h ⊢
      have h' := h.mono allocated_le_map
      refine ⟨⟨_, hc ▸ (tree.of_mapAll h').table_map h⟩, ?_⟩
      obtain he | ⟨⟨x, hx⟩, hl⟩ := ih h' fun d hd => hp d (by simp [hd])
      case inl => exact he ▸ allocated_map_le
      case inr => rwa [allocated_map_of_table (hc ▸ hx)]
  obtain he | ⟨_, hl⟩ := key
  case inl => exact he ▸ Nat.le_add_right ..
  case inr => exact hl

end MapAll

section Build

variable {tables : PageTableRef → BitVec 9 → PageTableEntry}

theorem allocated_allocateRootPageTable : (allocateRootPageTable π s).fst.allocated = s.allocated + 1 := by
  by_cases h : π.page s.allocated = 0 <;> simp only [allocateRootPageTable, allocatePage, h] <;> rfl

-- The translation of an address is determined by the last call of `map` for its page.
theorem Tree.entry_mapAll (tree : Tree π s root) (h : π.Fresh (mapAll π s root calls).allocated)
    (hc : ∀ c ∈ calls, 4096 ∣ c.toPhysical.toNat ∧ c.toPhysical.toNat < 2 ^ 40)
    (hz : s.entry π root (path v) (level1Index v) = .zero) :
    (if ((mapAll π s root calls).entry π root (path v) (level1Index v)).isPresent then
      some ((mapAll π s root calls).entry π root (path v) (level1Index v)).frame
    else
      none) = (lastMapping calls v).map (·.toPhysical) := by
  induction calls using List.reverseRecOn
  case nil => simp [mapAll, hz, PageTableEntry.zero, lastMapping]
  case append_singleton calls c ih =>
    rw [mapAll_concat] at h ⊢
    have h' := h.mono allocated_le_map
    have tree := tree.of_mapAll h'
    rw [tree.entry_map h, lastMapping_concat]
    split
    case isTrue  =>
      have ⟨ha, hb⟩ := hc c (by simp)
      rw [frame_mapTo (tree.clean_entry (by simp [path])) ha hb]
      rfl
    case isFalse => exact ih h' (fun d hd => hc d (by simp [hd]))

-- The page tables implement a finite map from pages to frames.
theorem walk_build (h : π.Fresh (build π tables calls).fst.allocated)
    (hc : ∀ c ∈ calls, 4096 ∣ c.toPhysical.toNat ∧ c.toPhysical.toNat < 2 ^ 40) (v : BitVec 64) :
    walk π supervisor (build π tables calls).fst (build π tables calls).snd v =
      (lastMapping calls v).map (·.toPhysical) := by
  have h₁ := h.mono (n := (allocateRootPageTable π ⟨tables, 0⟩).fst.allocated) allocated_le_mapAll
  rw [allocated_allocateRootPageTable] at h₁
  have ⟨tree, hz⟩ := tree_allocateRootPageTable h₁
  exact ((tree.of_mapAll h).walk_eq fun _ => supervisor_eq).trans (tree.entry_mapAll h hc (hz _ _))

-- A platform whose memory starts with the free pages `0x1000`, `0x2000`, ...
def lowMemory : Platform where
  HigherHalfDirectMapOffset := 0xffff800000000000
  page k                    := 0xffff800000001000 + 0x1000 * BitVec.ofNat 64 k

theorem toNat_page_lowMemory {k : Nat} (h : k < 2 ^ 19) :
    (lowMemory.toPhysical (lowMemory.page k)).toNat = 0x1000 * (k + 1) := by
  simp only [Platform.toPhysical, lowMemory, BitVec.toNat_sub, BitVec.toNat_add, BitVec.toNat_mul,
    BitVec.ofNat_eq_ofNat, BitVec.toNat_ofNat]
  omega

theorem lowMemory_fresh {n : Nat} (h : n < 2 ^ 19) : lowMemory.Fresh n := by
  have hp {k : Nat} (hk : k < n) : (lowMemory.toPhysical (lowMemory.page k)).toNat = 0x1000 * (k + 1) :=
    toNat_page_lowMemory (hk.trans h)
  constructor
  case nonNull =>
    intro k hk h0
    have hk := hp hk
    rw [h0] at hk
    simp only [Platform.toPhysical, lowMemory, BitVec.toNat_sub, BitVec.ofNat_eq_ofNat, BitVec.toNat_ofNat] at hk
    omega
  case distinct =>
    intro k hk l hl he
    have hk := hp hk
    rw [he, hp hl] at hk
    omega
  case aligned => exact fun k hk => hp hk ▸ Nat.dvd_mul_right ..
  case low =>
    intro k hk
    rw [hp hk]
    omega

-- An address is mapped twice.
theorem walk_build_twice : walk lowMemory supervisor
    (build lowMemory (fun _ _ => .zero) [⟨0x400000, 0x5000⟩, ⟨0x400fff, 0x6000⟩]).fst
    (build lowMemory (fun _ _ => .zero) [⟨0x400000, 0x5000⟩, ⟨0x400fff, 0x6000⟩]).snd 0x400123 = some 0x6000 := by
  apply walk_build (v := 0x400123)
  case h  => exact lowMemory_fresh (by decide)
  case hc => decide

end Build
end VirtualMemoryManagement
