import Xesual.VirtualMemory.AddressSpaces
import Xesual.VirtualMemory.Theorems.Changes
import Xesual.VirtualMemory.Theorems.Kernel

namespace VirtualMemoryManagement

variable {π : Platform} {s s' : State} {root r r' t : PageTableRef} {p q : List (BitVec 9)} {i : BitVec 9}
variable {v w : BitVec 64} {permits : PageTableEntry → Bool} {calls : List Mapping}

theorem higherHalf_iff : HigherHalf v ↔ 256 ≤ (level4Index v).toNat := by
  have hm : v.getLsbD 47 = (level4Index v).msb := by
    rw [level4Index_eq, BitVec.msb_eq_getLsbD_last]
    simp
  rw [HigherHalf, hm, BitVec.msb_eq_decide]
  simp

-- The table at the end of the path is the root, or belongs to the lower half.
def Lower (p : List (BitVec 9)) : Prop :=
  ∀ i ∈ p.head?, i.toNat < 256

theorem lower_iff_not_higherHalf (hp : p <+: path v) (hn : p ≠ []) : Lower p ↔ ¬HigherHalf v := by
  cases p
  case nil => contradiction
  case cons i p =>
    rw [path, List.cons_prefix_cons] at hp
    simp [Lower, hp.left, higherHalf_iff]

theorem lower_of_not_higherHalf (hv : ¬HigherHalf v) (hp : p <+: path v) : Lower p := by
  by_cases hn : p = []
  case pos => exact hn ▸ nofun
  case neg => exact (lower_iff_not_higherHalf hp hn).mpr hv

namespace Tree

-- Tables that are allocated later do not belong to the tree.
theorem not_new (tree : Tree π s r) (h : π.Fresh s'.allocated) (hp : p.length ≤ 3)
    (ht : s.table π r p = some t) : ¬New π s s' t := by
  intro ⟨k, hk, hk', he⟩
  have ⟨l, hl, he'⟩ := tree.allocated hp ht
  have := h.distinct l (by omega) k hk' (he'.trans he.symm)
  omega

-- A change of one tree does not make a table of another tree a part of it.
theorem table_of_changes (tree : Tree π s r) (h : π.Fresh s'.allocated) (hp : p.length ≤ 3)
    (ht : s.table π r p = some t) (hc : Changes π r' v s s') (hq : q.length ≤ 3)
    (ht' : s'.table π r' q = some t) : s.table π r' q = some t := by
  obtain h' | ⟨_, _, t', hn, new⟩ := hc.table q hq
  case inl => exact h'.symm.trans ht'
  case inr =>
    cases Option.some.inj <| ht'.symm.trans hn
    exact absurd new <| tree.not_new h hp ht

section Congr

-- The tables of a tree stay the same.
variable (tree : Tree π s r) (ha : s.allocated ≤ s'.allocated)
variable (hs : ∀ p t, p.length ≤ 3 → s.table π r p = some t → s'.tables t = s.tables t)
include tree ha hs

omit tree ha in
theorem table_congr (hq : q.length ≤ 3) : s'.table π r q = s.table π r q := by
  apply Trie.descend_congr
  intro q' i hi n hn
  have hl : q'.length ≤ 3 := by
    have := hi.length_le
    rw [List.length_append] at this
    omega
  rw [hs q' n hl hn]

theorem congr : Tree π s' r where
  unshared  := by
    intro p q n hp hq h h'
    exact tree.unshared hp hq ((table_congr hs hp).symm.trans h) ((table_congr hs hq).symm.trans h')
  allocated := by
    intro p t hp ht
    have ⟨k, hk, he⟩ := tree.allocated hp ((table_congr hs hp).symm.trans ht)
    exact ⟨k, hk.trans_le ha, he⟩
  clean     := by
    intro p t hp ht i
    rw [table_congr hs hp] at ht
    exact hs p t hp ht ▸ tree.clean hp ht i
  upper     := by
    intro p t hp ht i
    rw [table_congr hs hp.le] at ht
    exact hs p t hp.le ht ▸ tree.upper hp ht i

theorem walk_congr (hc : ∀ e, Clean e → permits e = e.isPresent) :
    walk π permits s' r v = walk π permits s r v := by
  have he : s'.entry π r (path v) (level1Index v) = s.entry π r (path v) (level1Index v) := by
    have ht := table_congr (q := path v) hs (by simp [path])
    cases hx : s.table π r (path v)
    case none   => rw [entry_of_none hx, entry_of_none (ht.trans hx)]
    case some x => rw [entry_of_table hx, entry_of_table (ht.trans hx), hs _ x (by simp [path]) hx]
  rw [(tree.congr ha hs).walk_eq hc, tree.walk_eq hc, he]

end Congr
end Tree

-- If the entries of two root tables for an address agree, then `map` has the same effect on both.
theorem map_congr_root (h : s.tables r (level4Index v) = s.tables r' (level4Index v))
    (hp : (s.tables r (level4Index v)).isPresent) : map π s r v w = map π s r' v w := by
  simp [map, level1Table, nextLevel, h ▸ hp, h]

theorem walk_congr_root (h : s.tables r (level4Index v) = s.tables r' (level4Index v)) :
    walk π permits s r v = walk π permits s r' v := by
  rw [level4Index_eq] at h
  simp only [walk, State.fetch, h]

namespace AddressSpaces

variable {σ σ' : AddressSpaces}

-- All trees have the higher half in common, and the lower half is not shared. The lower half of the kernel is
-- empty, so that there is nothing in the lower half to be shared with a copy.
structure Invariant (π : Platform) (σ : AddressSpaces) : Prop where
  tree      : ∀ r ∈ σ.roots, Tree π σ.memory r
  nodup     : σ.roots.Nodup
  higher    : ∀ r ∈ σ.roots, ∀ i, 256 ≤ i.toNat → σ.memory.tables r i = σ.memory.tables σ.kernel i
  present   : ∀ i, 256 ≤ i.toNat → (σ.memory.tables σ.kernel i).isPresent
  lower     : ∀ i, i.toNat < 256 → (σ.memory.tables σ.kernel i).isPresent = false
  exclusive : ∀ r ∈ σ.roots, ∀ r' ∈ σ.roots, r ≠ r' → ∀ p q t, p.length ≤ 3 → q.length ≤ 3 → Lower p →
    σ.memory.table π r p = some t → σ.memory.table π r' q ≠ some t

namespace Invariant

theorem shared (inv : σ.Invariant π) : σ.Shared π permits := by
  intro r hr v hv
  apply walk_congr_root
  exact inv.higher r (by simp [roots, hr]) _ (higherHalf_iff.mp hv)

theorem kernel_mem : σ.kernel ∈ σ.roots := by
  simp [roots]

section Higher

variable (inv : σ.Invariant π) (hr : r ∈ σ.roots) (hv : HigherHalf v)
variable (hf : π.Fresh (map π σ.memory r v w).allocated)
include inv hr hv

-- It does not matter through which root a page of the higher half is mapped.
theorem map_eq (hr' : r' ∈ σ.roots) : map π σ.memory r v w = map π σ.memory r' v w := by
  have hi := higherHalf_iff.mp hv
  have h := inv.higher r hr _ hi
  exact map_congr_root (h.trans (inv.higher r' hr' _ hi).symm) (h ▸ inv.present _ hi)

include hf

theorem changes_higher (hr' : r' ∈ σ.roots) : Changes π r' v σ.memory (map π σ.memory r v w) := by
  rw [inv.map_eq hr hv hr'] at hf ⊢
  exact (inv.tree r' hr').changes_map hf

-- The root tables have all of their entries for the higher half from the beginning.
theorem tables_higher (hr' : r' ∈ σ.roots) : (map π σ.memory r v w).tables r' = σ.memory.tables r' := by
  funext j
  obtain h | ⟨hj, hn⟩ := (inv.changes_higher hr hv hf hr').root j
  case inl => exact h
  case inr =>
    have hi := higherHalf_iff.mp hv
    rw [hj, inv.higher r' hr' _ hi, inv.present _ hi] at hn
    contradiction

theorem map_higher : Invariant π { σ with memory := map π σ.memory r v w } where
  tree      := by
    intro r' hr'
    have hf' := hf
    rw [inv.map_eq hr hv hr'] at hf' ⊢
    exact (inv.tree r' hr').of_map hf' |>.left
  nodup     := inv.nodup
  higher    := by
    intro r' hr' i hi
    simp only [inv.tables_higher hr hv hf hr', inv.tables_higher hr hv hf kernel_mem]
    exact inv.higher r' hr' i hi
  present   := by
    simp only [inv.tables_higher hr hv hf kernel_mem]
    exact inv.present
  lower     := by
    simp only [inv.tables_higher hr hv hf kernel_mem]
    exact inv.lower
  exclusive := by
    intro r₁ hr₁ r₂ hr₂ hne p q t hp hq hl ht₁ ht₂
    -- The table belongs to the lower half of `r₁`, which has not been changed.
    obtain h₁ | ⟨hn, hpre, _⟩ := (inv.changes_higher hr hv hf hr₁).table p hp
    case inr => exact (lower_iff_not_higherHalf hpre hn).mp hl hv
    case inl =>
      have ht₁ := h₁.symm.trans ht₁
      have ht₂ := (inv.tree r₁ hr₁).table_of_changes hf hp ht₁ (inv.changes_higher hr hv hf hr₂) hq ht₂
      exact inv.exclusive r₁ hr₁ r₂ hr₂ hne p q t hp hq hl ht₁ ht₂

end Higher

section Lower

variable (inv : σ.Invariant π) (hr : r ∈ σ.roots) (hv : ¬HigherHalf v)
variable (hf : π.Fresh (map π σ.memory r v w).allocated)
include inv hr hv hf

-- The tables of the other trees stay the same.
theorem tables_lower (hr' : r' ∈ σ.roots) (hne : r' ≠ r) (p : List (BitVec 9)) (t : PageTableRef)
    (hp : p.length ≤ 3) (ht : σ.memory.table π r' p = some t) :
    (map π σ.memory r v w).tables t = σ.memory.tables t := by
  obtain h | ⟨q, hq, h⟩ | new := ((inv.tree r hr).changes_map hf).tables t
  case inl     => exact h
  case inr.inl =>
    have hl := lower_of_not_higherHalf hv hq
    exact absurd ht <| inv.exclusive r hr r' hr' hne.symm q p t hq.length_le hp hl h
  case inr.inr => exact absurd new <| (inv.tree r' hr').not_new hf hp ht

theorem table_lower (hr' : r' ∈ σ.roots) (hne : r' ≠ r) (hq : q.length ≤ 3) :
    (map π σ.memory r v w).table π r' q = σ.memory.table π r' q :=
  Tree.table_congr (inv.tables_lower hr hv hf hr' hne) hq

theorem map_lower (hk : r ≠ σ.kernel) : Invariant π { σ with memory := map π σ.memory r v w } := by
  have hc := (inv.tree r hr).changes_map hf
  have hroot {r' : PageTableRef} (hr' : r' ∈ σ.roots) (hne : r' ≠ r) :
      (map π σ.memory r v w).tables r' = σ.memory.tables r' :=
    inv.tables_lower hr hv hf hr' hne [] r' (Nat.zero_le _) rfl
  have hkernel := hroot kernel_mem hk.symm
  constructor
  case nodup   => exact inv.nodup
  case present => simpa only [hkernel] using inv.present
  case lower   => simpa only [hkernel] using inv.lower
  case tree    =>
    intro r' hr'
    by_cases hne : r' = r
    case pos =>
      subst hne
      exact (inv.tree r' hr).of_map hf |>.left
    case neg => exact (inv.tree r' hr').congr hc.allocated (inv.tables_lower hr hv hf hr' hne)
  case higher  =>
    intro r' hr' i hi
    simp only [hkernel]
    rw [← inv.higher r' hr' i hi]
    by_cases hne : r' = r
    case neg => exact congrFun (hroot hr' hne) i
    case pos =>
      subst hne
      refine (hc.root i).resolve_right fun ⟨he, _⟩ => ?_
      rw [higherHalf_iff, ← he] at hv
      contradiction
  case exclusive =>
    intro r₁ hr₁ r₂ hr₂ hne p q t hp hq hl ht₁ ht₂
    by_cases h₁ : r₁ = r
    case pos =>
      subst h₁
      rw [inv.table_lower hr hv hf hr₂ hne.symm hq] at ht₂
      have ht₁ := (inv.tree r₂ hr₂).table_of_changes hf hq ht₂ hc hp ht₁
      exact inv.exclusive r₁ hr r₂ hr₂ hne p q t hp hq hl ht₁ ht₂
    case neg =>
      rw [inv.table_lower hr hv hf hr₁ h₁ hp] at ht₁
      by_cases h₂ : r₂ = r
      case pos =>
        subst h₂
        have ht₂ := (inv.tree r₁ hr₁).table_of_changes hf hp ht₁ hc hq ht₂
        exact inv.exclusive r₁ hr₁ r₂ hr₂ hne p q t hp hq hl ht₁ ht₂
      case neg =>
        rw [inv.table_lower hr hv hf hr₂ h₂ hq] at ht₂
        exact inv.exclusive r₁ hr₁ r₂ hr₂ hne p q t hp hq hl ht₁ ht₂

theorem walk_lower (hc : ∀ e, Clean e → permits e = e.isPresent) (hr' : r' ∈ σ.roots) (hne : r' ≠ r)
    (a : BitVec 64) : walk π permits (map π σ.memory r v w) r' a = walk π permits σ.memory r' a :=
  (inv.tree r' hr').walk_congr allocated_le_map (inv.tables_lower hr hv hf hr' hne) hc

end Lower

section Copy

variable (inv : σ.Invariant π) (hf : π.Fresh (σ.memory.allocated + 1))
include inv hf

-- The page of the new root does not belong to any tree.
theorem table_ne_root (hr : r ∈ σ.roots) (hq : q.length ≤ 3) :
    σ.memory.table π r q ≠ some (shallowCopy π σ.memory σ.kernel).snd :=
  (inv.tree r hr).table_ne_page hf hq

theorem tables_copy (hr : r ∈ σ.roots) (p : List (BitVec 9)) (t : PageTableRef) (hp : p.length ≤ 3)
    (ht : σ.memory.table π r p = some t) :
    (shallowCopy π σ.memory σ.kernel).fst.tables t = σ.memory.tables t := by
  have hne : t ≠ (shallowCopy π σ.memory σ.kernel).snd :=
    fun he => inv.table_ne_root hf hr hp (ht.trans <| congrArg some he)
  exact Function.update_of_ne hne ..

theorem table_copy (hr : r ∈ σ.roots) (hq : q.length ≤ 3) :
    (shallowCopy π σ.memory σ.kernel).fst.table π r q = σ.memory.table π r q :=
  Tree.table_congr (inv.tables_copy hf hr) hq

-- The tables of the copy are the ones of the kernel, except for the root.
theorem table_new (hq : (i :: q).length ≤ 3) :
    (shallowCopy π σ.memory σ.kernel).fst.table π (shallowCopy π σ.memory σ.kernel).snd (i :: q) =
    σ.memory.table π σ.kernel (i :: q) :=
  Trie.descend_copy (fun _ hq => inv.table_ne_root hf kernel_mem hq) hq

omit hf in
theorem table_kernel_lower (hl : Lower (i :: q)) : σ.memory.table π σ.kernel (i :: q) = none := by
  simp [State.table, Trie.descend, Platform.child, inv.lower i (hl i rfl)]

theorem exclusive_new (hr : r ∈ σ.roots) (hp : p.length ≤ 3) (hq : q.length ≤ 3)
    (hl : Lower p ∨ Lower q) (ht : σ.memory.table π r p = some t) :
    (shallowCopy π σ.memory σ.kernel).fst.table π (shallowCopy π σ.memory σ.kernel).snd q ≠ some t := by
  intro hn
  cases q
  case nil => exact inv.table_ne_root hf hr hp <| ht.trans hn.symm
  case cons i q =>
    rw [inv.table_new hf hq] at hn
    have hnl : ¬Lower (i :: q) := fun hl => by simp [inv.table_kernel_lower hl] at hn
    have hl := hl.resolve_right hnl
    by_cases hrk : r = σ.kernel
    case pos =>
      subst hrk
      have := (inv.tree _ hr).unshared hp hq ht hn
      exact hnl (this ▸ hl)
    case neg => exact inv.exclusive r hr σ.kernel kernel_mem hrk p (i :: q) t hp hq hl ht hn

theorem copy : Invariant π { σ with
    memory    := (shallowCopy π σ.memory σ.kernel).fst
    processes := (shallowCopy π σ.memory σ.kernel).snd :: σ.processes } := by
  have hroots {r : PageTableRef} : r ∈ roots { σ with
      memory    := (shallowCopy π σ.memory σ.kernel).fst
      processes := (shallowCopy π σ.memory σ.kernel).snd :: σ.processes } ↔
      r = (shallowCopy π σ.memory σ.kernel).snd ∨ r ∈ σ.roots := by
    simp only [roots, List.mem_cons]
    exact or_left_comm
  have hnew : (shallowCopy π σ.memory σ.kernel).snd ∉ σ.roots :=
    fun hr => inv.table_ne_root hf hr (q := []) (Nat.zero_le _) rfl
  have hroot {r : PageTableRef} (hr : r ∈ σ.roots) :
      (shallowCopy π σ.memory σ.kernel).fst.tables r = σ.memory.tables r :=
    inv.tables_copy hf hr [] r (Nat.zero_le _) rfl
  have hcopy : (shallowCopy π σ.memory σ.kernel).fst.tables (shallowCopy π σ.memory σ.kernel).snd =
      σ.memory.tables σ.kernel := Function.update_self ..
  constructor
  case nodup     => exact (List.Perm.swap ..).nodup (List.nodup_cons.mpr ⟨hnew, inv.nodup⟩)
  case present   => simpa only [hroot kernel_mem] using inv.present
  case lower     => simpa only [hroot kernel_mem] using inv.lower
  case tree      =>
    intro r hr
    obtain hr | hr := hroots.mp hr
    case inl => exact hr ▸ ((inv.tree _ kernel_mem).of_shallowCopy hf).left
    case inr => exact (inv.tree r hr).congr (Nat.le_succ _) (inv.tables_copy hf hr)
  case higher    =>
    intro r hr i hi
    simp only [hroot kernel_mem]
    obtain hr | hr := hroots.mp hr
    case inl => rw [hr, hcopy]
    case inr => rw [hroot hr, inv.higher r hr i hi]
  case exclusive =>
    intro r₁ hr₁ r₂ hr₂ hne p q t hp hq hl ht₁ ht₂
    obtain hr₁ | hr₁ := hroots.mp hr₁ <;> obtain hr₂ | hr₂ := hroots.mp hr₂
    case inl.inl => exact hne (hr₁.trans hr₂.symm)
    case inl.inr =>
      subst hr₁
      simp only [inv.table_copy hf hr₂ hq] at ht₂
      exact inv.exclusive_new hf hr₂ hq hp (.inr hl) ht₂ ht₁
    case inr.inl =>
      subst hr₂
      simp only [inv.table_copy hf hr₁ hp] at ht₁
      exact inv.exclusive_new hf hr₁ hp hq (.inl hl) ht₁ ht₂
    case inr.inr =>
      simp only [inv.table_copy hf hr₁ hp] at ht₁
      simp only [inv.table_copy hf hr₂ hq] at ht₂
      exact inv.exclusive r₁ hr₁ r₂ hr₂ hne p q t hp hq hl ht₁ ht₂

end Copy

theorem kernel_not_mem (inv : σ.Invariant π) : σ.kernel ∉ σ.processes :=
  List.nodup_cons.mp inv.nodup |>.left

theorem step {a : Action} (inv : σ.Invariant π) (h : σ.step π a = some σ')
    (hf : π.Fresh σ'.memory.allocated) : σ'.Invariant π := by
  cases a
  case shallowCopy =>
    cases h
    exact inv.copy hf
  case map r v w =>
    have ⟨hr, h⟩ := Option.ite_none_right_eq_some.mp h
    cases h
    have hm : r ∈ σ.roots := by
      rw [roots, List.mem_cons]
      exact hr.elim .inr fun hr => .inl hr.left
    by_cases hv : HigherHalf v
    case pos => exact inv.map_higher hm hv hf
    case neg =>
      have hp := hr.resolve_right fun hr => hv hr.right
      exact inv.map_lower hm hv hf fun hk => inv.kernel_not_mem (hk ▸ hp)

theorem isolated (inv : σ.Invariant π) (hc : ∀ e, Clean e → permits e = e.isPresent) :
    σ.Isolated π permits := by
  intro r v w σ' hv h hf r' hr' hne a
  have ⟨hr, h⟩ := Option.ite_none_right_eq_some.mp h
  cases h
  have hp := hr.resolve_right fun hr => hv hr.right
  exact inv.walk_lower (List.mem_cons_of_mem _ hp) hv hf hc hr' hne a

end Invariant

theorem allocated_le_step {a : Action} (h : σ.step π a = some σ') :
    σ.memory.allocated ≤ σ'.memory.allocated := by
  cases a
  case shallowCopy =>
    cases h
    exact Nat.le_succ _
  case map =>
    have ⟨_, h⟩ := Option.ite_none_right_eq_some.mp h
    cases h
    exact allocated_le_map

section Start

variable {fuel : Nat} {boot : Boot} {tables : PageTableRef → BitVec 9 → PageTableEntry}

theorem mapAll_lower (tree : Tree π s root) (h : π.Fresh (mapAll π s root calls).allocated)
    (hc : ∀ c ∈ calls, HigherHalf c.virtualAddress) (hi : i.toNat < 256) :
    (mapAll π s root calls).tables root i = s.tables root i := by
  induction calls using List.reverseRecOn
  case nil => rfl
  case append_singleton calls c ih =>
    rw [mapAll_concat] at h ⊢
    have h' := h.mono allocated_le_map
    obtain hr | ⟨he, _⟩ := ((tree.of_mapAll h').changes_map h).root i
    case inl => exact hr.trans <| ih h' fun d hd => hc d (by simp [hd])
    case inr =>
      have := higherHalf_iff.mp <| hc c (by simp)
      rw [← he] at this
      omega

-- Nothing is mapped to the lower half at boot.
theorem build_lower (h : π.Fresh (build π tables calls).fst.allocated)
    (hc : ∀ c ∈ calls, HigherHalf c.virtualAddress) (hi : i.toNat < 256) :
    (build π tables calls).fst.tables (build π tables calls).snd i = .zero := by
  have h₁ := h.mono (n := (allocateRootPageTable π ⟨tables, 0⟩).fst.allocated) allocated_le_mapAll
  rw [allocated_allocateRootPageTable] at h₁
  have ⟨tree, hz⟩ := tree_allocateRootPageTable h₁
  exact (mapAll_lower tree h hc hi).trans (hz [] i)

theorem start (h : initializeVirtualMemory fuel π ⟨tables, 0⟩ boot = some (s, root))
    (hb : ∀ v, boot.Maps π v → HigherHalf v) (hf : π.Fresh s.allocated) :
    Invariant π ⟨s, root, []⟩ := by
  obtain ⟨tree, _⟩ := initializeVirtualMemory_spec h hf
  obtain ⟨direct, image, hd, hi, hr, hs⟩ := initializeVirtualMemory_eq_some_iff.mp h
  have hm (i : BitVec 9) := mem_higherHalfIndices_iff (i := i)
  generalize higherHalfIndices = is at hs hm
  subst hs hr
  have hbuild := hf.mono (n := (build π _ _).fst.allocated) allocated_foldl_preallocate.left
  have hp (i : BitVec 9) := (tree_build hbuild).isPresent_foldl_preallocate (j := i) hf
  have hc (c : Mapping) (hc : c ∈ boot.mappings π direct image) : HigherHalf c.virtualAddress := by
    apply hb
    rw [Boot.mappings, List.mem_append, List.mem_map, List.mem_map] at hc
    obtain ⟨i, hm, he⟩ | ⟨i, hm, he⟩ := hc <;> subst he
    case inl =>
      obtain ⟨_, ha, hl⟩ := (mem_pageLoop_iff hd).mp hm
      exact .inl ⟨i, ha, hl, rfl⟩
    case inr =>
      obtain ⟨hl, ha, hu⟩ := (mem_pageLoop_iff hi).mp hm
      exact .inr ⟨i, hl, ha, hu, rfl⟩
  constructor
  case tree      => simpa [roots] using tree
  case nodup     => simp [roots]
  case higher    => simp [roots]
  case present   => exact fun i hi => (hp i).mpr <| .inl ((hm i).mpr hi)
  case lower     =>
    intro i hi
    rw [Bool.eq_false_iff]
    intro hn
    obtain h | h := (hp i).mp hn
    case inl =>
      have := (hm i).mp h
      omega
    case inr =>
      rw [build_lower hbuild hc hi] at h
      contradiction
  case exclusive =>
    intro r hr r' hr' hne
    simp only [roots, List.mem_singleton] at hr hr'
    exact absurd (hr.trans hr'.symm) hne

theorem invariant {as : List Action} (h : initializeVirtualMemory fuel π ⟨tables, 0⟩ boot = some (s, root))
    (hb : ∀ v, boot.Maps π v → HigherHalf v) (e : Execution (step π) Execution.Free ⟨s, root, []⟩ as σ)
    (hf : π.Fresh σ.memory.allocated) : σ.Invariant π := by
  induction e
  case refl       => exact start h hb hf
  case snoc hs ih => exact (ih <| hf.mono <| allocated_le_step hs).step hs hf

-- However page tables are copied and pages are mapped after boot, the higher half is shared by all address
-- spaces and the lower half is not shared by any two of them.
theorem shared_and_isolated {as : List Action}
    (h : initializeVirtualMemory fuel π ⟨tables, 0⟩ boot = some (s, root))
    (hb : ∀ v, boot.Maps π v → HigherHalf v) (e : Execution (step π) Execution.Free ⟨s, root, []⟩ as σ)
    (hf : π.Fresh σ.memory.allocated) (hp : permits = supervisor ∨ permits = user) :
    σ.roots.Nodup ∧ σ.Shared π permits ∧ σ.Isolated π permits := by
  have inv := invariant h hb e hf
  have hc : ∀ e, Clean e → permits e = e.isPresent := by
    obtain hp | hp := hp <;> subst hp
    case inl => exact fun e => supervisor_eq
    case inr => exact fun e => user_eq
  exact ⟨inv.nodup, inv.shared, inv.isolated hc⟩

theorem smallMachine_higherHalf (h : smallMachine.Maps lowMemory v) : HigherHalf v := by
  have h := smallMachine_maps_iff.mp h
  rw [toNat_pageNumber] at h
  rw [higherHalf_iff, level4Index_eq, BitVec.extractLsb'_toNat, Nat.shiftRight_eq_div_pow]
  omega

-- The first process maps a page to the higher half and another one to the lower half before it is joined by a
-- second one.
def twoProcesses (first : PageTableRef) : List Action :=
  [.shallowCopy, .map first 0xffffa00000000000 0x120000, .map first 0x400000 0x121000, .shallowCopy]

theorem run_twoProcesses (s : State) (root : PageTableRef) :
    ∃ σ, Execution.run (step π) ⟨s, root, []⟩ (twoProcesses (π.page s.allocated)) = some σ ∧
      σ.processes.length = 2 ∧ σ.memory.allocated ≤ s.allocated + 8 := by
  have ⟨s₁, hs₁⟩ : ∃ s₁, s₁ = (shallowCopy π s root).fst := ⟨_, rfl⟩
  have ⟨s₂, hs₂⟩ : ∃ s₂, s₂ = map π s₁ (π.page s.allocated) 0xffffa00000000000 0x120000 := ⟨_, rfl⟩
  have ⟨s₃, hs₃⟩ : ∃ s₃, s₃ = map π s₂ (π.page s.allocated) 0x400000 0x121000 := ⟨_, rfl⟩
  have h₁ : s₁.allocated = s.allocated + 1 := hs₁ ▸ rfl
  have h₂ : s₂.allocated ≤ s₁.allocated + 3 := hs₂ ▸ allocated_map_le
  have h₃ : s₃.allocated ≤ s₂.allocated + 3 := hs₃ ▸ allocated_map_le
  refine ⟨⟨(shallowCopy π s₃ root).fst, root, [(shallowCopy π s₃ root).snd, π.page s.allocated]⟩, ?_, rfl, ?_⟩
  case refine_1 => simp [twoProcesses, Execution.run, step, shallowCopy, allocatePage, hs₃, hs₂, hs₁]
  case refine_2 =>
    show s₃.allocated + 1 ≤ _
    omega

theorem shared_and_isolated_smallMachine : ∃ s root σ,
    initializeVirtualMemory 513 lowMemory ⟨fun _ _ => .zero, 0⟩ smallMachine = some (s, root) ∧
    Execution.run (step lowMemory) ⟨s, root, []⟩ (twoProcesses (lowMemory.page s.allocated)) = some σ ∧
    (∀ k < σ.memory.allocated, lowMemory.toPhysical (lowMemory.page k) < smallMachine.physicalBase) ∧
    σ.processes.length = 2 ∧ σ.roots.Nodup ∧ σ.Shared lowMemory user ∧ σ.Isolated lowMemory user := by
  have ⟨⟨s, root⟩, h⟩ := Option.isSome_iff_exists.mp <| smallMachine_isSome fun _ _ => .zero
  have ⟨σ, hr, hl, ha⟩ := run_twoProcesses (π := lowMemory) s root
  have ha : σ.memory.allocated < 400 := ha.trans_lt (by have := allocated_smallMachine_le h; omega)
  have hs := shared_and_isolated h (fun _ => smallMachine_higherHalf) (Execution.of_run hr)
    (lowMemory_fresh (ha.trans (by decide))) (.inr rfl)
  exact ⟨s, root, σ, h, hr, fun k hk => page_lt_physicalBase (hk.trans ha), hl, hs⟩

end Start
end AddressSpaces
end VirtualMemoryManagement
