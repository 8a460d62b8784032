import Xesual.Boot.Theorems.MemoryMap
import Xesual.VirtualMemory.Theorems.Kernel

-- The page table that results from `initializeVirtualMemory(initByAddingUsablePagesToMemoryManagement())`.

namespace KernelMain

open VirtualMemoryManagement hiding State
open PhysicalMemoryManagement (wrap)

variable {offset fuel m m' : Nat} {s s' : PhysicalMemoryManagement.State} {entries : List MemmapEntry}

-- The end of the last entry of the memory map.
def largestEnd : List MemmapEntry → Nat
  | []           => 0
  | e :: entries => max (e.base + e.length) (largestEnd entries)

-- The pages that have to be mapped directly, given by their physical addresses, and the pages of the kernel
-- image, given by their virtual addresses.
def DirectPage (entries : List MemmapEntry) (i : BitVec 64) : Prop :=
  4096 ∣ i.toNat ∧ i.toNat < largestEnd entries

def KernelPage (boot : Boot) (v : BitVec 64) : Prop :=
  4096 ∣ v.toNat ∧ boot.KernelStart ≤ v ∧ v < boot.KernelEnd

-- What is assumed about the answers of Limine and about the kernel image: the end of the image can be rounded
-- up to pages, its physical addresses have at most 40 bits, and it shares no page with the direct mapping.
structure Response (π : Platform) (entries : List MemmapEntry) (boot : Boot) : Prop where
  low          : ∀ e ∈ entries, e.base + e.length ≤ 2 ^ 40
  start        : 4096 ∣ boot.KernelStart.toNat
  physicalBase : 4096 ∣ boot.physicalBase.toNat
  virtualBase  : 4096 ∣ boot.virtualBase.toNat
  finish       : boot.KernelEnd.toNat + 4095 < 2 ^ 64
  image        : ∀ v, KernelPage boot v → (boot.physicalBase + (v - boot.virtualBase)).toNat < 2 ^ 40
  disjoint     : ∀ i v, DirectPage entries i → KernelPage boot v →
    pageNumber (i + π.HigherHalfDirectMapOffset) ≠ pageNumber v

-- The translation is the direct mapping and the one of the kernel image, and nothing else.
structure Exact (π : Platform) (entries : List MemmapEntry) (boot : Boot)
    (s : VirtualMemoryManagement.State) (root : PageTableRef) : Prop where
  direct : ∀ i v, DirectPage entries i → pageNumber (i + π.HigherHalfDirectMapOffset) = pageNumber v →
    walk π supervisor s root v = some i
  kernel : ∀ i v, KernelPage boot i → pageNumber i = pageNumber v →
    walk π supervisor s root v = some (boot.physicalBase + (i - boot.virtualBase))
  others : ∀ v, (∀ i, DirectPage entries i → pageNumber (i + π.HigherHalfDirectMapOffset) ≠ pageNumber v) →
    (∀ i, KernelPage boot i → pageNumber i ≠ pageNumber v) → walk π supervisor s root v = none
  roots  : ∀ i : BitVec 9, 256 ≤ i.toNat → (s.tables root i).isPresent

theorem largestEnd_le (h : ∀ e ∈ entries, e.base + e.length ≤ m) : largestEnd entries ≤ m := by
  induction entries
  case nil => exact Nat.zero_le _
  case cons ih =>
    simp only [List.mem_cons, forall_eq_or_imp] at h
    exact Nat.max_le.mpr ⟨h.left, ih h.right⟩

-- The loop computes the largest end, whatever it does to the free list.
theorem foldlM_addEntry_max (hl : ∀ e ∈ entries, e.base + e.length ≤ 2 ^ 40)
    (h : entries.foldlM (addEntry fuel offset) (s, m) = some (s', m')) : m' = max m (largestEnd entries) := by
  induction entries generalizing s m
  case nil =>
    cases h
    simp [largestEnd]
  case cons e entries ih =>
    simp only [List.mem_cons, forall_eq_or_imp] at hl
    have hw : wrap (e.base + e.length) = e.base + e.length := by simp only [wrap]; omega
    have hm : e.updateMax m = max m (e.base + e.length) := by
      simp only [MemmapEntry.updateMax, hw]
      split <;> omega
    rw [List.foldlM_cons] at h
    obtain ⟨⟨s₁, m₁⟩, ha, h⟩ := Option.bind_eq_some_iff.mp h
    have hm₁ : m₁ = e.updateMax m := by
      simp only [addEntry] at ha
      split at ha
      case isTrue =>
        obtain ⟨_, _, ha⟩ := Option.map_eq_some_iff.mp ha
        exact (Prod.mk.inj ha).right.symm
      case isFalse => exact (Prod.mk.inj <| Option.some.inj ha).right.symm
    rw [ih hl.right h, hm₁, hm, largestEnd, Nat.max_assoc]

section Pages

variable {π : Platform} {boot : Boot} {direct image : List (BitVec 64)} {i j : BitVec 64}

theorem pageNumber_eq_iff_toNat :
    pageNumber i = pageNumber j ↔ i.toNat / 4096 % 2 ^ 36 = j.toNat / 4096 % 2 ^ 36 := by
  rw [← BitVec.toNat_inj, toNat_pageNumber, toNat_pageNumber]

theorem DirectPage.unique (r : Response π entries boot) (hi : DirectPage entries i) (hj : DirectPage entries j)
    (h : pageNumber (i + π.HigherHalfDirectMapOffset) = pageNumber (j + π.HigherHalfDirectMapOffset)) :
    i = j := by
  have := largestEnd_le r.low
  have ⟨_, _⟩ := hi
  have ⟨_, _⟩ := hj
  have := π.HigherHalfDirectMapOffset.isLt
  rw [pageNumber_eq_iff_toNat, BitVec.toNat_add, BitVec.toNat_add] at h
  apply BitVec.eq_of_toNat_eq
  omega

-- The physical addresses of the image are less than 2^40, so its pages differ in the lower 48 bits.
theorem KernelPage.unique (r : Response π entries boot) (hi : KernelPage boot i) (hj : KernelPage boot j)
    (h : pageNumber i = pageNumber j) : i = j := by
  have hpi := r.image i hi
  have hpj := r.image j hj
  have := hi.left
  have := hj.left
  have := i.isLt
  have := j.isLt
  have := boot.physicalBase.isLt
  have := boot.virtualBase.isLt
  rw [pageNumber_eq_iff_toNat] at h
  simp only [BitVec.toNat_add, BitVec.toNat_sub] at hpi hpj
  apply BitVec.eq_of_toNat_eq
  omega

theorem KernelPage.aligned (r : Response π entries boot) (h : KernelPage boot i) :
    4096 ∣ (boot.physicalBase + (i - boot.virtualBase)).toNat := by
  have := h.left
  have := r.physicalBase
  have := r.virtualBase
  have := boot.virtualBase.isLt
  simp only [BitVec.toNat_add, BitVec.toNat_sub]
  omega

theorem mem_direct_iff (r : Response π entries boot)
    (h : pageLoop fuel 0 (BitVec.ofNat 64 (largestEnd entries)) = some direct) :
    i ∈ direct ↔ DirectPage entries i := by
  have := largestEnd_le r.low
  rw [mem_pageLoop_iff h, DirectPage, BitVec.lt_def, BitVec.le_def, BitVec.toNat_ofNat]
  simp only [BitVec.ofNat_eq_ofNat, BitVec.toNat_ofNat]
  omega

theorem mem_image_iff (r : Response π entries boot)
    (h : pageLoop fuel boot.KernelStart boot.KernelEnd = some image) : i ∈ image ↔ KernelPage boot i := by
  have := r.start
  rw [mem_pageLoop_iff h, KernelPage, BitVec.le_def, BitVec.lt_def]
  omega

end Pages

section Mappings

variable {π : Platform} {boot : Boot} {direct image : List (BitVec 64)} {v : BitVec 64} {c : Mapping}

variable (hd : ∀ i, i ∈ direct ↔ DirectPage entries i) (hi : ∀ i, i ∈ image ↔ KernelPage boot i)
include hd hi

theorem mem_mappings_iff : c ∈ boot.mappings π direct image ↔
    (∃ i, DirectPage entries i ∧ ⟨i + π.HigherHalfDirectMapOffset, i⟩ = c) ∨
    (∃ i, KernelPage boot i ∧ ⟨i, boot.physicalBase + (i - boot.virtualBase)⟩ = c) := by
  simp [Boot.mappings, hd, hi]

-- All physical addresses are aligned and fit in the entries of level 1.
theorem mappings_bounded (r : Response π entries boot) (hc : c ∈ boot.mappings π direct image) :
    4096 ∣ c.toPhysical.toNat ∧ c.toPhysical.toNat < 2 ^ 40 := by
  obtain ⟨i, h, he⟩ | ⟨i, h, he⟩ := (mem_mappings_iff hd hi).mp hc <;> subst he
  case inl => exact ⟨h.left, h.right.trans_le <| largestEnd_le r.low⟩
  case inr => exact ⟨h.aligned r, r.image i h⟩

theorem exact_of_walk {s : VirtualMemoryManagement.State} {root : PageTableRef} (r : Response π entries boot)
    (hw : ∀ v, walk π supervisor s root v = (lastMapping (boot.mappings π direct image) v).map (·.toPhysical))
    (hr : ∀ i : BitVec 9, 256 ≤ i.toNat → (s.tables root i).isPresent) : Exact π entries boot s root where
  roots  := hr
  direct := by
    intro i v h hp
    rw [hw]
    refine lastMapping_of_unique (c := ⟨_, i⟩) ((mem_mappings_iff hd hi).mpr <| .inl ⟨i, h, rfl⟩) hp ?_
    intro d hm hp'
    obtain ⟨j, h', he⟩ | ⟨j, h', he⟩ := (mem_mappings_iff hd hi).mp hm <;> subst he
    case inl => exact h'.unique r h (hp'.trans hp.symm)
    case inr => exact absurd (hp.trans hp'.symm) (r.disjoint i j h h')
  kernel := by
    intro i v h hp
    rw [hw]
    refine lastMapping_of_unique (c := ⟨i, _⟩) ((mem_mappings_iff hd hi).mpr <| .inr ⟨i, h, rfl⟩) hp ?_
    intro d hm hp'
    obtain ⟨j, h', he⟩ | ⟨j, h', he⟩ := (mem_mappings_iff hd hi).mp hm <;> subst he
    case inl => exact absurd (hp'.trans hp.symm) (r.disjoint j i h' h)
    case inr => rw [h'.unique r h (hp'.trans hp.symm)]
  others := by
    intro v hnd hni
    rw [hw, lastMapping_of_none, Option.map_none]
    intro c hm
    obtain ⟨j, h, he⟩ | ⟨j, h, he⟩ := (mem_mappings_iff hd hi).mp hm <;> subst he
    case inl => exact hnd j h
    case inr => exact hni j h

end Mappings

-- The page table of the kernel is exactly what has been asked for. Both functions terminate.
theorem exact_kernelPageTable {π : Platform} {boot : Boot} (r : Response π entries boot)
    (tables : PageTableRef → BitVec 9 → PageTableEntry) (s₀ : PhysicalMemoryManagement.State) :
    (WellFormed π.HigherHalfDirectMapOffset.toNat entries → ∃ fuel,
      (initByAddingUsablePagesToMemoryManagement fuel π.HigherHalfDirectMapOffset.toNat s₀ entries).isSome) ∧
    ∀ fuel s₁ m,
      initByAddingUsablePagesToMemoryManagement fuel π.HigherHalfDirectMapOffset.toNat s₀ entries = some (s₁, m) →
      (∃ fuel, (initializeVirtualMemory fuel π ⟨tables, 0⟩ { boot with maxPhysicalMemory := .ofNat 64 m }).isSome) ∧
      ∀ fuel s root,
        initializeVirtualMemory fuel π ⟨tables, 0⟩ { boot with maxPhysicalMemory := .ofNat 64 m } = some (s, root) →
        π.Fresh s.allocated → Exact π entries boot s root := by
  refine ⟨fun wf => ?_, fun fuel s₁ m h => ?_⟩
  case refine_1 =>
    have ⟨s', m, hs, _⟩ := initByAddingUsablePagesToMemoryManagement_represents (s := s₀) wf le_rfl
    exact ⟨entries.length, by simp [hs]⟩
  case refine_2 =>
    have hm : m = largestEnd entries := by simpa using foldlM_addEntry_max r.low h
    subst hm
    refine ⟨?_, fun fuel s root hs hf => ?_⟩
    case refine_1 =>
      have hle := largestEnd_le r.low
      have hd : (pageLoop (2 ^ 52 + 1) 0 (.ofNat 64 (largestEnd entries))).isSome :=
        pageLoop_isSome (by rw [BitVec.toNat_ofNat]; omega) (by rw [BitVec.toNat_ofNat]; omega)
      have hi : (pageLoop (2 ^ 52 + 1) boot.KernelStart boot.KernelEnd).isSome :=
        pageLoop_isSome r.finish (by have := r.finish; omega)
      exact ⟨_, initializeVirtualMemory_isSome hd hi⟩
    case refine_2 =>
      have ⟨direct, image, hd, hi, hw, hr⟩ := walk_initializeVirtualMemory hs hf
      have hd (i : BitVec 64) := mem_direct_iff (i := i) r hd
      have hi (i : BitVec 64) := mem_image_iff (i := i) r hi
      have hc (c : Mapping) := mappings_bounded (π := π) (c := c) hd hi r
      exact exact_of_walk hd hi r (hw hc) hr

-- The memory map of the machine with 2 MiB of memory.
def smallMemmap : List MemmapEntry :=
  [⟨0, 0x1000, .reserved⟩, ⟨0x1000, 0x1ef000, .usable⟩, ⟨0x1f0000, 0x3000, .kernelAndModules⟩,
    ⟨0x1f3000, 0xd000, .usable⟩]

theorem wellFormed_smallMemmap : WellFormed 0xffff800000000000 smallMemmap where
  positive := by decide
  page     := by decide
  aligned  := by decide
  nonempty := by decide
  sorted   := by decide
  disjoint := by simp [usable, smallMemmap, Set.Ico_disjoint_Ico]
  separate := by decide
  bounded  := by decide

theorem kernelPage_smallMachine (h : KernelPage smallMachine v) :
    0xffffffff80000000 ≤ v.toNat ∧ v.toNat ≤ 0xffffffff80002000 := by
  have hs : smallMachine.KernelStart.toNat = 0xffffffff80000000 := rfl
  have hf : smallMachine.KernelEnd.toNat = 0xffffffff80002800 := rfl
  have ⟨hd, hl, hu⟩ := h
  rw [BitVec.le_def, hs] at hl
  rw [BitVec.lt_def, hf] at hu
  omega

theorem directPage_smallMemmap (h : DirectPage smallMemmap i) :
    (i + lowMemory.HigherHalfDirectMapOffset).toNat = i.toNat + 0xffff800000000000 ∧ i.toNat < 0x200000 := by
  have ho : lowMemory.HigherHalfDirectMapOffset.toNat = 0xffff800000000000 := rfl
  have hl : i.toNat < 0x200000 := h.right
  rw [BitVec.toNat_add, ho]
  omega

theorem response_smallMemmap : Response lowMemory smallMemmap smallMachine where
  low          := by decide
  start        := by decide
  physicalBase := by decide
  virtualBase  := by decide
  finish       := by decide
  image        := by
    intro v hv
    have ⟨hl, hu⟩ := kernelPage_smallMachine hv
    have hp : smallMachine.physicalBase.toNat = 0x1f0000 := rfl
    have hb : smallMachine.virtualBase.toNat = 0xffffffff80000000 := rfl
    rw [BitVec.toNat_add, BitVec.toNat_sub, hp, hb]
    omega
  disjoint     := by
    intro i v hi hv hp
    have ⟨ha, hi⟩ := directPage_smallMemmap hi
    have ⟨hl, hu⟩ := kernelPage_smallMachine hv
    rw [pageNumber_eq_iff_toNat, ha] at hp
    omega

-- The page table of this machine. All pages that are allocated for it are usable.
theorem exact_kernelPageTable_smallMachine : ∃ fuel s₁ s root,
    initByAddingUsablePagesToMemoryManagement fuel 0xffff800000000000 ⟨fun _ => ⟨0, 0, 0⟩, 0⟩ smallMemmap =
      some (s₁, 0x200000) ∧
    initializeVirtualMemory 513 lowMemory ⟨fun _ _ => .zero, 0⟩ smallMachine = some (s, root) ∧
    (∀ k < s.allocated, ∃ e ∈ usable smallMemmap, e.base ≤ (lowMemory.toPhysical (lowMemory.page k)).toNat ∧
      (lowMemory.toPhysical (lowMemory.page k)).toNat + 4096 ≤ e.base + e.length) ∧
    walk lowMemory supervisor s root 0xffff8000001ff123 = some 0x1ff000 ∧
    walk lowMemory supervisor s root 0xffffffff80002123 = some 0x1f2000 ∧
    walk lowMemory supervisor s root 0xffff800000200000 = none ∧
    (s.tables root 300).isPresent := by
  obtain ⟨ht, h⟩ := exact_kernelPageTable response_smallMemmap (fun _ _ => .zero) ⟨fun _ => ⟨0, 0, 0⟩, 0⟩
  obtain ⟨fuel, hs⟩ := ht wellFormed_smallMemmap
  obtain ⟨⟨s₁, m⟩, hs⟩ := Option.isSome_iff_exists.mp hs
  have hm : m = 0x200000 := by simpa [smallMemmap, largestEnd] using foldlM_addEntry_max response_smallMemmap.low hs
  subst hm
  obtain ⟨⟨s, root⟩, hi⟩ := Option.isSome_iff_exists.mp <| smallMachine_isSome fun _ _ => .zero
  have ha := allocated_smallMachine_le hi
  have e := (h fuel s₁ _ hs).right 513 s root hi (lowMemory_fresh (ha.trans_lt (by decide)))
  refine ⟨fuel, s₁, s, root, hs, hi, ?_, ?_, ?_, ?_, e.roots 300 (by decide)⟩
  case refine_1 =>
    intro k hk
    refine ⟨⟨0x1000, 0x1ef000, .usable⟩, by simp [usable, smallMemmap], ?_⟩
    rw [toNat_page_lowMemory (by omega)]
    dsimp only
    omega
  case refine_2 => exact e.direct 0x1ff000 _ ⟨by decide, by decide⟩ (by decide)
  case refine_3 => exact e.kernel 0xffffffff80002000 _ ⟨by decide, by decide, by decide⟩ (by decide)
  case refine_4 =>
    refine e.others _ (fun i hi hp => ?_) fun i hi hp => ?_
    case refine_1 =>
      obtain ⟨ha, hi⟩ := directPage_smallMemmap hi
      rw [pageNumber_eq_iff_toNat, ha] at hp
      have hv : (0xffff800000200000 : BitVec 64).toNat = 0xffff800000200000 := rfl
      omega
    case refine_2 =>
      obtain ⟨hl, hu⟩ := kernelPage_smallMachine hi
      rw [pageNumber_eq_iff_toNat] at hp
      have hv : (0xffff800000200000 : BitVec 64).toNat = 0xffff800000200000 := rfl
      omega

end KernelMain
