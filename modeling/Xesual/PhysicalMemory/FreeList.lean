import Xesual.PhysicalMemory.Basic

namespace PhysicalMemoryManagement

open Function Linked

-- A range of pages, as it is handed out by `allocatePages` and handed in by `freePages`.
@[ext]
structure Range where
  base     : Nat
  numPages : Nat
  deriving DecidableEq

namespace Range

def pages (r : Range) : Set Nat :=
  Set.Ico r.base (r.base + 4096 * r.numPages)

-- The range is page-aligned, not empty and lies in the 64-bit address space.
structure Valid (r : Range) : Prop where
  aligned  : 4096 ∣ r.base
  nonempty : 0 < r.numPages
  bounded  : r.base + 4096 * r.numPages ≤ 2 ^ 64

theorem Valid.base_mem {r : Range} (v : r.Valid) : r.base ∈ r.pages := by
  have := v.nonempty
  simp only [pages, Set.mem_Ico]
  omega

instance {r : Range} : Decidable r.Valid :=
  decidable_of_iff (4096 ∣ r.base ∧ 0 < r.numPages ∧ r.base + 4096 * r.numPages ≤ 2 ^ 64)
    ⟨fun ⟨h₁, h₂, h₃⟩ => ⟨h₁, h₂, h₃⟩, fun v => ⟨v.aligned, v.nonempty, v.bounded⟩⟩

instance {r r' : Range} : Decidable (Disjoint r.pages r'.pages) :=
  decidable_of_iff _ Set.Ico_disjoint_Ico.symm

end Range

namespace State

section Fields

variable (s : State) (c v : Nat) (m : MemoryChunk)

@[simp] theorem store_next : (s.store c m).next = update s.next c m.next := by
  funext a; by_cases h : a = c <;> simp [next, store, h]

@[simp] theorem store_prev : (s.store c m).prev = update s.prev c m.prev := by
  funext a; by_cases h : a = c <;> simp [prev, store, h]

@[simp] theorem store_numPages : (s.store c m).numPages = update s.numPages c m.numPages := by
  funext a; by_cases h : a = c <;> simp [numPages, store, h]

@[simp] theorem setNext_next : (s.setNext c v).next = update s.next c v := by simp [setNext]
@[simp] theorem setNext_prev : (s.setNext c v).prev = s.prev := by simp [setNext, prev]
@[simp] theorem setNext_numPages : (s.setNext c v).numPages = s.numPages := by simp [setNext, numPages]
@[simp] theorem setNext_freeList : (s.setNext c v).freeList = s.freeList := rfl

@[simp] theorem setPrev_next : (s.setPrev c v).next = s.next := by simp [setPrev, next]
@[simp] theorem setPrev_prev : (s.setPrev c v).prev = update s.prev c v := by simp [setPrev]
@[simp] theorem setPrev_numPages : (s.setPrev c v).numPages = s.numPages := by simp [setPrev, numPages]
@[simp] theorem setPrev_freeList : (s.setPrev c v).freeList = s.freeList := rfl

@[simp] theorem setNumPages_next : (s.setNumPages c v).next = s.next := by simp [setNumPages, next]
@[simp] theorem setNumPages_prev : (s.setNumPages c v).prev = s.prev := by simp [setNumPages, prev]
@[simp] theorem setNumPages_numPages : (s.setNumPages c v).numPages = update s.numPages c v := by
  simp [setNumPages]
@[simp] theorem setNumPages_freeList : (s.setNumPages c v).freeList = s.freeList := rfl

@[simp] theorem setFreeList_next : (s.setFreeList v).next = s.next := rfl
@[simp] theorem setFreeList_prev : (s.setFreeList v).prev = s.prev := rfl
@[simp] theorem setFreeList_numPages : (s.setFreeList v).numPages = s.numPages := rfl
@[simp] theorem setFreeList_freeList : (s.setFreeList v).freeList = v := rfl

end Fields

-- The free list consists of the chunks `cs`: it is sorted by address, the chunks are disjoint, and `next`
-- and `prev` fit together. As the header of a chunk lies in its first page, no chunk is empty.
structure FreeList (s : State) (cs : List Nat) : Prop where
  chain    : Chain s.next 0 s.freeList cs
  ordered  : cs.Pairwise (fun c d => c + 4096 * s.numPages c ≤ d)
  linked   : ∀ c ∈ cs, s.next c ≠ 0 → s.prev (s.next c) = c
  aligned  : ∀ c ∈ cs, 4096 ∣ c
  nonempty : ∀ c ∈ cs, 0 < s.numPages c
  bounded  : ∀ c ∈ cs, c + 4096 * s.numPages c ≤ 2 ^ 64

-- The free list is sorted, disjoint and doubly linked.
def WellFormed (s : State) : Prop :=
  ∃ cs, s.FreeList cs

theorem covered_iff_of_chain {s : State} {cs : List Nat} (h : Chain s.next 0 s.freeList cs) {a : Nat} :
    a ∈ s.covered ↔ ∃ c ∈ cs, a ∈ s.pages c := by
  simp [covered, Listed, h.mem_iff]

theorem freeList_nil {s : State} (h : s.freeList = 0) : s.FreeList [] :=
  ⟨h, by simp, by simp, by simp, by simp, by simp⟩

theorem covered_eq_empty {s : State} (h : s.freeList = 0) : s.covered = ∅ := by
  have hc : Chain s.next 0 s.freeList [] := h
  ext a
  simp [covered_iff_of_chain hc]

namespace FreeList

variable {s : State} {cs : List Nat} {c d : Nat}

theorem mem_iff (fl : s.FreeList cs) : c ∈ cs ↔ s.Listed c :=
  fl.chain.mem_iff

theorem covered_iff (fl : s.FreeList cs) {a : Nat} : a ∈ s.covered ↔ ∃ c ∈ cs, a ∈ s.pages c :=
  covered_iff_of_chain fl.chain

theorem sorted (fl : s.FreeList cs) : cs.Pairwise (· < ·) := by
  refine fl.ordered.imp_of_mem ?_
  intro c _ hc _ h
  have := fl.nonempty c hc
  omega

theorem nodup (fl : s.FreeList cs) : cs.Nodup :=
  fl.sorted.imp (fun h => Nat.ne_of_lt h)

theorem ne_null (fl : s.FreeList cs) (h : c ∈ cs) : c ≠ 0 :=
  Segment.ne_null fl.chain h

theorem mem_pages (fl : s.FreeList cs) (h : c ∈ cs) : c ∈ s.pages c := by
  have := fl.nonempty c h
  simp only [pages, Set.mem_Ico]
  omega

theorem mem_covered (fl : s.FreeList cs) (h : c ∈ cs) : c ∈ s.covered :=
  fl.covered_iff.mpr ⟨c, h, fl.mem_pages h⟩

theorem disjoint (fl : s.FreeList cs) (hc : c ∈ cs) (hd : d ∈ cs) (h : c ≠ d) :
    Disjoint (s.pages c) (s.pages d) := by
  have key : cs.Pairwise (fun c d => Disjoint (s.pages c) (s.pages d)) := by
    refine fl.ordered.imp ?_
    intro c d h
    rw [Set.disjoint_left]
    intro a ha hd
    simp only [pages, Set.mem_Ico] at ha hd
    omega
  have : Std.Symm (fun c d => Disjoint (s.pages c) (s.pages d)) := ⟨fun _ _ h => h.symm⟩
  exact key.forall hc hd h

-- A free list that results from another one by removing some of its chunks, without changing the sizes of
-- the other chunks.
theorem of_sublist {s' : State} {cs' : List Nat} (fl : s.FreeList cs) (h : cs'.Sublist cs)
    (hn : ∀ c ∈ cs', s'.numPages c = s.numPages c) (chain : Chain s'.next 0 s'.freeList cs')
    (linked : ∀ c ∈ cs', s'.next c ≠ 0 → s'.prev (s'.next c) = c) : s'.FreeList cs' where
  chain    := chain
  linked   := linked
  ordered  := (fl.ordered.sublist h).imp_of_mem (fun hc _ => by rw [hn _ hc]; exact id)
  aligned  := fun c hc => fl.aligned c (h.subset hc)
  nonempty := fun c hc => hn c hc ▸ fl.nonempty c (h.subset hc)
  bounded  := fun c hc => (hn c hc).symm ▸ fl.bounded c (h.subset hc)

-- `Memory.freeList` points to a chunk that does not lie above any other chunk.
theorem freeList_mem (fl : s.FreeList cs) (h : cs ≠ []) : s.freeList ∈ cs := by
  cases cs
  case nil  => contradiction
  case cons => simp [fl.chain.left]

theorem freeList_le (fl : s.FreeList cs) (h : c ∈ cs) : s.freeList ≤ c := by
  cases cs
  case nil => cases h
  case cons =>
    rw [fl.chain.left]
    cases h
    case head   => exact le_rfl
    case tail h => exact (List.rel_of_pairwise_cons fl.sorted h).le

theorem next_mem (fl : s.FreeList cs) (hc : c ∈ cs) (h : s.next c ≠ 0) : s.next c ∈ cs :=
  fl.mem_iff.mpr <| .next (fl.mem_iff.mp hc) h

theorem lt_next (fl : s.FreeList cs) (hc : c ∈ cs) (h : s.next c ≠ 0) : c < s.next c :=
  fl.chain.rel_next fl.sorted hc h

end FreeList

-- The free list that consists of the range `r`, in otherwise empty memory.
def single (r : Range) : State where
  chunk a  := if a = r.base then ⟨0, 0, r.numPages⟩ else ⟨0, 0, 0⟩
  freeList := r.base

theorem single_freeList {r : Range} (v : r.Valid) (h : r.base ≠ 0) : (single r).FreeList [r.base] := by
  have hn : (single r).next r.base = 0 := by simp [next, single]
  have hp : (single r).numPages r.base = r.numPages := by simp [numPages, single]
  constructor
  case chain    => exact ⟨rfl, h, hn⟩
  case ordered  => simp
  case linked   => simp [hn]
  case aligned  => simpa using v.aligned
  case nonempty => simpa [hp] using v.nonempty
  case bounded  => simpa [hp] using v.bounded

theorem single_covered {r : Range} (v : r.Valid) (h : r.base ≠ 0) : (single r).covered = r.pages := by
  ext a
  rw [(single_freeList v h).covered_iff]
  simp [pages, Range.pages, numPages, single]

end State
end PhysicalMemoryManagement
