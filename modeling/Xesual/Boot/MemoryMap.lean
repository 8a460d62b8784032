import Xesual.Library.Execution
import Xesual.PhysicalMemory.FreeList

-- How memory is handed over to the allocator at boot (`initByAddingUsablePagesToMemoryManagement` in
-- `KernelMain.cpp`), and what the allocator does thereafter as long as nothing is freed.

namespace PhysicalMemoryManagement

-- Handing out the last pages of a range.
namespace Range

def last (r : Range) (n : Nat) : Range where
  base     := r.base + 4096 * (r.numPages - n)
  numPages := n

-- The range that is left, if any.
def without (r : Range) (n : Nat) : List Range :=
  if n < r.numPages then [⟨r.base, r.numPages - n⟩] else []

def total (rs : List Range) : Nat :=
  (rs.map numPages).sum

end Range

-- The free list consists of exactly the given ranges, in this order, and its links fit together in both
-- directions.
structure State.Represents (s : State) (free : List Range) : Prop where
  freeList : s.FreeList (free.map Range.base)
  numPages : ∀ r ∈ free, s.numPages r.base = r.numPages
  head     : s.freeList ≠ 0 → s.prev s.freeList = 0

-- The calls of `allocatePages` since boot: the state of the allocator and the ranges that were returned.
structure Calls where
  memory : State
  owned  : List Range

-- A call of `allocatePages(numPages)`.
def Calls.step (fuel : Nat) (σ : Calls) (numPages : Nat) : Option Calls :=
  (allocatePages fuel σ.memory numPages).map fun (memory, base) =>
    ⟨memory, if base = 0 then σ.owned else ⟨base, numPages⟩ :: σ.owned⟩

-- What a successful call of `allocatePages(numPages)` has to achieve, where `usable` are the ranges that were handed
-- over, `owned` are the results of the previous calls, and `free` and `free'` are the ranges on the free list
-- before and after the call.
structure Takes (usable owned free free' : List Range) (numPages base : Nat) : Prop where
  fits      : ∃ r ∈ free, numPages ≤ r.numPages
  found     : base ≠ 0
  aligned   : 4096 ∣ base
  inside    : ∃ r ∈ usable, (Range.mk base numPages).pages ⊆ r.pages
  earlier   : ∀ r ∈ owned, Disjoint (Range.mk base numPages).pages r.pages
  remaining : ∀ r ∈ free', Disjoint (Range.mk base numPages).pages r.pages
  total     : Range.total free' + numPages = Range.total free

-- A call only fails if there is no range that is large enough, and has no effect then.
def Allocates (usable owned free free' : List Range) (numPages : Nat) (s s' : State) (base : Nat) : Prop :=
  ((∀ r ∈ free, r.numPages < numPages) ∧ base = 0 ∧ s' = s) ∨ Takes usable owned free free' numPages base

end PhysicalMemoryManagement

namespace KernelMain

open PhysicalMemoryManagement (State Range wrap init freeRange)

-- `LIMINE_MEMMAP_USABLE`, `LIMINE_MEMMAP_RESERVED`, ...
inductive MemmapType
  | usable
  | reserved
  | acpiReclaimable
  | acpiNvs
  | badMemory
  | bootloaderReclaimable
  | kernelAndModules
  | framebuffer
  deriving DecidableEq

-- `limine_memmap_entry`
structure MemmapEntry where
  base   : Nat
  length : Nat
  type   : MemmapType

-- The assignment to `maxPhysicalMemory` in the loop.
def MemmapEntry.updateMax (entry : MemmapEntry) (maxPhysicalMemory : Nat) : Nat :=
  if wrap (entry.base + entry.length) > maxPhysicalMemory then wrap (entry.base + entry.length)
  else maxPhysicalMemory

-- The iteration of the loop for one entry of the memory map. Besides the memory it carries the variable
-- `maxPhysicalMemory`.
def addEntry (fuel HigherHalfDirectMapOffset : Nat) (acc : State × Nat) (entry : MemmapEntry) :
    Option (State × Nat) :=
  let (s, maxPhysicalMemory) := acc
  let maxPhysicalMemory := entry.updateMax maxPhysicalMemory
  if entry.type = .usable then
    (freeRange fuel s (wrap (entry.base + HigherHalfDirectMapOffset))
      (wrap (wrap (entry.base + entry.length) + HigherHalfDirectMapOffset))).map (·, maxPhysicalMemory)
  else
    some (s, maxPhysicalMemory)

def initByAddingUsablePagesToMemoryManagement (fuel HigherHalfDirectMapOffset : Nat) (s : State)
    (entries : List MemmapEntry) : Option (State × Nat) :=
  entries.foldlM (addEntry fuel HigherHalfDirectMapOffset) (init s, 0)

def usable (entries : List MemmapEntry) : List MemmapEntry :=
  entries.filter (·.type = .usable)

-- The pages of an entry in the direct mapping.
def MemmapEntry.range (offset : Nat) (e : MemmapEntry) : Range where
  base     := e.base + offset
  numPages := e.length / 4096

-- What Limine promises about the memory map and the direct mapping: the latter lies above address `0` and
-- does not exceed the 64-bit address space.
structure WellFormed (offset : Nat) (entries : List MemmapEntry) : Prop where
  positive   : 0 < offset
  page       : 4096 ∣ offset
  aligned    : ∀ e ∈ usable entries, 4096 ∣ e.base ∧ 4096 ∣ e.length
  nonempty   : ∀ e ∈ usable entries, 0 < e.length
  sorted     : (usable entries).Pairwise (fun e e' => e.base ≤ e'.base)
  disjoint   : (usable entries).Pairwise
    (fun e e' => Disjoint (Set.Ico e.base (e.base + e.length)) (Set.Ico e'.base (e'.base + e'.length)))
  separate   : (usable entries).Pairwise (fun e e' => e.base + e.length ≠ e'.base)
  bounded    : ∀ e ∈ usable entries, e.base + e.length + offset ≤ 2 ^ 64

end KernelMain
