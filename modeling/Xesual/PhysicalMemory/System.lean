import Xesual.Library.Execution
import Xesual.PhysicalMemory.FreeList

-- The allocator together with its callers, on a single processor.

namespace PhysicalMemoryManagement

-- The ranges in `pending` are known to the boot code, but have not been handed in yet. The ranges in `owned`
-- have been returned by `allocatePages` and have not been freed since.
structure System where
  memory  : State
  pending : List Range
  owned   : List Range

namespace System

-- The state after `init`, where memory has arbitrary contents.
def start (memory : State) (ranges : List Range) : System where
  memory  := init memory
  pending := ranges
  owned   := []

inductive Action
  | handIn   (r : Range)
  | allocate (numPages : Nat)
  | free     (r : Range)
  | write    (a : Nat) (v : MemoryChunk)

-- A range can only be handed in or freed by its holder, and only owners write to memory. The loops of the
-- allocator are cut off after `fuel` iterations.
def step (fuel : Nat) (σ : System) : Action → Option System
  | .handIn r =>
    if r ∈ σ.pending then
      (freeRange fuel σ.memory r.base (r.base + 4096 * r.numPages)).map fun memory =>
        { σ with memory, pending := σ.pending.erase r }
    else
      none
  | .allocate numPages =>
    if 1 ≤ numPages then
      (allocatePages fuel σ.memory numPages).map fun (memory, base) =>
        if base = 0 then { σ with memory } else { σ with memory, owned := ⟨base, numPages⟩ :: σ.owned }
    else
      none
  | .free r =>
    if r ∈ σ.owned then
      (freePages fuel σ.memory r.base r.numPages).map fun memory =>
        { σ with memory, owned := σ.owned.erase r }
    else
      none
  | .write a v =>
    if ∃ r ∈ σ.owned, r.base ≤ a ∧ a < r.base + 4096 * r.numPages then
      some { σ with memory := σ.memory.store a v }
    else
      none

-- No page is owned twice.
structure Exclusive (σ : System) : Prop where
  owned : σ.owned.Pairwise (fun r r' => Disjoint r.pages r'.pages)
  free  : ∀ r ∈ σ.owned, ∀ c, σ.memory.Listed c → Disjoint r.pages (σ.memory.pages c)
  chunk : ∀ c d, σ.memory.Listed c → σ.memory.Listed d → c ≠ d →
    Disjoint (σ.memory.pages c) (σ.memory.pages d)

-- The ranges that the boot code may hand in through `freeRange`. The end of such a range is given by a
-- pointer.
structure HandedIn (ranges : List Range) : Prop where
  valid    : ∀ r ∈ ranges, r.Valid
  pointer  : ∀ r ∈ ranges, r.base + 4096 * r.numPages < 2 ^ 64
  disjoint : ranges.Pairwise (fun r r' => Disjoint r.pages r'.pages)

end System
end PhysicalMemoryManagement
