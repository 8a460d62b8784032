import Xesual.Library.Execution
import Xesual.VirtualMemory.Kernel

-- The page table of the kernel together with the page tables of all processes.

namespace VirtualMemoryManagement

structure AddressSpaces where
  memory    : State
  kernel    : PageTableRef
  processes : List PageTableRef

namespace AddressSpaces

-- The page tables of processes are made by `shallowCopy(KernelPageTable)`. Thereafter pages are mapped to the
-- higher half in any table, and to the lower half only in the tables of processes.
inductive Action
  | shallowCopy
  | map (root : PageTableRef) (virtualAddress toPhysical : BitVec 64)

def step (π : Platform) (σ : AddressSpaces) : Action → Option AddressSpaces
  | .shallowCopy =>
    let (memory, root) := shallowCopy π σ.memory σ.kernel
    some { σ with memory, processes := root :: σ.processes }
  | .map root virtualAddress toPhysical =>
    if root ∈ σ.processes ∨ root = σ.kernel ∧ HigherHalf virtualAddress then
      some { σ with memory := map π σ.memory root virtualAddress toPhysical }
    else
      none

def roots (σ : AddressSpaces) : List PageTableRef :=
  σ.kernel :: σ.processes

-- Every address of the higher half is translated in the same way in all address spaces.
def Shared (π : Platform) (permits : PageTableEntry → Bool) (σ : AddressSpaces) : Prop :=
  ∀ r ∈ σ.processes, ∀ v, HigherHalf v →
    walk π permits σ.memory r v = walk π permits σ.memory σ.kernel v

-- Mapping a page to the lower half of one address space does not affect any of the others.
def Isolated (π : Platform) (permits : PageTableEntry → Bool) (σ : AddressSpaces) : Prop :=
  ∀ r v w σ', ¬HigherHalf v → σ.step π (.map r v w) = some σ' → π.Fresh σ'.memory.allocated →
    ∀ r' ∈ σ.roots, r' ≠ r → ∀ a, walk π permits σ'.memory r' a = walk π permits σ.memory r' a

end AddressSpaces
end VirtualMemoryManagement
