import Xesual.VirtualMemory.Tree

-- The page table of the kernel (`initializeVirtualMemory` in `KernelMain.cpp`), and the page tables of
-- processes, which are created from it by `shallowCopy`.

namespace VirtualMemoryManagement

-- What `initializeVirtualMemory` is given by the boot loader and the linker.
structure Boot where
  maxPhysicalMemory : BitVec 64
  KernelStart       : BitVec 64
  KernelEnd         : BitVec 64
  physicalBase      : BitVec 64
  virtualBase       : BitVec 64

-- The values of the variable of a loop `for (i = start; i < finish; i += PageSize)`. The loop is cut off after
-- `fuel` iterations.
def pageLoop : Nat → (start finish : BitVec 64) → Option (List (BitVec 64))
  | 0,        _, _      => none
  | fuel + 1, i, finish =>
    if i < finish then (pageLoop fuel (i + 4096) finish).map (i :: ·) else some []

-- The body of the loop that allocates the tables of level 3 for the higher half.
def preallocate (π : Platform) (root : PageTableRef) (s : State) (i : BitVec 9) : State :=
  if !(s.tables root i).isPresent then (allocatePageTableForTableEntry π s root i).fst else s

-- The indices 256, ..., 511 of the higher half.
def higherHalfIndices : List (BitVec 9) :=
  (List.range 256).map fun k => .ofNat 9 (256 + k)

def initializeVirtualMemory (fuel : Nat) (π : Platform) (s : State) (boot : Boot) :
    Option (State × PageTableRef) := do
  let (s, KernelPageTable) := allocateRootPageTable π s
  let direct ← pageLoop fuel 0 boot.maxPhysicalMemory
  let s := mapAll π s KernelPageTable (direct.map fun i => ⟨i + π.HigherHalfDirectMapOffset, i⟩)
  let image ← pageLoop fuel boot.KernelStart boot.KernelEnd
  let s := mapAll π s KernelPageTable (image.map fun i => ⟨i, boot.physicalBase + (i - boot.virtualBase)⟩)
  let s := higherHalfIndices.foldl (preallocate π KernelPageTable) s
  some (s, KernelPageTable)

-- The calls of `map` for the direct mapping and for the kernel image.
def Boot.mappings (boot : Boot) (π : Platform) (direct image : List (BitVec 64)) : List Mapping :=
  (direct.map fun i => ⟨i + π.HigherHalfDirectMapOffset, i⟩) ++
    image.map fun i => ⟨i, boot.physicalBase + (i - boot.virtualBase)⟩

-- A page table for a process, to which pages are mapped thereafter.
def processPageTable (π : Platform) (s : State) (KernelPageTable : PageTableRef) (calls : List Mapping) :
    State × PageTableRef :=
  let (s, root) := shallowCopy π s KernelPageTable
  (mapAll π s root calls, root)

-- The tables only distinguish the bits 0-47 of an address, of which the highest one determines the half.
def HigherHalf (v : BitVec 64) : Prop :=
  v.getLsbD 47

instance {v : BitVec 64} : Decidable (HigherHalf v) :=
  inferInstanceAs <| Decidable (v.getLsbD 47 = true)

-- The page of the address belongs to the direct mapping or to the kernel image.
def Boot.Maps (boot : Boot) (π : Platform) (v : BitVec 64) : Prop :=
  (∃ i : BitVec 64, 4096 ∣ i.toNat ∧ i < boot.maxPhysicalMemory ∧
    pageNumber (i + π.HigherHalfDirectMapOffset) = pageNumber v) ∨
  (∃ i : BitVec 64, boot.KernelStart ≤ i ∧ 4096 ∣ i.toNat - boot.KernelStart.toNat ∧ i < boot.KernelEnd ∧
    pageNumber i = pageNumber v)

end VirtualMemoryManagement
