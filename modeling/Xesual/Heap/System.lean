import Xesual.Heap.FreeList
import Xesual.Library.Execution

-- The heap together with its callers, on a single processor.

namespace Alloc

open Memory

-- A block of `size` bytes at `base`, as it is known to its holder.
structure Block where
  base : BitVec 64
  size : BitVec 64
  deriving DecidableEq

namespace Block

-- The bytes that the holder may use.
def payload (b : Block) : Set (BitVec 64) :=
  region b.base b.size.toNat

-- The address of the 8 bytes in front of the block.
def front (b : Block) : BitVec 64 :=
  b.base - sizeofUnfreeChunk

-- The bytes that are taken from the free list for the block.
def bytes (b : Block) : Set (BitVec 64) :=
  region b.front (b.size.toNat + 8)

end Block

-- The blocks in `live` have been returned by `allocate` and have not been freed since.
structure System where
  heap : State
  live : List Block

namespace System

def start (heap : State) : System where
  heap := heap
  live := []

inductive Action
  | allocate (size : BitVec 64)
  | free     (b : Block)
  | write    (a : BitVec 64) (v : BitVec 8)

-- A block can only be freed by its holder, and only holders write to memory. The loops are cut off after `fuel`
-- iterations.
def step (fuel : Nat) (σ : System) : Action → Option System
  | .allocate size =>
    if size.toNat + 8 < 2 ^ 64 then
      (Alloc.allocate fuel σ.heap size).map fun (heap, p) =>
        if p = 0 then { σ with heap } else { σ with heap, live := ⟨p, size⟩ :: σ.live }
    else
      none
  | .free b =>
    if b ∈ σ.live then
      (Alloc.free fuel σ.heap b.base).map fun heap => { σ with heap, live := σ.live.erase b }
    else
      none
  | .write a v =>
    if ∃ b ∈ σ.live, (a - b.base).toNat < b.size.toNat then
      some { σ with heap := { σ.heap with memory := fun k => if k = a then v else σ.heap.memory k } }
    else
      none

-- The blocks overlap neither with the headers of the chunks nor with each other.
structure Separate (σ : System) : Prop where
  headers : ∀ b ∈ σ.live, ∀ c, σ.heap.Listed c → Disjoint b.payload (header c)
  blocks  : σ.live.Pairwise (fun b b' => Disjoint b.payload b'.payload)

-- The bytes that may be changed when the block is freed: its own bytes, and the headers on the list.
def scope (σ : System) (b : Block) : Set (BitVec 64) :=
  b.bytes ∪ { k | ∃ c, σ.heap.Listed c ∧ k ∈ header c }

-- The condition under which the heap keeps blocks and headers apart. A chunk that is not used up has to keep enough
-- bytes for its header, and a block that is freed has to have enough bytes for one. The size that is found in front
-- of the block must not exceed the block. If the block is put on an empty list then the size also has to be large
-- enough for the links to be cleared. Finally, the block must not be adjacent to a chunk below it, as both of them
-- stay on the list, nor to a chunk in the middle of the list, as the one behind it keeps its link to it.
def Careful (σ : System) : Action → Prop
  | .allocate size => ∀ c, σ.heap.FirstFit (size.toNat + 8) c →
    (σ.heap.numBytes c).toNat = size.toNat + 8 ∨ size.toNat + 8 + sizeofFreeChunk ≤ (σ.heap.numBytes c).toNat
  | .free b =>
    sizeofFreeChunk ≤ b.size.toNat + 8 ∧
    (σ.heap.blockSize b.base).toNat ≤ b.size.toNat + 8 ∧
    (σ.heap.freeList = 0 → 16 ≤ (σ.heap.blockSize b.base).toNat) ∧
    (∀ c, σ.heap.Listed c → c + σ.heap.numBytes c ≠ b.front) ∧
    (∀ c, σ.heap.Listed c → b.front + σ.heap.blockSize b.base = c → c = σ.heap.freeList ∨ σ.heap.next c = 0)
  | .write .. => True

end System
end Alloc
