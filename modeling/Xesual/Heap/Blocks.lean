import Xesual.Heap.FreeList

-- What the callers of `allocate` do with their blocks.

namespace Alloc

open Memory

namespace State

-- The caller writes to the `size` bytes at `p`, and to nothing else.
structure Written (s s' : State) (p size : BitVec 64) : Prop where
  memory   : s.memory.Changes s'.memory (region p size.toNat)
  lock     : s'.lock = s.lock
  freeList : s'.freeList = s.freeList

-- The block at `p` has been allocated in `s`, and `s₁` is the state thereafter. Whatever the caller writes to the
-- block, `free` finds its size in front of it, and the free list covers the same bytes as in `s` again.
def Undoes (s : State) (size : BitVec 64) (s₁ : State) (p : BitVec 64) : Prop :=
  ∀ s₂, s₁.Written s₂ p size → (s₂.blockSize p).toNat = size.toNat + 8 ∧
    ∃ fuel s₃, free fuel s₂ p = some s₃ ∧ s₃.covered = s.covered

-- The address in front of a block that is cut off the end of the chunk `c`.
def cut (s : State) (c size : BitVec 64) : BitVec 64 :=
  c + (s.numBytes c - (size + 8))

-- A header at this address does not reach into the header of the chunk itself, nor into the one of the chunk behind
-- it.
structure Roomy (s : State) (c size : BitVec 64) : Prop where
  remainder : size.toNat + 8 + 24 ≤ (s.numBytes c).toNat
  next      : s.next c ≠ 0 → (s.cut c size).toNat + 24 ≤ (s.next c).toNat
  bounded   : (s.cut c size).toNat + 24 ≤ 2 ^ 64

end State
end Alloc
