import Xesual.Heap.FreeList

-- Sequences of calls that are made by a single processor.

namespace Alloc

inductive Call
  | allocate (size : BitVec 64)
  | free     (mem : BitVec 64)
  deriving DecidableEq

def execute (fuel : Nat) (s : State) : Call → Option State
  | .allocate size => (allocate fuel s size).map (·.fst)
  | .free mem      => free fuel s mem

namespace State

-- Each one of the calls returns, and the lock is free when it does.
def Returns (s : State) : List Call → Prop
  | []            => True
  | call :: calls => ∃ fuel s', execute fuel s call = some s' ∧ s'.Unlocked ∧ s'.Returns calls

-- What a call relies on: `allocate` has to find a chunk, and the loop of `free` has to arrive at the end of the list
-- or at a chunk above the block.
def Supports (s : State) : Call → Prop
  | .allocate size => ∃ c, s.Listed c ∧ size + sizeofUnfreeChunk ≤ s.numBytes c
  | .free mem      => ∃ k, (s.cleared mem).next^[k] s.freeList = 0 ∨
    (s.cleared mem).next^[k] s.freeList > mem - sizeofUnfreeChunk

-- Each one of the calls finds what it relies on, in the state that the calls before it have led to.
def SupportsAll (s : State) : List Call → Prop
  | []            => True
  | call :: calls => s.Supports call ∧ ∀ fuel s', execute fuel s call = some s' → s'.SupportsAll calls

end State
end Alloc
