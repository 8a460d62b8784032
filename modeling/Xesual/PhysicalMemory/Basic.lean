import Xesual.Library.Chain

-- The allocator of physical pages (`PhysicalMemoryManagement.cpp`), without its lock: the functions below
-- are what `freePages` and `allocatePages` do between their two checks of `Memory.usingLock`.

namespace PhysicalMemoryManagement

def PageShift : Nat := 12
def PageSize : Nat := 1 <<< PageShift

theorem PageSize_eq : PageSize = 4096 := rfl

-- Addresses and page counts are values of type `uint64_t`. They are represented by natural numbers, and
-- the results of their arithmetic by remainders modulo `2 ^ 64`.
def wrap (n : Nat) : Nat := n % 2 ^ 64

-- The header of a free chunk. It lies at the beginning of the first page of the chunk.
structure MemoryChunk where
  next     : Nat
  prev     : Nat
  numPages : Nat
  deriving DecidableEq

-- The contents of memory and `Memory.freeList`. The allocator only ever accesses the headers at the
-- beginning of pages, so memory is given by the header that can be read at each address. The null
-- pointer is address `0`.
@[ext]
structure State where
  chunk    : Nat → MemoryChunk
  freeList : Nat

namespace State

def next (s : State) (c : Nat) : Nat := (s.chunk c).next
def prev (s : State) (c : Nat) : Nat := (s.chunk c).prev
def numPages (s : State) (c : Nat) : Nat := (s.chunk c).numPages

def store (s : State) (c : Nat) (v : MemoryChunk) : State :=
  { s with chunk := Function.update s.chunk c v }

def setNext (s : State) (c v : Nat) : State := s.store c { s.chunk c with next := v }
def setPrev (s : State) (c v : Nat) : State := s.store c { s.chunk c with prev := v }
def setNumPages (s : State) (c : Nat) (v : Nat) : State := s.store c { s.chunk c with numPages := v }

def setFreeList (s : State) (v : Nat) : State := { s with freeList := v }

-- `memset(base, 0, length)`
def memset (s : State) (base : Nat) (length : Nat) : State :=
  { s with chunk := fun a => if base ≤ a ∧ a < base + length then ⟨0, 0, 0⟩ else s.chunk a }

-- The addresses `[c, c + 4096 * c.numPages)` of the chunk at `c`.
def pages (s : State) (c : Nat) : Set Nat :=
  Set.Ico c (c + 4096 * s.numPages c)

-- The chunks that are reachable from `Memory.freeList` through `next`.
def Listed (s : State) (c : Nat) : Prop :=
  Linked.Reachable s.next 0 s.freeList c

-- The addresses that are covered by the free list.
def covered (s : State) : Set Nat :=
  { a | ∃ c, s.Listed c ∧ a ∈ s.pages c }

end State

-- The part of `init` that concerns the free list. It does not touch the rest of memory.
def init (s : State) : State :=
  s.setFreeList 0

section FreePages

-- The loop of `freePages` (lines 62-70). It stops at the first chunk above `base`, and `prev` is the
-- chunk that it visited before. The loop is cut off after `fuel` iterations.
def findPosition (s : State) (base : Nat) : Nat → (prev next : Nat) → Option (Nat × Nat)
  | 0,        _,    _    => none
  | fuel + 1, prev, next =>
    if next = 0 then
      some (prev, next)
    else if next > base then
      some (prev, next)
    else
      findPosition s base fuel next (s.next next)

-- Lines 72-79: linking the chunk `base` to its successor, and absorbing the successor if it is adjacent.
def State.linkNext (s : State) (base numPages next : Nat) : State :=
  let s := s.setNext base next
  if s.next base ≠ 0 then
    let s := s.setPrev (s.next base) base
    if wrap (base + wrap (PageSize * numPages)) = s.next base then
      let s := s.setNumPages base (wrap (s.numPages base + s.numPages (s.next base)))
      s.setNext base (s.next (s.next base))
    else
      s
  else
    s

-- Lines 81-88: linking the chunk `base` to its predecessor, and extending the predecessor if it is
-- adjacent. The final `self = prev` has no effect since `self` is not used thereafter.
def State.linkPrev (s : State) (base numPages prev : Nat) : State :=
  let s := s.setPrev base prev
  if s.prev base ≠ 0 then
    let s := s.setNext (s.prev base) base
    if wrap (s.prev base + wrap (PageSize * s.numPages (s.prev base))) = base then
      s.setNumPages prev (wrap (s.numPages prev + numPages))
    else
      s
  else
    s

-- Lines 72-88: linking the chunk `base` in between `prev` and `next`.
def State.link (s : State) (base numPages prev next : Nat) : State :=
  (s.linkNext base numPages next).linkPrev base numPages prev

-- Lines 51-53: clearing the freed pages and writing the size of the new chunk.
def State.clear (s : State) (base numPages : Nat) : State :=
  let s := s.memset base (wrap (PageSize * numPages))
  s.setNumPages base numPages

def freePages (fuel : Nat) (s : State) (base numPages : Nat) : Option State :=
  let s := s.clear base numPages
  if s.freeList = 0 then
    some (s.setFreeList base)
  else
    (findPosition s base fuel 0 s.freeList).map fun (prev, next) =>
      s.link base numPages prev next

def freeRange (fuel : Nat) (s : State) (start finish : Nat) : Option State :=
  freePages fuel s start (wrap (finish + 2 ^ 64 - start) / PageSize)

end FreePages

section AllocatePages

-- The loop of `allocatePages` (lines 99-118) up to the chunk in which the request fits. The result is the
-- null pointer if there is no such chunk.
def findChunk (s : State) (numPages : Nat) : Nat → Nat → Option Nat
  | 0,        _     => none
  | fuel + 1, chunk =>
    if chunk = 0 then
      some 0
    else if s.numPages chunk ≥ numPages then
      some chunk
    else
      findChunk s numPages fuel (s.next chunk)

-- Lines 105-110: the three parts of unlinking a chunk that has no pages left.
def State.unlinkPrev (s : State) (chunk : Nat) : State :=
  if s.prev chunk ≠ 0 then s.setNext (s.prev chunk) (s.next chunk) else s

def State.unlinkNext (s : State) (chunk : Nat) : State :=
  if s.next chunk ≠ 0 then s.setPrev (s.next chunk) (s.prev chunk) else s

def State.unlinkHead (s : State) (chunk : Nat) : State :=
  if chunk = s.freeList then s.setFreeList (s.next chunk) else s

def State.unlink (s : State) (chunk : Nat) : State :=
  let s := s.unlinkPrev chunk
  let s := s.unlinkNext chunk
  s.unlinkHead chunk

-- Lines 102-111: taking pages from the end of a chunk.
def State.take (s : State) (chunk numPages : Nat) : State :=
  let s := s.setNumPages chunk (s.numPages chunk - numPages)
  if s.numPages chunk = 0 then s.unlink chunk else s

-- The expression in line 115. It is evaluated after the lock has been released.
def State.returnAddress (s : State) (chunk : Nat) : Nat :=
  wrap (chunk + wrap (PageSize * s.numPages chunk))

def allocatePages (fuel : Nat) (s : State) (numPages : Nat) : Option (State × Nat) :=
  (findChunk s numPages fuel s.freeList).map fun chunk =>
    if chunk = 0 then
      (s, 0)
    else
      let s := s.take chunk numPages
      (s, s.returnAddress chunk)

end AllocatePages
end PhysicalMemoryManagement
