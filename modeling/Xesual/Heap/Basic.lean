import Xesual.Library.Chain
import Xesual.Library.Memory
import Xesual.PhysicalMemory.Locking

-- The heap of the kernel (`Alloc.cpp`). Pointers and sizes have 64 bits, and a chunk is known by the bytes of its
-- header in memory. As blocks of any length are turned into chunks, headers may overlap with anything.

namespace Alloc

def sizeofFreeChunk : Nat := 24
def sizeofUnfreeChunk : BitVec 64 := 8

-- The fields of `Memory`, and the memory that the pointers refer to. The lock lies at the beginning of `Memory`,
-- where it is followed by 6 bytes of padding.
structure State where
  memory   : Memory
  lock     : Bytes
  freeList : BitVec 64

namespace State

-- The fields of the header at `c`, which may belong to a chunk or not.
def next (s : State) (c : BitVec 64) : BitVec 64 := s.memory.load c
def prev (s : State) (c : BitVec 64) : BitVec 64 := s.memory.load (c + 8)
def numBytes (s : State) (c : BitVec 64) : BitVec 64 := s.memory.load (c + 16)

def setNext (s : State) (c v : BitVec 64) : State := { s with memory := s.memory.store c v }
def setPrev (s : State) (c v : BitVec 64) : State := { s with memory := s.memory.store (c + 8) v }
def setNumBytes (s : State) (c v : BitVec 64) : State := { s with memory := s.memory.store (c + 16) v }

def setFreeList (s : State) (v : BitVec 64) : State := { s with freeList := v }

-- `memset(base, 0, count)`, which stores one byte after the other.
def memset (s : State) (base count : BitVec 64) : State :=
  { s with memory := s.memory.fill base 0 count.toNat }

end State

section Lock

-- The loop of `Spinlock::acquire`, which is cut off after `fuel` iterations.
def acquire : Nat → Bytes → Option Bytes
  | 0,        _    => none
  | fuel + 1, lock =>
    let (lock, acquired) := Spinlock.testAndSet lock 0
    if acquired then some lock else acquire fuel lock

def State.acquire (fuel : Nat) (s : State) : Option State :=
  (Alloc.acquire fuel s.lock).map fun lock => { s with lock }

def State.release (s : State) : State :=
  { s with lock := Spinlock.release s.lock 0 }

-- The lock is not held by anyone.
def State.Unlocked (s : State) : Prop :=
  s.lock.load 0 2 = 0

instance {s : State} : Decidable s.Unlocked := inferInstanceAs <| Decidable (_ = _)

end Lock

-- The call in `init`.
def init (s : State) : State :=
  { s with lock := Spinlock.init s.lock 0 }

section Allocate

-- The loop of `allocate` (lines 35-52) up to the chunk in which the request fits. The result is the null pointer
-- if there is no such chunk.
def findChunk (s : State) (actualSize : BitVec 64) : Nat → BitVec 64 → Option (BitVec 64)
  | 0,        _     => none
  | fuel + 1, chunk =>
    if chunk = 0 then
      some 0
    else if s.numBytes chunk ≥ actualSize then
      some chunk
    else
      findChunk s actualSize fuel (s.next chunk)

-- Lines 40-45: the three parts of unlinking a chunk that has no bytes left.
def State.unlinkPrev (s : State) (chunk : BitVec 64) : State :=
  if s.prev chunk ≠ 0 then s.setNext (s.prev chunk) (s.next chunk) else s

def State.unlinkNext (s : State) (chunk : BitVec 64) : State :=
  if s.next chunk ≠ 0 then s.setPrev (s.next chunk) (s.prev chunk) else s

def State.unlinkHead (s : State) (chunk : BitVec 64) : State :=
  if chunk = s.freeList then s.setFreeList (s.next chunk) else s

def State.unlink (s : State) (chunk : BitVec 64) : State :=
  let s := s.unlinkPrev chunk
  let s := s.unlinkNext chunk
  s.unlinkHead chunk

-- Lines 37-46: taking bytes from the end of a chunk.
def State.take (s : State) (chunk actualSize : BitVec 64) : State :=
  let s := s.setNumBytes chunk (s.numBytes chunk - actualSize)
  if s.numBytes chunk = 0 then s.unlink chunk else s

-- The expression in line 49. It is evaluated after the lock has been released.
def State.returnAddress (s : State) (chunk : BitVec 64) : BitVec 64 :=
  chunk + s.numBytes chunk + sizeofUnfreeChunk

-- Nothing is stored in front of the block. If there is no chunk for the request then the lock is not released.
def allocate (fuel : Nat) (s : State) (size : BitVec 64) : Option (State × BitVec 64) := do
  let s ← s.acquire fuel
  let actualSize := size + sizeofUnfreeChunk
  let chunk ← findChunk s actualSize fuel s.freeList
  if chunk = 0 then
    return (s, 0)
  let s := (s.take chunk actualSize).release
  return (s, s.returnAddress chunk)

end Allocate

section Free

-- The loop of `free` (lines 74-80). It stops at the first chunk above `base`, and `prev` is the chunk that it
-- visited before.
def findPosition (s : State) (base : BitVec 64) : Nat → (prev next : BitVec 64) → Option (BitVec 64 × BitVec 64)
  | 0,        _,    _    => none
  | fuel + 1, prev, next =>
    if next = 0 then
      some (prev, next)
    else if next > base then
      some (prev, next)
    else
      findPosition s base fuel next (s.next next)

-- Lines 63-64: clearing the block and writing the size of the new chunk.
def State.clear (s : State) (base numBytes : BitVec 64) : State :=
  (s.memset base numBytes).setNumBytes base numBytes

-- Lines 82-89: linking the chunk `base` to its successor, and absorbing the successor if it is adjacent.
def State.linkNext (s : State) (base numBytes next : BitVec 64) : State :=
  let s := s.setNext base next
  if s.next base ≠ 0 then
    let s := s.setPrev (s.next base) base
    if base + numBytes = s.next base then
      let s := s.setNumBytes base (s.numBytes base + s.numBytes (s.next base))
      s.setNext base (s.next (s.next base))
    else
      s
  else
    s

-- Lines 91-98: linking the chunk `base` to its predecessor, and extending the predecessor if it is adjacent. The
-- final `self = prev` has no effect since `self` is not used thereafter.
def State.linkPrev (s : State) (base numBytes prev : BitVec 64) : State :=
  let s := s.setPrev base prev
  if s.prev base ≠ 0 then
    let s := s.setNext (s.prev base) base
    if s.prev base + s.numBytes (s.prev base) = base then
      s.setNumBytes prev (s.numBytes prev + numBytes)
    else
      s
  else
    s

-- Lines 82-98: linking the chunk `base` in between `prev` and `next`.
def State.link (s : State) (base numBytes prev next : BitVec 64) : State :=
  (s.linkNext base numBytes next).linkPrev base numBytes prev

-- The size of the block, which is read in line 61, is the one that is found in front of it.
def State.blockSize (s : State) (mem : BitVec 64) : BitVec 64 :=
  s.memory.load (mem - sizeofUnfreeChunk)

def free (fuel : Nat) (s : State) (mem : BitVec 64) : Option State := do
  let s ← s.acquire fuel
  let base := mem - sizeofUnfreeChunk
  let numBytes := s.blockSize mem
  let s := s.clear base numBytes
  if s.freeList = 0 then
    return (s.setFreeList base).release
  let (prev, next) ← findPosition s base fuel 0 s.freeList
  return (s.link base numBytes prev next).release

end Free
end Alloc
