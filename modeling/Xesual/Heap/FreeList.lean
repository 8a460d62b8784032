import Xesual.Heap.Basic
import Xesual.Library.DoublyLinked

namespace Alloc

open Linked Memory

-- The bytes of the header at `c`.
def header (c : BitVec 64) : Set (BitVec 64) :=
  region c sizeofFreeChunk

namespace State

variable {s s' : State} {S : Set (BitVec 64)} {c d q v : BitVec 64}

section Fields

theorem disjoint_words {i j : BitVec 64} (h : 8 ≤ (j - i).toNat) (h' : 8 ≤ (i - j).toNat) :
    Disjoint (region (c + i) 8) (region (c + j) 8) := by
  apply disjoint_region <;> bv_omega

@[simp] theorem setNext_next : (s.setNext c v).next c = v := load_store
@[simp] theorem setPrev_prev : (s.setPrev c v).prev c = v := load_store
@[simp] theorem setNumBytes_numBytes : (s.setNumBytes c v).numBytes c = v := load_store

@[simp] theorem setNext_prev : (s.setNext c v).prev c = s.prev c := by
  refine load_store_of_disjoint ?_
  apply disjoint_region <;> bv_omega

@[simp] theorem setNext_numBytes : (s.setNext c v).numBytes c = s.numBytes c := by
  refine load_store_of_disjoint ?_
  apply disjoint_region <;> bv_omega

@[simp] theorem setPrev_next : (s.setPrev c v).next c = s.next c := by
  refine load_store_of_disjoint ?_
  apply disjoint_region <;> bv_omega

@[simp] theorem setPrev_numBytes : (s.setPrev c v).numBytes c = s.numBytes c :=
  load_store_of_disjoint <| disjoint_words (by decide) (by decide)

@[simp] theorem setNumBytes_next : (s.setNumBytes c v).next c = s.next c := by
  refine load_store_of_disjoint ?_
  apply disjoint_region <;> bv_omega

@[simp] theorem setNumBytes_prev : (s.setNumBytes c v).prev c = s.prev c :=
  load_store_of_disjoint <| disjoint_words (by decide) (by decide)

@[simp] theorem setFreeList_memory : (s.setFreeList v).memory = s.memory := rfl
@[simp] theorem setNext_freeList : (s.setNext c v).freeList = s.freeList := rfl
@[simp] theorem setPrev_freeList : (s.setPrev c v).freeList = s.freeList := rfl
@[simp] theorem setNumBytes_freeList : (s.setNumBytes c v).freeList = s.freeList := rfl

end Fields

section Lock

variable {fuel : Nat}

-- The state in which the lock has been acquired.
def locked (s : State) : State :=
  { s with lock := s.lock.store 0 2 1 }

theorem acquire_of_held {lock : Bytes} (h : lock.load 0 2 ≠ 0) : Alloc.acquire fuel lock = none := by
  induction fuel generalizing lock
  case zero => rfl
  case succ ih =>
    have hl : (lock.store 0 2 1).load 0 2 ≠ 0 := by
      rw [Bytes.load_store]
      decide
    simp only [Alloc.acquire, Spinlock.testAndSet, h, decide_false, Bool.false_eq_true, ↓reduceIte]
    exact ih hl

-- A processor that acquires the lock returns if and only if the lock is free.
theorem acquire_eq_some_iff : s.acquire fuel = some s' ↔ s.Unlocked ∧ 0 < fuel ∧ s' = s.locked := by
  by_cases h : s.Unlocked
  case neg => simp [acquire, acquire_of_held h, h]
  case pos =>
    cases fuel
    case zero => simp [acquire, Alloc.acquire]
    case succ =>
      have hl : decide (s.lock.load 0 2 = 0) = true := decide_eq_true h
      simp only [acquire, Alloc.acquire, Spinlock.testAndSet, hl, ↓reduceIte, Option.map_some, Option.some.injEq, h,
        Nat.succ_pos, true_and]
      exact eq_comm

theorem locked_numBytes : s.locked.numBytes = s.numBytes := rfl

theorem not_unlocked_locked : ¬s.locked.Unlocked := by
  rw [Unlocked, locked, Bytes.load_store]
  decide

theorem unlocked_release : s.release.Unlocked :=
  Bytes.load_store_of_le (b := 0) (by decide)

end Lock

section Changes

-- The three words of a header.
theorem word_subset {i : BitVec 64} (h : i.toNat + 8 ≤ 24) : region (c + i) 8 ⊆ header c := by
  apply region_subset
  simp only [sizeofFreeChunk]
  bv_omega

theorem next_subset : region c 8 ⊆ header c :=
  region_subset (by simp [sizeofFreeChunk])

variable (h : s.memory.Changes s'.memory S) (hd : Disjoint (header c) S)

include h hd

-- A header does not depend on the bytes outside of it.
theorem next_of_changes : s'.next c = s.next c :=
  h.load <| hd.mono_left next_subset

theorem prev_of_changes : s'.prev c = s.prev c :=
  h.load <| hd.mono_left <| word_subset (by decide)

theorem numBytes_of_changes : s'.numBytes c = s.numBytes c :=
  h.load <| hd.mono_left <| word_subset (by decide)

end Changes

-- The state in which `free` looks for the position of the block.
def cleared (s : State) (mem : BitVec 64) : State :=
  s.clear (mem - sizeofUnfreeChunk) (s.blockSize mem)

-- The bytes that a chunk occupies in any case: the ones of its header, even if it is smaller than that.
def extent (s : State) (c : BitVec 64) : Nat :=
  max sizeofFreeChunk (s.numBytes c).toNat

-- The addresses `[c, c + c.numBytes)` of the chunk at `c`.
def bytes (s : State) (c : BitVec 64) : Set (BitVec 64) :=
  region c (s.numBytes c).toNat

-- The chunks that are reachable from `Memory.freeList` through `next`.
def Listed (s : State) (c : BitVec 64) : Prop :=
  Reachable s.next 0 s.freeList c

-- The addresses that are covered by the free list.
def covered (s : State) : Set (BitVec 64) :=
  { k | ∃ c, s.Listed c ∧ k ∈ s.bytes c }

-- The free list consists of the chunks `cs`: it is sorted by address, the chunks and their headers are disjoint,
-- and `next` and `prev` fit together. The `prev` field of the first chunk is `q`.
structure FreeList (s : State) (q : BitVec 64) (cs : List (BitVec 64)) : Prop where
  list    : DoubleChain s.next s.prev 0 q s.freeList cs
  ordered : cs.Pairwise (fun c d => c.toNat + s.extent c ≤ d.toNat)
  bounded : ∀ c ∈ cs, c.toNat + s.extent c ≤ 2 ^ 64

-- The free list is sorted, disjoint and doubly linked. There is nothing in front of the first chunk.
def WellFormed (s : State) : Prop :=
  ∃ cs, s.FreeList 0 cs

theorem header_le_extent : 24 ≤ s.extent c := by
  simp only [extent, sizeofFreeChunk]
  omega

theorem numBytes_le_extent : (s.numBytes c).toNat ≤ s.extent c := by
  simp only [extent]
  omega

theorem header_subset : header c ⊆ region c (s.extent c) :=
  region_subset <| by simpa [sizeofFreeChunk] using header_le_extent

namespace FreeList

variable {cs pre post : List (BitVec 64)}

theorem chain (fl : s.FreeList q cs) : Chain s.next 0 s.freeList cs :=
  fl.list.chain

theorem mem_iff (fl : s.FreeList q cs) : c ∈ cs ↔ s.Listed c :=
  fl.chain.mem_iff

theorem covered_iff (fl : s.FreeList q cs) {k : BitVec 64} : k ∈ s.covered ↔ ∃ c ∈ cs, k ∈ s.bytes c := by
  simp [covered, fl.mem_iff]

theorem locked (fl : s.FreeList q cs) : s.locked.FreeList q cs :=
  ⟨fl.list, fl.ordered, fl.bounded⟩

theorem release (fl : s.FreeList q cs) : s.release.FreeList q cs :=
  ⟨fl.list, fl.ordered, fl.bounded⟩

theorem ne_null (fl : s.FreeList q cs) (h : c ∈ cs) : c ≠ 0 :=
  fl.chain.ne_null h

theorem sorted (fl : s.FreeList q cs) : cs.Pairwise (fun c d => c.toNat < d.toNat) := by
  refine fl.ordered.imp ?_
  intro c _ h
  have := s.header_le_extent (c := c)
  omega

theorem nodup (fl : s.FreeList q cs) : cs.Nodup :=
  fl.sorted.imp fun h he => Nat.ne_of_lt h (congrArg _ he)

theorem disjoint (fl : s.FreeList q cs) (hc : c ∈ cs) (hd : d ∈ cs) (h : c ≠ d) :
    Disjoint (region c (s.extent c)) (region d (s.extent d)) := by
  have key : cs.Pairwise (fun c d => Disjoint (region c (s.extent c)) (region d (s.extent d))) := by
    refine fl.ordered.imp_of_mem ?_
    intro c d _ hd h
    exact disjoint_region_of_le h (fl.bounded d hd)
  have : Std.Symm (fun c d => Disjoint (region c (s.extent c)) (region d (s.extent d))) := ⟨fun _ _ h => h.symm⟩
  exact key.forall hc hd h

theorem disjoint_header (fl : s.FreeList q cs) (hc : c ∈ cs) (hd : d ∈ cs) (h : c ≠ d) :
    Disjoint (header c) (header d) :=
  (fl.disjoint hc hd h).mono header_subset header_subset

end FreeList

section Requests

-- The free list as a list of chunks with their sizes.
structure Chunk where
  base     : BitVec 64
  numBytes : Nat
  deriving DecidableEq

def chunk (s : State) (c : BitVec 64) : Chunk :=
  ⟨c, (s.numBytes c).toNat⟩

def Chunks (s : State) (l : List Chunk) : Prop :=
  ∃ cs, Chain s.next 0 s.freeList cs ∧ l = cs.map s.chunk

theorem locked_chunk : s.locked.chunk = s.chunk := rfl

theorem Chunks.release {l : List Chunk} (h : s.Chunks l) : s.release.Chunks l := h

-- The address behind the last byte of a chunk.
def finish (s : State) (c : BitVec 64) : Nat :=
  c.toNat + (s.numBytes c).toNat

-- The chunk `c` is the first one on the list with at least `n` bytes.
def FirstFit (s : State) (n : Nat) (c : BitVec 64) : Prop :=
  ∃ pre post, Chain s.next 0 s.freeList (pre ++ c :: post) ∧
    (∀ d ∈ pre, (s.numBytes d).toNat < n) ∧ n ≤ (s.numBytes c).toNat

-- What a request of `size` bytes is supposed to result in: either a block at `p`, which is cut off a chunk together
-- with the 8 bytes in front of it, or nothing at all.
def Serves (s : State) (size : BitVec 64) (s' : State) (p : BitVec 64) : Prop :=
  if p = 0 then
    s'.memory = s.memory ∧ s'.freeList = s.freeList ∧ ∀ c, s.Listed c → (s.numBytes c).toNat < size.toNat + 8
  else
    ∃ pre c n post, s.Chunks (pre ++ ⟨c, n⟩ :: post) ∧ size.toNat + 8 ≤ n ∧
      region (p - 8) (size.toNat + 8) ⊆ region c n ∧
      s'.Chunks (pre ++ (if n = size.toNat + 8 then [] else [⟨c, n - (size.toNat + 8)⟩]) ++ post)

-- The request has an outcome, and it is the one that it is supposed to have.
def Sound (s : State) (size : BitVec 64) : Prop :=
  ∃ fuel s' p, allocate fuel s size = some (s', p) ∧ s.Serves size s' p

-- The sizes for which the arithmetic is exact. The size of the request together with its header has to be a number
-- of 64 bits, unless there is no chunk for what is left of it, and the block must not lie at the very end of the
-- address space, where its address is the null pointer. This may also cancel out a size that is too large.
def Exact (s : State) (size : BitVec 64) : Prop :=
  if size.toNat + 8 < 2 ^ 64 then
    size = 0 → ∀ c, s.FirstFit 8 c → s.finish c ≠ 2 ^ 64
  else
    (∀ c, s.Listed c → (s.numBytes c).toNat < size.toNat + 8 - 2 ^ 64) ∨
    (size.toNat + 8 = 2 ^ 64 ∧ s.finish s.freeList + 8 = 2 ^ 64)

end Requests
end State
end Alloc
