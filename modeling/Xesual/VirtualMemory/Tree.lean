import Xesual.VirtualMemory.Basic

-- The page tables that belong to a root, seen as a tree.

namespace VirtualMemoryManagement

-- The first `n` calls of `allocatePage` are successful, and return different pages of the lower 2 GiB of
-- physical memory.
structure Platform.Fresh (π : Platform) (n : Nat) : Prop where
  nonNull  : ∀ k < n, π.page k ≠ 0
  distinct : ∀ k < n, ∀ l < n, π.page k = π.page l → k = l
  aligned  : ∀ k < n, 4096 ∣ (π.toPhysical (π.page k)).toNat
  low      : ∀ k < n, (π.toPhysical (π.page k)).toNat < 2 ^ 31

-- The table that an entry refers to.
def Platform.child (π : Platform) (e : PageTableEntry) : Option PageTableRef :=
  if e.isPresent then some (π.pe2v e) else none

-- The table at the end of a path. The tables of level 4, 3, 2 and 1 have paths of length 0, 1, 2 and 3.
def State.table (s : State) (π : Platform) (root : PageTableRef) (p : List (BitVec 9)) : Option PageTableRef :=
  Trie.descend π.child s.tables root p

-- The entry at an index of the table at the end of a path. If there is no such table then the result is the
-- same as for an empty table.
def State.entry (s : State) (π : Platform) (root : PageTableRef) (p : List (BitVec 9)) (i : BitVec 9) :
    PageTableEntry :=
  match s.table π root p with
  | some t => s.tables t i
  | none   => .zero

-- The path to the table of level 1 that is responsible for an address.
def path (v : BitVec 64) : List (BitVec 9) :=
  [level4Index v, level3Index v, level2Index v]

-- The entry is as it is left behind by the functions of the kernel.
structure Clean (e : PageTableEntry) : Prop where
  reserved : e.reserved = 0
  user     : e.isPresent → e.isUserAccessible

-- The tables form an unshared tree, they have been obtained by `allocatePage`, and all entries are clean. In
-- the upper levels the processor agrees with `map` about where the next table is.
structure Tree (π : Platform) (s : State) (root : PageTableRef) : Prop where
  unshared  : Trie.Unshared π.child s.tables root 3
  allocated : ∀ {p t}, p.length ≤ 3 → s.table π root p = some t → ∃ k < s.allocated, π.page k = t
  clean     : ∀ {p t}, p.length ≤ 3 → s.table π root p = some t → ∀ i, Clean (s.tables t i)
  upper     : ∀ {p t}, p.length < 3 → s.table π root p = some t → ∀ i, (s.tables t i).isPresent →
    π.pe2v (s.tables t i) = π.toVirtual (s.tables t i).frame

-- A call of `map`.
structure Mapping where
  virtualAddress : BitVec 64
  toPhysical     : BitVec 64

-- The page number of an address is given by its bits 12-47.
def pageNumber (v : BitVec 64) : BitVec 36 :=
  v.extractLsb' 12 36

def mapAll (π : Platform) (s : State) (root : PageTableRef) (calls : List Mapping) : State :=
  calls.foldl (fun s c => map π s root c.virtualAddress c.toPhysical) s

-- A new root table, followed by some calls of `map`. Initially, memory has arbitrary contents.
def build (π : Platform) (tables : PageTableRef → BitVec 9 → PageTableEntry) (calls : List Mapping) :
    State × PageTableRef :=
  let (s, root) := allocateRootPageTable π ⟨tables, 0⟩
  (mapAll π s root calls, root)

-- The last call of `map` for the page of an address.
def lastMapping (calls : List Mapping) (v : BitVec 64) : Option Mapping :=
  calls.reverse.find? (fun c => pageNumber c.virtualAddress = pageNumber v)

end VirtualMemoryManagement
