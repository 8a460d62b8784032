import Xesual.VirtualMemory.Tree

-- Calls of `map` during which there may be no page left for a table.

namespace VirtualMemoryManagement

variable (π : Platform) (s s' : State) (root t : PageTableRef) (v w : BitVec 64)

-- The table that an entry refers to, as it is read by the processor.
def Platform.referent (e : PageTableEntry) : Option PageTableRef :=
  if e.isPresent then some (π.toVirtual e.frame) else none

-- The page tables of the levels 4 to 1 that belong to a root.
def Reachable : Prop :=
  ∃ q, q.length ≤ 3 ∧ Trie.descend π.referent s.tables root q = some t

-- The number of tables that are missing on a path from a table.
def missing (t : PageTableRef) : List (BitVec 9) → Nat
  | []     => 0
  | i :: q =>
    match π.referent (s.tables t i) with
    | some u => missing u q
    | none   => q.length + 1

-- There are pages left for all tables that are missing on the path of an address.
def Sufficient : Prop :=
  ∀ k < missing π s root (path v), π.page (s.allocated + k) ≠ 0

-- On the way from `s` to `s'`, the page has been allocated, or an allocation has failed.
def Obtained : Prop :=
  ∃ k, s.allocated ≤ k ∧ k < s'.allocated ∧ π.page k = t ∧ t ≠ 0

def Failed : Prop :=
  ∃ k, s.allocated ≤ k ∧ k < s'.allocated ∧ π.page k = 0

-- Memory is only changed in the tables of the root and in pages that have been allocated.
def Confined : Prop :=
  ∀ x j, s'.tables x j ≠ s.tables x j → Reachable π s root x ∨ Obtained π s s' x

-- A call of `map` only changes the tables of the root and new ones. If an allocation fails, it does not change any
-- translation either.
structure Survives : Prop where
  confined     : Confined π s (map π s root v w) root
  translations : Failed π s (map π s root v w) → ∀ a x,
    walk π supervisor s root a = some x → walk π supervisor (map π s root v w) root a = some x

-- The call of `allocatePage` may be made by `map`, as there are that many tables missing.
def Requested (k : Nat) : Prop :=
  s.allocated ≤ k ∧ k < s.allocated + missing π s root (path v)

-- The tables on the path of an address, as well as the pages that are returned to `map`, are in the lower 2 GiB of
-- physical memory, where the processor and `map` agree about their addresses. The pages are not in use.
structure Addressable : Prop where
  present  : ∀ {q i t}, q ++ [i] <+: path v → Trie.descend π.referent s.tables root q = some t →
    (s.tables t i).isPresent → π.pe2v (s.tables t i) = π.toVirtual (s.tables t i).frame
  aligned  : ∀ {k}, Requested π s root v k → π.page k ≠ 0 → 4096 ∣ (π.toPhysical (π.page k)).toNat
  low      : ∀ {k}, Requested π s root v k → π.page k ≠ 0 → (π.toPhysical (π.page k)).toNat < 2 ^ 31
  unused   : ∀ {k}, Requested π s root v k → π.page k ≠ 0 → ¬Reachable π s root (π.page k)
  distinct : ∀ {k l}, Requested π s root v k → Requested π s root v l → k < l → π.page l ≠ 0 → π.page k ≠ π.page l

-- There is no address in the entries that are not present, neither on the path nor in the first page of physical
-- memory, and that page is not used for tables.
structure Blank : Prop where
  absent : ∀ {q i t}, q ++ [i] <+: path v → Trie.descend π.referent s.tables root q = some t →
    (s.tables t i).isPresent = false → (s.tables t i).physicalAddress = 0
  null   : ∀ i, (s.tables (π.toVirtual 0) i).isPresent = false ∧ (s.tables (π.toVirtual 0) i).physicalAddress = 0
  unused : ¬Reachable π s root (π.toVirtual 0)
  page   : ∀ {k}, Requested π s root v k → π.page k ≠ 0 → π.page k ≠ π.toVirtual 0

end VirtualMemoryManagement
