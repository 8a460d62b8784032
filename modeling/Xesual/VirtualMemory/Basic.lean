import Xesual.Library.Trie

-- Page tables (`Paging.h` and `VirtualMemoryManagement.cpp`), and how they are read by the processor.

-- The bit-fields of a page table entry, from the lowest to the highest bit.
@[ext]
structure PageTableEntry where
  isPresent         : Bool
  isWritable        : Bool
  isUserAccessible  : Bool
  writeThrough      : Bool
  cacheDisabled     : Bool
  hasBeenAccessed   : Bool
  available1        : Bool
  pageSize          : Bool
  isGlobal          : Bool
  available2        : BitVec 3
  physicalAddress   : BitVec 28
  reserved          : BitVec 12
  available3        : BitVec 11
  executionDisabled : Bool
  deriving DecidableEq

namespace PageTableEntry

open BitVec (ofBool)

def zero : PageTableEntry where
  isPresent         := false
  isWritable        := false
  isUserAccessible  := false
  writeThrough      := false
  cacheDisabled     := false
  hasBeenAccessed   := false
  available1        := false
  pageSize          := false
  isGlobal          := false
  available2        := 0
  physicalAddress   := 0
  reserved          := 0
  available3        := 0
  executionDisabled := false

-- The bits 0-11 and 52-63 of an entry.
def lower (e : PageTableEntry) : BitVec 12 :=
  e.available2 ++ ofBool e.isGlobal ++ ofBool e.pageSize ++ ofBool e.available1 ++
    ofBool e.hasBeenAccessed ++ ofBool e.cacheDisabled ++ ofBool e.writeThrough ++
    ofBool e.isUserAccessible ++ ofBool e.isWritable ++ ofBool e.isPresent

def upper (e : PageTableEntry) : BitVec 12 :=
  ofBool e.executionDisabled ++ e.available3

-- The other member of the union.
def raw (e : PageTableEntry) : BitVec 64 :=
  e.upper ++ (e.reserved ++ e.physicalAddress) ++ e.lower

-- The assignment of `address >> PageShift` to the field `physicalAddress`, which has only 28 bits.
def setPhysicalAddress (e : PageTableEntry) (address : BitVec 64) : PageTableEntry :=
  { e with physicalAddress := (address >>> 12).setWidth 28 }

-- The assignments in `allocatePageForTableEntry` (lines 19-26) and in `map` (lines 86-89).
def refer (e : PageTableEntry) (address : BitVec 64) : PageTableEntry :=
  { e.setPhysicalAddress address with
    pageSize          := false
    isPresent         := true
    isWritable        := true
    isUserAccessible  := true
    cacheDisabled     := false
    writeThrough      := false
    executionDisabled := false }

def mapTo (e : PageTableEntry) (address : BitVec 64) : PageTableEntry :=
  { e.setPhysicalAddress address with
    isPresent        := true
    isWritable       := true
    isUserAccessible := true }

-- The physical address in the bits 12-51 of an entry, as it is read by the processor.
def frame (e : PageTableEntry) : BitVec 64 :=
  (e.raw.extractLsb' 12 40 ++ 0#12).setWidth 64

end PageTableEntry

namespace VirtualMemoryManagement

-- The virtual address of a page table. All of physical memory is mapped at `HigherHalfDirectMapOffset`.
abbrev PageTableRef := BitVec 64

-- What the functions below are given by the rest of the kernel: the offset of the direct mapping and the
-- results of the calls of `allocatePage`. The `k`-th call returns `page k`, which is zero if it fails.
structure Platform where
  HigherHalfDirectMapOffset : BitVec 64
  page                      : Nat → BitVec 64

namespace Platform

variable (π : Platform)

def toPhysical (address : BitVec 64) : BitVec 64 := address - π.HigherHalfDirectMapOffset
def toVirtual (address : BitVec 64) : BitVec 64 := address + π.HigherHalfDirectMapOffset

-- The lambda expression in `map`. The field `physicalAddress` is promoted to `int`, so that the shift is
-- done with 32 bits, and the result is converted to 64 bits by sign extension.
def pe2v (e : PageTableEntry) : PageTableRef :=
  ((e.physicalAddress.setWidth 32) <<< 12).signExtend 64 + π.HigherHalfDirectMapOffset

-- The page that is cleared by `allocatePageTableForTableEntry` (line 53).
def tableAddress (e : PageTableEntry) : PageTableRef :=
  π.toVirtual ((e.physicalAddress.setWidth 64) <<< 12)

end Platform

-- The page tables and the number of calls of `allocatePage` so far. A page is a table of 512 entries. As all
-- pages that are accessed have the same distance to `HigherHalfDirectMapOffset` modulo the size of a page,
-- different pages do not overlap.
structure State where
  tables    : PageTableRef → BitVec 9 → PageTableEntry
  allocated : Nat

namespace State

def write (s : State) (t : PageTableRef) (i : BitVec 9) (e : PageTableEntry) : State :=
  { s with tables := Trie.write s.tables t i e }

-- `memset(t, 0, PageSize)`
def clear (s : State) (t : PageTableRef) : State :=
  { s with tables := Function.update s.tables t fun _ => .zero }

end State

def allocatePage (π : Platform) (s : State) : State × BitVec 64 :=
  ({ s with allocated := s.allocated + 1 }, π.page s.allocated)

-- The entry is given by its table `t` and its index `i`.
def allocatePageForTableEntry (π : Platform) (s : State) (t : PageTableRef) (i : BitVec 9) : State × Bool :=
  let (s, frame) := allocatePage π s
  if frame = 0 then
    (s, false)
  else
    (s.write t i ((s.tables t i).refer (π.toPhysical frame)), true)

-- The result includes the argument of `freePage`, for which the field `physicalAddress` is promoted to `int`.
def freePageForTableEntry (s : State) (t : PageTableRef) (i : BitVec 9) : State × BitVec 64 :=
  let e := s.tables t i
  let v := (e.physicalAddress.setWidth 32 <<< 12).signExtend 64
  (s.write t i { e with physicalAddress := 0, isPresent := false }, v)

-- The null pointer is returned if the allocation fails.
def allocateRootPageTable (π : Platform) (s : State) : State × PageTableRef :=
  let (s, frame) := allocatePage π s
  if frame = 0 then (s, 0) else (s.clear frame, frame)

def allocatePageTableForTableEntry (π : Platform) (s : State) (t : PageTableRef) (i : BitVec 9) :
    State × Bool :=
  let (s, success) := allocatePageForTableEntry π s t i
  if success then (s.clear (π.tableAddress (s.tables t i)), true) else (s, false)

section Map

-- The step of `map` from a table to the one at the next level, which is made for the levels 4, 3 and 2. The
-- result of the allocation is ignored.
def nextLevel (π : Platform) (s : State) (t : PageTableRef) (i : BitVec 9) : State × PageTableRef :=
  let s := if !(s.tables t i).isPresent then (allocatePageTableForTableEntry π s t i).fst else s
  (s, π.pe2v (s.tables t i))

def pageAddress (virtualAddress : BitVec 64) : BitVec 64 :=
  (virtualAddress &&& 0xFFFFffffFFFF) >>> 12

def level4Index (v : BitVec 64) : BitVec 9 := ((pageAddress v >>> 27) &&& 0x1FF).setWidth 9
def level3Index (v : BitVec 64) : BitVec 9 := ((pageAddress v >>> 18) &&& 0x1FF).setWidth 9
def level2Index (v : BitVec 64) : BitVec 9 := ((pageAddress v >>> 9) &&& 0x1FF).setWidth 9
def level1Index (v : BitVec 64) : BitVec 9 := (pageAddress v &&& 0x1FF).setWidth 9

-- Lines 72-84: the way to the table of level 1.
def level1Table (π : Platform) (s : State) (root : PageTableRef) (virtualAddress : BitVec 64) :
    State × PageTableRef :=
  let (s, level3Address) := nextLevel π s root (level4Index virtualAddress)
  let (s, level2Address) := nextLevel π s level3Address (level3Index virtualAddress)
  nextLevel π s level2Address (level2Index virtualAddress)

def map (π : Platform) (s : State) (root : PageTableRef) (virtualAddress toPhysical : BitVec 64) : State :=
  let (s, level1Address) := level1Table π s root virtualAddress
  let e := s.tables level1Address (level1Index virtualAddress)
  s.write level1Address (level1Index virtualAddress) (e.mapTo toPhysical)

end Map

def shallowCopy (π : Platform) (s : State) (root : PageTableRef) : State × PageTableRef :=
  let (s, addr) := allocatePage π s
  ({ s with tables := Function.update s.tables addr (s.tables root) }, addr)

section Walk

-- The entry is only used by the processor if it meets the condition `permits`.
def State.fetch (s : State) (permits : PageTableEntry → Bool) (t : PageTableRef) (i : BitVec 9) :
    Option PageTableEntry :=
  if permits (s.tables t i) then some (s.tables t i) else none

-- The four-level walk of the processor. The table at a physical address is found in the direct mapping.
def walk (π : Platform) (permits : PageTableEntry → Bool) (s : State) (root : PageTableRef) (v : BitVec 64) :
    Option (BitVec 64) := do
  let e₄ ← s.fetch permits root (v.extractLsb' 39 9)
  let e₃ ← s.fetch permits (π.toVirtual e₄.frame) (v.extractLsb' 30 9)
  let e₂ ← s.fetch permits (π.toVirtual e₃.frame) (v.extractLsb' 21 9)
  let e₁ ← s.fetch permits (π.toVirtual e₂.frame) (v.extractLsb' 12 9)
  some e₁.frame

-- The accesses of the kernel require that an entry is present, and those in ring 3 also that the entry is
-- accessible by users.
def supervisor (e : PageTableEntry) : Bool := e.isPresent
def user (e : PageTableEntry) : Bool := e.isPresent && e.isUserAccessible

end Walk
end VirtualMemoryManagement
