import Xesual.Boot.Processors

-- The descriptor table of a processor and its task state segment (`GDT.h`), as they are stored in memory.

namespace Segments

open BitVec (ofBool)

section Entries

-- The members of the packed structs are bit-fields, where the first one takes the least significant bits.
structure UserAccessByte where
  accessed                 : Bool
  readableWriteable        : Bool
  directionConforming      : Bool
  executable               : Bool
  isUserSegment            : Bool
  descriptorPrivilegeLevel : BitVec 2
  present                  : Bool
  deriving DecidableEq

namespace UserAccessByte

-- `UserAccessByte(rw, executable, level)`
def segment (rw executable : Bool) (level : BitVec 2) : UserAccessByte where
  accessed                 := false
  readableWriteable        := rw
  directionConforming      := false
  executable               := executable
  isUserSegment            := true
  descriptorPrivilegeLevel := level
  present                  := true

-- `UserAccessByte()`
def null : UserAccessByte :=
  ⟨false, false, false, false, false, 0, false⟩

def bits (access : UserAccessByte) : BitVec 8 :=
  ofBool access.present ++ access.descriptorPrivilegeLevel ++ ofBool access.isUserSegment ++
    ofBool access.executable ++ ofBool access.directionConforming ++ ofBool access.readableWriteable ++
    ofBool access.accessed

end UserAccessByte

structure SystemAccessByte where
  type                     : BitVec 4
  isUserSegment            : Bool
  descriptorPrivilegeLevel : BitVec 2
  present                  : Bool

namespace SystemAccessByte

def AvailableTSS : BitVec 4 := 0x9

-- `SystemAccessByte(type, dpl)`
def system (type : BitVec 4) (dpl : BitVec 2) : SystemAccessByte :=
  ⟨type, false, dpl, true⟩

def bits (access : SystemAccessByte) : BitVec 8 :=
  ofBool access.present ++ access.descriptorPrivilegeLevel ++ ofBool access.isUserSegment ++ access.type

end SystemAccessByte

structure Flags where
  reserved       : Bool := false
  isLongModeCode : Bool := false
  size           : Bool := false
  granularity    : Bool := false

namespace Flags

def longModeCode : Flags := { isLongModeCode := true }

def bits (flags : Flags) : BitVec 4 :=
  ofBool flags.granularity ++ ofBool flags.size ++ ofBool flags.isLongModeCode ++ ofBool flags.reserved

end Flags

-- The first eight bytes of an entry, where `access` is one of the access bytes.
structure Entry where
  limitLow  : BitVec 16
  baseLow   : BitVec 16
  baseMid   : BitVec 8
  access    : BitVec 8
  limitHigh : BitVec 4
  flags     : BitVec 4
  baseHigh  : BitVec 8

def Entry.bits (entry : Entry) : BitVec 64 :=
  entry.baseHigh ++ entry.flags ++ entry.limitHigh ++ entry.access ++ entry.baseMid ++ entry.baseLow ++ entry.limitLow

-- `UserEntry(limit, base, access, flags)`
def userEntry (limit base : BitVec 32) (access : UserAccessByte) (flags : Flags) : Entry where
  limitLow  := (limit &&& 0xffff).setWidth 16
  limitHigh := (limit >>> 16 &&& 0xff).setWidth 4
  baseLow   := (base &&& 0xffff).setWidth 16
  baseMid   := (base >>> 16 &&& 0xff).setWidth 8
  baseHigh  := (base >>> 24 &&& 0xff).setWidth 8
  access    := access.bits
  flags     := flags.bits

-- The second eight bytes contain the rest of the base address.
structure SystemEntry extends Entry where
  baseHigher : BitVec 32
  reserved   : BitVec 32

-- `SystemEntry(limit, base, access, granularity)`, where `limit` is extended to 32 bits before it is shifted.
def systemEntry (limit : BitVec 16) (base : BitVec 64) (access : SystemAccessByte) (granularity : Flags) :
    SystemEntry where
  limitLow   := limit &&& 0xffff
  limitHigh  := (limit.setWidth 32 >>> 16 &&& 0xff).setWidth 4
  baseLow    := (base &&& 0xffff).setWidth 16
  baseMid    := (base >>> 16 &&& 0xff).setWidth 8
  baseHigh   := (base >>> 24 &&& 0xff).setWidth 8
  baseHigher := (base >>> 32 &&& 0xffffffff).setWidth 32
  reserved   := 0
  access     := access.bits
  flags      := granularity.bits

def SystemEntry.highBits (entry : SystemEntry) : BitVec 64 :=
  entry.reserved ++ entry.baseHigher

end Entries

namespace Table

inductive Member
  | nullEntry
  | kernelCode
  | kernelData
  | userCode32
  | userData32
  | userCode64
  | userData64
  | theEntryForTheTSS
  | theTSSEntryItself
  deriving DecidableEq

def type : Member → Layout
  | .theEntryForTheTSS => GDT.SystemEntry
  | .theTSSEntryItself => GDT.TSSEntry
  | _                  => GDT.UserEntry

def members : List Member :=
  [ .nullEntry, .kernelCode, .kernelData, .userCode32, .userData32, .userCode64, .userData64, .theEntryForTheTSS,
    .theTSSEntryItself ]

def offsetof (f : Member) : Nat :=
  Layout.offsetof type members f

-- The entries for segments, as they are given in `Table::init`.
def entry : Member → Entry
  | .kernelCode => userEntry 0xffffffff 0 (.segment true true 0) .longModeCode
  | .kernelData => userEntry 0xffffffff 0 (.segment true false 0) { size := true }
  | .userCode32 => userEntry 0xffffffff 0 (.segment true true 3) { size := true }
  | .userData32 => userEntry 0xffffffff 0 (.segment true false 3) { size := true }
  | .userCode64 => userEntry 0xffffffff 0 (.segment true true 3) .longModeCode
  | .userData64 => userEntry 0xffffffff 0 (.segment true false 3) { size := true }
  | _           => userEntry 0 0 .null {}

def tssEntry (table : BitVec 64) : SystemEntry :=
  systemEntry (.ofNat 16 GDT.TSSEntry.size) (table + .ofNat 64 (offsetof .theTSSEntryItself))
    (.system SystemAccessByte.AvailableTSS 0) {}

-- `stackPointers[0]` lies behind `reserved0`.
def init (table stackLocation : BitVec 64) (m : Memory) : Memory :=
  let store (m : Memory) (f : Member) := m.store (table + .ofNat 64 (offsetof f)) (entry f).bits
  let m := [Member.nullEntry, .kernelCode, .kernelData, .userCode32, .userData32, .userCode64, .userData64].foldl store m
  let m := m.store (table + .ofNat 64 (offsetof .theEntryForTheTSS)) (tssEntry table).bits
  let m := m.store (table + .ofNat 64 (offsetof .theEntryForTheTSS + 8)) (tssEntry table).highBits
  m.store (table + .ofNat 64 (offsetof .theTSSEntryItself + 4)) stackLocation

end Table
end Segments
