import Xesual.Segments.Processor
import Xesual.Traps.Entry

-- The interrupt descriptor table (`Traps.h` and `Traps.cpp`) as it is stored in memory, and how the processor uses it.

namespace Traps

open Segments (TableRegister)

section Entries

-- The flags consist of the type, the bit for storage segments, the privilege level and the bit for present entries.
structure IDTEntry where
  baseLow  : BitVec 16
  selector : BitVec 16
  zero     : BitVec 8
  flags    : BitVec 8
  baseMid  : BitVec 16
  baseHigh : BitVec 32
  padding  : BitVec 32

namespace IDTEntry

def interruptGate : BitVec 8 := 0x8E

def setGate (handler : BitVec 64) (selector : BitVec 16) (gateFlags : BitVec 8) (canBeCalledByUserspace : Bool) :
    IDTEntry where
  baseLow  := (handler &&& 0xffff).setWidth 16
  baseMid  := (handler >>> 16 &&& 0xffff).setWidth 16
  baseHigh := (handler >>> 32 &&& 0xffffffff).setWidth 32
  selector := selector
  zero     := 0
  padding  := 0
  flags    := if canBeCalledByUserspace then gateFlags ||| 0x60 else gateFlags

def getGate (entry : IDTEntry) : BitVec 64 :=
  entry.baseLow.setWidth 64 ||| entry.baseMid.setWidth 64 <<< 16 ||| entry.baseHigh.setWidth 64 <<< 32

-- The first and the second eight bytes of an entry.
def lowBits (entry : IDTEntry) : BitVec 64 :=
  entry.baseMid ++ entry.flags ++ entry.zero ++ entry.selector ++ entry.baseLow

def highBits (entry : IDTEntry) : BitVec 64 :=
  entry.padding ++ entry.baseHigh

def sizeof : Nat := 16

-- `&IDTEntries[i]`
def address (IDTEntries : BitVec 64) (i : Nat) : BitVec 64 :=
  IDTEntries + .ofNat 64 (sizeof * i)

def store (m : Memory) (a : BitVec 64) (entry : IDTEntry) : Memory :=
  (m.store a entry.lowBits).store (a + 8) entry.highBits

end IDTEntry
end Entries

section Table

-- The symbols `_isr0` to `_isr128` and `_irq0` to `_irq15`.
inductive Handler
  | isr (index : Nat)
  | irq (index : Nat)
  deriving DecidableEq

deriving instance DecidableEq for Stub

-- What is found at a symbol in `Traps.S`. Some of them do not exist.
def Handler.stub : Handler → Option Stub
  | .isr index =>
    if index = 2 ∨ index = 125 then some .haltInterrupt
    else if index = 123 then some .clockInterrupt
    else if index = 124 then some .badTLBInterrupt
    else if index = 126 then some .noOpInterrupt
    else if [8, 10, 11, 12, 13, 14].contains index then some (.withErrorCode index)
    else if index < 32 ∨ index = 128 then some (.noErrorCode index)
    else none
  | .irq index => if index < 16 then some (.noErrorCode (32 + index)) else none

-- The calls of `setGate` by `setupIDTTable`: the index of the entry, the handler, and whether it can be called by
-- processes.
def gates : List (Nat × Handler × Bool) :=
  let exceptions : List (Nat × Handler × Bool) := (List.range 32).map fun i => (i, .isr i, false)
  let devices    : List (Nat × Handler × Bool) := (List.range 16).map fun i => (32 + i, .irq i, false)
  let others     : List (Nat × Handler × Bool) := [123, 124, 125, 126].map fun i => (i, .isr i, false)
  let syscall    : List (Nat × Handler × Bool) := [(128, .isr 128, true)]
  exceptions ++ devices ++ others ++ syscall

def codeSelector : BitVec 16 := .ofNat 16 (Segments.Table.offsetof .kernelCode)

-- The address of each symbol is determined by the linker.
def setupIDTTable (IDTEntries : BitVec 64) (symbol : Handler → BitVec 64) (m : Memory) : Memory :=
  gates.foldl (fun m gate => IDTEntry.store m (IDTEntry.address IDTEntries gate.fst)
    (.setGate (symbol gate.snd.fst) codeSelector IDTEntry.interruptGate gate.snd.snd)) m

-- The register `idtr` after `loadIDTTable`. The limit is the size of the table, instead of the offset of its last byte.
def loadIDTTable (IDTEntries : BitVec 64) : TableRegister :=
  ⟨IDTEntries, .ofNat 16 (IDTEntry.sizeof * 256)⟩

end Table

section Processor

-- What is read from the 16 bytes of an entry.
structure Gate where
  offset         : BitVec 64
  selector       : BitVec 16
  stackTable     : BitVec 3
  type           : BitVec 5
  privilegeLevel : BitVec 2
  present        : Bool
  deriving DecidableEq

def Gate.ofBits (low high : BitVec 64) : Gate where
  offset         := high.extractLsb' 0 32 ++ low.extractLsb' 48 16 ++ low.extractLsb' 0 16
  selector       := low.extractLsb' 16 16
  stackTable     := low.extractLsb' 32 3
  type           := low.extractLsb' 40 5
  privilegeLevel := low.extractLsb' 45 2
  present        := low.getLsbD 47

inductive Fault
  | generalProtection (errorCode : BitVec 16)
  | segmentNotPresent (errorCode : BitVec 16)
  deriving DecidableEq

-- The gate for an interrupt. It is checked whether it can be used by the instruction `int`, but not for interrupts of
-- devices or exceptions. The last bit of the error code tells between the two.
def deliver (idtr : TableRegister) (m : Memory) (cpl : BitVec 2) (software : Bool) (vector : BitVec 8) :
    Except Fault Gate :=
  let errorCode := vector.setWidth 16 * 8 + 2 + if software then 0 else 1
  let address := idtr.base + vector.setWidth 64 * 16
  let gate := Gate.ofBits (m.load address) (m.load (address + 8))
  if idtr.limit.toNat < vector.toNat * 16 + 15 then .error (.generalProtection errorCode)
  else if gate.type ≠ 0xE ∧ gate.type ≠ 0xF then .error (.generalProtection errorCode)
  else if software ∧ gate.privilegeLevel < cpl then .error (.generalProtection errorCode)
  else if !gate.present then .error (.segmentNotPresent errorCode)
  else .ok gate

end Processor
end Traps
