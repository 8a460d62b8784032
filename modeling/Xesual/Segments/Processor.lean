import Xesual.Library.Execution
import Xesual.Segments.Table

-- How a processor in 64-bit mode uses the descriptor table when the privilege level changes.

namespace Segments

open ProcessManagement

section Descriptors

-- What is read from the eight bytes of a descriptor. The bit that tells whether it has been used is left out.
structure Descriptor where
  base              : BitVec 32
  limit             : BitVec 20
  readableWriteable : Bool
  conforming        : Bool
  executable        : Bool
  isUserSegment     : Bool
  privilegeLevel    : BitVec 2
  present           : Bool
  isLongModeCode    : Bool
  size              : Bool
  granularity       : Bool
  deriving DecidableEq

def Descriptor.ofBits (w : BitVec 64) : Descriptor where
  base              := w.extractLsb' 56 8 ++ w.extractLsb' 16 24
  limit             := w.extractLsb' 48 4 ++ w.extractLsb' 0 16
  readableWriteable := w.getLsbD 41
  conforming        := w.getLsbD 42
  executable        := w.getLsbD 43
  isUserSegment     := w.getLsbD 44
  privilegeLevel    := w.extractLsb' 45 2
  present           := w.getLsbD 47
  isLongModeCode    := w.getLsbD 53
  size              := w.getLsbD 54
  granularity       := w.getLsbD 55

-- The bit that is set by the processor when a descriptor is used.
def accessedBit : BitVec 64 := 1 <<< 40

namespace Descriptor

def isCode (d : Descriptor) : Bool :=
  d.isUserSegment && d.executable

def isWriteableData (d : Descriptor) : Bool :=
  d.isUserSegment && !d.executable && d.readableWriteable

-- The offset of the last byte of the segment.
def lastByte (d : Descriptor) : Nat :=
  if d.granularity then d.limit.toNat * 4096 + 4095 else d.limit.toNat

end Descriptor

-- The register `gdtr`.
structure TableRegister where
  base  : BitVec 64
  limit : BitVec 16

section Selectors

def privilegeLevel (selector : BitVec 16) : BitVec 2 :=
  selector.setWidth 2

def isNull (selector : BitVec 16) : Bool :=
  selector &&& 0xfffc == 0

def TableRegister.address (gdtr : TableRegister) (selector : BitVec 16) : BitVec 64 :=
  gdtr.base + (selector &&& 0xfff8).setWidth 64

-- The descriptor that a selector refers to. A selector with the bit 2 refers to the local table, and there is none.
def TableRegister.lookup (gdtr : TableRegister) (m : Memory) (selector : BitVec 16) : Option Descriptor :=
  if !isNull selector && !selector.getLsbD 2 && (selector &&& 0xfff8).toNat + 7 ≤ gdtr.limit.toNat then
    some (.ofBits (m.load (gdtr.address selector)))
  else none

def TableRegister.use (gdtr : TableRegister) (selector : BitVec 16) (m : Memory) : Memory :=
  if isNull selector then m
  else m.store (gdtr.address selector) (m.load (gdtr.address selector) ||| accessedBit)

end Selectors
end Descriptors

-- The value of `gdtr` that is set by `Table::install`.
def tableRegister (table : BitVec 64) : TableRegister :=
  ⟨table, .ofNat 16 (Table.offsetof .theTSSEntryItself - 1)⟩

section Transfers

variable (gdtr : TableRegister) (m : Memory)

-- The checks of `iretq` for the code segment.
def acceptsCode (cpl : BitVec 2) (cs : BitVec 16) : Bool :=
  (gdtr.lookup m cs).any fun d =>
    d.isCode && d.present && cpl ≤ privilegeLevel cs && !(d.isLongModeCode && d.size) &&
      if d.conforming then d.privilegeLevel ≤ privilegeLevel cs else d.privilegeLevel == privilegeLevel cs

-- The processor is in 64-bit mode if the code segment says so.
def isLong (cs : BitVec 16) : Bool :=
  (gdtr.lookup m cs).any (·.isLongModeCode)

-- The checks of `iretq` for the stack segment. It can be null, unless the processor enters ring 3.
def acceptsStack (cs ss : BitVec 16) : Bool :=
  privilegeLevel ss == privilegeLevel cs &&
    if isNull ss then isLong gdtr m cs && privilegeLevel cs != 3
    else (gdtr.lookup m ss).any fun d => d.isWriteableData && d.present && d.privilegeLevel == privilegeLevel cs

-- The checks for the code segment of an interrupt gate.
def acceptsGate (cpl : BitVec 2) (selector : BitVec 16) : Bool :=
  (gdtr.lookup m selector).any fun d =>
    d.isCode && d.present && d.privilegeLevel ≤ cpl && d.isLongModeCode && !d.size

-- The level at which a handler is executed.
def gateLevel (cpl : BitVec 2) (selector : BitVec 16) : BitVec 2 :=
  match gdtr.lookup m selector with
  | some d => if d.conforming then cpl else d.privilegeLevel
  | none   => cpl

end Transfers

section TaskStateSegment

-- The register `tr`.
structure TaskRegister where
  base  : BitVec 64
  limit : Nat

-- The base address of a system segment, whose descriptor has 16 bytes.
def systemBase (low high : BitVec 64) : BitVec 64 :=
  high.extractLsb' 0 32 ++ (Descriptor.ofBits low).base

-- The bit that is set by the processor when a task state segment is loaded.
def busyBit : BitVec 64 := 1 <<< 41

def ltr (gdtr : TableRegister) (selector : BitVec 16) (m : Memory) : Option (TaskRegister × Memory) :=
  let address := gdtr.address selector
  let low := m.load address
  let isAvailable := low.extractLsb' 40 5 == 0x9 && low.getLsbD 47
  if !isNull selector && !selector.getLsbD 2 && (selector &&& 0xfff8).toNat + 15 ≤ gdtr.limit.toNat && isAvailable then
    some (⟨systemBase low (m.load (address + 8)), (Descriptor.ofBits low).lastByte⟩, m.store address (low ||| busyBit))
  else none

-- Whether ring 3 has access to a port. The task state segment contains the offset of a map with one bit for each port,
-- and the processor always reads two bytes of it.
def TaskRegister.grants (tr : TaskRegister) (m : Memory) (port : BitVec 16) : Bool :=
  let map := m.loadBytes (tr.base + 102) 2
  let offset := map + port.toNat / 8
  offset + 1 ≤ tr.limit && !(m (tr.base + .ofNat 64 offset)).getLsbD (port.toNat % 8)

end TaskStateSegment

section SystemCalls

-- `setStarRegister`
def starRegister : BitVec 64 :=
  let kernelSelector : BitVec 32 := .ofNat 32 (Table.offsetof .kernelCode) ||| 0
  let userSelector   : BitVec 32 := .ofNat 32 (Table.offsetof .userCode32) ||| 3
  (kernelSelector ||| userSelector <<< 16) ++ (0 : BitVec 32)

-- The selectors that are loaded by `syscall` and `sysretq`.
def syscallSelectors (star : BitVec 64) : BitVec 16 × BitVec 16 :=
  (star.extractLsb' 32 16 &&& 0xfffc, star.extractLsb' 32 16 + 8)

def sysretSelectors (star : BitVec 64) : BitVec 16 × BitVec 16 :=
  (star.extractLsb' 48 16 + 16 ||| 3, star.extractLsb' 48 16 + 8 ||| 3)

end SystemCalls

-- What is restored when the kernel is left.
inductive Saved
  | interrupt (cs ss : BitVec 16)
  | syscall

structure Machine where
  memory : Memory
  cs     : BitVec 16
  ss     : BitVec 16
  saved  : List Saved

-- 1. `interrupt`: any interrupt or exception with an entry in the interrupt descriptor table.
-- 2. `iretq`: the handler of an interrupt returns.
-- 3. `syscall` and `sysretq`: a process calls the kernel, and the kernel returns to it.
-- 4. `start`: `TrapRet` enters a process with the frame that has been set up by `createFirstProcess`.
-- 5. `others`: anything else is written to memory, but not to the table.
inductive Action
  | interrupt
  | iretq
  | syscall
  | sysretq
  | start
  | others (memory : Memory)

-- `Table::install`. The selectors are loaded by `lretq`, `mov` and `ltr`.
def Table.install (table : BitVec 64) (m : Memory) : Option (Machine × TaskRegister) :=
  let gdtr := tableRegister table
  let cs : BitVec 16 := .ofNat 16 (offsetof .kernelCode)
  let ss : BitVec 16 := .ofNat 16 (offsetof .kernelData)
  if acceptsCode gdtr m 0 cs && acceptsStack gdtr m cs ss then
    (ltr gdtr 0x3b (gdtr.use ss (gdtr.use cs m))).map fun (tr, m) => (⟨m, cs, ss, []⟩, tr)
  else none

-- The part of `SharedMain` that is concerned with the table, where `cpu` is the result of `thisCPU` and `stack` the one
-- of `allocatePages`. The processor halts if there is no stack.
def sharedMain (cpu stack : BitVec 64) (m : Memory) : Option (Machine × TaskRegister) :=
  let interruptStack := cpu + CPUState.offsetof .interruptStack
  let table := cpu + CPUState.offsetof .table
  let m := m.store interruptStack stack
  if m.load interruptStack = 0 then none
  else Table.install table (Table.init table (m.load interruptStack) m)

namespace Machine

def level (σ : Machine) : BitVec 2 :=
  privilegeLevel σ.cs

-- Loading `cs` and `ss` from the stack. There is no result if the processor raises an exception.
def loadFrame (gdtr : TableRegister) (σ : Machine) (cs ss : BitVec 16) (saved : List Saved) : Option Machine :=
  if acceptsCode gdtr σ.memory σ.level cs && acceptsStack gdtr σ.memory cs ss then
    some ⟨gdtr.use ss (gdtr.use cs σ.memory), cs, ss, saved⟩
  else none

-- The selector of all gates is `offsetof(GDT::Table, kernelCode)`.
def gateSelector : BitVec 16 := .ofNat 16 (Table.offsetof .kernelCode)

-- The selectors in the frame of the first process.
def processCs : BitVec 16 := .ofNat 16 (Table.offsetof .userCode64) ||| 3
def processSs : BitVec 16 := .ofNat 16 (Table.offsetof .userData64) ||| 3

-- The stack segment becomes null when an interrupt changes the privilege level. The processor does not look at the
-- table for `syscall` and `sysretq`.
def step (gdtr : TableRegister) (star : BitVec 64) (σ : Machine) : Action → Option Machine
  | .interrupt =>
    if acceptsGate gdtr σ.memory σ.level gateSelector then
      let level := gateLevel gdtr σ.memory σ.level gateSelector
      some
        { memory := gdtr.use gateSelector σ.memory
          cs     := (gateSelector &&& 0xfffc) ||| level.setWidth 16
          ss     := if level = σ.level then σ.ss else level.setWidth 16
          saved  := .interrupt σ.cs σ.ss :: σ.saved }
    else none
  | .iretq =>
    match σ.saved with
    | .interrupt cs ss :: saved => if σ.level = 0 then loadFrame gdtr σ cs ss saved else none
    | _                         => none
  | .syscall =>
    if σ.level = 3 then
      let (cs, ss) := syscallSelectors star
      some { σ with cs, ss, saved := .syscall :: σ.saved }
    else none
  | .sysretq =>
    match σ.saved with
    | .syscall :: saved =>
      let (cs, ss) := sysretSelectors star
      if σ.level = 0 then some { σ with cs, ss, saved } else none
    | _ => none
  | .start => if σ.level = 0 then loadFrame gdtr σ processCs processSs [] else none
  | .others memory =>
    some { σ with memory := fun k => if (k - gdtr.base).toNat < GDT.Table.size then σ.memory k else memory k }

end Machine
end Segments
