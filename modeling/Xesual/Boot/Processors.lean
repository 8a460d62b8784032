import Xesual.Library.Layout
import Xesual.Library.Memory
import Xesual.PhysicalMemory.Locking

-- The states of the processors: `initializeProcessors` in `KernelMain.cpp`, `CPUState` and `thisCPU` in
-- `ProcessManagement.h`, and the descriptor table in `GDT.h` that is a part of `CPUState`.

namespace GDT

-- The access bytes, and the 4 bits of `limitHigh` and `flags`, take up one byte each.
def UserEntry : Layout :=
  .packed [.integer 2, .integer 2, .integer 1, .integer 1, .integer 1, .integer 1]

def SystemEntry : Layout :=
  .packed [.integer 2, .integer 2, .integer 1, .integer 1, .integer 1, .integer 1, .integer 4, .integer 4]

def TSSEntry : Layout :=
  .packed [.integer 4, .array (.integer 8) 3, .integer 8, .array (.integer 8) 7, .integer 8, .integer 2, .integer 2]

-- Seven entries for segments, the entry for the TSS and the TSS itself.
def Table : Layout :=
  Layout.packed (List.replicate 7 UserEntry ++ [SystemEntry, TSSEntry]) |>.aligned 16

end GDT

namespace ProcessManagement.CPUState

inductive Member
  | apicID
  | cliCount
  | wereInterruptsEnabled
  | currentProcess
  | interruptStack
  | table
  | userStack
  | schedulerTask
  deriving DecidableEq

def type : Member → Layout
  | .apicID | .cliCount     => .integer 4
  | .wereInterruptsEnabled  => .integer 1
  | .table                  => GDT.Table
  | .currentProcess | .interruptStack | .userStack | .schedulerTask => .integer 8

def members : List Member :=
  [.apicID, .cliCount, .wereInterruptsEnabled, .currentProcess, .interruptStack, .table, .userStack, .schedulerTask]

def sizeof : Nat :=
  (Layout.struct type members).size

def offsetof (f : Member) : BitVec 64 :=
  .ofNat 64 (Layout.offsetof type members f)

end ProcessManagement.CPUState

namespace KernelMain

open ProcessManagement
open PhysicalMemoryManagement (PageSize)
open PhysicalMemoryManagement.Locking (thereIsNowMoreThanOneProcessor)

-- `limine_smp_response`, where `lapicID i` stands for `cpus[i]->lapic_id`.
structure SmpResponse where
  bspLapicID : BitVec 32
  cpuCount   : BitVec 64
  lapicID    : Nat → BitVec 32

-- The variables `CPUCount` and `CPUs`, the processors whose `goto_address` has been set, and the bytes of the
-- allocator's `Memory`.
structure Processors where
  memory    : Memory
  cpuCount  : BitVec 32
  cpus      : BitVec 64
  started   : List Nat
  allocator : Bytes

namespace Processors

-- `&CPUs[i]`
def cpu (σ : Processors) (i : Nat) : BitVec 64 :=
  σ.cpus + .ofNat 64 (CPUState.sizeof * i)

-- One iteration of the loop of `initializeProcessors`.
def initializeProcessor (resp : SmpResponse) (σ : Processors) (i : Nat) : Processors :=
  let memory := σ.memory.store32 (σ.cpu i + CPUState.offsetof .apicID) (resp.lapicID i)
  let memory := memory.store32 (σ.cpu i + CPUState.offsetof .cliCount) 1
  let memory := memory.store (σ.cpu i + CPUState.offsetof .currentProcess) 0
  let σ := { σ with memory }
  if resp.lapicID i = resp.bspLapicID then
    σ
  else
    { σ with started := σ.started ++ [i] }

-- The result `page` of `allocatePage` is not checked, and `cpu_count` is converted to 32 bits for `CPUCount`, but not
-- for the loop.
def initializeProcessors (page : BitVec 64) (resp : SmpResponse) (σ : Processors) : Processors :=
  let σ := { σ with cpuCount := resp.cpuCount.setWidth 32, cpus := page }
  let σ := { σ with memory := σ.memory.fill σ.cpus 0 PageSize }
  let σ := { σ with allocator := thereIsNowMoreThanOneProcessor σ.allocator }
  (List.range resp.cpuCount.toNat).foldl (initializeProcessor resp) σ

-- The processor on which this is called has the given id. The result is the null pointer if there is no entry for it.
def thisCPU (σ : Processors) (lapicID : BitVec 32) : BitVec 64 :=
  (List.range σ.cpuCount.toNat).find? (fun i => σ.memory.load32 (σ.cpu i + CPUState.offsetof .apicID) = lapicID)
    |>.elim 0 σ.cpu

-- The bytes that have been obtained from the allocator, if any, and that are cleared by `memset`.
def obtained (page : BitVec 64) : Set (BitVec 64) :=
  { k | page ≠ 0 ∧ k ∈ Memory.region page PageSize }

-- All entries that are in use lie inside of these bytes, and so does everything that `thisCPU` returns, whatever has
-- been written to memory in the meantime.
structure Contained (page : BitVec 64) (σ : Processors) : Prop where
  cpus    : ∀ i < σ.cpuCount.toNat, Memory.region (σ.cpu i) CPUState.sizeof ⊆ obtained page
  thisCPU : ∀ memory lapicID, thisCPU { σ with memory } lapicID ≠ 0 →
    Memory.region (thisCPU { σ with memory } lapicID) CPUState.sizeof ⊆ obtained page

end Processors
end KernelMain
