import Xesual.Library.Memory

-- The address of the local APIC (`SMP.h`, `LocalAPIC.h` and `LocalAPIC.cpp`).

-- A processor with its model-specific registers, virtual memory, the variable `lapic`, and the address at which
-- physical memory is mapped.
structure Processor where
  msr                       : BitVec 32 → BitVec 64
  memory                    : Memory
  lapic                     : BitVec 64
  HigherHalfDirectMapOffset : BitVec 64

namespace Processor

variable (σ : Processor)

-- The instructions `wrmsr` and `rdmsr`. The latter results in the lower and the upper half of the register.
def cpuSetMSR (msr lo hi : BitVec 32) : Processor :=
  { σ with msr := Function.update σ.msr msr ((hi.setWidth 64 <<< 32) ||| lo.setWidth 64) }

def cpuGetMSR (msr : BitVec 32) : BitVec 32 × BitVec 32 :=
  ((σ.msr msr).setWidth 32, (σ.msr msr >>> 32).setWidth 32)

def toVirtual (addr : BitVec 64) : BitVec 64 :=
  addr + σ.HigherHalfDirectMapOffset

-- The default argument of `setAPICBase`, which is the only one that is used.
def defaultAPICBase : BitVec 64 := 0xFEE00000

def setAPICBase (physAddr : BitVec 64) : Processor :=
  let edx : BitVec 32 := ((physAddr >>> 32) &&& 0x0f).setWidth 32
  let eax : BitVec 32 := ((physAddr &&& 0xfffff0000) ||| 0x800).setWidth 32
  σ.cpuSetMSR 0x1B eax edx

def getAPICBase : BitVec 64 :=
  let (eax, edx) := σ.cpuGetMSR 0x1B
  (eax &&& 0xfffff000).setWidth 64 ||| ((edx.setWidth 64 &&& 0x0f) <<< 32)

-- The register with the id of the processor.
def lapicID : BitVec 32 :=
  let lapic := σ.toVirtual σ.getAPICBase
  σ.memory.load32 (lapic + 0x20) >>> 24

def setLAPICAddress : Processor :=
  { σ with lapic := σ.toVirtual σ.getAPICBase }

-- The APIC has been relocated to the physical address `a`, and is accessed there, whatever is found in memory.
structure Relocates (a : BitVec 64) : Prop where
  base    : (σ.setAPICBase a).getAPICBase = a
  lapicID : ∀ memory : Memory, ({ σ with memory }.setAPICBase a).lapicID = memory.load32 (σ.toVirtual a + 0x20) >>> 24
  lapic   : (σ.setAPICBase a).setLAPICAddress.lapic = σ.toVirtual a

end Processor
