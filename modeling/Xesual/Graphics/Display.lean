import Xesual.Library.Memory
import Xesual.Pci.Basic

-- The display of QEMU (`Graphics.cpp`), and the callback in `SharedMain` that fills its framebuffer.

namespace Graphics

-- The registers that are read by the callback.
inductive DispiIndex
  | XRes
  | YRes
  | BPP
  deriving DecidableEq

def DispiIndex.value : DispiIndex → BitVec 64
  | XRes => 0x1
  | YRes => 0x2
  | BPP  => 0x3

-- The configuration space, virtual memory, and the address at which physical memory is mapped.
structure Machine where
  config                    : PCI.Config
  memory                    : Memory
  HigherHalfDirectMapOffset : BitVec 64

namespace Machine

def physicalToVirtual (σ : Machine) (addr : BitVec 64) : BitVec 64 :=
  addr + σ.HigherHalfDirectMapOffset

def addrOf (σ : Machine) (dev : BitVec 32) (idx : DispiIndex) : BitVec 64 :=
  let mmioField := σ.config.read ⟨.four, dev, .Bar2⟩
  let mmioAddr := σ.physicalToVirtual (mmioField.setWidth 64)
  let bochsAddr := mmioAddr + 0x500
  bochsAddr + (idx.value <<< 1)

-- The flags in the lower bits of the register are not removed.
def framebufferAddress (σ : Machine) (dev : BitVec 32) : BitVec 64 :=
  let bar := σ.config.read ⟨.four, dev, .Bar0⟩
  σ.physicalToVirtual (bar.setWidth 64)

def read (σ : Machine) (dev : BitVec 32) (idx : DispiIndex) : BitVec 16 :=
  .ofNat 16 (σ.memory.loadBytes (σ.addrOf dev idx) 2)

-- `&pix[x + y*xres]`, where the index is computed with 32 bits.
def pixel (pix : BitVec 64) (xres : BitVec 16) (x y : Nat) : BitVec 64 :=
  pix + 4 * (BitVec.ofNat 32 x + BitVec.ofNat 32 y * xres.setWidth 32).signExtend 64

-- The addresses that are written by the two loops, in this order.
def pixels (pix : BitVec 64) (xres yres : BitVec 16) : List (BitVec 64) :=
  (List.range yres.toNat).flatMap fun y => (List.range xres.toNat).map fun x => pixel pix xres x y

def fill (memory : Memory) (addresses : List (BitVec 64)) : Memory :=
  addresses.foldl (fun m a => m.store32 a 0x3DAEE9) memory

-- The pixels that are written for the device `dev`.
def written (σ : Machine) (dev : BitVec 32) : List (BitVec 64) :=
  pixels (σ.framebufferAddress dev) (σ.read dev .XRes) (σ.read dev .YRes)

-- The callback in `SharedMain`, up to the messages that it logs.
def callback (σ : Machine) (hit : PCI.Hit) : Machine :=
  if hit.vendorID = 0x1234 ∧ hit.deviceID = 0x1111 then
    { σ with memory := fill σ.memory (σ.written hit.device) }
  else
    σ

-- The framebuffer of a device, where the lower bits of `Bar0` are flags.
def base (σ : Machine) (dev : BitVec 32) : BitVec 32 :=
  σ.config.read ⟨.four, dev, .Bar0⟩ &&& 0xFFFFFFF0

def flags (σ : Machine) (dev : BitVec 32) : BitVec 32 :=
  σ.config.read ⟨.four, dev, .Bar0⟩ &&& 0xF

def numPixels (σ : Machine) (dev : BitVec 32) : Nat :=
  (σ.read dev .XRes).toNat * (σ.read dev .YRes).toNat

def framebuffer (σ : Machine) (dev : BitVec 32) : List (BitVec 64) :=
  (List.range (σ.numPixels dev)).map fun k => σ.physicalToVirtual ((σ.base dev).setWidth 64) + 4 * .ofNat 64 k

-- Every pixel of the framebuffer is written exactly once, and nothing else is written.
def Covers (σ : Machine) (dev : BitVec 32) : Prop :=
  (σ.written dev).Perm (σ.framebuffer dev)

end Machine
end Graphics
