import Xesual.Library.Bytes
import Xesual.Pci.Devices

-- Reading and writing registers through the ports (`PCI.h`).

namespace PCI

def AddressPort : BitVec 16 := 0xCF8
def ValuePort : BitVec 16 := 0xCFC

-- `addressOf` for an arbitrary field.
def addressAt (device field : BitVec 32) : BitVec 32 :=
  0x80000000 ||| (busOf device <<< 16) ||| (slotOf device <<< 11) ||| (funcOf device <<< 8) ||| (field &&& 0xFC)

def Size.bytes : Size → Nat
  | .one  => 1
  | .two  => 2
  | .four => 4

-- The configuration space as plain storage behind the ports: the value that has been written to `AddressPort`, and
-- the bytes that are found behind `ValuePort` for it.
structure Ports where
  address : BitVec 32
  storage : Bytes

namespace Ports

def outl (s : Ports) (port : BitVec 16) (data : BitVec 32) : Ports :=
  if port = AddressPort then
    { s with address := data }
  else if port = ValuePort then
    { s with storage := s.storage.store s.address.toNat 4 data.toNat }
  else
    s

-- Reading `n` bytes from `ValuePort` or one of the ports behind it.
def input (s : Ports) (port : BitVec 16) (n : Nat) : Nat :=
  s.storage.load (s.address.toNat + (port - ValuePort).toNat) n

def inb (s : Ports) (port : BitVec 16) : BitVec 8 := .ofNat 8 (s.input port 1)
def ins (s : Ports) (port : BitVec 16) : BitVec 16 := .ofNat 16 (s.input port 2)
def inl (s : Ports) (port : BitVec 16) : BitVec 32 := .ofNat 32 (s.input port 4)

-- The size is not used.
def writeField (s : Ports) (device field : BitVec 32) (_size : Size) (value : BitVec 32) : Ports :=
  (s.outl AddressPort (addressAt device field)).outl ValuePort value

def readField (s : Ports) (size : Size) (device field : BitVec 32) : BitVec 32 × Ports :=
  let s := s.outl AddressPort (addressAt device field)
  match size with
  | .one  => ((s.inb (ValuePort + (field &&& 0b11).setWidth 16)).setWidth 32, s)
  | .two  => ((s.ins (ValuePort + (field &&& 0b10).setWidth 16)).setWidth 32, s)
  | .four => (s.inl ValuePort, s)

-- The byte of a device at a field.
def byte (s : Ports) (p : Position) (field : Nat) : BitVec 8 :=
  s.storage ((addressAt p.device (.ofNat 32 field)).toNat + field % 4)

-- Writing a field is supposed to make its value available to be read, and to leave all other bytes as they are.
structure Lawful (s : Ports) (p : Position) (field : Nat) (size : Size) (value : BitVec 32) : Prop where
  read  : ((s.writeField p.device (.ofNat 32 field) size value).readField size p.device (.ofNat 32 field)).fst = value
  frame : ∀ q : Position, q.bus < 256 ∧ q.slot < 32 ∧ q.func < 8 → ∀ k < 256,
    ¬(q = p ∧ field ≤ k ∧ k < field + size.bytes) →
    (s.writeField p.device (.ofNat 32 field) size value).byte q k = s.byte q k

-- The other bytes of the double word in which the field lies are zero.
def Isolated (s : Ports) (p : Position) (field : Nat) (size : Size) : Prop :=
  ∀ k < 256, k / 4 = field / 4 → ¬(field ≤ k ∧ k < field + size.bytes) → s.byte p k = 0

end Ports
end PCI
