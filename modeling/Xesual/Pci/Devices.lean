import Xesual.Library.Traversal
import Xesual.Pci.Basic

-- What there is to be found in a configuration space: the functions that are present on a bus, and the bridges
-- that lead to other buses.

namespace PCI

structure Position where
  bus  : Nat
  slot : Nat
  func : Nat
  deriving DecidableEq

def Position.device (p : Position) : BitVec 32 := box p.bus p.slot p.func

namespace Config

variable (config : Config)

def vendorID (p : Position) : BitVec 32 := config.read ⟨.two, p.device, .VendorID⟩
def deviceID (p : Position) : BitVec 32 := config.read ⟨.two, p.device, .DeviceID⟩
def headerType (p : Position) : BitVec 32 := config.read ⟨.one, p.device, .HeaderType⟩
def secondaryBus (p : Position) : BitVec 32 := config.read ⟨.one, p.device, .SecondaryBus⟩

-- The class and the subclass.
def type (p : Position) : BitVec 16 :=
  ((config.read ⟨.one, p.device, .Class⟩ <<< 8) ||| config.read ⟨.one, p.device, .Subclass⟩).setWidth 16

-- Functions other than function 0 are only present if function 0 is, and has a header type that is not zero.
def Present (p : Position) : Prop :=
  config.vendorID ⟨p.bus, p.slot, 0⟩ ≠ PCINull ∧
  (p.func = 0 ∨ config.headerType ⟨p.bus, p.slot, 0⟩ ≠ 0 ∧ config.vendorID p ≠ PCINull)

instance {p : Position} : Decidable (config.Present p) := inferInstanceAs <| Decidable (_ ∧ _)

-- The functions that are present in a slot and on a bus.
def slotFunctions (bus slot : Nat) : List Position :=
  ((List.range 8).map (Position.mk bus slot)).filter (config.Present ·)

def functions (bus : Nat) : List Position :=
  (List.range 32).flatMap (config.slotFunctions bus)

-- The bus to which a bridge leads.
def secondary (p : Position) : Option Nat :=
  if config.type p = Bridge then some (config.secondaryBus p).toNat else none

-- The call of the callback for a function.
def hit (p : Position) : Hit := ⟨p.device, (config.vendorID p).setWidth 16, (config.deviceID p).setWidth 16⟩

-- The calls of the callback for those functions that are of the given type.
def hits (type : Int) (ps : List Position) : List Hit :=
  (ps.filter fun p => type = -1 ∨ type = (config.type p).toNat).map config.hit

-- A present bridge on the bus `b` leads to the bus `b'`.
def Leads (b b' : Nat) : Prop :=
  Traversal.Edge config.functions config.secondary b b'

-- The host controllers, if the device 0:0 has several functions.
def hosts : List Nat :=
  (List.range 8).takeWhile fun func => config.vendorID ⟨0, 0, func⟩ ≠ PCINull

-- The buses at which the enumeration starts: bus 0, the buses of the host controllers, or all buses if there
-- is nothing at 0:0.
def starts : List Nat :=
  if config.headerType ⟨0, 0, 0⟩ &&& 0x80 = 0 then [0]
  else if config.hosts = [] then List.range 256
  else config.hosts

end Config
end PCI
