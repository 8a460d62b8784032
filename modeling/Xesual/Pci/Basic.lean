import Xesual.Library.Program

-- The enumeration of PCI devices (`PCI.h` and `PCI.cpp`).

namespace PCI

-- The fields that are read by the enumeration and by its callback in `SharedMain`.
inductive Field
  | VendorID
  | DeviceID
  | Subclass
  | Class
  | HeaderType
  | SecondaryBus
  | Bar0
  | Bar2
  deriving DecidableEq

def Field.offset : Field → BitVec 32
  | VendorID     => 0x00
  | DeviceID     => 0x02
  | Subclass     => 0x0A
  | Class        => 0x0B
  | HeaderType   => 0x0E
  | SecondaryBus => 0x19
  | Bar0         => 0x10
  | Bar2         => 0x18

def Bridge : BitVec 16 := 0x604
def PCINull : BitVec 32 := 0xFFFF

-- The three components of a device are bytes.
def busOf (device : BitVec 32) : BitVec 32 := ((device >>> 16).setWidth 8).setWidth 32
def slotOf (device : BitVec 32) : BitVec 32 := ((device >>> 8).setWidth 8).setWidth 32
def funcOf (device : BitVec 32) : BitVec 32 := (device.setWidth 8).setWidth 32

def addressOf (device : BitVec 32) (field : Field) : BitVec 32 :=
  0x80000000 ||| (busOf device <<< 16) ||| (slotOf device <<< 11) ||| (funcOf device <<< 8) |||
    (field.offset &&& 0xFC)

def box (bus slot func : Nat) : BitVec 32 :=
  (BitVec.ofNat 32 bus <<< 16) ||| (BitVec.ofNat 32 slot <<< 8) ||| BitVec.ofNat 32 func

-- The template parameter of `readField`.
inductive Size
  | one
  | two
  | four
  deriving DecidableEq

-- A call of `readField`.
structure Read where
  size   : Size
  device : BitVec 32
  field  : Field
  deriving DecidableEq

-- The configuration space: the 32 bits that are found behind `ValuePort` for each value of `AddressPort`.
abbrev Config := BitVec 32 → BitVec 32

-- The second part of `readField`, where `AddressPort` contains `address`: the instructions `inb`, `ins` and
-- `inl` read 8, 16 and 32 bits, starting at an offset from `ValuePort`.
def Config.input (config : Config) (address : BitVec 32) (r : Read) : BitVec 32 :=
  match r.size with
  | .one  => ((config address >>> (8 * (r.field.offset &&& 0b11).toNat)).setWidth 8).setWidth 32
  | .two  => ((config address >>> (8 * (r.field.offset &&& 0b10).toNat)).setWidth 16).setWidth 32
  | .four => config address

-- The value that `readField` returns if it is not interrupted.
def Config.read (config : Config) (r : Read) : BitVec 32 :=
  config.input (addressOf r.device r.field) r

-- A call of the callback.
structure Hit where
  device   : BitVec 32
  vendorID : BitVec 16
  deviceID : BitVec 16
  deriving DecidableEq

-- The code of the enumeration asks for fields, and reports the calls of the callback.
abbrev Code := Program Read (BitVec 32) Hit

-- What the callback itself does, after it has been called.
abbrev Callback := Hit → Code Unit

def readField (size : Size) (device : BitVec 32) (field : Field) : Code (BitVec 32) :=
  .query ⟨size, device, field⟩ pure

def findType (dev : BitVec 32) : Code (BitVec 16) := do
  let c ← readField .one dev .Class
  let s ← readField .one dev .Subclass
  return ((c <<< 8) ||| s).setWidth 16

def scanHit (f : Callback) (dev : BitVec 32) : Code Unit := do
  let vid ← readField .two dev .VendorID
  let did ← readField .two dev .DeviceID
  .emit ⟨dev, vid.setWidth 16, did.setWidth 16⟩ (f ⟨dev, vid.setWidth 16, did.setWidth 16⟩)

-- The condition in `scanFunc`. The type of the device is only read if `type` is not `-1`.
def hasType (type : Int) (dev : BitVec 32) : Code Bool :=
  if type = -1 then pure true else do
    let t ← findType dev
    return type = t.toNat

-- The function `scanBus` that is called for bridges is a parameter here.
def scanFunc (scanBus : Nat → Code Unit) (f : Callback) (type : Int) (bus slot func : Nat) : Code Unit := do
  let dev := box bus slot func
  if ← hasType type dev then
    scanHit f dev
  if (← findType dev) = Bridge then
    let secondary ← readField .one dev .SecondaryBus
    scanBus secondary.toNat

def scanSlot (scanBus : Nat → Code Unit) (f : Callback) (type : Int) (bus slot : Nat) : Code Unit := do
  let dev := box bus slot 0
  if (← readField .two dev .VendorID) = PCINull then
    return
  scanFunc scanBus f type bus slot 0
  if (← readField .one dev .HeaderType) = 0 then
    return
  (List.range' 1 7).forM fun func => do
    if (← readField .two (box bus slot func) .VendorID) ≠ PCINull then
      scanFunc scanBus f type bus slot func

-- The recursion through bridges is cut off at the depth `fuel`.
def scanBus (f : Callback) (type : Int) : Nat → Nat → Code Unit
  | 0,        _   => .cutOff
  | fuel + 1, bus => (List.range 32).forM fun slot => scanSlot (scanBus f type fuel) f type bus slot

-- The loop over the functions of the device 0:0, each of which is a host controller. The result is `hit`.
def scanHosts (fuel : Nat) (f : Callback) (type : Int) : List Nat → Bool → Code Bool
  | [],            hit => return hit
  | func :: funcs, hit => do
    if (← readField .two (box 0 0 func) .VendorID) ≠ PCINull then
      scanBus f type fuel func
      scanHosts fuel f type funcs true
    else
      return hit

def scan (fuel : Nat) (f : Callback) (type : Int) : Code Unit := do
  if (← readField .one 0 .HeaderType) &&& 0x80 = 0 then
    scanBus f type fuel 0
    return
  let hit ← scanHosts fuel f type (List.range 8) false
  if !hit then
    (List.range 256).forM fun bus =>
      (List.range 32).forM fun slot => scanSlot (scanBus f type fuel) f type bus slot

-- A callback that does not access any devices.
def ignore : Callback := fun _ => pure ()

end PCI
