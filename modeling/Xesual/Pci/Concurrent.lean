import Xesual.Library.Execution
import Xesual.Pci.Basic

-- The enumeration on several processors at once, as it is started by `SharedMain`. All processors use the same
-- two ports, and `readField` accesses them in two steps.

namespace PCI

-- What the callback in `SharedMain` does to the ports: for the display of QEMU it reads the address of the
-- framebuffer, and the address of the registers for each of the two resolutions and the depth.
def displayCallback : Callback := fun hit => do
  if hit.vendorID = 0x1234 ∧ hit.deviceID = 0x1111 then
    let _ ← readField .four hit.device .Bar0
    let _ ← readField .four hit.device .Bar2
    let _ ← readField .four hit.device .Bar2
    let _ ← readField .four hit.device .Bar2

-- The code that a processor has yet to run, whether it has executed the first part of the `readField` at its
-- beginning, and its calls of the callback so far.
structure Cpu where
  code    : Code Unit
  latched : Bool
  calls   : List Hit

-- The last value that was written to `AddressPort`, and the processors.
structure Machine where
  address : BitVec 32
  cpu     : Nat → Cpu

namespace Machine

def setCpu (σ : Machine) (c : Nat) (x : Cpu) : Machine :=
  { σ with cpu := Function.update σ.cpu c x }

-- The next step of the processor `c`.
def step (config : Config) (σ : Machine) (c : Nat) : Option Machine :=
  let cpu := σ.cpu c
  match cpu.code with
  | .query r k =>
    if cpu.latched then
      some (σ.setCpu c { cpu with code := k (config.input σ.address r), latched := false })
    else
      some ({ σ with address := addressOf r.device r.field }.setCpu c { cpu with latched := true })
  | .emit hit code => some (σ.setCpu c { cpu with code, calls := cpu.calls ++ [hit] })
  | .done _        => none
  | .cutOff        => none

-- All processors are about to run the same code.
def start (address : BitVec 32) (code : Code Unit) : Machine where
  address := address
  cpu _   := ⟨code, false, []⟩

-- The processor has written the given address to `AddressPort`, and not yet read from `ValuePort`.
def Waits (σ : Machine) (c : Nat) (r : Read) : Prop :=
  (σ.cpu c).latched ∧ ∃ k, (σ.cpu c).code = .query r k

-- If the processor is about to finish a call of `readField`, then it gets what it has asked for.
def Correct (config : Config) (σ : Machine) (c : Nat) : Prop :=
  ∀ r, σ.Waits c r → config.input σ.address r = config.read r

-- The calls of the callback are the ones of a processor that runs alone.
structure Alone (config : Config) (code : Code Unit) (σ : Machine) (c : Nat) : Prop where
  calls    : (σ.cpu c).calls <+: code.events config.read
  finished : (σ.cpu c).code = .done () → (σ.cpu c).calls = code.events config.read

-- If the processor is about to write to `AddressPort`, then no other processor waits for another address.
def Undisturbed (σ : Machine) (c : Nat) : Prop :=
  ∀ r k, (σ.cpu c).code = .query r k → (σ.cpu c).latched = false → ∀ d ≠ c, ∀ r', σ.Waits d r' →
    addressOf r.device r.field = addressOf r'.device r'.field

end Machine
end PCI
