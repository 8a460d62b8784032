import Xesual.Printf.Format
import Xesual.Traps.Frames

-- What is logged before the processor is halted (`Panic!!.cpp`).

namespace Traps

open Printf (Byte Environment ascii logfn)

-- The bytes of a string literal.
def literal (s : String) : List Byte :=
  s.toList.map ascii ++ [0]

variable {δ : Type} (env : Environment δ) (registers : InterruptRegisters.Field → BitVec 64)

def dumpRegisters (port : List Byte) : Option (List Byte) := do
  let (port, _) ← logfn env (literal "r15=%#llx, r14=%#llx, r13=%#llx, r12=%#llx\n")
    ⟨[.register .r15, .register .r14, .register .r13, .register .r12].map registers, []⟩ port
  let (port, _) ← logfn env (literal "r11=%#llx, r10=%#llx, r9=%#llx, r8=%#llx\n")
    ⟨[.register .r11, .register .r10, .register .r9, .register .r8].map registers, []⟩ port
  let (port, _) ← logfn env
    (literal "rbp=%#llx, rdi=%#llx, rsi=%#llx, rdx=%#llx, rcx=%#llx, rbx=%#llx, rax=%#llx\n")
    ⟨[ .register .rbp, .register .rdi, .register .rsi, .register .rdx, .register .rcx, .register .rbx,
      .register .rax ].map registers, []⟩ port
  let (port, _) ← logfn env (literal "interruptNumber=%#llx, errorCode=%#llx\n")
    ⟨[.interruptNumber, .errorCode].map registers, []⟩ port
  let (port, _) ← logfn env (literal "rip=%#llx, cs=%#llx, rflags=%#llx, rsp=%#llx, ss=%#llx\n")
    ⟨[.register .rip, .register .cs, .register .rflags, .register .rsp, .register .ss].map registers, []⟩ port
  return port

-- The bytes that have been sent when the processor is halted. It never returns.
def panicExclamationExclamation (why : BitVec 64) (port : List Byte) : Option (List Byte) := do
  let (port, _) ← logfn env (literal "fatal: %s\n") ⟨[why], []⟩ port
  dumpRegisters env registers port

end Traps
