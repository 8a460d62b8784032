import Xesual.Printf.Basic

-- The interpretation of format strings (`_vsnprintf` in `printf.c`) and the functions that are called by the kernel.

namespace Printf

-- The arguments that are found in a `va_list`. All integers and pointers are passed in words of 64 bits.
structure Arguments (δ : Type) where
  words   : List (BitVec 64)
  doubles : List δ

-- What is not determined by the arguments themselves: the characters that can be read from an address on, and the
-- characters that are output by `_ftoa` and `_etoa` for a number, its precision, width and flags.
structure Environment (δ : Type) where
  text : BitVec 64 → List Byte
  ftoa : δ → (prec width : BitVec 32) → Flags → List Byte
  etoa : δ → (prec width : BitVec 32) → Flags → List Byte

-- There are no floating point numbers, and all strings are empty.
def Environment.empty : Environment Empty where
  text _       := [0]
  ftoa d _ _ _ := d.elim
  etoa d _ _ _ := d.elim

variable {δ σ : Type}

section Fields

-- `va_arg` for integers and pointers. There is no result if there are no arguments left.
def Arguments.word (args : Arguments δ) : Option (BitVec 64 × Arguments δ) :=
  args.words.head?.map fun w => (w, { args with words := args.words.tail })

def Arguments.double (args : Arguments δ) : Option (δ × Arguments δ) :=
  args.doubles.head?.map fun d => (d, { args with doubles := args.doubles.tail })

-- The flag that a character stands for is added to the others.
def setFlag (c : Byte) (flags : Flags) : Option Flags :=
  if c = ascii '0' then some { flags with zeropad := true }
  else if c = ascii '-' then some { flags with left := true }
  else if c = ascii '+' then some { flags with plus := true }
  else if c = ascii ' ' then some { flags with space := true }
  else if c = ascii '#' then some { flags with hash := true }
  else none

def evaluateFlags (flags : Flags) : List Byte → Option (Flags × List Byte)
  | []          => none
  | c :: format =>
    match setFlag c flags with
    | some flags => evaluateFlags flags format
    | none       => some (flags, c :: format)

-- The result consists of the width, the flags, the rest of the format and the remaining arguments.
def evaluateWidth (flags : Flags) (args : Arguments δ) : List Byte →
    Option (BitVec 32 × Flags × List Byte × Arguments δ)
  | []          => none
  | c :: format =>
    if isDigit c then (atoi 0 (c :: format)).map fun (width, format) => (width, flags, format, args)
    else if c = ascii '*' then
      args.word.map fun (w, args) =>
        let w : BitVec 32 := w.setWidth 32
        if w.slt 0 then (-w, { flags with left := true }, format, args) else (w, flags, format, args)
    else some (0, flags, c :: format, args)

def evaluatePrecision (flags : Flags) (args : Arguments δ) : List Byte →
    Option (BitVec 32 × Flags × List Byte × Arguments δ)
  | []          => none
  | c :: format =>
    if c = ascii '.' then
      let flags := { flags with precision := true }
      match format with
      | []          => none
      | c :: format =>
        if isDigit c then (atoi 0 (c :: format)).map fun (prec, format) => (prec, flags, format, args)
        else if c = ascii '*' then
          args.word.map fun (prec, args) =>
            let prec : BitVec 32 := prec.setWidth 32
            (if (0 : BitVec 32).slt prec then prec else 0, flags, format, args)
        else some (0, flags, c :: format, args)
    else some (0, flags, c :: format, args)

-- The letters `l` and `h` may be doubled. All of `ptrdiff_t`, `intmax_t` and `size_t` have the size of `long`.
def evaluateLength (flags : Flags) : List Byte → Option (Flags × List Byte)
  | []          => none
  | c :: format =>
    if c = ascii 'l' then
      let flags := { flags with long := true }
      match format with
      | []          => none
      | c :: format => some <|
        if c = ascii 'l' then ({ flags with longLong := true }, format) else (flags, c :: format)
    else if c = ascii 'h' then
      let flags := { flags with short := true }
      match format with
      | []          => none
      | c :: format => some <|
        if c = ascii 'h' then ({ flags with char := true }, format) else (flags, c :: format)
    else some <|
      if c = ascii 't' ∨ c = ascii 'j' ∨ c = ascii 'z' then ({ flags with long := true }, format)
      else (flags, c :: format)

end Fields

section Specifiers

variable (o : Output σ)

def isInteger (c : Byte) : Bool :=
  c ∈ [ascii 'd', ascii 'i', ascii 'u', ascii 'x', ascii 'X', ascii 'o', ascii 'b']

def isSigned (c : Byte) : Bool :=
  c ∈ [ascii 'i', ascii 'd']

def baseOf (c : Byte) : Nat :=
  if c = ascii 'x' ∨ c = ascii 'X' then 16
  else if c = ascii 'o' then 8
  else if c = ascii 'b' then 2
  else 10

-- The flags with which an integer is converted.
def integerFlags (c : Byte) (flags : Flags) : Flags :=
  let flags := if baseOf c = 10 then { flags with hash := false } else flags
  let flags := if c = ascii 'X' then { flags with uppercase := true } else flags
  let flags := if !isSigned c then { flags with plus := false, space := false } else flags
  if flags.precision then { flags with zeropad := false } else flags

-- The signed value of an argument, extended to 64 bits.
def signedValue (flags : Flags) (w : BitVec 64) : BitVec 64 :=
  if flags.longLong || flags.long then w
  else if flags.char then (w.setWidth 8).signExtend 64
  else if flags.short then (w.setWidth 16).signExtend 64
  else (w.setWidth 32).signExtend 64

def unsignedValue (flags : Flags) (w : BitVec 64) : BitVec 64 :=
  if flags.longLong || flags.long then w
  else if flags.char then (w.setWidth 8).setWidth 64
  else if flags.short then (w.setWidth 16).setWidth 64
  else (w.setWidth 32).setWidth 64

-- The number that is converted, and whether it is negative. The magnitude of the smallest number becomes positive when
-- it is converted to an unsigned number.
def integerValue (c : Byte) (flags : Flags) (w : BitVec 64) : BitVec 64 × Bool :=
  if isSigned c then
    let value := signedValue flags w
    (if (0 : BitVec 64).slt value then value else 0 - value, value.slt 0)
  else
    (unsignedValue flags w, false)

-- The cases for integers.
def integer (c : Byte) (flags : Flags) (width precision : BitVec 32) (w : BitVec 64) (s : Cursor σ) : Cursor σ :=
  let flags := integerFlags c flags
  let (value, negative) := integerValue c flags w
  if flags.longLong then ntoaLongLong o value negative (baseOf c) precision width flags s
  else ntoaLong o value negative (baseOf c) precision width flags s

def character (flags : Flags) (width : BitVec 32) (w : BitVec 64) (s : Cursor σ) : Cursor σ :=
  let s := if !flags.left then o.pad (width.toNat - 1) s else s
  let s := o.put (w.setWidth 8) s
  if flags.left then o.pad (width.toNat - 1) s else s

-- The loop which outputs a string. There is no result if anything beyond the readable memory is read.
def outString : (limit : Option Nat) → List Byte → Cursor σ → Option (Cursor σ)
  | _,               [],     _ => none
  | none,            c :: p, s => if c = 0 then some s else outString none p (o.put c s)
  | some 0,          _ :: _, s => some s
  | some (prec + 1), c :: p, s => if c = 0 then some s else outString (some prec) p (o.put c s)

def string (flags : Flags) (width precision : BitVec 32) (p : List Byte) (s : Cursor σ) : Option (Cursor σ) := do
  let l ← strnlen p (if precision ≠ 0 then precision.toNat else 2 ^ 64 - 1)
  let l : BitVec 32 := .ofNat 32 l
  let l := if flags.precision then (if l < precision then l else precision) else l
  let s := if !flags.left then o.pad (width.toNat - l.toNat) s else s
  let s ← outString o (if flags.precision then some precision.toNat else none) p s
  return if flags.left then o.pad (width.toNat - l.toNat) s else s

def pointer (flags : Flags) (precision : BitVec 32) (w : BitVec 64) (s : Cursor σ) : Cursor σ :=
  ntoaLongLong o w false 16 precision 16 { flags with zeropad := true, uppercase := true } s

variable (env : Environment δ)

-- The cases of the last `switch`.
def specifier (c : Byte) (flags : Flags) (width precision : BitVec 32) (args : Arguments δ) (s : Cursor σ) :
    Option (Cursor σ × Arguments δ) :=
  if isInteger c then
    args.word.map fun (w, args) => (integer o c flags width precision w s, args)
  else if c = ascii 'f' ∨ c = ascii 'F' then
    let flags := if c = ascii 'F' then { flags with uppercase := true } else flags
    args.double.map fun (d, args) => (o.puts (env.ftoa d precision width flags) s, args)
  else if c = ascii 'e' ∨ c = ascii 'E' ∨ c = ascii 'g' ∨ c = ascii 'G' then
    let flags := if c = ascii 'g' ∨ c = ascii 'G' then { flags with adaptExp := true } else flags
    let flags := if c = ascii 'E' ∨ c = ascii 'G' then { flags with uppercase := true } else flags
    args.double.map fun (d, args) => (o.puts (env.etoa d precision width flags) s, args)
  else if c = ascii 'c' then
    args.word.map fun (w, args) => (character o flags width w s, args)
  else if c = ascii 's' then
    args.word.bind fun (w, args) => (string o flags width precision (env.text w) s).map (·, args)
  else if c = ascii 'p' then
    args.word.map fun (w, args) => (pointer o flags precision w s, args)
  else
    -- The case for `%` does the same as the default case.
    some (o.put c s, args)

end Specifiers

section Loop

variable (o : Output σ) (env : Environment δ)

-- The part of the loop that evaluates a format specifier, from behind the percent sign on. The result consists of the
-- output, the rest of the format and the remaining arguments.
def evaluate (format : List Byte) (args : Arguments δ) (s : Cursor σ) :
    Option (Cursor σ × List Byte × Arguments δ) := do
  let (flags, format) ← evaluateFlags {} format
  let (width, flags, format, args) ← evaluateWidth flags args format
  let (precision, flags, format, args) ← evaluatePrecision flags args format
  let (flags, format) ← evaluateLength flags format
  let c ← format.head?
  let (s, args) ← specifier o env c flags width precision args s
  return (s, format.tail, args)

-- The loop over the format, which consumes at least one character in each iteration. There is no result if anything
-- beyond the readable memory is read, or if there are too few arguments.
def vsnprintfLoop : Nat → List Byte → Arguments δ → Cursor σ → Option (Cursor σ)
  | 0,     _,           _,    _ => none
  | _ + 1, [],          _,    _ => none
  | n + 1, c :: format, args, s =>
    if c = 0 then some s
    else if c ≠ ascii '%' then vsnprintfLoop n format args (o.put c s)
    else (evaluate o env format args s).bind fun (s, format, args) => vsnprintfLoop n format args s

-- The last character is put behind the others, or at the end of the buffer.
def terminate (s : Cursor σ) : σ :=
  o.out 0 (if s.idx < o.maxlen then s.idx else o.maxlen - 1) o.maxlen s.buffer

-- What the output function has done, and the value that is returned by `_vsnprintf`.
def vsnprintfInternal (format : List Byte) (args : Arguments δ) (buffer : σ) : Option (σ × BitVec 32) :=
  (vsnprintfLoop o env format.length format args ⟨0, buffer⟩).map fun s => (terminate o s, s.idx.setWidth 32)

end Loop

section Functions

variable (env : Environment δ) (format : List Byte) (args : Arguments δ)

def vsnprintf (buffer count : BitVec 64) (m : Memory) : Option (Memory × BitVec 32) :=
  vsnprintfInternal ⟨if buffer = 0 then outNull else outBuffer buffer, count⟩ env format args m

def snprintf (buffer count : BitVec 64) (m : Memory) : Option (Memory × BitVec 32) :=
  vsnprintf env format args buffer count m

def sprintf (buffer : BitVec 64) (m : Memory) : Option (Memory × BitVec 32) :=
  vsnprintf env format args buffer (-1) m

def vprintf (port : List Byte) : Option (List Byte × BitVec 32) :=
  vsnprintfInternal ⟨outChar, -1⟩ env format args port

def printf (port : List Byte) : Option (List Byte × BitVec 32) :=
  vprintf env format args port

-- The part of `logfn` between `lockLog` and `unlockLog`.
def logfn (port : List Byte) : Option (List Byte × BitVec 32) :=
  vprintf env format args port

def fctprintf (out : Byte → σ → σ) (arg : σ) : Option (σ × BitVec 32) :=
  vsnprintfInternal ⟨outFct out, -1⟩ env format args arg

end Functions
end Printf
