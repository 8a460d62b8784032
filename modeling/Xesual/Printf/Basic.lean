import Xesual.Library.Memory

-- The conversions of `printf.c`, which hand the characters of their result to an output function.

namespace Printf

abbrev Byte := BitVec 8

def ascii (c : Char) : Byte := .ofNat 8 c.toNat

structure Flags where
  zeropad   : Bool := false
  left      : Bool := false
  plus      : Bool := false
  space     : Bool := false
  hash      : Bool := false
  uppercase : Bool := false
  char      : Bool := false
  short     : Bool := false
  long      : Bool := false
  longLong  : Bool := false
  precision : Bool := false
  adaptExp  : Bool := false
  deriving DecidableEq

-- The number of characters that have been output so far, together with what the output function writes to.
structure Cursor (σ : Type) where
  idx    : BitVec 64
  buffer : σ

-- An output function and the limit that it is called with.
structure Output (σ : Type) where
  out    : Byte → (idx maxlen : BitVec 64) → σ → σ
  maxlen : BitVec 64

section OutputFunctions

-- The characters are stored from the address `buffer` on.
def outBuffer (buffer : BitVec 64) (character : Byte) (idx maxlen : BitVec 64) (m : Memory) : Memory :=
  if idx < maxlen then m.fill (buffer + idx) character 1 else m

def outNull {σ : Type} (_ : Byte) (_ _ : BitVec 64) (s : σ) : σ := s

-- The bytes that are sent to the port of the serial line.
def putchar (character : Byte) (port : List Byte) : List Byte :=
  (if character = ascii '\n' then port ++ [ascii '\r'] else port) ++ [character]

def outChar (character : Byte) (_ _ : BitVec 64) (port : List Byte) : List Byte :=
  if character ≠ 0 then putchar character port else port

-- The function `fct` is called with the character, and changes whatever it has access to.
def outFct {σ : Type} (fct : Byte → σ → σ) (character : Byte) (_ _ : BitVec 64) (s : σ) : σ :=
  if character ≠ 0 then fct character s else s

end OutputFunctions

namespace Output

variable {σ : Type} (o : Output σ)

-- `out(character, buffer, idx++, maxlen)`
def put (character : Byte) (s : Cursor σ) : Cursor σ :=
  ⟨s.idx + 1, o.out character s.idx o.maxlen s.buffer⟩

def puts (characters : List Byte) (s : Cursor σ) : Cursor σ :=
  characters.foldl (fun s c => o.put c s) s

-- The loops that output spaces, given by the number of their iterations.
def pad (n : Nat) (s : Cursor σ) : Cursor σ :=
  o.puts (List.replicate n (ascii ' ')) s

end Output

-- The length of the string that is found in readable memory, limited by `maxsize`. A character is read before the
-- limit is checked. There is no result if anything beyond the readable memory is read.
def strnlen : List Byte → Nat → Option Nat
  | [],       _           => none
  | _ :: _,   0           => some 0
  | c :: str, maxsize + 1 => if c = 0 then some 0 else (strnlen str maxsize).map (· + 1)

def isDigit (ch : Byte) : Bool :=
  ascii '0' ≤ ch && ch ≤ ascii '9'

-- The number `i` and the rest of the string, where `i` has been `0` at the beginning.
def atoi (i : BitVec 32) : List Byte → Option (BitVec 32 × List Byte)
  | []       => none
  | c :: str => if isDigit c then atoi (i * 10 + (c - ascii '0').setWidth 32) str else some (i, c :: str)

section Integers

variable {σ : Type} (o : Output σ)

-- The characters of `buf` are output in reverse.
def outRev (buf : List Byte) (width : BitVec 32) (flags : Flags) (s : Cursor σ) : Cursor σ :=
  let start := s.idx
  let s := if !flags.left && !flags.zeropad then o.pad (width.toNat - buf.length) s else s
  let s := o.puts buf.reverse s
  if flags.left then o.pad (width.toNat - (s.idx - start).toNat) s else s

-- `PRINTF_NTOA_BUFFER_SIZE`
def bufferSize : Nat := 32

-- `buf[len++] = c`, if there is room for it.
def push (buf : List Byte) (c : Byte) : List Byte :=
  if buf.length < bufferSize then buf ++ [c] else buf

-- The loops that append zeros until the length is `n`, given by the number of their iterations.
def padZeros (buf : List Byte) (n : Nat) : List Byte :=
  buf ++ List.replicate (min n bufferSize - buf.length) (ascii '0')

-- The first statement of `_ntoa_format`, which may decrement `width`.
def signWidth (negative : Bool) (width : BitVec 32) (flags : Flags) : BitVec 32 :=
  if !flags.left && (width != 0 && flags.zeropad && (negative || flags.plus || flags.space)) then width - 1
  else width

-- The rest of the block "pad leading zeros".
def leadingZeros (buf : List Byte) (prec width : BitVec 32) (flags : Flags) : List Byte :=
  if flags.left then buf
  else
    let buf := padZeros buf prec.toNat
    if flags.zeropad then padZeros buf width.toNat else buf

-- Characters are taken from the buffer again if its length is the precision or the width.
def makeRoom (buf : List Byte) (base : Nat) (prec width : BitVec 32) (flags : Flags) : List Byte :=
  if !flags.precision && buf.length != 0 && (buf.length == prec.toNat || buf.length == width.toNat) then
    let buf := buf.dropLast
    if buf.length != 0 && base == 16 then buf.dropLast else buf
  else buf

def pushBase (buf : List Byte) (base : Nat) (flags : Flags) : List Byte :=
  if base = 16 then push buf (if flags.uppercase then ascii 'X' else ascii 'x')
  else if base = 2 then push buf (ascii 'b')
  else buf

def handleHash (buf : List Byte) (base : Nat) (prec width : BitVec 32) (flags : Flags) : List Byte :=
  if flags.hash then push (pushBase (makeRoom buf base prec width flags) base flags) (ascii '0') else buf

def sign (negative : Bool) (flags : Flags) : List Byte :=
  if negative then [ascii '-']
  else if flags.plus then [ascii '+']
  else if flags.space then [ascii ' ']
  else []

-- The buffer that is finally output by `_ntoa_format`.
def formatBuffer (buf : List Byte) (negative : Bool) (base : Nat) (prec width : BitVec 32) (flags : Flags) :
    List Byte :=
  let buf := handleHash (leadingZeros buf prec width flags) base prec width flags
  if buf.length < bufferSize then buf ++ sign negative flags else buf

def ntoaFormat (buf : List Byte) (negative : Bool) (base : Nat) (prec width : BitVec 32) (flags : Flags)
    (s : Cursor σ) : Cursor σ :=
  let width := signWidth negative width flags
  outRev o (formatBuffer buf negative base prec width flags) width flags s

def digit (uppercase : Bool) (d : Nat) : Byte :=
  if d < 10 then ascii '0' + .ofNat 8 d
  else (if uppercase then ascii 'A' else ascii 'a') + .ofNat 8 d - 10

-- The loop of `_ntoa_long`, where `n` characters still have room in the buffer.
def digits (uppercase : Bool) (base : Nat) : Nat → Nat → List Byte
  | 0,     _     => []
  | n + 1, value =>
    digit uppercase (value % base) :: if value / base = 0 then [] else digits uppercase base n (value / base)

-- There is no hash for 0 values.
def ntoaFlags (value : BitVec 64) (flags : Flags) : Flags :=
  { flags with hash := flags.hash && value != 0 }

-- The buffer that is passed to `_ntoa_format`.
def ntoaBuffer (value : BitVec 64) (base : Nat) (flags : Flags) : List Byte :=
  if !flags.precision || value != 0 then digits flags.uppercase base bufferSize value.toNat else []

-- The types `unsigned long` and `unsigned long long` have the same size.
def ntoa (value : BitVec 64) (negative : Bool) (base : Nat) (prec width : BitVec 32) (flags : Flags)
    (s : Cursor σ) : Cursor σ :=
  let flags := ntoaFlags value flags
  ntoaFormat o (ntoaBuffer value base flags) negative base prec width flags s

def ntoaLong : BitVec 64 → Bool → Nat → BitVec 32 → BitVec 32 → Flags → Cursor σ → Cursor σ := ntoa o

def ntoaLongLong : BitVec 64 → Bool → Nat → BitVec 32 → BitVec 32 → Flags → Cursor σ → Cursor σ := ntoa o

end Integers
end Printf
