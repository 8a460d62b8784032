import Xesual.Printf.Format

-- What a format string stands for. It is parsed into items before any of the arguments is looked at, and its result
-- is the concatenation of the characters of these items.

namespace Printf

variable {δ : Type}

section Characters

def spaces (n : Nat) : List Byte :=
  List.replicate n (ascii ' ')

-- The characters that are output by `_out_rev`.
def reversed (buf : List Byte) (width : BitVec 32) (flags : Flags) : List Byte :=
  if flags.left then buf.reverse ++ spaces (width.toNat - buf.length)
  else if flags.zeropad then buf.reverse
  else spaces (width.toNat - buf.length) ++ buf.reverse

-- The characters that are output by `_ntoa_long`.
def numeral (value : BitVec 64) (negative : Bool) (base : Nat) (prec width : BitVec 32) (flags : Flags) :
    List Byte :=
  let flags := ntoaFlags value flags
  let width := signWidth negative width flags
  reversed (formatBuffer (ntoaBuffer value base flags) negative base prec width flags) width flags

def integerChars (c : Byte) (flags : Flags) (width precision : BitVec 32) (w : BitVec 64) : List Byte :=
  let flags := integerFlags c flags
  let (value, negative) := integerValue c flags w
  numeral value negative (baseOf c) precision width flags

def justify (left : Bool) (n : Nat) (cs : List Byte) : List Byte :=
  if left then cs ++ spaces n else spaces n ++ cs

def characterChars (flags : Flags) (width : BitVec 32) (w : BitVec 64) : List Byte :=
  justify flags.left (width.toNat - 1) [w.setWidth 8]

-- The characters of a string up to a limit.
def content : (limit : Option Nat) → List Byte → Option (List Byte)
  | _,               []     => none
  | none,            c :: p => if c = 0 then some [] else (content none p).map (c :: ·)
  | some 0,          _ :: _ => some []
  | some (prec + 1), c :: p => if c = 0 then some [] else (content (some prec) p).map (c :: ·)

-- The length of a string that `width` is compared with.
def stringLength (flags : Flags) (precision : BitVec 32) (p : List Byte) : Option (BitVec 32) :=
  (strnlen p (if precision ≠ 0 then precision.toNat else 2 ^ 64 - 1)).map fun l =>
    let l : BitVec 32 := .ofNat 32 l
    if flags.precision then (if l < precision then l else precision) else l

def stringChars (flags : Flags) (width precision : BitVec 32) (p : List Byte) : Option (List Byte) := do
  let l ← stringLength flags precision p
  let cs ← content (if flags.precision then some precision.toNat else none) p
  return justify flags.left (width.toNat - l.toNat) cs

def pointerChars (flags : Flags) (precision : BitVec 32) (w : BitVec 64) : List Byte :=
  numeral w false 16 precision 16 { flags with zeropad := true, uppercase := true }

-- The characters of a conversion, and the remaining arguments.
def specifierChars (env : Environment δ) (c : Byte) (flags : Flags) (width precision : BitVec 32)
    (args : Arguments δ) : Option (List Byte × Arguments δ) :=
  if isInteger c then
    args.word.map fun (w, args) => (integerChars c flags width precision w, args)
  else if c = ascii 'f' ∨ c = ascii 'F' then
    let flags := if c = ascii 'F' then { flags with uppercase := true } else flags
    args.double.map fun (d, args) => (env.ftoa d precision width flags, args)
  else if c = ascii 'e' ∨ c = ascii 'E' ∨ c = ascii 'g' ∨ c = ascii 'G' then
    let flags := if c = ascii 'g' ∨ c = ascii 'G' then { flags with adaptExp := true } else flags
    let flags := if c = ascii 'E' ∨ c = ascii 'G' then { flags with uppercase := true } else flags
    args.double.map fun (d, args) => (env.etoa d precision width flags, args)
  else if c = ascii 'c' then
    args.word.map fun (w, args) => (characterChars flags width w, args)
  else if c = ascii 's' then
    args.word.bind fun (w, args) => (stringChars flags width precision (env.text w)).map (·, args)
  else if c = ascii 'p' then
    args.word.map fun (w, args) => (pointerChars flags precision w, args)
  else
    some ([c], args)

end Characters

-- The width or the precision, as it is written in the format.
inductive Field
  | absent
  | number (n : BitVec 32)
  | star
  deriving DecidableEq

inductive Length
  | default
  | h
  | hh
  | l
  | ll
  deriving DecidableEq

def Length.apply (flags : Flags) : Length → Flags
  | default => flags
  | h       => { flags with short := true }
  | hh      => { flags with short := true, char := true }
  | l       => { flags with long := true }
  | ll      => { flags with long := true, longLong := true }

-- A format specifier.
structure Directive where
  flags     : Flags
  width     : Field
  precision : Option Field
  length    : Length
  specifier : Byte
  deriving DecidableEq

inductive Item
  | literal (c : Byte)
  | directive (d : Directive)
  deriving DecidableEq

section Parser

def parseField : List Byte → Option (Field × List Byte)
  | []          => none
  | c :: format =>
    if isDigit c then (atoi 0 (c :: format)).map fun (n, format) => (.number n, format)
    else if c = ascii '*' then some (.star, format)
    else some (.absent, c :: format)

def parsePrecision : List Byte → Option (Option Field × List Byte)
  | []          => none
  | c :: format =>
    if c = ascii '.' then (parseField format).map fun (f, format) => (some f, format)
    else some (none, c :: format)

-- A letter that may be doubled.
def parseLetter (c : Byte) (once twice : Length) : List Byte → Option (Length × List Byte)
  | []           => none
  | c' :: format => some (if c' = c then (twice, format) else (once, c' :: format))

def parseLength : List Byte → Option (Length × List Byte)
  | []          => none
  | c :: format =>
    if c = ascii 'l' then parseLetter c .l .ll format
    else if c = ascii 'h' then parseLetter c .h .hh format
    else some <|
      if c = ascii 't' ∨ c = ascii 'j' ∨ c = ascii 'z' then (.l, format) else (.default, c :: format)

def parseDirective (format : List Byte) : Option (Directive × List Byte) := do
  let (flags, format) ← evaluateFlags {} format
  let (width, format) ← parseField format
  let (precision, format) ← parsePrecision format
  let (length, format) ← parseLength format
  let specifier ← format.head?
  return (⟨flags, width, precision, length, specifier⟩, format.tail)

-- The items of a format, up to the character that terminates it.
def parse : Nat → List Byte → Option (List Item)
  | 0,     _           => none
  | _ + 1, []          => none
  | n + 1, c :: format =>
    if c = 0 then some []
    else if c ≠ ascii '%' then (parse n format).map (.literal c :: ·)
    else (parseDirective format).bind fun (d, format) => (parse n format).map (.directive d :: ·)

end Parser

section Denotation

variable (env : Environment δ)

-- A negative width stands for the flag `-`.
def Field.evaluateWidth (flags : Flags) (args : Arguments δ) : Field → Option ((BitVec 32 × Flags) × Arguments δ)
  | absent   => some ((0, flags), args)
  | number n => some ((n, flags), args)
  | star     => args.word.map fun (w, args) =>
    let w : BitVec 32 := w.setWidth 32
    (if w.slt 0 then (-w, { flags with left := true }) else (w, flags), args)

def Field.evaluatePrecision (args : Arguments δ) : Field → Option (BitVec 32 × Arguments δ)
  | absent   => some (0, args)
  | number n => some (n, args)
  | star     => args.word.map fun (prec, args) =>
    let prec : BitVec 32 := prec.setWidth 32
    (if (0 : BitVec 32).slt prec then prec else 0, args)

def Directive.chars (d : Directive) (args : Arguments δ) : Option (List Byte × Arguments δ) := do
  let ((width, flags), args) ← d.width.evaluateWidth d.flags args
  let (precision, args) ← (d.precision.getD .absent).evaluatePrecision args
  let flags := if d.precision.isSome then { flags with precision := true } else flags
  specifierChars env d.specifier (d.length.apply flags) width precision args

def Item.chars (args : Arguments δ) : Item → Option (List Byte × Arguments δ)
  | literal c   => some ([c], args)
  | directive d => d.chars env args

def chars (args : Arguments δ) : List Item → Option (List Byte × Arguments δ)
  | []            => some ([], args)
  | item :: items =>
    (item.chars env args).bind fun (cs, args) => (chars args items).map fun (cs', args) => (cs ++ cs', args)

-- The characters that a format stands for.
def formatted (format : List Byte) (args : Arguments δ) : Option (List Byte) :=
  (parse format.length format).bind fun items => (chars env args items).map Prod.fst

end Denotation

section Needs

-- The number of arguments that are taken for a field.
def Field.words : Field → Nat
  | absent   => 0
  | number _ => 0
  | star     => 1

def isDouble (c : Byte) : Bool :=
  [ascii 'f', ascii 'F', ascii 'e', ascii 'E', ascii 'g', ascii 'G'].contains c

def takesWord (c : Byte) : Bool :=
  isInteger c || [ascii 'c', ascii 's', ascii 'p'].contains c

def Directive.words (d : Directive) : Nat :=
  d.width.words + (d.precision.getD .absent).words + (takesWord d.specifier).toNat

def Directive.doubles (d : Directive) : Nat :=
  (isDouble d.specifier).toNat

def Item.words : Item → Nat
  | literal _   => 0
  | directive d => d.words

def Item.doubles : Item → Nat
  | literal _   => 0
  | directive d => d.doubles

-- The pointers to the strings that are output.
def Item.strings (words : List (BitVec 64)) : Item → List (BitVec 64)
  | literal _   => []
  | directive d =>
    if d.specifier = ascii 's' then (words.drop (d.width.words + (d.precision.getD .absent).words)).head?.toList else []

def strings (words : List (BitVec 64)) : List Item → List (BitVec 64)
  | []            => []
  | item :: items => item.strings words ++ strings (words.drop item.words) items

-- There are at least as many arguments as that.
def Arguments.Supply (args : Arguments δ) (words doubles : Nat) : Prop :=
  words ≤ args.words.length ∧ doubles ≤ args.doubles.length

def Arguments.drop (args : Arguments δ) (words doubles : Nat) : Arguments δ :=
  ⟨args.words.drop words, args.doubles.drop doubles⟩

end Needs
end Printf
