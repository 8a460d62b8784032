import Xesual.Printf.Directives

-- How items are written in a format.

namespace Printf

def numberText (n : BitVec 32) : List Byte :=
  (digits false 10 bufferSize n.toNat).reverse

def Field.text : Field → List Byte
  | absent   => []
  | number n => numberText n
  | star     => [ascii '*']

def Length.text : Length → List Byte
  | default => []
  | h       => [ascii 'h']
  | hh      => [ascii 'h', ascii 'h']
  | l       => [ascii 'l']
  | ll      => [ascii 'l', ascii 'l']

-- A character that is written if and only if a flag is set.
def flagText (c : Char) (flag : Bool) : List Byte :=
  if flag then [ascii c] else []

def Flags.text (flags : Flags) : List Byte :=
  flagText '0' flags.zeropad ++ (flagText '-' flags.left ++ (flagText '+' flags.plus ++
    (flagText ' ' flags.space ++ flagText '#' flags.hash)))

def precisionText : Option Field → List Byte
  | none   => []
  | some f => ascii '.' :: f.text

namespace Directive

-- Everything in front of the specifier.
def fieldsText (d : Directive) : List Byte :=
  d.flags.text ++ (d.width.text ++ (precisionText d.precision ++ d.length.text))

def text (d : Directive) : List Byte :=
  d.fieldsText ++ [d.specifier]

-- The characters that have a meaning of their own in front of the specifier.
def punctuation : List Byte :=
  [ ascii '0', ascii '-', ascii '+', ascii ' ', ascii '#', ascii '1', ascii '2', ascii '3', ascii '4', ascii '5',
    ascii '6', ascii '7', ascii '8', ascii '9', ascii '*', ascii '.' ]

def letters : List Byte :=
  [ascii 'l', ascii 'h', ascii 't', ascii 'j', ascii 'z']

-- The flags are those that can be written. The width zero would be taken for a flag.
structure WellFormed (d : Directive) : Prop where
  flags     : d.flags = ⟨d.flags.zeropad, d.flags.left, d.flags.plus, d.flags.space, d.flags.hash,
    false, false, false, false, false, false, false⟩
  width     : d.width ≠ .number 0
  specifier : d.specifier ∉ punctuation ++ letters

end Directive

namespace Item

def text : Item → List Byte
  | literal c   => [c]
  | directive d => ascii '%' :: d.text

def WellFormed : Item → Prop
  | literal c   => c ≠ 0 ∧ c ≠ ascii '%'
  | directive d => d.WellFormed

end Item
end Printf
