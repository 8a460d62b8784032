import Xesual.Printf.Theorems.Digits
import Xesual.Printf.Theorems.Output

-- Reading the numbers that have been printed.

namespace Printf

section Reader

def digitValue (c : Byte) : Option Nat :=
  if isDigit c then some (c - ascii '0').toNat
  else if ascii 'a' ≤ c ∧ c ≤ ascii 'f' then some ((c - ascii 'a').toNat + 10)
  else if ascii 'A' ≤ c ∧ c ≤ ascii 'F' then some ((c - ascii 'A').toNat + 10)
  else none

def isDigitOf (base : Nat) (c : Byte) : Bool :=
  (digitValue c).any (· < base)

-- At least one digit, followed by nothing but spaces.
def readDigits (base : Nat) (cs : List Byte) : Option Nat :=
  let ds := cs.takeWhile (isDigitOf base)
  if ds ≠ [] ∧ (cs.dropWhile (isDigitOf base)).all (· = ascii ' ') then
    some (Nat.ofDigits base (ds.reverse.filterMap digitValue))
  else none

-- A number that may be surrounded by spaces and have a sign.
def readNumber (base : Nat) (cs : List Byte) : Option (Bool × Nat) :=
  let cs := cs.dropWhile (· = ascii ' ')
  if cs.head? = some (ascii '-') then (readDigits base cs.tail).map (true, ·)
  else if cs.head? = some (ascii '+') then (readDigits base cs.tail).map (false, ·)
  else (readDigits base cs).map (false, ·)

end Reader

variable {uppercase negative : Bool} {base d n : Nat} {ds : List Nat} {value : BitVec 64} {prec width : BitVec 32}
  {flags : Flags}

section Digits

theorem digitValue_digit (h : d < 16) : digitValue (digit uppercase d) = some d := by
  revert uppercase d
  decide

theorem digit_ne (h : d < 16) :
    digit uppercase d ≠ ascii ' ' ∧ digit uppercase d ≠ ascii '-' ∧ digit uppercase d ≠ ascii '+' := by
  revert uppercase d
  decide

theorem isDigitOf_space : isDigitOf base (ascii ' ') = false := rfl

theorem filterMap_digitValue (h : ∀ d ∈ ds, d < 16) : (ds.map (digit uppercase)).filterMap digitValue = ds := by
  rw [List.filterMap_map]
  refine (List.filterMap_congr fun d hd => ?_).trans List.filterMap_some
  exact digitValue_digit (h d hd)

theorem readDigits_append_spaces (hb : base ≤ 16) (hd : ∀ d ∈ ds, d < base) (hne : ds ≠ []) :
    readDigits base (ds.map (digit uppercase) ++ spaces n) = some (Nat.ofDigits base ds.reverse) := by
  have hdigit : ∀ c ∈ ds.map (digit uppercase), isDigitOf base c := by
    intro c hc
    obtain ⟨d, hm, rfl⟩ := List.mem_map.mp hc
    simp [isDigitOf, digitValue_digit ((hd d hm).trans_le hb), hd d hm]
  have htake : (ds.map (digit uppercase) ++ spaces n).takeWhile (isDigitOf base) = ds.map (digit uppercase) := by
    simp [List.takeWhile_append_of_pos hdigit, spaces, isDigitOf_space]
  have hdrop : (ds.map (digit uppercase) ++ spaces n).dropWhile (isDigitOf base) = spaces n := by
    simp [List.dropWhile_append_of_pos hdigit, spaces, isDigitOf_space]
  have hvalue : (ds.map (digit uppercase)).reverse.filterMap digitValue = ds.reverse := by
    rw [← List.map_reverse]
    exact filterMap_digitValue fun d hm => (hd d (List.mem_reverse.mp hm)).trans_le hb
  rw [readDigits]
  simp only [htake, hdrop, hvalue]
  rw [if_pos]
  exact ⟨by simpa using hne, by simp [spaces]⟩

theorem readDigits_spaces : readDigits base (spaces n) = none := by
  simp [readDigits, spaces, isDigitOf_space]

end Digits

section Layout

-- The digits in the buffer before any others are put in front of them, starting with the least significant one.
def printedDigits (value : BitVec 64) (base : Nat) (flags : Flags) : List Nat :=
  if flags.precision ∧ value = 0 then [] else (digitsOf base value.toNat).take bufferSize

-- The length of the number together with the zeros that are put in front of it.
def digitCount (value : BitVec 64) (base : Nat) (prec width : BitVec 32) (flags : Flags) : Nat :=
  let n := (printedDigits value base flags).length
  if flags.left then n
  else max n (min (max prec.toNat (if flags.zeropad then width.toNat else 0)) bufferSize)

-- The digits including these zeros.
def paddedDigits (value : BitVec 64) (base : Nat) (prec width : BitVec 32) (flags : Flags) : List Nat :=
  let ds := printedDigits value base flags
  ds ++ List.replicate (digitCount value base prec width flags - ds.length) 0

theorem ntoaBuffer_eq (hb : 1 < base) :
    ntoaBuffer value base flags = (printedDigits value base flags).map (digit flags.uppercase) := by
  rw [ntoaBuffer, printedDigits]
  by_cases h : flags.precision ∧ value = 0
  case pos => simp [h]
  case neg =>
    rw [if_neg h, if_pos, digits_eq hb]
    grind

theorem padZeros_map : padZeros (ds.map (digit uppercase)) n =
    (ds ++ List.replicate (min n bufferSize - ds.length) 0).map (digit uppercase) := by
  rw [padZeros, List.length_map, List.map_append, List.map_replicate]
  rfl

theorem leadingZeros_eq (hb : 1 < base) : leadingZeros (ntoaBuffer value base flags) prec width flags =
    (paddedDigits value base prec width flags).map (digit flags.uppercase) := by
  rw [ntoaBuffer_eq hb, leadingZeros, paddedDigits, digitCount]
  generalize printedDigits value base flags = ds
  cases flags.left
  case true => simp
  case false =>
    simp only [Bool.false_eq_true, ↓reduceIte, padZeros_map]
    cases flags.zeropad
    case false =>
      simp only [Bool.false_eq_true, ↓reduceIte]
      congr 3
      omega
    case true =>
      simp only [↓reduceIte, List.append_assoc, List.length_append, List.length_replicate,
        ← List.replicate_add]
      congr 3
      omega

theorem length_paddedDigits :
    (paddedDigits value base prec width flags).length = digitCount value base prec width flags := by
  have h : (printedDigits value base flags).length ≤ digitCount value base prec width flags := by
    rw [digitCount]
    split <;> omega
  rw [paddedDigits, List.length_append, List.length_replicate]
  omega

theorem lt_of_mem_paddedDigits (hb : 1 < base) (h : d ∈ paddedDigits value base prec width flags) : d < base := by
  obtain h | h := List.mem_append.mp h
  · rw [printedDigits] at h
    split at h
    · cases h
    · exact lt_of_mem_digitsOf hb (List.mem_of_mem_take h)
  · rw [List.eq_of_mem_replicate h]
    omega

-- The lower 32 digits are printed.
theorem ofDigits_paddedDigits (hb : 1 < base) :
    Nat.ofDigits base (paddedDigits value base prec width flags) = value.toNat % base ^ bufferSize := by
  rw [paddedDigits, Nat.ofDigits_append_replicate_zero, printedDigits]
  split
  case isTrue h  => simp [h.right]
  case isFalse h =>
    rw [digitsOf]
    split
    case isTrue h0 => simp [h0, bufferSize]
    case isFalse   => exact (Nat.self_mod_pow_eq_ofDigits_take _ _ hb).symm

-- The characters without the spaces that are used for padding.
def unpadded (value : BitVec 64) (negative : Bool) (base : Nat) (prec width : BitVec 32) (flags : Flags) : List Byte :=
  let ds := paddedDigits value base prec (signWidth negative width flags) flags
  (if ds.length < bufferSize then sign negative flags else []) ++ ds.reverse.map (digit flags.uppercase)

theorem formatBuffer_eq (hb : 1 < base) (hh : flags.hash = false) :
    (formatBuffer (ntoaBuffer value base flags) negative base prec width flags).reverse =
      let ds := paddedDigits value base prec width flags
      (if ds.length < bufferSize then sign negative flags else []) ++ ds.reverse.map (digit flags.uppercase) := by
  have hs : (sign negative flags).reverse = sign negative flags := by
    rw [sign]
    repeat' split
    all_goals rfl
  simp only [formatBuffer, handleHash, hh, leadingZeros_eq hb, Bool.false_eq_true, ↓reduceIte, List.length_map]
  split
  case isTrue  => rw [List.reverse_append, hs, List.map_reverse]
  case isFalse => rw [List.nil_append, List.map_reverse]

theorem numeral_eq (hb : 1 < base) (hh : flags.hash = false) : ∃ a b,
    numeral value negative base prec width flags =
      spaces a ++ (unpadded value negative base prec width flags ++ spaces b) := by
  have hf : ntoaFlags value flags = flags := by
    rw [ntoaFlags, hh, Bool.false_and, ← hh]
  rw [numeral, hf, reversed, formatBuffer_eq hb hh]
  repeat' split
  case isTrue          => exact ⟨0, _, rfl⟩
  case isFalse.isTrue  => exact ⟨0, 0, (List.append_nil _).symm⟩
  case isFalse.isFalse => exact ⟨_, 0, congrArg _ (List.append_nil _).symm⟩

end Layout

section Reading

theorem readNumber_spaces_append {cs : List Byte} : readNumber base (spaces n ++ cs) = readNumber base cs := by
  have h : (spaces n ++ cs).dropWhile (· = ascii ' ') = cs.dropWhile (· = ascii ' ') := by
    rw [List.dropWhile_append_of_pos]
    intro c hc
    simpa using List.eq_of_mem_replicate hc
  simp only [readNumber, h]

theorem readNumber_signed (hb : base ≤ 16) (hd : ∀ d ∈ ds, d < base) :
    readNumber base ((if negative then ascii '-' else ascii '+') :: (ds.map (digit uppercase) ++ spaces n)) =
      if ds = [] then none else some (negative, Nat.ofDigits base ds.reverse) := by
  have hr : readDigits base (ds.map (digit uppercase) ++ spaces n) =
      if ds = [] then none else some (Nat.ofDigits base ds.reverse) := by
    split
    case isTrue h  => simp [h, readDigits_spaces]
    case isFalse h => exact readDigits_append_spaces hb hd h
  have hdrop (cs : List Byte) : ((if negative then ascii '-' else ascii '+') :: cs).dropWhile (· = ascii ' ') =
      (if negative then ascii '-' else ascii '+') :: cs := by
    rw [List.dropWhile_cons_of_neg]
    cases negative <;> decide
  have hne : ascii '+' ≠ ascii '-' := by decide
  simp only [readNumber, hdrop, List.head?_cons, List.tail_cons, hr]
  cases negative
  case true  => by_cases h : ds = [] <;> simp [h]
  case false => by_cases h : ds = [] <;> simp [h, hne]

theorem readNumber_unsigned (hb : base ≤ 16) (hd : ∀ d ∈ ds, d < base) :
    readNumber base (ds.map (digit uppercase) ++ spaces n) =
      if ds = [] then none else some (false, Nat.ofDigits base ds.reverse) := by
  cases ds
  case nil =>
    have h : (spaces n).dropWhile (· = ascii ' ') = [] := by simp [spaces]
    simp [readNumber, h, readDigits]
  case cons d ds =>
    have hr : readDigits base ((d :: ds).map (digit uppercase) ++ spaces n) = _ :=
      readDigits_append_spaces hb hd (List.cons_ne_nil d ds)
    have hne : digit uppercase d ≠ _ ∧ _ := digit_ne ((hd d (List.mem_cons_self ..)).trans_le hb)
    rw [List.map_cons, List.cons_append] at *
    have hdrop : (digit uppercase d :: (ds.map (digit uppercase) ++ spaces n)).dropWhile (· = ascii ' ') = _ :=
      List.dropWhile_cons_of_neg (by simpa using hne.left)
    simp only [readNumber, hdrop, List.head?_cons, Option.some.injEq, hne, ↓reduceIte, hr, Option.map_some,
      List.cons_ne_nil]

theorem sign_false : sign false flags ∈ [[ascii '+'], [ascii ' '], []] := by
  simp only [sign, Bool.false_eq_true, ↓reduceIte]
  repeat' split
  all_goals simp

theorem readNumber_sign (hb : base ≤ 16) (hd : ∀ d ∈ ds, d < base) :
    readNumber base (sign negative flags ++ (ds.map (digit uppercase) ++ spaces n)) =
      if ds = [] then none else some (negative, Nat.ofDigits base ds.reverse) := by
  have hsigned (negative : Bool) : readNumber base
      ((if negative then ascii '-' else ascii '+') :: (ds.map (digit uppercase) ++ spaces n)) = _ :=
    readNumber_signed hb hd
  cases negative
  case true => exact hsigned true
  case false =>
    have hs : sign false flags ∈ [[ascii '+'], [ascii ' '], []] := sign_false
    simp only [List.mem_cons, List.not_mem_nil, or_false] at hs
    obtain hs | hs | hs := hs <;> rw [hs]
    · exact hsigned false
    · exact (readNumber_spaces_append (n := 1)).trans (readNumber_unsigned hb hd)
    · exact readNumber_unsigned hb hd

-- What is read from the characters of a number. There are not more than 32 digits, and there is no room for the sign
-- if there are as many.
theorem readNumber_numeral (hb : 1 < base) (hb' : base ≤ 16) (hh : flags.hash = false) :
    let n := digitCount value base prec (signWidth negative width flags) flags
    readNumber base (numeral value negative base prec width flags) =
      if n = 0 then none else some (negative && n < bufferSize, value.toNat % base ^ bufferSize) := by
  intro n
  obtain ⟨a, b, h⟩ : ∃ a b, numeral value negative base prec width flags = _ := numeral_eq hb hh
  have hd : ∀ d ∈ (paddedDigits value base prec (signWidth negative width flags) flags).reverse, d < base :=
    fun d hd => lt_of_mem_paddedDigits hb (List.mem_reverse.mp hd)
  have hnil : (paddedDigits value base prec (signWidth negative width flags) flags).reverse = [] ↔ n = 0 := by
    rw [List.reverse_eq_nil_iff, ← List.length_eq_zero_iff, length_paddedDigits]
  have hvalue : Nat.ofDigits base (paddedDigits value base prec (signWidth negative width flags) flags) = _ :=
    ofDigits_paddedDigits hb
  rw [h, readNumber_spaces_append, unpadded, List.append_assoc, length_paddedDigits]
  by_cases hn : n < bufferSize
  case pos =>
    rw [if_pos hn, readNumber_sign hb' hd, List.reverse_reverse, hvalue]
    simp [hnil, hn]
  case neg =>
    rw [if_neg hn, List.nil_append, readNumber_unsigned hb' hd, List.reverse_reverse, hvalue]
    simp [hnil, hn]

-- The sign of -42 is lost if there are zeros up to a width of 40.
theorem readNumber_numeral_zeros :
    readNumber 10 (numeral 42 true 10 0 40 { zeropad := true }) = some (false, 42) :=
  (readNumber_numeral (by decide) (by decide) rfl).trans (by decide)

end Reading
end Printf
