import Xesual.Printf.Theorems.Numbers

-- Hexadecimal numbers that are printed with `#`, as it is done by `dumpRegisters`.

namespace Printf

variable {uppercase : Bool} {d n : Nat} {ds : List Nat} {value w : BitVec 64} {width : BitVec 32} {flags : Flags}
  {c : Byte} {buf cs : List Byte}

-- A number behind `0x` or `0X`, which may be surrounded by spaces.
def readHex (cs : List Byte) : Option Nat :=
  let cs := cs.dropWhile (· = ascii ' ')
  if cs.head? = some (ascii '0') ∧ (cs.tail.head? = some (ascii 'x') ∨ cs.tail.head? = some (ascii 'X')) then
    readDigits 16 cs.tail.tail
  else none

-- The number of digits that are in the buffer when the `x` is put behind them.
def hexDigitCount (value : BitVec 64) (width : BitVec 32) (flags : Flags) : Nat :=
  let n := (digitsOf 16 value.toNat).length
  if flags.zeropad && !flags.left then max n (min width.toNat bufferSize) else n

section Buffer

theorem length_digitsOf_hex : (digitsOf 16 value.toNat).length ≤ 16 :=
  length_digitsOf_le (by decide) value.isLt (by decide)

theorem digitCount_eq_hexDigitCount (hp : flags.precision = false) :
    digitCount value 16 0 width flags = hexDigitCount value width flags := by
  have h : (digitsOf 16 value.toNat).length ≤ bufferSize := length_digitsOf_hex.trans (by decide)
  simp only [digitCount, hexDigitCount, printedDigits, hp, Bool.false_eq_true, false_and, ↓reduceIte,
    List.take_of_length_le h]
  cases flags.left <;> cases flags.zeropad <;> simp

theorem hexDigitCount_pos : 0 < hexDigitCount value width flags := by
  have h : 0 < (digitsOf 16 value.toNat).length := List.length_pos_of_ne_nil digitsOf_ne_nil
  rw [hexDigitCount]
  split <;> omega

-- Two digits are removed if their number is the width.
theorem makeRoom_eq (hp : flags.precision = false) (hn : 0 < buf.length) :
    makeRoom buf 16 0 width flags = if buf.length = width.toNat then buf.take (buf.length - 2) else buf := by
  rw [makeRoom]
  by_cases h : buf.length = width.toNat
  case neg =>
    rw [if_neg h, if_neg]
    simp [hp, h]
  case pos =>
    have h0 : (buf.length != 0) = true := bne_iff_ne.mpr (Nat.ne_of_gt hn)
    have hw : (buf.length == width.toNat) = true := beq_iff_eq.mpr h
    rw [if_pos h, if_pos (by simp only [hp, h0, hw, Bool.not_false, Bool.and_true, Bool.or_true])]
    simp only [beq_self_eq_true, Bool.and_true, bne_iff_ne, List.dropLast_eq_take, List.length_take]
    split
    case isTrue  => rw [List.take_take]; congr 1; omega
    case isFalse => congr 1; omega

-- The `0x` is only complete if there is room for two more characters.
theorem pushBase_eq : push (pushBase buf 16 flags) (ascii '0') =
    if buf.length + 2 ≤ bufferSize then buf ++ [if flags.uppercase then ascii 'X' else ascii 'x', ascii '0']
    else if buf.length + 1 ≤ bufferSize then buf ++ [if flags.uppercase then ascii 'X' else ascii 'x']
    else buf := by
  simp only [pushBase, push, ↓reduceIte]
  by_cases h : buf.length + 1 ≤ bufferSize
  case pos =>
    by_cases h' : buf.length + 2 ≤ bufferSize
    case pos => simp [h', show buf.length < bufferSize by omega, show buf.length + 1 < bufferSize by omega]
    case neg => simp [h', h, show buf.length < bufferSize by omega, show ¬buf.length + 1 < bufferSize by omega]
  case neg =>
    simp [h, show ¬buf.length + 2 ≤ bufferSize by omega, show ¬buf.length < bufferSize by omega]

-- The digits that remain in the buffer.
def hexDigits (value : BitVec 64) (width : BitVec 32) (flags : Flags) : List Nat :=
  let ds := paddedDigits value 16 0 width flags
  if ds.length = width.toNat then ds.take (ds.length - 2) else ds

variable (hh : flags.hash = true) (hp : flags.precision = false) (hs : flags.plus = false ∧ flags.space = false)

include hh hp hs in
theorem numeral_hex (hv : value ≠ 0) : ∃ a b, numeral value false 16 0 width flags =
    spaces a ++ ((push (pushBase ((hexDigits value width flags).map (digit flags.uppercase)) 16 flags)
      (ascii '0')).reverse ++ spaces b) := by
  have hf : ntoaFlags value flags = flags := by
    have hv : (flags.hash && value != 0) = flags.hash := by rw [bne_iff_ne.mpr hv, Bool.and_true]
    rw [ntoaFlags, hv]
  have hw : signWidth false width flags = width := by simp [signWidth, hs]
  have hsign : sign false flags = [] := by simp [sign, hs]
  have hlen : 0 < (paddedDigits value 16 0 width flags).length := by
    rw [length_paddedDigits, digitCount_eq_hexDigitCount hp]
    exact hexDigitCount_pos
  have hbuf : formatBuffer (ntoaBuffer value 16 flags) false 16 0 width flags =
      push (pushBase ((hexDigits value width flags).map (digit flags.uppercase)) 16 flags) (ascii '0') := by
    have hr : makeRoom ((paddedDigits value 16 0 width flags).map (digit flags.uppercase)) 16 0 width flags =
        (hexDigits value width flags).map (digit flags.uppercase) := by
      rw [makeRoom_eq hp (by simpa using hlen), hexDigits, List.length_map]
      split <;> simp
    simp only [formatBuffer, handleHash, hh, leadingZeros_eq (show 1 < 16 by decide), ↓reduceIte, hsign, hr,
      List.append_nil, ite_self]
  rw [numeral, hf, hw, hbuf, reversed]
  repeat' split
  case isTrue          => exact ⟨0, _, rfl⟩
  case isFalse.isTrue  => exact ⟨0, 0, (List.append_nil _).symm⟩
  case isFalse.isFalse => exact ⟨_, 0, congrArg _ (List.append_nil _).symm⟩

end Buffer

section Reading

theorem digit_ne_x (h : d < 16) :
    digit uppercase d ≠ ascii 'x' ∧ digit uppercase d ≠ ascii 'X' ∧ digit uppercase d ≠ ascii ' ' := by
  revert uppercase d
  decide

theorem readHex_spaces_append : readHex (spaces n ++ cs) = readHex cs := by
  have h : (spaces n ++ cs).dropWhile (· = ascii ' ') = cs.dropWhile (· = ascii ' ') := by
    rw [List.dropWhile_append_of_pos]
    intro c hc
    simpa using List.eq_of_mem_replicate hc
  simp only [readHex, h]

theorem readHex_cons :
    readHex (ascii '0' :: (if uppercase then ascii 'X' else ascii 'x') :: cs) = readDigits 16 cs := by
  have hdrop (cs : List Byte) : (ascii '0' :: cs).dropWhile (· = ascii ' ') = ascii '0' :: cs :=
    List.dropWhile_cons_of_neg (by decide)
  cases uppercase <;> simp [readHex, hdrop]

-- There is no `x` among the digits.
theorem readHex_digits (hd : ∀ d ∈ ds, d < 16) (hn : 2 ≤ ds.length) :
    readHex (ds.map (digit uppercase) ++ cs) = none := by
  obtain _ | ⟨d, _ | ⟨d', ds⟩⟩ := ds
  · simp at hn
  · simp at hn
  · have h : digit uppercase d ≠ _ ∧ digit uppercase d ≠ _ ∧ _ := digit_ne_x (hd d (by simp))
    have h' : digit uppercase d' ≠ _ ∧ digit uppercase d' ≠ _ ∧ _ := digit_ne_x (hd d' (by simp))
    have hdrop (cs : List Byte) : (digit uppercase d :: cs).dropWhile (· = ascii ' ') = digit uppercase d :: cs :=
      List.dropWhile_cons_of_neg (by simpa using h.right.right)
    simp [readHex, hdrop, h']

variable (hh : flags.hash = true) (hp : flags.precision = false) (hs : flags.plus = false ∧ flags.space = false)

theorem length_hexDigits (hp : flags.precision = false) : (hexDigits value width flags).length =
    if hexDigitCount value width flags = width.toNat then width.toNat - 2 else hexDigitCount value width flags := by
  rw [hexDigits, length_paddedDigits, digitCount_eq_hexDigitCount hp]
  split
  case isTrue h  => rw [List.length_take, length_paddedDigits, digitCount_eq_hexDigitCount hp]; omega
  case isFalse h => rw [length_paddedDigits, digitCount_eq_hexDigitCount hp]

theorem lt_of_mem_hexDigits (h : d ∈ hexDigits value width flags) : d < 16 := by
  rw [hexDigits] at h
  split at h
  case isTrue  => exact lt_of_mem_paddedDigits (by decide) (List.mem_of_mem_take h)
  case isFalse => exact lt_of_mem_paddedDigits (by decide) h

theorem ofDigits_hexDigits (hp : flags.precision = false) : Nat.ofDigits 16 (hexDigits value width flags) =
    value.toNat % 16 ^ (hexDigits value width flags).length := by
  have hb : 1 < 16 := by decide
  have hle : (hexDigits value width flags).length ≤ (paddedDigits value 16 0 width flags).length := by
    rw [hexDigits]
    split
    case isTrue  => rw [List.length_take]; omega
    case isFalse => exact le_refl _
  have htake : hexDigits value width flags =
      (paddedDigits value 16 0 width flags).take (hexDigits value width flags).length := by
    rw [hexDigits]
    split
    case isTrue  => rw [List.length_take, Nat.min_eq_left (Nat.sub_le ..)]
    case isFalse => rw [List.take_length]
  have hsize : (paddedDigits value 16 0 width flags).length ≤ bufferSize := by
    rw [length_paddedDigits, digitCount_eq_hexDigitCount hp, hexDigitCount]
    have h : (digitsOf 16 value.toNat).length ≤ 16 := length_digitsOf_hex
    have hsize : 16 ≤ bufferSize := by decide
    split <;> omega
  rw [htake, ← Nat.ofDigits_mod_pow_eq_ofDigits_take _ (by decide) _ fun d hd => lt_of_mem_paddedDigits hb hd,
    ofDigits_paddedDigits hb, ← htake]
  exact Nat.mod_mod_of_dvd _ (Nat.pow_dvd_pow 16 (hle.trans hsize))

-- If the width is not the number of digits, there is room for all of them, unless 32 characters are filled with zeros.
theorem hexDigitCount_cases :
    hexDigitCount value width flags ≤ bufferSize ∧ (hexDigitCount value width flags ≠ width.toNat →
      hexDigitCount value width flags + 2 ≤ bufferSize ∨ hexDigitCount value width flags = bufferSize) := by
  have h : (digitsOf 16 value.toNat).length ≤ 16 := length_digitsOf_hex
  have hsize : bufferSize = 32 := rfl
  rw [hexDigitCount]
  split <;> omega

theorem toNat_lt_hexDigitCount : value.toNat < 16 ^ hexDigitCount value width flags := by
  have hlen : (digitsOf 16 value.toNat).length ≤ hexDigitCount value width flags := by
    rw [hexDigitCount]
    split <;> omega
  refine Nat.lt_of_lt_of_le ?_ (Nat.pow_le_pow_right (by decide) hlen)
  rw [digitsOf]
  split
  case isTrue h => rw [h]; decide
  case isFalse  => exact Nat.lt_base_pow_length_digits (by decide)

include hh hp hs in
-- What is read from the characters of a number that is printed with `#`. Two digits are lost if the width is the number
-- of digits, since they are taken for zeros, and there is no room for the `0x` behind 32 digits.
theorem readHex_numeral (hv : value ≠ 0) :
    let n := hexDigitCount value width flags
    readHex (numeral value false 16 0 width flags) =
      if n = width.toNat then (if n ≤ 2 then none else some (value.toNat % 16 ^ (n - 2)))
      else if n + 2 ≤ bufferSize then some value.toNat
      else none := by
  intro n
  have hsize : bufferSize = 32 := rfl
  have hpos : 0 < n := hexDigitCount_pos
  obtain ⟨hle, hroom⟩ : n ≤ bufferSize ∧ (n ≠ width.toNat → n + 2 ≤ bufferSize ∨ n = bufferSize) :=
    hexDigitCount_cases
  obtain ⟨a, b, h⟩ : ∃ a b, numeral value false 16 0 width flags = _ := numeral_hex hh hp hs hv
  have hd : ∀ d ∈ (hexDigits value width flags).reverse, d < 16 :=
    fun d hd => lt_of_mem_hexDigits (List.mem_reverse.mp hd)
  have hlen : (hexDigits value width flags).length = if n = width.toNat then width.toNat - 2 else n :=
    length_hexDigits hp
  have hvalue : Nat.ofDigits 16 (hexDigits value width flags) = _ := ofDigits_hexDigits hp
  rw [h, readHex_spaces_append, pushBase_eq, List.length_map]
  by_cases hk : (hexDigits value width flags).length + 2 ≤ bufferSize
  case pos =>
    have hread : readDigits 16 ((hexDigits value width flags).reverse.map (digit flags.uppercase) ++ spaces b) =
        if (hexDigits value width flags).length = 0 then none
        else some (value.toNat % 16 ^ (hexDigits value width flags).length) := by
      split
      case isTrue h  => rw [List.length_eq_zero_iff.mp h]; exact readDigits_spaces
      case isFalse h =>
        have hne : (hexDigits value width flags).reverse ≠ [] := by simpa [List.length_eq_zero_iff] using h
        rw [readDigits_append_spaces (le_refl 16) hd hne, List.reverse_reverse, hvalue]
    have hlt : value.toNat < 16 ^ n := toNat_lt_hexDigitCount
    rw [if_pos hk, List.reverse_append, ← List.map_reverse]
    refine (readHex_cons.trans hread).trans ?_
    rw [hlen] at hk ⊢
    by_cases hn : n = width.toNat
    case pos =>
      simp only [if_pos hn]
      rw [← hn]
      refine if_congr ?_ rfl rfl
      omega
    case neg =>
      simp only [if_neg hn] at hk ⊢
      rw [if_neg (by omega), if_pos hk, Nat.mod_eq_of_lt hlt]
  case neg =>
    have hn : n ≠ width.toNat := by
      intro hn
      rw [hlen, if_pos hn] at hk
      omega
    rw [hlen, if_neg hn] at hk
    have hfull : ¬(hexDigits value width flags).length + 1 ≤ bufferSize := by
      rw [hlen, if_neg hn]
      have h := hroom hn
      omega
    rw [hlen, if_neg hn, if_neg hk, if_neg hn, if_neg hk, if_neg (by rwa [hlen, if_neg hn] at hfull),
      ← List.map_reverse]
    exact readHex_digits hd (by rw [List.length_reverse]; omega)

-- The number 0x1234 is printed as 0x34 if it has the width 4.
theorem readHex_numeral_width : readHex (numeral 0x1234 false 16 0 4 { hash := true }) = some 0x34 :=
  (readHex_numeral rfl rfl ⟨rfl, rfl⟩ (by decide)).trans (by decide)

end Reading
end Printf
