import Xesual.Printf.Directives

-- The digits of a number, as they are written by `_ntoa_long` and read by `_atoi`.

namespace Printf

variable {uppercase : Bool} {base d m n value : Nat} {ds : List Nat} {c : Byte} {rest : List Byte}

-- The digits of a number, starting with the least significant one. There is at least one digit.
def digitsOf (base value : Nat) : List Nat :=
  if value = 0 then [0] else Nat.digits base value

theorem digitsOf_eq (hb : 1 < base) :
    digitsOf base value = value % base :: if value / base = 0 then [] else digitsOf base (value / base) := by
  by_cases h : value = 0
  case pos => simp [digitsOf, h]
  case neg =>
    rw [digitsOf, if_neg h, Nat.digits_def' hb (Nat.pos_of_ne_zero h)]
    by_cases h' : value / base = 0
    case pos => rw [if_pos h', h', Nat.digits_zero]
    case neg => rw [if_neg h', digitsOf, if_neg h']

theorem ofDigits_digitsOf : Nat.ofDigits base (digitsOf base value) = value := by
  by_cases h : value = 0
  case pos => simp [digitsOf, h]
  case neg => rw [digitsOf, if_neg h, Nat.ofDigits_digits]

theorem lt_of_mem_digitsOf (hb : 1 < base) (h : d ∈ digitsOf base value) : d < base := by
  rw [digitsOf] at h
  split at h
  case isTrue  => rw [List.mem_singleton.mp h]; omega
  case isFalse => exact Nat.digits_lt_base hb h

theorem digitsOf_ne_nil : digitsOf base value ≠ [] := by
  rw [digitsOf]
  split
  case isTrue    => simp
  case isFalse h => exact Nat.digits_ne_nil_iff_ne_zero.mpr h

theorem length_digitsOf_le (hb : 1 < base) (h : value < base ^ n) (hn : 0 < n) : (digitsOf base value).length ≤ n := by
  rw [digitsOf]
  split
  case isTrue  => exact hn
  case isFalse => exact (Nat.digits_length_le_iff hb value).mpr h

-- The leading digit is zero for the number zero only.
theorem getLast_digitsOf_ne_zero (h : value ≠ 0) : (digitsOf base value).getLast digitsOf_ne_nil ≠ 0 := by
  simp only [digitsOf, if_neg h]
  exact Nat.getLast_digit_ne_zero base h

-- The buffer contains the lower digits, as far as there is room for them.
theorem digits_eq (hb : 1 < base) :
    digits uppercase base n value = ((digitsOf base value).take n).map (digit uppercase) := by
  induction n generalizing value
  case zero => rfl
  case succ n ih =>
    rw [digits, digitsOf_eq hb, List.take_succ_cons, List.map_cons, ih]
    split <;> simp

theorem digits_eq_of_lt (hb : 1 < base) (h : value < base ^ n) (hn : 0 < n) :
    digits uppercase base n value = (digitsOf base value).map (digit uppercase) := by
  rw [digits_eq hb, List.take_of_length_le (length_digitsOf_le hb h hn)]

section Atoi

theorem isDigit_digit (h : d < 10) : isDigit (digit uppercase d) := by
  revert uppercase d
  decide

theorem digit_sub_zero (h : d < 10) : (digit uppercase d - ascii '0').setWidth 32 = .ofNat 32 d := by
  revert uppercase d
  decide

-- The digits are read from the most significant one on.
theorem atoi_append (hd : ∀ d ∈ ds, d < 10) (hc : ¬isDigit c) :
    atoi (.ofNat 32 m) (ds.map (digit uppercase) ++ c :: rest) =
      some (.ofNat 32 (ds.foldl (fun m d => d + 10 * m) m), c :: rest) := by
  induction ds generalizing m
  case nil => simp [atoi, hc]
  case cons d ds ih =>
    have hlt := hd d (List.mem_cons_self ..)
    have hnext : BitVec.ofNat 32 m * 10 + .ofNat 32 d = .ofNat 32 (d + 10 * m) := by
      apply BitVec.eq_of_toNat_eq
      simp
      omega
    rw [List.map_cons, List.cons_append, atoi, if_pos (isDigit_digit hlt), digit_sub_zero hlt, hnext,
      ih fun d h => hd d (List.mem_cons_of_mem _ h), List.foldl_cons]

-- Reading what has been written.
theorem atoi_digits (h : value < 10 ^ bufferSize) (hc : ¬isDigit c) :
    atoi 0 ((digits uppercase 10 bufferSize value).reverse ++ c :: rest) = some (.ofNat 32 value, c :: rest) := by
  have hb : 1 < 10 := by decide
  have hd : ∀ d ∈ (digitsOf 10 value).reverse, d < 10 := fun d hd =>
    lt_of_mem_digitsOf hb (List.mem_reverse.mp hd)
  have hv : (digitsOf 10 value).reverse.foldl (fun m d => d + 10 * m) 0 = value := by
    rw [List.foldl_reverse]
    exact (Nat.ofDigits_eq_foldr 10 _).symm.trans ofDigits_digitsOf
  rw [digits_eq_of_lt hb h (by decide), ← List.map_reverse]
  exact (atoi_append (m := 0) hd hc).trans (by rw [hv])

-- The first digit that is read is the leading one.
theorem reverse_digits (h : value < 10 ^ bufferSize) : ∃ d ds,
    (digits uppercase 10 bufferSize value).reverse = digit uppercase d :: ds ∧ d < 10 ∧ (value ≠ 0 → d ≠ 0) := by
  have hb : 1 < 10 := by decide
  rw [digits_eq_of_lt hb h (by decide), ← List.map_reverse, ← List.dropLast_append_getLast digitsOf_ne_nil,
    List.reverse_append, List.reverse_singleton, List.singleton_append, List.map_cons]
  exact ⟨_, _, rfl, lt_of_mem_digitsOf hb (List.getLast_mem _), getLast_digitsOf_ne_zero⟩

end Atoi
end Printf
