import Xesual.Printf.Theorems.Output

-- What is found in the buffer and on the serial line afterwards.

namespace Printf

variable {σ δ : Type} {env : Environment δ} {format cs port : List Byte} {args : Arguments δ} {m : Memory}
  {buffer count : BitVec 64} {s : σ}

-- There is room for all characters but one, which is the terminating null character.
def stored (buffer count : BitVec 64) (cs : List Byte) (m : Memory) : Memory := fun k =>
  let i := (k - buffer).toNat
  let n := min cs.length (count.toNat - 1)
  if count.toNat ≤ i then m k
  else if i < n then cs.getD i 0
  else if i = n then 0
  else m k

section Buffer

theorem outBuffer_apply {c : Byte} {j : Nat} {k : BitVec 64} (hj : j < 2 ^ 64) :
    outBuffer buffer c (.ofNat 64 j) count m k =
      if (k - buffer).toNat < count.toNat ∧ (k - buffer).toNat = j then c else m k := by
  have hk : (k - (buffer + .ofNat 64 j)).toNat < 1 ↔ (k - buffer).toNat = j := by bv_omega
  have hc : BitVec.ofNat 64 j < count ↔ j < count.toNat := by
    rw [BitVec.lt_def, BitVec.toNat_ofNat, Nat.mod_eq_of_lt hj]
  rw [outBuffer]
  split
  case isTrue h =>
    refine if_congr ?_ rfl rfl
    rw [hk]
    have h := hc.mp h
    omega
  case isFalse h =>
    have h := hc.not.mp h
    rw [if_neg]
    omega

-- The characters from the index `j` on, before the terminating null character is put behind them.
theorem puts_outBuffer {j : Nat} {k : BitVec 64} (hj : j + cs.length < 2 ^ 64) :
    ((⟨outBuffer buffer, count⟩ : Output Memory).puts cs ⟨.ofNat 64 j, m⟩).buffer k =
      if (k - buffer).toNat < count.toNat ∧ j ≤ (k - buffer).toNat ∧ (k - buffer).toNat < j + cs.length then
        cs.getD ((k - buffer).toNat - j) 0
      else m k := by
  induction cs generalizing j m
  case nil =>
    rw [if_neg (by simp)]
    rfl
  case cons c cs ih =>
    rw [List.length_cons] at hj
    have hnext : BitVec.ofNat 64 j + 1 = .ofNat 64 (j + 1) := by bv_omega
    rw [Output.puts_cons, Output.put, hnext, ih (by omega)]
    dsimp only
    rw [outBuffer_apply (by omega)]
    generalize (k - buffer).toNat = i
    by_cases hi : i = j
    case pos =>
      subst hi
      simp
    case neg =>
      have hd (hji : j + 1 ≤ i) : (c :: cs).getD (i - j) 0 = cs.getD (i - (j + 1)) 0 := by
        rw [show i - j = i - (j + 1) + 1 by omega]
        rfl
      by_cases h : i < count.toNat ∧ j + 1 ≤ i ∧ i < j + 1 + cs.length
      case pos => rw [if_pos h, if_pos (by simp; omega), hd h.right.left]
      case neg => rw [if_neg h, if_neg (by omega), if_neg (by simp; omega)]

theorem terminate_outBuffer (h : cs.length < 2 ^ 64) :
    terminate ⟨outBuffer buffer, count⟩ ((⟨outBuffer buffer, count⟩ : Output Memory).puts cs ⟨0, m⟩) =
      stored buffer count cs m := by
  funext k
  have h₀ : 0 + cs.length < 2 ^ 64 := by omega
  have hput : ((⟨outBuffer buffer, count⟩ : Output Memory).puts cs ⟨0, m⟩).buffer k = _ := puts_outBuffer h₀
  -- The index of the terminating null character.
  obtain ⟨j, hj, hidx, hmin⟩ : ∃ j < 2 ^ 64,
      (if BitVec.ofNat 64 cs.length < count then BitVec.ofNat 64 cs.length else count - 1) = .ofNat 64 j ∧
      (count ≠ 0 → j = min cs.length (count.toNat - 1)) := by
    by_cases hc : BitVec.ofNat 64 cs.length < count
    case pos => exact ⟨cs.length, h, if_pos hc, fun _ => by bv_omega⟩
    case neg =>
      have hlast : (if BitVec.ofNat 64 cs.length < count then BitVec.ofNat 64 cs.length else count - 1) =
          .ofNat 64 (count - 1).toNat := by
        rw [if_neg hc, BitVec.ofNat_toNat, BitVec.setWidth_eq]
      exact ⟨(count - 1).toNat, (count - 1).isLt, hlast, fun _ => by bv_omega⟩
  have hzero : (0 : BitVec 64) + .ofNat 64 cs.length = .ofNat 64 cs.length := BitVec.zero_add _
  rw [terminate, Output.idx_puts]
  dsimp only
  rw [hzero, hidx, outBuffer_apply hj, hput, stored]
  simp only [Nat.zero_add, Nat.zero_le, true_and, Nat.sub_zero]
  generalize hi : (k - buffer).toNat = i
  by_cases hc : count = 0
  case pos => simp [hc]
  case neg =>
    rw [hmin hc]
    grind

theorem puts_outNull {idx : BitVec 64} : ((⟨outNull, count⟩ : Output σ).puts cs ⟨idx, s⟩).buffer = s := by
  induction cs generalizing idx
  case nil     => rfl
  case cons ih => exact ih

end Buffer

section SerialLine

-- The bytes that are sent for a character.
def sent (c : Byte) : List Byte :=
  if c = 0 then [] else if c = ascii '\n' then [ascii '\r', c] else [c]

theorem outChar_eq {c : Byte} {idx maxlen : BitVec 64} : outChar c idx maxlen port = port ++ sent c := by
  by_cases h : c = 0
  case pos => rw [outChar, sent, if_neg (not_not.mpr h), if_pos h, List.append_nil]
  case neg =>
    rw [outChar, if_pos h, putchar, sent, if_neg h]
    split
    case isTrue  => rw [List.append_assoc]; rfl
    case isFalse => rfl

theorem puts_outChar {idx : BitVec 64} :
    ((⟨outChar, count⟩ : Output (List Byte)).puts cs ⟨idx, port⟩).buffer = port ++ cs.flatMap sent := by
  induction cs generalizing idx port
  case nil => simp
  case cons c cs ih =>
    rw [Output.puts_cons, Output.put, ih, List.flatMap_cons, ← List.append_assoc]
    have hc : outChar c idx count port = port ++ sent c := outChar_eq
    exact congrArg (· ++ _) hc

-- The serial line gets all characters but the null characters.
theorem logfn_eq_sent : logfn env format args port =
    (formatted env format args).map fun cs => (port ++ cs.flatMap sent, .ofNat 32 cs.length) := by
  have ht (s : Cursor (List Byte)) : terminate ⟨outChar, -1⟩ s = s.buffer := by
    simp [terminate, outChar]
  simp only [logfn, vprintf, vsnprintfInternal_eq_formatted, ht, puts_outChar]

end SerialLine

section Callback

theorem puts_outFct {fct : Byte → σ → σ} {idx : BitVec 64} :
    ((⟨outFct fct, count⟩ : Output σ).puts cs ⟨idx, s⟩).buffer = (cs.filter (· ≠ 0)).foldl (fun s c => fct c s) s := by
  induction cs generalizing idx s
  case nil => rfl
  case cons c cs ih =>
    rw [Output.puts_cons, Output.put, ih]
    dsimp only
    by_cases h : c = 0
    case pos => rw [outFct, if_neg (not_not.mpr h), List.filter_cons_of_neg (by simpa using h)]
    case neg => rw [outFct, if_pos h, List.filter_cons_of_pos (by simpa using h), List.foldl_cons]

end Callback
end Printf
