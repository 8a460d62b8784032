import Xesual.Printf.Directives

-- The output function is called for one character after the other, with the characters that a format stands for.

namespace Printf

variable {σ δ : Type} {o : Output σ} {env : Environment δ} {s : Cursor σ} {cs cs' buf format : List Byte}
  {flags : Flags} {width prec : BitVec 32} {value w : BitVec 64} {negative : Bool} {base : Nat} {args : Arguments δ}
  {c : Byte}

namespace Output

@[simp]
theorem puts_nil : o.puts [] s = s := rfl

theorem puts_cons : o.puts (c :: cs) s = o.puts cs (o.put c s) := rfl

theorem puts_append : o.puts (cs ++ cs') s = o.puts cs' (o.puts cs s) :=
  List.foldl_append

theorem pad_eq {n : Nat} : o.pad n s = o.puts (spaces n) s := rfl

theorem idx_puts : (o.puts cs s).idx = s.idx + .ofNat 64 cs.length := by
  induction cs generalizing s
  case nil => simp
  case cons c cs ih =>
    rw [puts_cons, ih, List.length_cons, put]
    bv_omega

end Output

section Integers

theorem outRev_eq (h : buf.length < 2 ^ 64) : outRev o buf width flags s = o.puts (reversed buf width flags) s := by
  have hidx : ((o.puts buf.reverse s).idx - s.idx).toNat = buf.length := by
    rw [Output.idx_puts, List.length_reverse]
    bv_omega
  rw [outRev, reversed]
  cases hl : flags.left
  case true => simp [hidx, Output.puts_append, Output.pad_eq]
  case false =>
    cases hz : flags.zeropad
    case true  => simp
    case false => simp [Output.puts_append, Output.pad_eq]

theorem length_push_le (h : buf.length ≤ bufferSize) : (push buf c).length ≤ bufferSize := by
  rw [push]
  split
  case isTrue h => simpa using h
  case isFalse  => exact h

theorem length_padZeros_le {n : Nat} (h : buf.length ≤ bufferSize) : (padZeros buf n).length ≤ bufferSize := by
  rw [padZeros, List.length_append, List.length_replicate]
  omega

theorem length_leadingZeros_le (h : buf.length ≤ bufferSize) :
    (leadingZeros buf prec width flags).length ≤ bufferSize := by
  rw [leadingZeros]
  split
  case isTrue  => exact h
  case isFalse =>
    split
    case isTrue  => exact length_padZeros_le (length_padZeros_le h)
    case isFalse => exact length_padZeros_le h

theorem length_makeRoom_le : (makeRoom buf base prec width flags).length ≤ buf.length := by
  rw [makeRoom]
  split
  case isTrue =>
    dsimp only
    split <;> simp only [List.length_dropLast] <;> omega
  case isFalse => exact le_refl _

theorem length_pushBase_le (h : buf.length ≤ bufferSize) : (pushBase buf base flags).length ≤ bufferSize := by
  rw [pushBase]
  split
  case isTrue => exact length_push_le h
  case isFalse =>
    split
    case isTrue  => exact length_push_le h
    case isFalse => exact h

theorem length_handleHash_le (h : buf.length ≤ bufferSize) :
    (handleHash buf base prec width flags).length ≤ bufferSize := by
  rw [handleHash]
  split
  case isTrue  => exact length_push_le <| length_pushBase_le <| length_makeRoom_le.trans h
  case isFalse => exact h

theorem length_sign_le : (sign negative flags).length ≤ 1 := by
  rw [sign]
  repeat' split
  all_goals decide

theorem length_formatBuffer_le (h : buf.length ≤ bufferSize) :
    (formatBuffer buf negative base prec width flags).length ≤ bufferSize := by
  have hh : (handleHash (leadingZeros buf prec width flags) base prec width flags).length ≤ bufferSize :=
    length_handleHash_le <| length_leadingZeros_le h
  have hs : (sign negative flags).length ≤ 1 := length_sign_le
  rw [formatBuffer]
  split
  case isTrue  => rw [List.length_append]; omega
  case isFalse => exact hh

theorem length_digits_le {uppercase : Bool} {n value : Nat} : (digits uppercase base n value).length ≤ n := by
  induction n generalizing value
  case zero => exact le_refl _
  case succ n ih =>
    rw [digits, List.length_cons]
    split
    case isTrue  => simp
    case isFalse => exact Nat.succ_le_succ ih

theorem length_ntoaBuffer_le : (ntoaBuffer value base flags).length ≤ bufferSize := by
  rw [ntoaBuffer]
  split
  case isTrue  => exact length_digits_le
  case isFalse => exact Nat.zero_le _

theorem ntoa_eq : ntoa o value negative base prec width flags s =
    o.puts (numeral value negative base prec width flags) s := by
  refine outRev_eq ?_
  refine Nat.lt_of_le_of_lt (length_formatBuffer_le length_ntoaBuffer_le) ?_
  decide

theorem integer_eq : integer o c flags width prec w s = o.puts (integerChars c flags width prec w) s := by
  simp only [integer, ntoaLongLong, ntoaLong, ntoa_eq, ite_self]
  rfl

theorem pointer_eq : pointer o flags prec w s = o.puts (pointerChars flags prec w) s :=
  ntoa_eq

end Integers

section Conversions

theorem puts_justify {n : Nat} : o.puts (justify flags.left n cs) s =
    let s := if !flags.left then o.pad n s else s
    let s := o.puts cs s
    if flags.left then o.pad n s else s := by
  rw [justify]
  cases flags.left <;> simp [Output.puts_append, Output.pad_eq]

theorem character_eq : character o flags width w s = o.puts (characterChars flags width w) s := by
  rw [characterChars, puts_justify]
  rfl

theorem outString_eq {limit : Option Nat} {p : List Byte} :
    outString o limit p s = (content limit p).map (o.puts · s) := by
  induction p generalizing limit s
  case nil => cases limit <;> rfl
  case cons c p ih =>
    obtain _ | _ | limit := limit
    case some.zero => rfl
    all_goals
      simp only [outString, content]
      split
      case isTrue  => rfl
      case isFalse => rw [ih, Option.map_map]; rfl

theorem string_eq {p : List Byte} :
    string o flags width prec p s = (stringChars flags width prec p).map (o.puts · s) := by
  simp only [string, stringChars, stringLength, outString_eq]
  cases strnlen p _
  case none   => rfl
  case some l =>
    cases content _ p
    case none    => rfl
    case some cs => simp [puts_justify]

theorem specifier_eq : specifier o env c flags width prec args s =
    (specifierChars env c flags width prec args).map fun (cs, args) => (o.puts cs s, args) := by
  rw [specifier, specifierChars]
  repeat' split
  all_goals simp only [Option.map_map, Function.comp_def, integer_eq, character_eq, pointer_eq]
  case isTrue =>
    cases args.word
    case none     => rfl
    case some arg => simp [string_eq, Function.comp_def]
  case isFalse => rfl

end Conversions
section Loop

theorem evaluateWidth_eq : evaluateWidth flags args format = do
    let (f, format) ← parseField format
    let ((width, flags), args) ← f.evaluateWidth flags args
    return (width, flags, format, args) := by
  cases format
  case nil => rfl
  case cons c format =>
    simp only [evaluateWidth, parseField]
    repeat' split
    case isTrue          => cases atoi 0 (c :: format) <;> rfl
    case isFalse.isTrue  =>
      simp only [Option.bind_eq_bind, Option.bind_some, Field.evaluateWidth]
      cases args.word
      case none     => rfl
      case some arg =>
        simp only [Option.map_some, Option.bind_some]
        split <;> rfl
    case isFalse.isFalse => rfl

theorem evaluatePrecision_eq : evaluatePrecision flags args format = do
    let (f, format) ← parsePrecision format
    let (prec, args) ← (f.getD .absent).evaluatePrecision args
    return (prec, if f.isSome then { flags with precision := true } else flags, format, args) := by
  cases format
  case nil => rfl
  case cons c format =>
    simp only [evaluatePrecision, parsePrecision]
    split
    case isFalse => rfl
    case isTrue =>
      cases format
      case nil => rfl
      case cons c format =>
        simp only [parseField]
        repeat' split
        case isTrue          => cases atoi 0 (c :: format) <;> rfl
        case isFalse.isTrue  =>
          simp only [Option.map_some, Option.bind_eq_bind, Option.bind_some, Option.getD_some, Field.evaluatePrecision]
          cases args.word <;> rfl
        case isFalse.isFalse => rfl

theorem evaluateLength_eq : evaluateLength flags format = do
    let (length, format) ← parseLength format
    return (length.apply flags, format) := by
  cases format
  case nil => rfl
  case cons c format =>
    simp only [evaluateLength, parseLength]
    split
    case isTrue hc =>
      subst hc
      cases format
      case nil => rfl
      case cons c format =>
        simp only [parseLetter]
        split <;> rfl
    case isFalse =>
      split
      case isTrue hc =>
        subst hc
        cases format
        case nil => rfl
        case cons c format =>
          simp only [parseLetter]
          split <;> rfl
      case isFalse => split <;> rfl

-- A format specifier is evaluated in one pass, but its parts do not depend on the arguments.
theorem evaluate_eq : evaluate o env format args s = do
    let (d, format) ← parseDirective format
    let (cs, args) ← d.chars env args
    return (o.puts cs s, format, args) := by
  simp only [evaluate, parseDirective, evaluateWidth_eq, evaluatePrecision_eq, evaluateLength_eq, specifier_eq,
    Directive.chars, Option.bind_eq_bind, Option.bind_assoc, Option.pure_def, Option.bind_some]
  cases evaluateFlags {} format
  case none   => rfl
  case some r =>
    cases hw : parseField r.snd
    case none    => simp [hw]
    case some r₁ =>
      cases hp : parsePrecision r₁.snd
      case none    => simp [hw, hp]
      case some r₂ =>
        cases hl : parseLength r₂.snd
        case none    => simp [hw, hp, hl]
        case some r₃ =>
          cases hc : r₃.snd.head?
          case none   => simp [hw, hp, hl, hc]
          case some c => simp [hw, hp, hl, hc, Option.bind_map]

theorem vsnprintfLoop_eq {n : Nat} : vsnprintfLoop o env n format args s = do
    let items ← parse n format
    let (cs, _) ← chars env args items
    return o.puts cs s := by
  induction n generalizing format args s
  case zero => rfl
  case succ n ih =>
    cases format
    case nil => rfl
    case cons c format =>
      simp only [vsnprintfLoop, parse]
      repeat' split
      case isTrue         => rfl
      case isFalse.isTrue =>
        rw [ih]
        cases parse n format
        case none       => rfl
        case some items => simp [chars, Item.chars, Output.puts_cons, Option.bind_map, Function.comp_def]
      case isFalse.isFalse =>
        rw [evaluate_eq]
        cases parseDirective format
        case none   => rfl
        case some r =>
          simp only [ih, Option.bind_eq_bind, Option.bind_assoc, Option.pure_def, Option.bind_some]
          cases parse n r.snd
          case none       => simp
          case some items => simp [chars, Item.chars, Output.puts_append, Option.bind_assoc, Option.bind_map]

-- Every output function gets the characters that the format stands for, one after the other.
theorem vsnprintfInternal_eq_formatted {buffer : σ} : vsnprintfInternal o env format args buffer =
    (formatted env format args).map fun cs => (terminate o (o.puts cs ⟨0, buffer⟩), .ofNat 32 cs.length) := by
  have hidx (cs : List Byte) : (o.puts cs ⟨0, buffer⟩).idx.setWidth 32 = .ofNat 32 cs.length := by
    rw [Output.idx_puts]
    apply BitVec.eq_of_toNat_eq
    simp
  rw [vsnprintfInternal, vsnprintfLoop_eq, formatted]
  cases parse format.length format
  case none       => rfl
  case some items =>
    simp only [Option.bind_eq_bind, Option.bind_some]
    cases chars env args items
    case none   => rfl
    case some r => exact congrArg some (Prod.ext rfl (hidx r.fst))

end Loop
end Printf
