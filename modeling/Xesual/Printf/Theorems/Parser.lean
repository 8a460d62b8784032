import Xesual.Printf.Text
import Xesual.Printf.Theorems.Digits
import Xesual.Printf.Theorems.Output

-- Formats are parsed as they have been written.

namespace Printf

open Directive (punctuation letters)

variable {δ : Type} {env : Environment δ} {args : Arguments δ} {flags : Flags} {flag : Bool} {c : Byte}
  {cs rest : List Byte} {f : Field} {p : Option Field} {length : Length} {d : Directive} {item : Item} {items : List Item}
  {n : Nat}

-- The characters that continue a format do not belong to what has been parsed so far.
def Begins (P : Byte → Prop) (cs : List Byte) : Prop :=
  ∃ c rest, cs = c :: rest ∧ P c

section Flags

theorem setFlag_eq_none (h : c ∉ punctuation) : setFlag c flags = none := by
  simp only [punctuation, List.mem_cons, List.not_mem_nil, or_false, not_or] at h
  simp [setFlag, h]

theorem evaluateFlags_flagText {c : Char} {flags' : Flags} (h : setFlag (ascii c) flags = some flags') :
    evaluateFlags flags (flagText c flag ++ rest) = evaluateFlags (if flag then flags' else flags) rest := by
  cases flag
  case false => rfl
  case true  => simp [flagText, evaluateFlags, h]

theorem evaluateFlags_text (h : Begins (fun c => ∀ flags, setFlag c flags = none) cs) :
    evaluateFlags {} (flags.text ++ cs) =
      some (⟨flags.zeropad, flags.left, flags.plus, flags.space, flags.hash,
        false, false, false, false, false, false, false⟩, cs) := by
  obtain ⟨c, rest, rfl, hc⟩ := h
  rw [Flags.text, List.append_assoc, List.append_assoc, List.append_assoc, List.append_assoc,
    evaluateFlags_flagText rfl, evaluateFlags_flagText rfl, evaluateFlags_flagText rfl, evaluateFlags_flagText rfl,
    evaluateFlags_flagText rfl, evaluateFlags, hc]
  obtain ⟨zeropad, left, plus, space, hash⟩ := flags
  cases zeropad <;> cases left <;> cases plus <;> cases space <;> cases hash <;> rfl

end Flags

section Fields

theorem not_isDigit_of_not_mem (h : c ∉ punctuation) : ¬isDigit c := by
  revert c
  decide

theorem numberText_cons {n : BitVec 32} : ∃ d cs, numberText n = digit false d :: cs ∧ d < 10 ∧ (n ≠ 0 → d ≠ 0) := by
  have hn : n.toNat < 10 ^ bufferSize := Nat.lt_trans n.isLt (by decide)
  obtain ⟨d, cs, hcs, hd, h0⟩ : ∃ d ds, numberText n = digit false d :: ds ∧ _ := reverse_digits hn
  exact ⟨d, cs, hcs, hd, fun h => h0 fun h' => h <| BitVec.eq_of_toNat_eq h'⟩

theorem atoi_numberText {n : BitVec 32} (h : ¬isDigit c) : atoi 0 (numberText n ++ c :: rest) = some (n, c :: rest) := by
  have hn : n.toNat < 10 ^ bufferSize := Nat.lt_trans n.isLt (by decide)
  rw [numberText, atoi_digits hn h, BitVec.ofNat_toNat, BitVec.setWidth_eq]

theorem parseField_text (h : Begins (fun c => ¬isDigit c ∧ c ≠ ascii '*') cs) :
    parseField (f.text ++ cs) = some (f, cs) := by
  obtain ⟨c, rest, rfl, hd, hs⟩ := h
  cases f
  case absent => simp [Field.text, parseField, hd, hs]
  case star   => simp [Field.text, parseField, show ¬isDigit (ascii '*') by decide]
  case number n =>
    have ha : atoi 0 (numberText n ++ c :: rest) = some (n, c :: rest) := atoi_numberText hd
    obtain ⟨d, ds, hds, hlt, _⟩ := numberText_cons (n := n)
    rw [hds, List.cons_append] at ha
    rw [Field.text, hds, List.cons_append, parseField, if_pos (isDigit_digit hlt), ha, Option.map_some]

theorem parsePrecision_text (h : Begins (fun c => ¬isDigit c ∧ c ≠ ascii '*' ∧ c ≠ ascii '.') cs) :
    parsePrecision (precisionText p ++ cs) = some (p, cs) := by
  obtain ⟨c, rest, rfl, hd, hs, hp⟩ := h
  cases p
  case none   => simp [precisionText, parsePrecision, hp]
  case some f =>
    have hf : parseField (f.text ++ c :: rest) = some (f, c :: rest) := parseField_text ⟨c, rest, rfl, hd, hs⟩
    simp [precisionText, parsePrecision, hf]

theorem parseLength_text (h : c ∉ letters) : parseLength (length.text ++ c :: rest) = some (length, c :: rest) := by
  simp only [letters, List.mem_cons, List.not_mem_nil, or_false, not_or] at h
  cases length
  all_goals
    simp [Length.text, parseLength, parseLetter, h, show ascii 'h' ≠ ascii 'l' by decide]

end Fields

section Items

theorem begins_length (h : c ∉ punctuation ++ letters) : Begins (· ∉ punctuation) (length.text ++ c :: rest) := by
  cases length
  case default => exact ⟨_, _, rfl, fun hc => h (List.mem_append_left _ hc)⟩
  all_goals exact ⟨_, _, rfl, by decide⟩

theorem begins_precision (h : Begins (· ∉ punctuation) cs) :
    Begins (fun c => ¬isDigit c ∧ c ≠ ascii '*' ∧ ∀ flags, setFlag c flags = none) (precisionText p ++ cs) := by
  cases p
  case none =>
    obtain ⟨c, rest, rfl, hc⟩ := h
    exact ⟨c, rest, rfl, not_isDigit_of_not_mem hc, fun h => hc (by simp [h, punctuation]), fun _ => setFlag_eq_none hc⟩
  case some => exact ⟨_, _, rfl, by decide, by decide, fun _ => rfl⟩

theorem begins_width (hf : f ≠ .number 0)
    (h : Begins (fun c => ¬isDigit c ∧ c ≠ ascii '*' ∧ ∀ flags, setFlag c flags = none) cs) :
    Begins (fun c => ∀ flags, setFlag c flags = none) (f.text ++ cs) := by
  cases f
  case absent =>
    obtain ⟨c, rest, rfl, hc⟩ := h
    exact ⟨c, rest, rfl, hc.right.right⟩
  case star => exact ⟨_, _, rfl, fun _ => rfl⟩
  case number n =>
    obtain ⟨d, ds, hds, hlt, h0⟩ := numberText_cons (n := n)
    rw [Field.text, hds]
    refine ⟨_, _, rfl, fun flags => ?_⟩
    have h0 := h0 fun h => hf (congrArg Field.number h)
    have hdigit : ∀ d < 10, d ≠ 0 → digit false d ∉ [ascii '0', ascii '-', ascii '+', ascii ' ', ascii '#'] := by decide
    have h := hdigit d hlt h0
    simp only [List.mem_cons, List.not_mem_nil, or_false, not_or] at h
    simp [setFlag, h]

theorem parseDirective_text (h : d.WellFormed) : parseDirective (d.text ++ rest) = some (d, rest) := by
  have hl : Begins (· ∉ punctuation) (d.length.text ++ d.specifier :: rest) := begins_length h.specifier
  have hp := begins_precision (p := d.precision) hl
  have hw := begins_width h.width hp
  have hc : d.specifier ∉ letters := fun hc => h.specifier (List.mem_append_right _ hc)
  have hl' : Begins (fun c => ¬isDigit c ∧ c ≠ ascii '*' ∧ c ≠ ascii '.') (d.length.text ++ d.specifier :: rest) := by
    obtain ⟨c, cs, hcs, hc⟩ := hl
    exact ⟨c, cs, hcs, not_isDigit_of_not_mem hc, fun h => hc (by simp [h, punctuation]),
      fun h => hc (by simp [h, punctuation])⟩
  have hp' : Begins (fun c => ¬isDigit c ∧ c ≠ ascii '*')
      (precisionText d.precision ++ (d.length.text ++ d.specifier :: rest)) := by
    obtain ⟨c, cs, hcs, hc⟩ := hp
    exact ⟨c, cs, hcs, hc.left, hc.right.left⟩
  simp only [parseDirective, Directive.text, Directive.fieldsText, List.append_assoc, List.singleton_append]
  rw [evaluateFlags_text hw]
  simp only [Option.bind_eq_bind, Option.bind_some]
  rw [parseField_text hp']
  simp only [Option.bind_some]
  rw [parsePrecision_text hl']
  simp only [Option.bind_some]
  rw [parseLength_text hc]
  simp only [Option.bind_some, List.head?_cons, List.tail_cons, ← h.flags]
  rfl

end Items

section Fuel

-- Nothing but the end of a format is left over.

theorem length_atoi {i i' : BitVec 32} (h : atoi i cs = some (i', rest)) : rest.length ≤ cs.length := by
  induction cs generalizing i
  case nil => cases h
  case cons c cs ih =>
    rw [atoi] at h
    split at h
    case isTrue  => exact Nat.le_succ_of_le (ih h)
    case isFalse => rw [← (Prod.mk.inj (Option.some.inj h)).right]

theorem length_evaluateFlags {flags' : Flags} (h : evaluateFlags flags cs = some (flags', rest)) :
    rest.length ≤ cs.length := by
  induction cs generalizing flags
  case nil => cases h
  case cons c cs ih =>
    rw [evaluateFlags] at h
    split at h
    case h_1 => exact Nat.le_succ_of_le (ih h)
    case h_2 => rw [← (Prod.mk.inj (Option.some.inj h)).right]

theorem length_parseField (h : parseField cs = some (f, rest)) : rest.length ≤ cs.length := by
  cases cs
  case nil => cases h
  case cons c cs =>
    rw [parseField] at h
    split at h
    case isTrue =>
      obtain ⟨⟨n, rest'⟩, ha, h⟩ := Option.map_eq_some_iff.mp h
      rw [← (Prod.mk.inj h).right]
      exact length_atoi ha
    case isFalse =>
      split at h
      all_goals simp [← (Prod.mk.inj (Option.some.inj h)).right]

theorem length_parsePrecision (h : parsePrecision cs = some (p, rest)) : rest.length ≤ cs.length := by
  cases cs
  case nil => cases h
  case cons c cs =>
    rw [parsePrecision] at h
    split at h
    case isTrue =>
      obtain ⟨⟨f, rest'⟩, hf, h⟩ := Option.map_eq_some_iff.mp h
      rw [← (Prod.mk.inj h).right]
      exact Nat.le_succ_of_le (length_parseField hf)
    case isFalse => rw [← (Prod.mk.inj (Option.some.inj h)).right]

theorem length_parseLetter {once twice : Length} (h : parseLetter c once twice cs = some (length, rest)) :
    rest.length ≤ cs.length := by
  cases cs
  case nil => cases h
  case cons c' cs =>
    rw [parseLetter] at h
    split at h
    all_goals simp [← (Prod.mk.inj (Option.some.inj h)).right]

theorem length_parseLength (h : parseLength cs = some (length, rest)) : rest.length ≤ cs.length := by
  cases cs
  case nil => cases h
  case cons c cs =>
    rw [parseLength] at h
    split at h
    case isTrue => exact Nat.le_succ_of_le (length_parseLetter h)
    case isFalse =>
      split at h
      case isTrue => exact Nat.le_succ_of_le (length_parseLetter h)
      case isFalse =>
        split at h
        all_goals simp [← (Prod.mk.inj (Option.some.inj h)).right]

theorem length_parseDirective (h : parseDirective cs = some (d, rest)) : rest.length ≤ cs.length := by
  simp only [parseDirective, Option.bind_eq_bind, Option.bind_eq_some_iff] at h
  obtain ⟨r₁, h₁, r₂, h₂, r₃, h₃, r₄, h₄, c, _, h⟩ := h
  have h₁ := length_evaluateFlags h₁
  have h₂ := length_parseField h₂
  have h₃ := length_parsePrecision h₃
  have h₄ := length_parseLength h₄
  rw [← (Prod.mk.inj (Option.some.inj h)).right, List.length_tail]
  omega

-- The number of iterations does not exceed the length of the format.
theorem parse_of_length_le {m : Nat} (hn : cs.length ≤ n) (hm : cs.length ≤ m) : parse n cs = parse m cs := by
  induction n generalizing cs m
  case zero =>
    rw [List.length_eq_zero_iff.mp (Nat.le_zero.mp hn)]
    cases m <;> rfl
  case succ n ih =>
    cases cs
    case nil => cases m <;> rfl
    case cons c cs =>
      cases m
      case zero => simp at hm
      case succ m =>
        have hn : cs.length ≤ n := Nat.le_of_succ_le_succ hn
        have hm : cs.length ≤ m := Nat.le_of_succ_le_succ hm
        rw [parse, parse, ih hn hm]
        cases hd : parseDirective cs
        case none   => rfl
        case some r =>
          have hr : r.snd.length ≤ cs.length := length_parseDirective hd
          have hp : parse n r.snd = parse m r.snd := ih (hr.trans hn) (hr.trans hm)
          simp only [Option.bind_some, hp]

end Fuel

section Formats

theorem parse_append (h : ∀ item ∈ items, item.WellFormed) :
    parse (items.length + n) (items.flatMap Item.text ++ rest) = (parse n rest).map (items ++ ·) := by
  induction items
  case nil => simp
  case cons item items ih =>
    have ih := ih fun i hi => h i (List.mem_cons_of_mem _ hi)
    have hi := h item (List.mem_cons_self ..)
    have hn : (item :: items).length + n = items.length + n + 1 := by rw [List.length_cons]; omega
    rw [hn, List.flatMap_cons, List.append_assoc]
    cases item
    case literal c =>
      rw [Item.text, List.singleton_append, parse, if_neg hi.left, if_pos hi.right, ih, Option.map_map]
      rfl
    case directive d =>
      have hd : parseDirective (d.text ++ (items.flatMap Item.text ++ rest)) = some (d, _) := parseDirective_text hi
      rw [Item.text, List.cons_append, parse, if_neg (by decide), if_neg (by simp), hd, Option.bind_some]
      exact (congrArg (Option.map (Item.directive d :: ·)) ih).trans (Option.map_map ..)

theorem length_le_text : items.length ≤ (items.flatMap Item.text).length := by
  induction items
  case nil => exact le_refl _
  case cons item items ih =>
    have hi : 1 ≤ item.text.length := by cases item <;> simp [Item.text]
    rw [List.flatMap_cons, List.length_append, List.length_cons]
    omega

theorem chars_append {items' : List Item} : chars env args (items ++ items') =
    (chars env args items).bind fun (cs, args) => (chars env args items').map fun (cs', args) => (cs ++ cs', args) := by
  induction items generalizing args
  case nil => simp [chars]
  case cons item items ih =>
    simp only [List.cons_append, chars, Option.bind_assoc]
    refine Option.bind_congr fun r _ => ?_
    rw [ih, Option.map_bind, Option.bind_map]
    refine Option.bind_congr fun r' _ => ?_
    simp [Function.comp_def]

-- Formatting is compositional: the items that have been written are followed by whatever the rest stands for.
theorem formatted_append (h : ∀ item ∈ items, item.WellFormed) :
    formatted env (items.flatMap Item.text ++ rest) args =
      (chars env args items).bind fun (cs, args) => (formatted env rest args).map (cs ++ ·) := by
  have hlen : items.length ≤ (items.flatMap Item.text).length := length_le_text
  obtain ⟨n, hn⟩ := Nat.exists_eq_add_of_le (hlen.trans (Nat.le_add_right _ rest.length))
  have hp : parse n rest = parse rest.length rest := parse_of_length_le (by omega) (le_refl _)
  simp only [formatted]
  rw [List.length_append, hn, parse_append h, hp]
  cases parse rest.length rest
  case none        => simp
  case some items' =>
    rw [Option.map_some, Option.bind_some, chars_append, Option.map_bind]
    refine Option.bind_congr fun r _ => ?_
    simp [Function.comp_def]

-- If a format specifier is cut off by the end of the format, then the null character is taken for its specifier. What
-- is found beyond the format is interpreted as well.
theorem formatted_cutOff (h : ∀ item ∈ items, item.WellFormed) (hd : d.WellFormed) :
    formatted env (items.flatMap Item.text ++ (ascii '%' :: d.fieldsText ++ 0 :: rest)) args =
      (chars env args (items ++ [.directive { d with specifier := 0 }])).bind fun (cs, args) =>
        (formatted env rest args).map (cs ++ ·) := by
  have h₀ : (0 : Byte) ∉ Directive.punctuation ++ Directive.letters := by decide
  have hd : { d with specifier := 0 : Directive }.WellFormed := ⟨hd.flags, hd.width, h₀⟩
  have hi : ∀ item ∈ items ++ [.directive { d with specifier := 0 }], item.WellFormed := by
    intro item hi
    obtain hi | hi := List.mem_append.mp hi
    · exact h item hi
    · exact List.mem_singleton.mp hi ▸ hd
  rw [← formatted_append hi, List.flatMap_append, List.flatMap_singleton, List.append_assoc, Item.text,
    Directive.text]
  simp [Directive.fieldsText]

-- The format `a%4`, where the memory behind it contains `!` and another null character.
theorem formatted_cutOff_width :
    formatted .empty ([ascii 'a', ascii '%', ascii '4'] ++ [0, ascii '!', 0]) ⟨[], []⟩ =
      some ([ascii 'a', 0] ++ [ascii '!']) := by
  have h : ∀ i ∈ [Item.literal (ascii 'a')], i.WellFormed := by
    intro i hi
    rw [List.mem_singleton.mp hi]
    exact ⟨by decide, by decide⟩
  have hd : (⟨{}, .number 4, none, .default, ascii 'd'⟩ : Directive).WellFormed := ⟨rfl, by decide, by decide⟩
  exact (formatted_cutOff h hd).trans (by decide)

end Formats
end Printf
