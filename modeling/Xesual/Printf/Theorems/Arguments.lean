import Xesual.Printf.Theorems.Output

-- The arguments that are taken from a `va_list` are determined by the format.

namespace Printf

variable {δ : Type} {env : Environment δ} {args args' : Arguments δ} {flags : Flags} {width prec : BitVec 32} {c : Byte}
  {f : Field} {d : Directive} {item : Item} {items : List Item} {n m n' m' : Nat}

namespace Arguments

theorem drop_drop : (args.drop n m).drop n' m' = args.drop (n + n') (m + m') := by
  simp [drop]

theorem supply_add_iff : args.Supply (n + n') (m + m') ↔ args.Supply n m ∧ (args.drop n m).Supply n' m' := by
  simp only [Supply, drop, List.length_drop]
  omega

theorem supply_zero : args.Supply 0 0 := ⟨Nat.zero_le _, Nat.zero_le _⟩

end Arguments

-- A computation that takes a number of arguments, and has a result if and only if there are as many.
structure Takes {α : Type} (r : Option (α × Arguments δ)) (args : Arguments δ) (n m : Nat) : Prop where
  isSome_iff : r.isSome ↔ args.Supply n m
  rest       : ∀ {a args'}, r = some (a, args') → args' = args.drop n m

namespace Takes

variable {α β : Type} {r : Option (α × Arguments δ)}

theorem pure {a : α} : Takes (some (a, args)) args 0 0 where
  isSome_iff := by simp [Arguments.supply_zero]
  rest h     := (Prod.mk.inj (Option.some.inj h)).right.symm

theorem word : Takes args.word args 1 0 := by
  constructor
  case isSome_iff => cases h : args.words <;> simp [Arguments.word, Arguments.Supply, h]
  case rest =>
    intro w args' h
    obtain ⟨_, _, h⟩ := Option.map_eq_some_iff.mp h
    rw [← (Prod.mk.inj h).right, Arguments.drop, List.drop_one, List.drop_zero]

theorem double : Takes args.double args 0 1 := by
  constructor
  case isSome_iff => cases h : args.doubles <;> simp [Arguments.double, Arguments.Supply, h]
  case rest =>
    intro w args' h
    obtain ⟨_, _, h⟩ := Option.map_eq_some_iff.mp h
    rw [← (Prod.mk.inj h).right, Arguments.drop, List.drop_one, List.drop_zero]

theorem bind {g : α × Arguments δ → Option (β × Arguments δ)} (h : Takes r args n m)
    (hg : ∀ a, Takes (g (a, args.drop n m)) (args.drop n m) n' m') : Takes (r.bind g) args (n + n') (m + m') := by
  cases r
  case none =>
    have hn : ¬args.Supply n m := fun hs => Bool.noConfusion (h.isSome_iff.mpr hs)
    constructor
    case isSome_iff => simpa using fun hs => hn (Arguments.supply_add_iff.mp hs).left
    case rest       => simp
  case some r =>
    obtain ⟨a, args'⟩ := r
    cases h.rest rfl
    constructor
    case isSome_iff =>
      rw [Option.bind_some, (hg a).isSome_iff, Arguments.supply_add_iff, and_iff_right (h.isSome_iff.mp rfl)]
    case rest =>
      intro b args' hb
      rw [(hg a).rest hb, Arguments.drop_drop]

theorem map {g : α × Arguments δ → β × Arguments δ} (h : Takes r args n m) (hg : ∀ r, (g r).snd = r.snd) :
    Takes (r.map g) args n m := by
  constructor
  case isSome_iff => rw [Option.isSome_map, h.isSome_iff]
  case rest =>
    intro b args' hb
    obtain ⟨⟨a, args''⟩, ha, hb⟩ := Option.map_eq_some_iff.mp hb
    rw [← h.rest ha, ← show (g (a, args'')).snd = args'' from hg _, hb]

end Takes

section Strings

variable {p : List Byte}

theorem isSome_strnlen (h : 0 ∈ p) : (strnlen p n).isSome := by
  induction p generalizing n
  case nil => simp at h
  case cons c p ih =>
    cases n
    case zero => rfl
    case succ n =>
      rw [strnlen]
      split
      case isTrue => rfl
      case isFalse hc =>
        rw [Option.isSome_map]
        exact ih <| (List.mem_cons.mp h).resolve_left (Ne.symm hc)

theorem isSome_content {limit : Option Nat} (h : 0 ∈ p) : (content limit p).isSome := by
  induction p generalizing limit
  case nil => simp at h
  case cons c p ih =>
    obtain _ | _ | limit := limit
    case some.zero => rfl
    all_goals
      rw [content]
      split
      case isTrue => rfl
      case isFalse hc =>
        rw [Option.isSome_map]
        exact ih <| (List.mem_cons.mp h).resolve_left (Ne.symm hc)

theorem isSome_stringChars (h : 0 ∈ p) : (stringChars flags width prec p).isSome := by
  obtain ⟨l, hl⟩ := Option.isSome_iff_exists.mp <| isSome_strnlen (n := if prec ≠ 0 then prec.toNat else 2 ^ 64 - 1) h
  have hc : (content (if flags.precision then some prec.toNat else none) p).isSome := isSome_content h
  obtain ⟨cs, hcs⟩ := Option.isSome_iff_exists.mp hc
  simp only [stringChars, stringLength, hl, hcs, Option.map_some, Option.bind_eq_bind, Option.bind_some]
  rfl

end Strings

section Items

theorem takes_evaluateWidth : Takes (f.evaluateWidth flags args) args f.words 0 := by
  cases f
  case absent | number => exact .pure
  case star            => exact .map .word fun _ => rfl

theorem takes_evaluatePrecision : Takes (f.evaluatePrecision args) args f.words 0 := by
  cases f
  case absent | number => exact .pure
  case star            => exact .map .word fun _ => rfl

theorem takes_string (h : ∀ w ∈ args.words.head?, 0 ∈ env.text w) :
    Takes (args.word.bind fun (w, args) => (stringChars flags width prec (env.text w)).map (·, args)) args 1 0 := by
  have hw : Takes args.word args 1 0 := .word
  constructor
  case isSome_iff =>
    rw [← hw.isSome_iff]
    cases hr : args.word
    case none => rfl
    case some r =>
      obtain ⟨w, hh, hr⟩ := Option.map_eq_some_iff.mp hr
      rw [Option.bind_some, ← hr, Option.isSome_map]
      simpa using isSome_stringChars (h w hh)
  case rest =>
    intro cs args' h
    obtain ⟨⟨w, args''⟩, hr, h⟩ := Option.bind_eq_some_iff.mp h
    obtain ⟨cs', _, h⟩ := Option.map_eq_some_iff.mp h
    rw [← (Prod.mk.inj h).right, hw.rest hr]

theorem takes_specifierChars (h : c = ascii 's' → ∀ w ∈ args.words.head?, 0 ∈ env.text w) :
    Takes (specifierChars env c flags width prec args) args (takesWord c).toNat (isDouble c).toNat := by
  have hinteger : ∀ c, isInteger c → takesWord c ∧ isDouble c = false := by decide
  rw [specifierChars]
  split
  case isTrue hc =>
    rw [(hinteger c hc).left, (hinteger c hc).right]
    exact .map .word fun _ => rfl
  case isFalse hi =>
    split
    case isTrue hc =>
      obtain rfl | rfl := hc
      all_goals exact .map .double fun _ => rfl
    case isFalse hf =>
      split
      case isTrue hc =>
        obtain rfl | rfl | rfl | rfl := hc
        all_goals exact .map .double fun _ => rfl
      case isFalse he =>
        split
        case isTrue hc =>
          subst hc
          exact .map .word fun _ => rfl
        case isFalse hc =>
          split
          case isTrue hs =>
            subst hs
            exact takes_string (h rfl)
          case isFalse hs =>
            split
            case isTrue hp =>
              subst hp
              exact .map .word fun _ => rfl
            case isFalse hp =>
              have hw : takesWord c = false := by simp [takesWord, hi, hc, hs, hp]
              have hd : isDouble c = false := by
                simp only [not_or] at hf he
                simp [isDouble, hf, he]
              rw [hw, hd]
              exact .pure

theorem takes_directive (h : ∀ w ∈ (Item.directive d).strings args.words, 0 ∈ env.text w) :
    Takes (d.chars env args) args d.words d.doubles := by
  have hw : d.width.words + ((d.precision.getD .absent).words + (takesWord d.specifier).toNat) = d.words :=
    (Nat.add_assoc ..).symm
  have hd : 0 + (0 + (isDouble d.specifier).toNat) = d.doubles := by rw [Nat.zero_add, Nat.zero_add]; rfl
  rw [← hw, ← hd]
  refine .bind takes_evaluateWidth fun r => ?_
  refine .bind takes_evaluatePrecision fun prec => ?_
  refine takes_specifierChars fun hs w hw => h w ?_
  rw [Arguments.drop_drop] at hw
  simpa [Item.strings, hs, Arguments.drop] using hw

theorem takes_item (h : ∀ w ∈ item.strings args.words, 0 ∈ env.text w) :
    Takes (item.chars env args) args item.words item.doubles := by
  cases item
  case literal   => exact .pure
  case directive => exact takes_directive h

theorem takes_chars (h : ∀ w ∈ strings args.words items, 0 ∈ env.text w) :
    Takes (chars env args items) args (items.map Item.words).sum (items.map Item.doubles).sum := by
  induction items generalizing args
  case nil => exact .pure
  case cons item items ih =>
    rw [List.map_cons, List.sum_cons, List.map_cons, List.sum_cons]
    refine .bind (takes_item fun w hw => h w (List.mem_append_left _ hw)) fun cs => ?_
    exact .map (ih fun w hw => h w (List.mem_append_right _ hw)) fun _ => rfl

-- The number of arguments that are needed is determined by the format, and it is all that is needed.
theorem isSome_vsnprintf_iff_supply {σ : Type} {o : Output σ} {buffer : σ} {format : List Byte}
    (hp : parse format.length format = some items) (ht : ∀ w ∈ strings args.words items, 0 ∈ env.text w) :
    (vsnprintfInternal o env format args buffer).isSome ↔
      args.Supply (items.map Item.words).sum (items.map Item.doubles).sum := by
  rw [vsnprintfInternal_eq_formatted, Option.isSome_map, formatted, hp, Option.bind_some, Option.isSome_map,
    (takes_chars ht).isSome_iff]

-- The format `%*s` needs two arguments.
theorem isSome_vsnprintf_iff_supply_star :
    let env := { Environment.empty with text := fun _ => [ascii 'a', 0] }
    let format : List Byte := [ascii '%', ascii '*', ascii 's', 0]
    (vsnprintfInternal ⟨outChar, -1⟩ env format ⟨[5, 0x1000], []⟩ []).isSome ∧
      ¬(vsnprintfInternal ⟨outChar, -1⟩ env format ⟨[5], []⟩ []).isSome := by
  intro env format
  have hp : parse format.length format = some [.directive ⟨{}, .star, none, .default, ascii 's'⟩] := by decide
  have h (args : Arguments Empty) : (vsnprintfInternal ⟨outChar, -1⟩ env format args []).isSome ↔ _ :=
    isSome_vsnprintf_iff_supply hp fun _ _ => .tail _ (.head _)
  rw [h, h]
  exact ⟨⟨by decide, by decide⟩, fun h => absurd h.left (by decide)⟩

end Items
end Printf
