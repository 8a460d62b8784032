import Xesual.Printf.Theorems.Arguments
import Xesual.Printf.Theorems.Buffer
import Xesual.Printf.Theorems.Hexadecimal
import Xesual.Printf.Theorems.Parser
import Xesual.Traps.Panic

-- The registers can be recovered from what is logged by `dumpRegisters`.

namespace Traps

open Printf

variable {δ : Type} {env : Environment δ} {v v' : BitVec 64} {c : Byte} {rest rest' port : List Byte}

section Numbers

-- The characters of a number that is printed with the format `%#llx`.
def hexText (v : BitVec 64) : List Byte :=
  if v = 0 then [ascii '0'] else ascii '0' :: ascii 'x' :: ((digitsOf 16 v.toNat).map (digit false)).reverse

def hexFlags : Flags := { hash := true, long := true, longLong := true }

theorem numeral_eq_hexText : numeral v false 16 0 0 hexFlags = hexText v := by
  by_cases hv : v = 0
  case pos => rw [hv]; decide
  case neg =>
    have hlen : (digitsOf 16 v.toNat).length ≤ 16 := length_digitsOf_hex
    have hsize : (digitsOf 16 v.toNat).length + 2 ≤ bufferSize := (Nat.add_le_add_right hlen 2).trans (by decide)
    have hnil : digitsOf 16 v.toNat ≠ [] := digitsOf_ne_nil
    have hf : ntoaFlags v hexFlags = hexFlags := by
      rw [ntoaFlags, bne_iff_ne.mpr hv]
      rfl
    have hb : ntoaBuffer v 16 hexFlags = (digitsOf 16 v.toNat).map (digit false) := by
      rw [ntoaBuffer_eq (by decide), printedDigits, if_neg (by simp [hexFlags]), List.take_of_length_le (by omega)]
      rfl
    rw [numeral, hf, hb, hexText, if_neg hv]
    simp [hexFlags, signWidth, reversed, formatBuffer, leadingZeros, handleHash, makeRoom, padZeros, spaces, sign,
      pushBase_eq, hnil, hsize]

theorem hexText_injective (h : hexText v = hexText v') : v = v' := by
  have hd (v : BitVec 64) : ∀ d ∈ digitsOf 16 v.toNat, d < 16 := fun d hd => lt_of_mem_digitsOf (by decide) hd
  rw [hexText, hexText] at h
  split at h <;> split at h
  case isTrue.isTrue hv hv'  => rw [hv, hv']
  case isFalse.isFalse =>
    simp only [List.cons.injEq, true_and, List.reverse_inj] at h
    have h := congrArg (List.filterMap digitValue) h
    rw [filterMap_digitValue (hd v), filterMap_digitValue (hd v')] at h
    have hv : Nat.ofDigits 16 (digitsOf 16 v.toNat) = v.toNat := ofDigits_digitsOf
    apply BitVec.eq_of_toNat_eq
    rw [← hv, h, ofDigits_digitsOf]
  all_goals simp at h

-- The characters of numbers.
def isHex (c : Byte) : Bool :=
  isDigitOf 16 c || c == ascii 'x'

theorem isHex_of_mem_hexText (h : c ∈ hexText v) : isHex c := by
  have hdigit : ∀ d < 16, isHex (digit false d) := by decide
  rw [hexText] at h
  split at h
  case isTrue => rw [List.mem_singleton.mp h]; decide
  case isFalse =>
    simp only [List.mem_cons, List.mem_reverse, List.mem_map] at h
    obtain rfl | rfl | ⟨d, hd, rfl⟩ := h
    · decide
    · decide
    · exact hdigit d <| lt_of_mem_digitsOf (by decide) hd

-- A number ends where something else begins.
theorem hexText_append_injective (h : hexText v ++ rest = hexText v' ++ rest')
    (hr : ∀ c ∈ rest.head?, ¬isHex c) (hr' : ∀ c ∈ rest'.head?, ¬isHex c) : v = v' ∧ rest = rest' := by
  have htake (v : BitVec 64) {rest : List Byte} (hr : ∀ c ∈ rest.head?, ¬isHex c) :
      (hexText v ++ rest).takeWhile isHex = hexText v := by
    rw [List.takeWhile_append_of_pos fun c hc => isHex_of_mem_hexText hc]
    cases rest
    case nil       => simp
    case cons c cs => rw [List.takeWhile_cons_of_neg (hr c rfl), List.append_nil]
  have hv : hexText v = hexText v' := by rw [← htake v hr, h, htake v' hr']
  exact ⟨hexText_injective hv, List.append_cancel_left (hv ▸ h)⟩

end Numbers

section Lines

abbrev Line := List (List Byte × InterruptRegisters.Field)

variable {line : Line} {lines : List Line} {registers registers' : InterruptRegisters.Field → BitVec 64}

def hexItem : Item :=
  .directive ⟨{ hash := true }, .absent, none, .ll, ascii 'x'⟩

-- The items of a line of `dumpRegisters`, which consists of labels and registers.
def Line.items (line : Line) : List Item :=
  line.flatMap fun entry => entry.fst.map .literal ++ [hexItem]

def Line.text (registers : InterruptRegisters.Field → BitVec 64) (line : Line) : List Byte :=
  line.flatMap fun entry => entry.fst ++ hexText (registers entry.snd)

-- The space and the characters behind the percent sign.
def isLabel (c : Byte) : Bool :=
  c.toNat == 32 || 37 < c.toNat

theorem ne_of_isLabel (h : isLabel c) : c ≠ 0 ∧ c ≠ ascii '%' ∧ c ≠ ascii '\n' := by
  refine ⟨?_, ?_, ?_⟩ <;> rintro rfl <;> exact absurd h (by decide)

-- The labels can be written in a format, and all of them but the first one begin with a comma.
structure Line.WellFormed (line : Line) : Prop where
  label : ∀ entry ∈ line, ∀ c ∈ entry.fst, isLabel c
  comma : ∀ entry ∈ line.tail, entry.fst.head? = some (ascii ',')

theorem chars_literals {cs : List Byte} {args : Arguments δ} :
    chars env args (cs.map .literal) = some (cs, args) := by
  induction cs
  case nil          => rfl
  case cons c cs ih => simp [chars, Item.chars, ih]

theorem chars_hexItem {ws : List (BitVec 64)} {ds : List δ} :
    chars env ⟨v :: ws, ds⟩ [hexItem] = some (hexText v, ⟨ws, ds⟩) := by
  have h : chars env ⟨v :: ws, ds⟩ [hexItem] = some (numeral v false 16 0 0 hexFlags ++ [], ⟨ws, ds⟩) := rfl
  rw [h, numeral_eq_hexText, List.append_nil]

theorem chars_items {ws : List (BitVec 64)} {ds : List δ} :
    chars env ⟨line.map (fun entry => registers entry.snd) ++ ws, ds⟩ line.items =
      some (line.text registers, ⟨ws, ds⟩) := by
  induction line
  case nil => rfl
  case cons entry line ih =>
    simp only [Line.items, Line.text, List.flatMap_cons, List.map_cons, List.cons_append] at *
    rw [chars_append, chars_append, chars_literals]
    simp [chars_hexItem, ih]

theorem wellFormed_items (h : line.WellFormed) : ∀ item ∈ line.items, item.WellFormed := by
  intro item hi
  obtain ⟨entry, he, hi⟩ := List.mem_flatMap.mp hi
  obtain hi | hi := List.mem_append.mp hi
  · obtain ⟨c, hc, rfl⟩ := List.mem_map.mp hi
    have hc : c ≠ 0 ∧ c ≠ ascii '%' ∧ _ := ne_of_isLabel (h.label entry he c hc)
    exact ⟨hc.left, hc.right.left⟩
  · rw [List.mem_singleton.mp hi]
    exact ⟨rfl, by decide, by decide⟩

theorem sent_text (h : line.WellFormed) : (line.text registers).flatMap sent = line.text registers := by
  have hc : ∀ c ∈ line.text registers, sent c = [c] := by
    intro c hc
    obtain ⟨entry, he, hc⟩ := List.mem_flatMap.mp hc
    have hc : c ≠ 0 ∧ c ≠ ascii '\n' := by
      obtain hc | hc := List.mem_append.mp hc
      · have hc : c ≠ 0 ∧ _ ∧ c ≠ ascii '\n' := ne_of_isLabel (h.label entry he c hc)
        exact ⟨hc.left, hc.right.right⟩
      · have hx : isHex c := isHex_of_mem_hexText hc
        constructor <;> rintro rfl <;> exact absurd hx (by decide)
    rw [sent, if_neg hc.left, if_neg hc.right]
  rw [List.flatMap_congr hc, List.flatMap_singleton']

def Line.format (line : Line) : List Byte :=
  line.items.flatMap Item.text ++ [ascii '\n', 0]

def Line.words (registers : InterruptRegisters.Field → BitVec 64) (line : Line) : List (BitVec 64) :=
  line.map fun entry => registers entry.snd

theorem logfn_line (h : line.WellFormed) : logfn env line.format ⟨line.words registers, []⟩ port =
    some (port ++ (line.text registers ++ [ascii '\r', ascii '\n']), .ofNat 32 ((line.text registers).length + 1)) := by
  have hc : chars env ⟨line.words registers ++ [], []⟩ line.items = _ := chars_items
  rw [List.append_nil] at hc
  have hn : formatted env [ascii '\n', 0] ⟨[], []⟩ = some [ascii '\n'] := rfl
  rw [logfn_eq_sent, Line.format, formatted_append (wellFormed_items h), hc, Option.bind_some]
  simp only [hn, Option.map_some, List.flatMap_append, sent_text h, List.length_append, List.length_singleton]
  rfl

-- The registers of a line can be recovered.
theorem text_append_injective (h : line.WellFormed) (hr : ∀ c ∈ rest.head?, ¬isHex c)
    (hr' : ∀ c ∈ rest'.head?, ¬isHex c) (he : line.text registers ++ rest = line.text registers' ++ rest') :
    (∀ entry ∈ line, registers entry.snd = registers' entry.snd) ∧ rest = rest' := by
  obtain ⟨hl, hs⟩ := h
  induction line
  case nil => exact ⟨by simp, he⟩
  case cons entry line ih =>
    have hstop (registers : InterruptRegisters.Field → BitVec 64) {rest : List Byte}
        (hr : ∀ c ∈ rest.head?, ¬isHex c) : ∀ c ∈ (Line.text registers line ++ rest).head?, ¬isHex c := by
      cases line
      case nil => exact hr
      case cons next line =>
        have hc : next.fst.head? = some (ascii ',') := hs next (List.mem_cons_self ..)
        have hhead : (Line.text registers (next :: line) ++ rest).head? = some (ascii ',') := by
          simp [Line.text, List.head?_append, hc]
        rw [hhead]
        intro c hc
        cases hc
        decide
    simp only [Line.text, List.flatMap_cons, List.append_assoc, List.append_cancel_left_eq] at he
    obtain ⟨hv, he⟩ := hexText_append_injective he (hstop registers hr) (hstop registers' hr')
    obtain ⟨hvs, he⟩ := ih he (fun e he => hl e (List.mem_cons_of_mem _ he))
      (fun e he => hs e (List.mem_of_mem_tail he))
    exact ⟨List.forall_mem_cons.mpr ⟨hv, hvs⟩, he⟩

-- All lines, and the line feeds between them.
def linesText (registers : InterruptRegisters.Field → BitVec 64) (lines : List Line) : List Byte :=
  lines.flatMap fun line => line.text registers ++ [ascii '\r', ascii '\n']

theorem logfn_lines (h : ∀ line ∈ lines, line.WellFormed) :
    lines.foldlM (fun port line => (logfn env line.format ⟨line.words registers, []⟩ port).map Prod.fst) port =
      some (port ++ linesText registers lines) := by
  induction lines generalizing port
  case nil => exact congrArg some (List.append_nil _).symm
  case cons line lines ih =>
    rw [List.foldlM_cons, logfn_line (h line (List.mem_cons_self ..)), Option.map_some, Option.bind_eq_bind,
      Option.bind_some, ih fun l hl => h l (List.mem_cons_of_mem _ hl), linesText, linesText, List.flatMap_cons,
      List.append_assoc]

theorem linesText_injective (h : ∀ line ∈ lines, line.WellFormed)
    (he : linesText registers lines = linesText registers' lines) :
    ∀ line ∈ lines, ∀ entry ∈ line, registers entry.snd = registers' entry.snd := by
  induction lines
  case nil => simp
  case cons line lines ih =>
    have hstop (cs : List Byte) : ∀ c ∈ ([ascii '\r', ascii '\n'] ++ cs).head?, ¬isHex c := by
      intro c hc
      cases hc
      decide
    simp only [linesText, List.flatMap_cons, List.append_assoc] at he
    obtain ⟨hv, he⟩ := text_append_injective (h line (List.mem_cons_self ..)) (hstop _) (hstop _) he
    refine List.forall_mem_cons.mpr ⟨hv, ih (fun l hl => h l (List.mem_cons_of_mem _ hl)) ?_⟩
    exact List.append_cancel_left he

end Lines

section Dump

variable {registers : InterruptRegisters.Field → BitVec 64} {why : BitVec 64}

def label (s : String) : List Byte :=
  s.toList.map ascii

def generalLine₁ : Line :=
  [ (label "r15=", .register .r15), (label ", r14=", .register .r14), (label ", r13=", .register .r13),
    (label ", r12=", .register .r12) ]

def generalLine₂ : Line :=
  [ (label "r11=", .register .r11), (label ", r10=", .register .r10), (label ", r9=", .register .r9),
    (label ", r8=", .register .r8) ]

def generalLine₃ : Line :=
  [ (label "rbp=", .register .rbp), (label ", rdi=", .register .rdi), (label ", rsi=", .register .rsi),
    (label ", rdx=", .register .rdx), (label ", rcx=", .register .rcx), (label ", rbx=", .register .rbx),
    (label ", rax=", .register .rax) ]

def numberLine : Line :=
  [(label "interruptNumber=", .interruptNumber), (label ", errorCode=", .errorCode)]

def frameLine : Line :=
  [ (label "rip=", .register .rip), (label ", cs=", .register .cs), (label ", rflags=", .register .rflags),
    (label ", rsp=", .register .rsp), (label ", ss=", .register .ss) ]

def dumpLines : List Line :=
  [generalLine₁, generalLine₂, generalLine₃, numberLine, frameLine]

theorem wellFormed_of_mem_dumpLines : ∀ line ∈ dumpLines, line.WellFormed := by
  have h₁ : dumpLines.all fun line => line.all fun entry => entry.fst.all isLabel := by decide
  have h₂ : dumpLines.all fun line => line.tail.all fun entry => entry.fst.head? == some (ascii ',') := by decide
  simp only [List.all_eq_true, beq_iff_eq] at h₁ h₂
  exact fun line hl => ⟨h₁ line hl, h₂ line hl⟩

-- Every register is part of a line.
theorem exists_mem_dumpLines (f : InterruptRegisters.Field) : ∃ line ∈ dumpLines, ∃ entry ∈ line, entry.snd = f := by
  cases f
  case register r => cases r <;> decide
  all_goals decide

theorem generalLine₁_format : generalLine₁.format = literal "r15=%#llx, r14=%#llx, r13=%#llx, r12=%#llx\n" := by
  decide

theorem generalLine₂_format : generalLine₂.format = literal "r11=%#llx, r10=%#llx, r9=%#llx, r8=%#llx\n" := by
  decide

theorem generalLine₃_format : generalLine₃.format =
    literal "rbp=%#llx, rdi=%#llx, rsi=%#llx, rdx=%#llx, rcx=%#llx, rbx=%#llx, rax=%#llx\n" := by
  decide

theorem numberLine_format : numberLine.format = literal "interruptNumber=%#llx, errorCode=%#llx\n" := by
  decide

theorem frameLine_format :
    frameLine.format = literal "rip=%#llx, cs=%#llx, rflags=%#llx, rsp=%#llx, ss=%#llx\n" := by
  decide

theorem dumpRegisters_eq_foldlM : dumpRegisters env registers port = dumpLines.foldlM
    (fun port line => (logfn env line.format ⟨line.words registers, []⟩ port).map Prod.fst) port := by
  -- The formats are evaluated, but not what is done with them.
  rw [dumpRegisters]
  generalize logfn env = log
  simp only [dumpLines, List.foldlM_cons, List.foldlM_nil, Option.bind_eq_bind, Option.bind_map, generalLine₁_format,
    generalLine₂_format, generalLine₃_format, numberLine_format, frameLine_format]
  rfl

theorem dumpRegisters_eq : dumpRegisters env registers port = some (port ++ linesText registers dumpLines) := by
  rw [dumpRegisters_eq_foldlM, logfn_lines wellFormed_of_mem_dumpLines]

theorem content_none {reason : List Byte} (h : 0 ∉ reason) : content none (reason ++ 0 :: rest) = some reason := by
  induction reason
  case nil => rfl
  case cons c cs ih =>
    have hc : c ≠ 0 := fun hc => h (hc ▸ List.mem_cons_self ..)
    rw [List.cons_append, content, if_neg hc, ih fun hm => h (List.mem_cons_of_mem _ hm), Option.map_some]

def stringItem : Item :=
  .directive ⟨{}, .absent, none, .default, ascii 's'⟩

theorem chars_stringItem {reason : List Byte} (ht : env.text why = reason ++ 0 :: rest) (h : 0 ∉ reason) :
    chars env ⟨[why], []⟩ [stringItem] = some (reason, ⟨[], []⟩) := by
  have hs : (strnlen (env.text why) (2 ^ 64 - 1)).isSome := isSome_strnlen (by simp [ht])
  obtain ⟨l, hl⟩ := Option.isSome_iff_exists.mp hs
  have hchars : stringChars {} 0 0 (env.text why) = some reason := by
    rw [stringChars, stringLength]
    simp only [ne_eq, not_true_eq_false, ↓reduceIte, hl, Bool.false_eq_true, Option.map_some]
    rw [ht, content_none h]
    simp [justify, spaces]
  have hitem : stringItem.chars env ⟨[why], []⟩ = (stringChars {} 0 0 (env.text why)).map (·, ⟨[], []⟩) := rfl
  rw [chars, hitem, hchars]
  simp [chars]

theorem logfn_fatal {reason : List Byte} (ht : env.text why = reason ++ 0 :: rest) (h : 0 ∉ reason) :
    ∃ n, logfn env (literal "fatal: %s\n") ⟨[why], []⟩ port =
      some (port ++ (label "fatal: " ++ reason ++ [ascii '\n']).flatMap sent, n) := by
  have hf : literal "fatal: %s\n" =
      ((label "fatal: ").map Item.literal ++ [stringItem]).flatMap Item.text ++ [ascii '\n', 0] := by decide
  have hi : ∀ item ∈ (label "fatal: ").map Item.literal ++ [stringItem], item.WellFormed := by
    intro item hi
    obtain hi | hi := List.mem_append.mp hi
    · obtain ⟨c, hc, rfl⟩ := List.mem_map.mp hi
      have hl : (label "fatal: ").all isLabel := by decide
      have hc : c ≠ 0 ∧ c ≠ ascii '%' ∧ _ := ne_of_isLabel (List.all_eq_true.mp hl c hc)
      exact ⟨hc.left, hc.right.left⟩
    · rw [List.mem_singleton.mp hi]
      exact ⟨rfl, by decide, by decide⟩
  have hn : formatted env [ascii '\n', 0] ⟨[], []⟩ = some [ascii '\n'] := rfl
  have hc : chars env ⟨[why], []⟩ ((label "fatal: ").map Item.literal ++ [stringItem]) =
      some (label "fatal: " ++ reason, ⟨[], []⟩) := by
    rw [chars_append, chars_literals, Option.bind_some]
    dsimp only
    rw [chars_stringItem ht h, Option.map_some]
  rw [logfn_eq_sent, hf, formatted_append hi, hc, Option.bind_some]
  dsimp only
  rw [hn]
  exact ⟨_, rfl⟩

-- The reason is followed by something from which all registers can be recovered.
theorem panicExclamationExclamation_injective {reason : List Byte} (ht : env.text why = reason ++ 0 :: rest)
    (h : 0 ∉ reason) :
    (∃ dump, panicExclamationExclamation env registers why port =
      some (port ++ (label "fatal: " ++ reason ++ [ascii '\n']).flatMap sent ++ dump)) ∧
    ∀ registers', panicExclamationExclamation env registers' why port =
      panicExclamationExclamation env registers why port → registers' = registers := by
  have hp (registers : InterruptRegisters.Field → BitVec 64) : panicExclamationExclamation env registers why port =
      some (port ++ (label "fatal: " ++ reason ++ [ascii '\n']).flatMap sent ++ linesText registers dumpLines) := by
    obtain ⟨n, hn⟩ : ∃ n, logfn env _ _ port = _ := logfn_fatal ht h
    rw [panicExclamationExclamation, hn, Option.bind_eq_bind, Option.bind_some]
    exact dumpRegisters_eq
  refine ⟨⟨_, hp registers⟩, fun registers' he => ?_⟩
  rw [hp, hp] at he
  have he : linesText registers' dumpLines = linesText registers dumpLines :=
    List.append_cancel_left (Option.some.inj he)
  funext f
  obtain ⟨line, hl, entry, hm, rfl⟩ := exists_mem_dumpLines f
  exact linesText_injective wellFormed_of_mem_dumpLines he line hl entry hm

-- What is received by the handler of a page fault.
def faultRegisters (errorCode : BitVec 64) : InterruptRegisters.Field → BitVec 64
  | .interruptNumber => 14
  | .errorCode       => errorCode
  | _                => 0x1000

-- A page fault of the kernel, and another one of a process.
theorem panicExclamationExclamation_injective_errorCode :
    let env := { Environment.empty with text := fun _ => [ascii '!', 0] }
    (∃ dump, panicExclamationExclamation env (faultRegisters 2) 0x1000 [] =
      some ([] ++ (label "fatal: " ++ [ascii '!'] ++ [ascii '\n']).flatMap sent ++ dump)) ∧
    panicExclamationExclamation env (faultRegisters 6) 0x1000 [] ≠
      panicExclamationExclamation env (faultRegisters 2) 0x1000 [] := by
  intro env
  have ht : env.text 0x1000 = [ascii '!'] ++ 0 :: [] := rfl
  have hn : (0 : Byte) ∉ [ascii '!'] := by decide
  refine ⟨(panicExclamationExclamation_injective ht hn).left, fun h => ?_⟩
  have he : faultRegisters 6 = faultRegisters 2 := (panicExclamationExclamation_injective ht hn).right _ h
  exact absurd (congrFun he .errorCode) (by decide)

end Dump
end Traps
