import Xesual.Printf.Log
import Xesual.Printf.Theorems.Arguments
import Xesual.Printf.Theorems.Buffer
import Xesual.Printf.Theorems.Parser

namespace Printf

section Composition

variable {δ : Type} {env : Environment δ} {items : List Item} {rest port : List Byte} {args : Arguments δ}

theorem formatted_text (h : ∀ item ∈ items, item.WellFormed) :
    formatted env (items.flatMap Item.text ++ [0]) args = (chars env args items).map Prod.fst := by
  rw [formatted_append h]
  cases chars env args items
  case none   => rfl
  case some r => exact congrArg some (List.append_nil _)

-- A message can be logged in two parts, where the second one gets the arguments that are left by the first one.
theorem logfn_append (h : ∀ item ∈ items, item.WellFormed) (ht : ∀ w ∈ strings args.words items, 0 ∈ env.text w) :
    logfn env (items.flatMap Item.text ++ rest) args port =
      (logfn env (items.flatMap Item.text ++ [0]) args port).bind fun (port, n) =>
        (logfn env rest (args.drop (items.map Item.words).sum (items.map Item.doubles).sum) port).map
          fun (port, n') => (port, n + n') := by
  have htakes : Takes (chars env args items) args _ _ := takes_chars ht
  simp only [logfn_eq_sent]
  rw [formatted_text h, formatted_append h]
  cases hc : chars env args items
  case none   => rfl
  case some r =>
    obtain ⟨cs, args'⟩ := r
    rw [← htakes.rest hc, Option.bind_some, Option.map_some, Option.map_some, Option.bind_some]
    dsimp only
    cases formatted env rest args'
    case none     => rfl
    case some cs' => simp [BitVec.ofNat_add]

-- The format `%s,%d` in two parts.
theorem logfn_append_string :
    logfn { Environment.empty with text := fun _ => [ascii 'a', ascii 'b', 0] }
      ([ascii '%', ascii 's', ascii ','] ++ [ascii '%', ascii 'd', 0]) ⟨[0x1000, 2], []⟩ [] =
      some ([ascii 'a', ascii 'b', ascii ',', ascii '2'], 4) := by
  have h : ∀ i ∈ [Item.directive ⟨{}, .absent, none, .default, ascii 's'⟩, .literal (ascii ',')], i.WellFormed := by
    intro i hi
    obtain rfl | hi := List.mem_cons.mp hi
    · exact ⟨rfl, by decide, by decide⟩
    · rw [List.mem_singleton.mp hi]
      exact ⟨by decide, by decide⟩
  exact (logfn_append h fun _ _ => .tail _ (.tail _ (.head _))).trans (by decide)

end Composition

namespace Log

open Function Machine

variable {ι δ : Type} {env : Environment δ} {σ σ' : Machine ι δ} {m : Message δ} {bytes : Bytes} {pending : List Byte}

-- The bytes of the characters that the message stands for.
def Message.sent (env : Environment δ) (m : Message δ) : List Byte :=
  ((formatted env m.format m.args).getD []).flatMap Printf.sent

theorem Message.eq_sent (h : m.bytes env = some pending) : pending = m.sent env := by
  rw [bytes, logfn_eq_sent, Option.map_map] at h
  obtain ⟨cs, hcs, rfl⟩ := Option.map_eq_some_iff.mp h
  simp [sent, hcs]

-- A processor that sends a message has the lock.
structure Invariant (σ : Machine ι δ) : Prop where
  held   : ∀ i, σ.Sending i → σ.bytes.load logLock 2 ≠ 0
  unique : ∀ i j, σ.Sending i → σ.Sending j → i = j

theorem start_invariant : Invariant (start bytes : Machine ι δ) where
  held   := by simp [Sending, start]
  unique := by simp [Sending, start]

variable [DecidableEq ι] {i j : ι} {a : Action ι δ} {as : List (Action ι δ)} {pc : Pc δ}

-- All steps of a processor.
theorem step_cases (h : σ.step env a = some σ') :
    (∃ i m, a = .logfn i m ∧ σ.pc i = .idle ∧ σ' = σ.goto i (.acquiring m)) ∨
    (∃ i m, a = .proceed i ∧ σ.pc i = .acquiring m ∧ σ.bytes.load logLock 2 ≠ 0 ∧
      σ' = { σ with bytes := (Spinlock.testAndSet σ.bytes logLock).fst }) ∨
    (∃ i m, a = .proceed i ∧ σ.pc i = .acquiring m ∧ σ.bytes.load logLock 2 = 0 ∧
      σ' = { σ with bytes := (Spinlock.testAndSet σ.bytes logLock).fst }.goto i (.sending m (m.sent env))) ∨
    (∃ i m b pending, a = .proceed i ∧ σ.pc i = .sending m (b :: pending) ∧
      σ' = { σ with port := σ.port ++ [b] }.goto i (.sending m pending)) ∨
    (∃ i m, a = .proceed i ∧ σ.pc i = .sending m [] ∧
      σ' = { σ with bytes := Spinlock.release σ.bytes logLock }.goto i .idle) := by
  cases a
  case logfn i m =>
    simp only [step] at h
    split at h
    case h_1 hp => exact .inl ⟨i, m, rfl, hp, (Option.some.inj h).symm⟩
    case h_2    => contradiction
  case proceed i =>
    simp only [step] at h
    split at h
    case h_1 => contradiction
    case h_2 m hp =>
      split at h
      case isTrue hl =>
        obtain ⟨pending, hm, rfl⟩ := Option.map_eq_some_iff.mp h
        refine .inr <| .inr <| .inl ⟨i, m, rfl, hp, by simpa [Spinlock.testAndSet] using hl, ?_⟩
        rw [Message.eq_sent hm]
      case isFalse hl =>
        exact .inr <| .inl ⟨i, m, rfl, hp, by simpa [Spinlock.testAndSet] using hl, (Option.some.inj h).symm⟩
    case h_3 m b pending hp =>
      exact .inr <| .inr <| .inr <| .inl ⟨i, m, b, pending, rfl, hp, (Option.some.inj h).symm⟩
    case h_4 m hp => exact .inr <| .inr <| .inr <| .inr ⟨i, m, rfl, hp, (Option.some.inj h).symm⟩

theorem sending_goto : (σ.goto i pc).Sending j ↔
    if j = i then ∃ m pending, pc = .sending m pending else σ.Sending j := by
  by_cases h : j = i <;> simp [Sending, goto, h]

-- Nobody sends anything after the lock has been released.
theorem Invariant.not_sending (inv : Invariant σ) (hi : σ.Sending i) : ¬(σ.goto i .idle).Sending j := by
  rw [sending_goto]
  split
  case isTrue     => simp
  case isFalse hj => exact fun h => hj <| inv.unique j i h hi

theorem step_invariant (inv : Invariant σ) (h : σ.step env a = some σ') : Invariant σ' := by
  have hset : (Spinlock.testAndSet σ.bytes logLock).fst.load logLock 2 ≠ 0 := by
    rw [Spinlock.testAndSet, Bytes.load_store]
    decide
  obtain ⟨i, m, rfl, hp, rfl⟩ | ⟨i, m, rfl, hp, hl, rfl⟩ | ⟨i, m, rfl, hp, hl, rfl⟩ |
    ⟨i, m, b, pending, rfl, hp, rfl⟩ | ⟨i, m, rfl, hp, rfl⟩ := step_cases h
  · have hs : ∀ j, (σ.goto i (.acquiring m)).Sending j → σ.Sending j := by
      intro j hj
      rw [sending_goto] at hj
      split at hj
      case isTrue  => simp at hj
      case isFalse => exact hj
    exact ⟨fun j hj => inv.held j (hs j hj), fun j k hj hk => inv.unique j k (hs j hj) (hs k hk)⟩
  · exact ⟨fun _ _ => hset, inv.unique⟩
  · have hs : ∀ j, (goto { σ with bytes := (Spinlock.testAndSet σ.bytes logLock).fst } i
        (.sending m (m.sent env))).Sending j → j = i := by
      intro j hj
      by_contra hne
      rw [sending_goto, if_neg hne] at hj
      exact inv.held j hj hl
    exact ⟨fun _ _ => hset, fun j k hj hk => (hs j hj).trans (hs k hk).symm⟩
  · have hs : ∀ j, (goto { σ with port := σ.port ++ [b] } i (.sending m pending)).Sending j → σ.Sending j := by
      intro j hj
      rw [sending_goto] at hj
      split at hj
      case isTrue h => exact h ▸ ⟨m, _, hp⟩
      case isFalse  => exact hj
    exact ⟨fun j hj => inv.held j (hs j hj), fun j k hj hk => inv.unique j k (hs j hj) (hs k hk)⟩
  · have hn : ∀ j, ¬(goto { σ with bytes := Spinlock.release σ.bytes logLock } i .idle).Sending j :=
      fun j => inv.not_sending ⟨m, [], hp⟩
    exact ⟨fun j hj => absurd hj (hn j), fun j k hj => absurd hj (hn j)⟩

section Calls

theorem calls_append {as' : List (Action ι δ)} : calls i (as ++ as') = calls i as ++ calls i as' :=
  List.filterMap_append

@[simp]
theorem calls_logfn : calls i [.logfn j m] = if j = i then [m] else [] := by
  by_cases h : j = i <;> simp [calls, h]

@[simp]
theorem calls_proceed : calls i [(.proceed j : Action ι δ)] = [] := rfl

end Calls

-- The serial line shows the messages of `log`, each of them as a whole, followed by a part of another message. For
-- every processor the messages are those that it has logged, in the same order.
structure Serialized (env : Environment δ) (as : List (Action ι δ)) (σ : Machine ι δ) (log : List (ι × Message δ))
    (part : List Byte) : Prop where
  port    : σ.port = log.flatMap (fun entry => entry.snd.sent env) ++ part
  order   : ∀ i, (log.filter (·.fst = i)).map Prod.snd ++ (σ.pc i).current = calls i as
  sending : ∀ i m pending, σ.pc i = .sending m pending → part ++ pending = m.sent env
  whole   : (∀ i, ¬σ.Sending i) → part = []

theorem pc_goto : (σ.goto i pc).pc j = if j = i then pc else σ.pc j := by
  by_cases h : j = i <;> simp [goto, h]

namespace Serialized

variable {log : List (ι × Message δ)} {part : List Byte} {b : Byte} (s : Serialized env as σ log part)

include s

-- The messages of all processors, where the one of `i` is moved on.
theorem order_goto (hc : pc.current = (σ.pc i).current) (j : ι) :
    (log.filter (·.fst = j)).map Prod.snd ++ ((σ.goto i pc).pc j).current = Log.calls j (as ++ [.proceed i]) := by
  rw [calls_append, calls_proceed, List.append_nil, ← s.order j, pc_goto]
  split
  case isTrue h  => rw [h, hc]
  case isFalse h => rfl

theorem logfn (hp : σ.pc i = .idle) : Serialized env (as ++ [.logfn i m]) (σ.goto i (.acquiring m)) log part where
  port        := s.port
  order j     := by
    rw [calls_append, calls_logfn, ← s.order j, pc_goto]
    by_cases h : j = i
    case pos => simp [h, hp, Pc.current]
    case neg => simp [h, Ne.symm h]
  sending j m' pending hj := by
    rw [pc_goto] at hj
    split at hj
    case isTrue  => simp at hj
    case isFalse => exact s.sending j m' pending hj
  whole hn    := by
    refine s.whole fun j hj => hn j ?_
    have hij : j ≠ i := by
      rintro rfl
      obtain ⟨_, _, hj⟩ := hj
      simp [hp] at hj
    rwa [sending_goto, if_neg hij]

theorem spin : Serialized env (as ++ [.proceed i]) { σ with bytes } log part where
  port    := s.port
  order j := by rw [calls_append, calls_proceed, List.append_nil, ← s.order j]
  sending := s.sending
  whole   := s.whole

theorem acquire (hp : σ.pc i = .acquiring m) (hn : ∀ j, ¬σ.Sending j) :
    Serialized env (as ++ [.proceed i]) ({ σ with bytes }.goto i (.sending m (m.sent env))) log [] where
  port     := s.whole hn ▸ s.port
  order j  := s.order_goto (by rw [hp]; rfl) j
  sending j m' pending hj := by
    rw [pc_goto] at hj
    split at hj
    case isTrue  =>
      cases hj
      rfl
    case isFalse => exact absurd ⟨m', pending, hj⟩ (hn j)
  whole _  := rfl

theorem send (inv : Invariant σ) (hp : σ.pc i = .sending m (b :: pending)) :
    Serialized env (as ++ [.proceed i]) ({ σ with port := σ.port ++ [b] }.goto i (.sending m pending)) log
      (part ++ [b]) where
  port     := by rw [← List.append_assoc, ← s.port]; rfl
  order j  := s.order_goto (by rw [hp]; rfl) j
  sending j m' pending' hj := by
    rw [pc_goto] at hj
    split at hj
    case isTrue h =>
      cases hj
      rw [List.append_assoc]
      exact s.sending i m (b :: pending) hp
    case isFalse h => exact absurd (inv.unique j i ⟨m', pending', hj⟩ ⟨m, _, hp⟩) h
  whole hn := by
    refine absurd ?_ (hn i)
    rw [sending_goto, if_pos rfl]
    exact ⟨m, pending, rfl⟩

theorem release (inv : Invariant σ) (hp : σ.pc i = .sending m []) :
    Serialized env (as ++ [.proceed i]) ({ σ with bytes }.goto i .idle) (log ++ [(i, m)]) [] where
  port     := by
    rw [List.flatMap_append, List.append_nil, List.flatMap_singleton, ← s.sending i m [] hp, List.append_nil]
    exact s.port
  order j  := by
    rw [calls_append, calls_proceed, List.append_nil, ← s.order j, pc_goto, List.filter_append, List.map_append]
    by_cases h : j = i
    case pos => simp [h, hp, Pc.current]
    case neg => simp [h, Ne.symm h]
  sending j m' pending hj := by
    have hn : ¬(σ.goto i .idle).Sending j := inv.not_sending ⟨m, [], hp⟩
    exact absurd ⟨m', pending, hj⟩ hn
  whole _  := rfl

end Serialized

theorem step_serialized {log : List (ι × Message δ)} {part : List Byte} (inv : Invariant σ)
    (s : Serialized env as σ log part) (h : σ.step env a = some σ') :
    ∃ log part, Serialized env (as ++ [a]) σ' log part := by
  obtain ⟨i, m, rfl, hp, rfl⟩ | ⟨i, m, rfl, hp, hl, rfl⟩ | ⟨i, m, rfl, hp, hl, rfl⟩ |
    ⟨i, m, b, pending, rfl, hp, rfl⟩ | ⟨i, m, rfl, hp, rfl⟩ := step_cases h
  · exact ⟨_, _, s.logfn hp⟩
  · exact ⟨_, _, s.spin⟩
  · exact ⟨_, _, s.acquire hp fun j hj => inv.held j hj hl⟩
  · exact ⟨_, _, s.send inv hp⟩
  · exact ⟨_, _, s.release inv hp⟩

-- Whatever the order of the steps is, messages are never mixed up, lost or duplicated.
theorem exists_serialized (e : Execution (step env) Execution.Free (start bytes : Machine ι δ) as σ) :
    ∃ log part, Serialized env as σ log part := by
  induction e
  case refl => exact ⟨[], [], rfl, fun _ => rfl, by simp [start], fun _ => rfl⟩
  case snoc e _ hs ih =>
    obtain ⟨log, part, s⟩ := ih
    exact step_serialized (e.invariant start_invariant fun inv _ => step_invariant inv) s hs

-- The processor 1 wants to log a message while the processor 0 sends another one, which starts with a line break.
def twoMessages : List (Action (Fin 2) Empty) :=
  [.logfn 0 ⟨[ascii '\n', ascii '%', ascii 'd', 0], ⟨[42], []⟩⟩, .proceed 0, .logfn 1 ⟨[ascii 'c', 0], ⟨[], []⟩⟩,
    .proceed 1, .proceed 0, .proceed 1, .proceed 0, .proceed 0, .proceed 0, .proceed 1, .proceed 0, .proceed 1,
    .proceed 1, .logfn 0 ⟨[ascii 'e', 0], ⟨[], []⟩⟩, .proceed 0, .proceed 1]

theorem exists_serialized_of_two : ∃ σ,
    Execution (step .empty) Execution.Free (start fun _ => 0) twoMessages σ ∧
    σ.port = [ascii '\r', ascii '\n', ascii '4', ascii '2', ascii 'c'] ∧
    ∃ log part, Serialized .empty twoMessages σ log part := by
  have h : ∃ σ ∈ Execution.run (step .empty) (start fun _ => 0) twoMessages,
      σ.port = [ascii '\r', ascii '\n', ascii '4', ascii '2', ascii 'c'] := by decide +kernel
  obtain ⟨σ, hσ, hport⟩ := h
  have e := Execution.of_run hσ
  exact ⟨σ, e, hport, exists_serialized e⟩

end Log
end Printf
