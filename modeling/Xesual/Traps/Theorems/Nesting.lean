import Xesual.Traps.Nesting

namespace Interrupts.Nesting

variable {σ σ' : Machine} {a : Action} {c : Processor} {x : Context} {os v : List Bool} {b w interruptFlag : Bool}
  {n : Nat}

-- The processor is outside of `pushCLI` and `popCLI`, and `os` are the values of the interrupt flag before each of the
-- calls of `pushCLI` that it is nested in. Only the outermost one can have found interrupts enabled.
structure Settled (c : Processor) (os : List Bool) : Prop where
  count     : c.cliCount = os.length
  disabled  : os ≠ [] → c.interruptFlag = false
  outermost : ∀ b ∈ os.getLast?, c.wereInterruptsEnabled = b
  inner     : ∀ b ∈ os.dropLast, b = false

-- The stages of a context. The calls that preceded the start are given by `v`.
inductive Consistent (v : List Bool) (c : Processor) : Context → Prop
  | outside {flags : Bool} {os : List Bool} : Settled c (os ++ v) → Consistent v c ⟨flags, [], os⟩
  | called {flags : Bool} {os : List Bool} : Settled c (os ++ v) →
    Consistent v c ⟨flags, pushCLI, c.interruptFlag :: os⟩
  | read {os : List Bool} : Settled c (os ++ v) →
    Consistent v c ⟨c.interruptFlag, [.cli, .saveFlags, .increment], c.interruptFlag :: os⟩
  | disabled {flags : Bool} {os : List Bool} : Settled c (os ++ v) → c.interruptFlag = false →
    (os ++ v ≠ [] → flags = false) → Consistent v c ⟨flags, [.saveFlags, .increment], flags :: os⟩
  | saved {flags b : Bool} {os : List Bool} : Settled { c with cliCount := c.cliCount + 1 } (b :: (os ++ v)) →
    Consistent v c ⟨flags, [.increment], b :: os⟩
  | leaving {flags b : Bool} {os : List Bool} : Settled c (b :: (os ++ v)) → Consistent v c ⟨flags, popCLI, b :: os⟩
  | decremented {flags b : Bool} {os : List Bool} :
    Settled { c with cliCount := c.cliCount + 1 } (b :: (os ++ v)) →
    Consistent v c ⟨flags, [.restoreFlags], b :: os⟩

structure Machine.Invariant (v : List Bool) (σ : Machine) : Prop where
  context     : Consistent v σ.cpu σ.context
  interrupted : ∀ f ∈ σ.interrupted, v = [] ∧ f.interruptFlag = true ∧
    ∀ c : Processor, c.cliCount = 0 → c.interruptFlag = true → Consistent v c f.context
  bound       : σ.cpu.cliCount < 2 ^ 31

section Settled

theorem settled_nil (h : c.cliCount = 0) : Settled c [] where
  count         := h
  disabled h    := absurd rfl h
  outermost _ h := nomatch h
  inner _ h     := nomatch h

-- If interrupts are enabled, the processor is not nested in any call.
theorem Settled.eq_nil (h : Settled c os) (hc : c.interruptFlag = true) : os = [] := by
  by_contra hn
  exact nomatch hc.symm.trans (h.disabled hn)

theorem Settled.count_eq_zero_iff (h : Settled c os) : c.cliCount = 0 ↔ os = [] := by
  rw [h.count, Int.natCast_eq_zero, List.length_eq_zero_iff]

-- `pushCLI` saves the interrupt flag if and only if this is the outermost call.
theorem Settled.cons (h : Settled c os) (hc : c.interruptFlag = false) (hb : os ≠ [] → b = false) :
    Settled { c with
      cliCount              := c.cliCount + 1
      wereInterruptsEnabled := if c.cliCount = 0 then b else c.wereInterruptsEnabled } (b :: os) where
  count := by
    rw [h.count]
    rfl
  disabled _ := hc
  outermost := by
    cases os
    case nil         => simp [h.count]
    case cons o os   =>
      have hn : c.cliCount ≠ 0 := mt h.count_eq_zero_iff.mp (List.cons_ne_nil o os)
      simpa [hn] using h.outermost
  inner := by
    cases os
    case nil       => simp
    case cons o os => exact List.forall_mem_cons.mpr ⟨hb (List.cons_ne_nil o os), h.inner⟩

-- `popCLI` restores the interrupt flag if and only if this is the outermost call.
theorem Settled.restored (h : Settled { c with cliCount := c.cliCount + 1 } (b :: os)) :
    (c.interruptFlag || (c.cliCount = 0 && c.wereInterruptsEnabled)) = b := by
  have hd : c.interruptFlag = false := h.disabled (List.cons_ne_nil b os)
  have hc : c.cliCount = os.length := by simpa using h.count
  cases os
  case nil =>
    have hw : c.wereInterruptsEnabled = b := h.outermost b rfl
    simp [hd, hc, hw]
  case cons o os =>
    have hb : b = false := h.inner b (List.mem_cons_self ..)
    have hn : c.cliCount ≠ 0 := by
      rw [hc, List.length_cons]
      omega
    simp [hd, hn, hb]

theorem Settled.tail (h : Settled { c with cliCount := c.cliCount + 1 } (b :: os)) :
    Settled { c with interruptFlag := b } os where
  count := by simpa using h.count
  disabled hn := by
    have ⟨o, os, h'⟩ := List.exists_cons_of_ne_nil hn
    exact h.inner b <| h' ▸ List.mem_cons_self ..
  outermost := by
    cases os
    case nil       => nofun
    case cons o os => exact h.outermost
  inner := by
    cases os
    case nil       => nofun
    case cons o os => exact fun b hb => h.inner b (List.mem_cons_of_mem _ hb)

end Settled

section Wrap

theorem wrap_add_one (h₁ : 0 ≤ c.cliCount) (h₂ : c.cliCount < 2 ^ 31 - 1) :
    wrap (c.cliCount + 1) = c.cliCount + 1 := by
  rw [wrap, Int.bmod_eq_of_le] <;> omega

theorem wrap_sub_one (h₁ : 1 ≤ c.cliCount) (h₂ : c.cliCount < 2 ^ 31) : wrap (c.cliCount - 1) = c.cliCount - 1 := by
  rw [wrap, Int.bmod_eq_of_le] <;> omega

end Wrap

theorem Settled.disable (h : Settled c os) : Settled { c with interruptFlag := false } os :=
  ⟨h.count, fun _ => rfl, h.outermost, h.inner⟩

namespace Consistent

theorem count (h : Consistent v c x) : v.length ≤ c.cliCount := by
  cases h
  all_goals
    have hc := Settled.count ‹_›
    simp only [List.length_append, List.length_cons] at hc
    omega

theorem outside_inv (h : Consistent v c x) (hx : x.code = []) : Settled c (x.opened ++ v) := by
  cases h <;> first | assumption | nomatch hx

-- An interrupt can only arrive when the processor is not nested in any call, and before `pushCLI` has disabled
-- interrupts. When the processor resumes after the handler, the counter is zero as before.
theorem interrupted (h : Consistent v c x) (hc : c.interruptFlag = true) :
    v = [] ∧ c.cliCount = 0 ∧ ∀ c : Processor, c.cliCount = 0 → c.interruptFlag = true → Consistent v c x := by
  cases h
  case outside h =>
    have ⟨ho, hv⟩ := List.append_eq_nil_iff.mp (h.eq_nil hc)
    subst ho hv
    exact ⟨rfl, h.count, fun c h₁ _ => .outside (settled_nil h₁)⟩
  case called h =>
    have ⟨ho, hv⟩ := List.append_eq_nil_iff.mp (h.eq_nil hc)
    subst ho hv
    refine ⟨rfl, h.count, fun c h₁ h₂ => ?_⟩
    rw [hc, ← h₂]
    exact .called (settled_nil h₁)
  case read h =>
    have ⟨ho, hv⟩ := List.append_eq_nil_iff.mp (h.eq_nil hc)
    subst ho hv
    refine ⟨rfl, h.count, fun c h₁ h₂ => ?_⟩
    rw [hc, ← h₂]
    exact .read (settled_nil h₁)
  case disabled h _     => exact nomatch hc.symm.trans h
  case saved h          => exact nomatch (h.eq_nil hc)
  case leaving h        => exact nomatch (h.eq_nil hc)
  case decremented h    => exact nomatch (h.eq_nil hc)

theorem restored (h : Consistent v c x) (hx : x.code = [.restoreFlags]) :
    some (c.execute x.flags .restoreFlags).interruptFlag = x.opened.head? := by
  cases h
  case decremented h => exact congrArg some h.restored
  all_goals nomatch hx

-- The next operation of `pushCLI` or `popCLI`.
theorem proceed {o : Op} {code : List Op} (h : Consistent v c x) (hx : x.code = o :: code)
    (hr : o = .increment → c.cliCount ≠ 2 ^ 31 - 1) (hb : c.cliCount < 2 ^ 31) :
    Consistent v (c.execute x.flags o) { x.execute c.interruptFlag o with code } ∧
      (c.execute x.flags o).cliCount < 2 ^ 31 := by
  have hn := h.count
  cases h <;> cases hx
  case called h          => exact ⟨.read h, hb⟩
  case read h            => exact ⟨.disabled h.disable rfl h.disabled, hb⟩
  case disabled h hd hf  => exact ⟨.saved (h.cons hd hf), hb⟩
  case saved h =>
    have hw : wrap (c.cliCount + 1) = c.cliCount + 1 := wrap_add_one (by omega) (by grind)
    simp only [Processor.execute, Context.execute, hw]
    exact ⟨.outside h, by grind⟩
  case leaving h =>
    have hc := h.count
    have hw : wrap (c.cliCount - 1) = c.cliCount - 1 := wrap_sub_one (by rw [hc, List.length_cons]; omega) hb
    simp only [Processor.execute, Context.execute, hw]
    refine ⟨.decremented ?_, by omega⟩
    simpa using h
  case decremented h =>
    simp only [Processor.execute, Context.execute, h.restored]
    exact ⟨.outside h.tail, hb⟩

end Consistent

-- As many calls of `pushCLI` as the initial value of the counter tells.
def preceding (w : Bool) : Nat → List Bool
  | 0     => []
  | n + 1 => List.replicate n false ++ [w]

theorem length_preceding : (preceding w n).length = n := by
  cases n <;> simp [preceding]

theorem settled_preceding (h : n = 0 ∨ interruptFlag = false) : Settled ⟨interruptFlag, n, w⟩ (preceding w n) where
  count := by rw [length_preceding]
  disabled hn := by
    refine h.resolve_left fun h => hn ?_
    rw [h, preceding]
  outermost := by
    cases n <;> simp [preceding]
  inner := by
    cases n
    case zero   => nofun
    case succ n =>
      rw [preceding, List.dropLast_concat]
      exact fun b hb => List.eq_of_mem_replicate hb

namespace Machine

theorem invariant_start (h : n = 0 ∨ interruptFlag = false) (hn : n < 2 ^ 31) :
    Invariant (preceding w n) (start interruptFlag n w) where
  context     := .outside (settled_preceding h)
  interrupted := nofun
  bound       := Int.ofNat_lt.mpr hn

theorem invariant_step (h : σ.Invariant v) (hr : σ.InRange a) (hs : σ.step a = some σ') : σ'.Invariant v := by
  have ⟨hc, hi, hb⟩ := h
  cases a <;> simp only [step] at hs
  case pushCLI =>
    split at hs
    case h_1 hx =>
      cases hs
      exact ⟨.called (hc.outside_inv hx), hi, hb⟩
    case h_2 => nomatch hs
  case popCLI =>
    split at hs
    case h_1 hx ho =>
      cases hs
      have h := hc.outside_inv hx
      rw [ho] at h
      refine ⟨?_, hi, hb⟩
      rw [ho]
      exact .leaving h
    case h_2 => nomatch hs
  case proceed =>
    split at hs
    case h_1 => nomatch hs
    case h_2 hx =>
      cases hs
      have ⟨hc, hb⟩ := hc.proceed hx (fun ho => hr <| by rw [hx, ho]; rfl) hb
      exact ⟨hc, hi, hb⟩
  case interrupt =>
    have ⟨hf, hs⟩ := Option.ite_none_right_eq_some.mp hs
    cases hs
    have ⟨hv, hz, hx⟩ := hc.interrupted hf
    refine ⟨.outside ?_, List.forall_mem_cons.mpr ⟨⟨hv, hf, hx⟩, hi⟩, hb⟩
    rw [hv]
    exact settled_nil hz
  case resume =>
    split at hs
    case h_1 frame frames hf hx ho =>
      cases hs
      have ⟨hv, hw, hx'⟩ := hi frame (hf ▸ List.mem_cons_self ..)
      have h := hc.outside_inv hx
      rw [ho, hv] at h
      refine ⟨hx' _ h.count hw, fun f h => hi f (hf ▸ List.mem_cons_of_mem _ h), hb⟩
    case h_2 => nomatch hs

-- As long as the counter does not overflow, `pushCLI` and `popCLI` can be nested at will.
theorem proper (h : n = 0 ∨ interruptFlag = false) (hn : n < 2 ^ 31) {as : List Action}
    (e : Execution step InRange (start interruptFlag n w) as σ) : σ.Proper n := by
  have ⟨hc, _, _⟩ := e.invariant (invariant_start h hn) invariant_step
  constructor
  case count =>
    have hn := hc.count
    rwa [length_preceding] at hn
  case disabled =>
    intro hx hp
    have hc := hc.outside_inv hx
    exact hc.disabled fun h => hp.ne' (hc.count_eq_zero_iff.mpr h)
  case restored =>
    intro hx σ' hs
    rw [step, hx] at hs
    cases hs
    exact hc.restored hx

-- A pair of calls with an interrupt in between `eflags` and `cli`.
theorem proper_interrupted : ∃ σ : Machine, σ.context.opened = [true] ∧ σ.cpu.cliCount = 1 ∧ σ.Proper 0 := by
  have e : Execution step InRange (start true 0 false)
    [.pushCLI, .proceed, .interrupt, .resume, .proceed, .proceed, .proceed] _ := .of_runIf rfl
  exact ⟨_, rfl, rfl, proper (n := 0) (.inl rfl) (by decide) e⟩

-- The counter is at its greatest value when `pushCLI` is called.
theorem not_proper_overflow :
    ¬∀ (n : Nat) (interruptFlag w : Bool) (as : List Action) (σ : Machine), n < 2 ^ 31 →
      n = 0 ∨ interruptFlag = false → Execution step Execution.Free (start interruptFlag n w) as σ →
      σ.Proper n := by
  intro h
  have e : Execution step Execution.Free (start false (2147483647 : Nat) false)
    [.pushCLI, .proceed, .proceed, .proceed, .proceed] _ := .of_run rfl
  exact absurd (h _ _ _ _ _ (by decide) (.inr rfl) e).count (by decide)

end Machine
end Interrupts.Nesting
