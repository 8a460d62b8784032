import Xesual.Pci.Concurrent

namespace PCI.Machine

variable {config : Config} {code : Code Unit} {σ σ' : Machine} {c d : Nat} {x : Cpu} {r : Read}

@[simp]
theorem setCpu_self : (σ.setCpu c x).cpu c = x := by
  simp [setCpu]

theorem setCpu_of_ne (h : d ≠ c) : (σ.setCpu c x).cpu d = σ.cpu d := by
  simp [setCpu, h]

-- The steps of a processor: it writes to `AddressPort`, reads from `ValuePort`, or calls the callback.
theorem step_cases (h : step config σ c = some σ') :
    (∃ r k, (σ.cpu c).code = .query r k ∧ (σ.cpu c).latched = false ∧
      σ' = setCpu { σ with address := addressOf r.device r.field } c { σ.cpu c with latched := true }) ∨
    (∃ r k, (σ.cpu c).code = .query r k ∧ (σ.cpu c).latched ∧
      σ' = σ.setCpu c { σ.cpu c with code := k (config.input σ.address r), latched := false }) ∨
    (∃ hit k, (σ.cpu c).code = .emit hit k ∧
      σ' = σ.setCpu c { σ.cpu c with code := k, calls := (σ.cpu c).calls ++ [hit] }) := by
  simp only [step] at h
  split at h
  case h_1 r k hc =>
    split at h
    case isTrue hl  => exact .inr <| .inl ⟨r, k, hc, hl, (Option.some.inj h).symm⟩
    case isFalse hl => exact .inl ⟨r, k, hc, by simpa using hl, (Option.some.inj h).symm⟩
  case h_2 hit k hc => exact .inr <| .inr ⟨hit, k, hc, (Option.some.inj h).symm⟩
  all_goals contradiction

-- `AddressPort` contains what the waiting processors have written to it, and every processor has received the
-- right answers so far.
structure Invariant (config : Config) (code : Code Unit) (σ : Machine) : Prop where
  address : ∀ c r, σ.Waits c r → σ.address = addressOf r.device r.field
  calls   : ∀ c, (σ.cpu c).calls ++ (σ.cpu c).code.events config.read = code.events config.read
  latched : ∀ c, (σ.cpu c).latched → ∃ r, σ.Waits c r

namespace Invariant

theorem start {a : BitVec 32} : Invariant config code (start a code) where
  address := fun _ _ h => absurd h.left (by simp [Machine.start])
  calls   := by simp [Machine.start]
  latched := by simp [Machine.start]

theorem correct (inv : Invariant config code σ) (c : Nat) : Correct config σ c := by
  intro r h
  rw [Config.read, inv.address c r h]

theorem alone (inv : Invariant config code σ) (c : Nat) : Alone config code σ c where
  calls    := ⟨_, inv.calls c⟩
  finished := by
    intro hd
    have h := inv.calls c
    rwa [hd, Program.events, List.append_nil] at h

-- What has to be shown about the processor that takes a step, if `AddressPort` keeps its value for the others.
theorem of_step (inv : Invariant config code σ) {a : BitVec 32}
    (ha : ∀ d ≠ c, ∀ r, σ.Waits d r → a = addressOf r.device r.field)
    (hx : x.latched → ∃ r k, x.code = .query r k ∧ a = addressOf r.device r.field)
    (hc : x.calls ++ x.code.events config.read = code.events config.read) :
    Invariant config code (setCpu { σ with address := a } c x) where
  address := by
    intro d r hw
    by_cases hd : d = c
    case pos =>
      subst hd
      have ⟨hl, k, hq⟩ := hw
      rw [setCpu_self] at hl hq
      have ⟨r', k', hq', ha⟩ := hx hl
      cases hq.symm.trans hq'
      exact ha
    case neg =>
      refine ha d hd r ?_
      rwa [Waits, setCpu_of_ne hd] at hw
  calls   := by
    intro d
    by_cases hd : d = c
    case pos =>
      subst hd
      rwa [setCpu_self]
    case neg =>
      rw [setCpu_of_ne hd]
      exact inv.calls d
  latched := by
    intro d hl
    by_cases hd : d = c
    case pos =>
      subst hd
      rw [setCpu_self] at hl
      have ⟨r, k, hq, _⟩ := hx hl
      exact ⟨r, by rwa [setCpu_self], k, by rwa [setCpu_self]⟩
    case neg =>
      rw [setCpu_of_ne hd] at hl
      have ⟨r, hw⟩ := inv.latched d hl
      exact ⟨r, by rwa [Waits, setCpu_of_ne hd]⟩

theorem step (inv : Invariant config code σ) (hu : σ.Undisturbed c) (h : step config σ c = some σ') :
    Invariant config code σ' := by
  have hcalls := inv.calls c
  obtain ⟨r, k, hq, hl, he⟩ | ⟨r, k, hq, hl, he⟩ | ⟨hit, k, hq, he⟩ := step_cases h
  all_goals
    subst he
    rw [hq] at hcalls
  case inl =>
    refine inv.of_step (hu r k hq hl) (fun _ => ⟨r, k, hq, rfl⟩) ?_
    rwa [hq]
  case inr.inl =>
    refine inv.of_step (fun d _ => inv.address d) nofun ?_
    rwa [inv.correct c r ⟨hl, k, hq⟩]
  case inr.inr =>
    refine inv.of_step (fun d _ => inv.address d) (fun hl => ?_) ?_
    case refine_1 =>
      have ⟨r, _, k, hq'⟩ := inv.latched c hl
      rw [hq] at hq'
      contradiction
    case refine_2 => simpa [Program.events] using hcalls

end Invariant

-- As long as no processor writes to `AddressPort` while another one waits for a different address, all processors
-- get the right answers, and call the callback as if they were alone.
theorem correct_of_undisturbed {a : BitVec 32} {fuel : Nat} {f : Callback} {type : Int} {cs : List Nat}
    (e : Execution (step config) Undisturbed (start a (scan fuel f type)) cs σ) :
    ∀ c, σ.Correct config c ∧ σ.Alone config (scan fuel f type) c := by
  have inv := e.invariant Invariant.start fun inv hu h => inv.step hu h
  exact fun c => ⟨inv.correct c, inv.alone c⟩

-- A device at 0:0.0 whose device number is `0x0080`. All other registers are zero.
def oneDevice : Config
  | 0x80000000 => 0x00801234
  | _          => 0

section Evaluation

-- The condition for the processors 0 and 1 if there are no others, to evaluate it.
def checked (σ : Machine) (c : Nat) : Bool :=
  decide (c < 2) && match (σ.cpu c).code with
    | .query r _ => (σ.cpu c).latched || match (σ.cpu (1 - c)).code with
      | .query r' _ => !(σ.cpu (1 - c)).latched || addressOf r.device r.field == addressOf r'.device r'.field
      | _           => true
    | _ => true

theorem lt_of_checked (h : checked σ c) : c < 2 := by
  rw [checked, Bool.and_eq_true, decide_eq_true_eq] at h
  exact h.left

theorem undisturbed_of_checked (hr : ∀ d ≥ 2, (σ.cpu d).latched = false) (h : checked σ c) : σ.Undisturbed c := by
  intro r k hc hl d hd r' hw
  have hd2 : d < 2 := by
    by_contra hd2
    exact absurd ((hr d (Nat.le_of_not_lt hd2)).symm.trans hw.left) Bool.false_ne_true
  have hc2 := lt_of_checked h
  have hd' : 1 - c = d := by omega
  obtain ⟨hl', k', hc'⟩ := hw
  simpa [checked, hc2, hc, hl, hd', hc', hl'] using h

-- The other processors do not take part.
theorem execution_of_checked {cs : List Nat} (hr : ∀ d ≥ 2, (σ.cpu d).latched = false)
    (e : Execution (step config) (fun σ c => checked σ c = true) σ cs σ') :
    Execution (step config) Undisturbed σ cs σ' ∧ ∀ d ≥ 2, (σ'.cpu d).latched = false := by
  induction e
  case refl => exact ⟨.refl, hr⟩
  case snoc c _ hc hs ih =>
    obtain ⟨e, hr⟩ := ih
    refine ⟨e.snoc (undisturbed_of_checked hr hc) hs, fun d hd => ?_⟩
    have hne : d ≠ c := by
      have := lt_of_checked hc
      omega
    obtain ⟨r, k, -, -, hs⟩ | ⟨r, k, -, -, hs⟩ | ⟨hit, k, -, hs⟩ := step_cases hs
    all_goals
      rw [hs, setCpu_of_ne hne]
      exact hr d hd

-- Two processors enumerate the devices at the same time. They both ask for the header type before one of them reads it,
-- and have both called the callback at the end.
theorem correct_of_undisturbed_two : ∃ σ,
    Execution (step oneDevice) Undisturbed (start 0 (scan 1 displayCallback (-1)))
      [0, 1, 0, 1, 0, 0, 1, 1, 0, 0, 1, 1, 1, 1, 1, 0, 0, 0] σ ∧
    (σ.cpu 0).calls = [⟨0, 0x1234, 0x80⟩] ∧ (σ.cpu 1).calls = [⟨0, 0x1234, 0x80⟩] ∧
    ∀ c, σ.Correct oneDevice c ∧ σ.Alone oneDevice (scan 1 displayCallback (-1)) c := by
  have h : ∃ σ ∈ Execution.runIf (step oneDevice) (fun σ c => checked σ c = true)
      (start 0 (scan 1 displayCallback (-1))) [0, 1, 0, 1, 0, 0, 1, 1, 0, 0, 1, 1, 1, 1, 1, 0, 0, 0],
      (σ.cpu 0).calls = [⟨0, 0x1234, 0x80⟩] ∧ (σ.cpu 1).calls = [⟨0, 0x1234, 0x80⟩] := by decide +kernel
  obtain ⟨σ, hσ, h₀, h₁⟩ := h
  obtain ⟨e, -⟩ := execution_of_checked (fun _ _ => rfl) (Execution.of_runIf hσ)
  exact ⟨σ, e, h₀, h₁, correct_of_undisturbed e⟩

end Evaluation

-- Processor 1 is about to read the header type, when processor 0 asks for the vendor: it then gets the lower byte
-- of the device number.
theorem not_correct : ¬∀ (config : Config) (a : BitVec 32) (fuel : Nat) (f : Callback) (type : Int) (cs : List Nat)
    (σ : Machine), Execution (step config) Execution.Free (start a (scan fuel f type)) cs σ →
      ∀ c, σ.Correct config c := by
  intro h
  have hr : ∃ σ, Execution.run (step oneDevice) (start 0 (scan 1 displayCallback (-1))) [1, 0, 0, 0] = some σ ∧
      σ.address = 0x80000000 ∧ σ.Waits 1 ⟨.one, 0, .HeaderType⟩ :=
    ⟨_, rfl, rfl, rfl, _, rfl⟩
  have ⟨σ, hr, ha, hw⟩ := hr
  have hc := h _ _ _ _ _ _ _ (Execution.of_run hr) 1 _ hw
  rw [ha] at hc
  exact absurd hc (by decide)

end PCI.Machine
