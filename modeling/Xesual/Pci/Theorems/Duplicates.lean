import Xesual.Pci.Theorems.Registers

-- When the enumeration calls the callback several times for the same function.

namespace PCI

open Traversal Relation

section Physical

-- The number of the first function in the slot of a device.
def firstFunction (device : BitVec 32) : BitVec 32 := device >>> 8 <<< 8

-- If there is only one function in a slot, then it may be found under the numbers of all of them. In that case, bit 7
-- of its header type is clear.
def Config.physical (config : Config) (device : BitVec 32) : BitVec 32 :=
  if config.read ⟨.one, firstFunction device, .HeaderType⟩ &&& 0x80 = 0 then firstFunction device else device

-- The enumeration terminates, and does not call the callback twice for the same function.
def Config.ReportsOnce (config : Config) : Prop :=
  ∀ f, config.Quiet f → ∀ type, (∃ fuel, ((scan fuel f type).run config.read).isSome) ∧
    ∀ fuel hits, (scan fuel f type).run config.read = some (hits, ()) →
      (hits.map fun h => config.physical h.device).Nodup

-- Every bridge leads to a bus with a greater number, and no two of them lead to the same one.
structure Config.Programmed (config : Config) : Prop where
  ascending : ∀ p, config.IsBridge p → p.bus < (config.secondaryBus p).toNat
  distinct  : ∀ p q, config.IsBridge p → config.IsBridge q → config.secondaryBus p = config.secondaryBus q →
    config.physical p.device = config.physical q.device

-- The buses that are scanned.
def Config.Reached (config : Config) (b : Nat) : Prop :=
  ∃ s ∈ config.starts, ReflTransGen config.Leads s b

-- In the slots that are scanned, several functions are only found if bit 7 of the header type is set. The buses at
-- which the enumeration starts are not scanned again through a bridge, unless there is nothing on them.
structure Config.Unambiguous (config : Config) : Prop where
  single : ∀ p, config.Reached p.bus → p.slot < 32 → p.func < 8 → config.Present p → p.func ≠ 0 →
    config.headerType ⟨p.bus, p.slot, 0⟩ &&& 0x80 ≠ 0
  apart  : ∀ b c, config.Reached b → config.Leads b c → c ∈ config.starts → config.functions c = []

end Physical

variable {config : Config} {f : Callback} {type : Int} {b c : Nat} {p q : Position}

section Reached

theorem starts_lt (h : b ∈ config.starts) : b < 256 := by
  unfold Config.starts at h
  split at h
  case isTrue => simp_all
  case isFalse =>
    split at h
    case isTrue  => simpa using h
    case isFalse =>
      have h := List.mem_range.mp <| (List.takeWhile_sublist _).subset h
      omega

theorem nodup_starts : config.starts.Nodup := by
  unfold Config.starts
  split
  case isTrue  => exact List.nodup_singleton 0
  case isFalse =>
    split
    case isTrue  => exact List.nodup_range
    case isFalse => exact List.nodup_range.sublist (List.takeWhile_sublist _)

theorem reached_lt (h : config.Reached b) : b < 256 := by
  have ⟨s, hs, h⟩ := h
  cases ReflTransGen.cases_tail h
  case inl h => exact h ▸ starts_lt hs
  case inr h =>
    have ⟨_, _, h⟩ := h
    exact lt_of_leads h

theorem Config.Reached.tail (h : config.Reached b) (hl : config.Leads b c) : config.Reached c :=
  have ⟨s, hs, h⟩ := h
  ⟨s, hs, h.tail hl⟩

end Reached

section Device

theorem firstFunction_device (hp : p.bus < 256 ∧ p.slot < 32 ∧ p.func < 8) :
    firstFunction p.device = Position.device ⟨p.bus, p.slot, 0⟩ := by
  apply BitVec.eq_of_toNat_eq
  simp only [firstFunction, Position.device, BitVec.toNat_shiftLeft, BitVec.toNat_ushiftRight, Nat.shiftLeft_eq,
    Nat.shiftRight_eq_div_pow]
  rw [toNat_box hp.left (by omega) (by omega), toNat_box hp.left (by omega) (by omega)]
  omega

-- The position of the physical function.
def Config.canonical (config : Config) (p : Position) : Position :=
  if config.headerType ⟨p.bus, p.slot, 0⟩ &&& 0x80 = 0 then ⟨p.bus, p.slot, 0⟩ else p

theorem physical_device (hp : p.bus < 256 ∧ p.slot < 32 ∧ p.func < 8) :
    config.physical p.device = (config.canonical p).device := by
  unfold Config.physical Config.canonical
  rw [firstFunction_device hp]
  split
  case isTrue h  => exact (congrArg Position.device (if_pos h)).symm
  case isFalse h => exact (congrArg Position.device (if_neg h)).symm

theorem canonical_inj (hp : p.bus < 256 ∧ p.slot < 32 ∧ p.func < 8) (hq : q.bus < 256 ∧ q.slot < 32 ∧ q.func < 8)
    (h : config.physical p.device = config.physical q.device) : config.canonical p = config.canonical q := by
  have bound {p : Position} (hp : p.bus < 256 ∧ p.slot < 32 ∧ p.func < 8) : (config.canonical p).bus < 256 ∧
      (config.canonical p).slot < 32 ∧ (config.canonical p).func < 8 := by
    unfold Config.canonical
    split
    case isTrue  => exact ⟨hp.left, hp.right.left, Nat.zero_lt_succ 7⟩
    case isFalse => exact hp
  rw [physical_device hp, physical_device hq] at h
  exact device_inj (bound hp) (bound hq) h

theorem canonical_bus : (config.canonical p).bus = p.bus := by
  unfold Config.canonical
  split <;> rfl

theorem canonical_slot : (config.canonical p).slot = p.slot := by
  unfold Config.canonical
  split <;> rfl

end Device

section Found

-- The functions that are visited.
structure Config.Found (config : Config) (p : Position) : Prop where
  reached : config.Reached p.bus
  slot    : p.slot < 32
  func    : p.func < 8
  present : config.Present p

theorem Config.Found.bound (h : config.Found p) : p.bus < 256 ∧ p.slot < 32 ∧ p.func < 8 :=
  ⟨reached_lt h.reached, h.slot, h.func⟩

theorem mem_iff_found {n : Nat} {ps : List Position}
    (h : visitAll (traverse config.functions config.secondary n) config.starts = some ps) :
    p ∈ ps ↔ config.Found p := by
  rw [mem_visitAll_iff h]
  constructor
  case mp =>
    intro ⟨s, hs, qs, ht, hp⟩
    have ⟨b, hr, hp⟩ := (mem_traverse_iff ht).mp hp
    have ⟨hb, hs', hf, hp⟩ := mem_functions_iff.mp hp
    exact ⟨⟨s, hs, hb ▸ hr⟩, hs', hf, hp⟩
  case mpr =>
    intro hp
    have ⟨s, hs, hr⟩ := hp.reached
    have ⟨qs, ht⟩ := Option.isSome_iff_exists.mp <| visitAll_isSome_iff.mp (Option.isSome_of_eq_some h) s hs
    exact ⟨s, hs, qs, ht, (mem_traverse_iff ht).mpr
      ⟨p.bus, hr, mem_functions_iff.mpr ⟨rfl, hp.slot, hp.func, hp.present⟩⟩⟩

theorem exists_visited {fuel : Nat} {hits : List Hit} (hq : config.Quiet f)
    (h : (scan fuel f type).run config.read = some (hits, ())) : ∃ ps,
    visitAll (traverse config.functions config.secondary (config.depth fuel)) config.starts = some ps ∧
    hits = config.hits type ps := by
  rw [show (scan fuel f type).run config.read = _ from scans_scan hq] at h
  have ⟨ps, ht, h⟩ := Option.map_eq_some_iff.mp h
  exact ⟨ps, ht, (Prod.mk.inj h).left.symm⟩

-- What is visited is reported, if it is of the given type.
theorem map_hits {ps : List Position} : (config.hits type ps).map (fun h => config.physical h.device) =
    (ps.filter fun p => type = -1 ∨ type = (config.type p).toNat).map fun p => config.physical p.device := by
  rw [Config.hits, List.map_map]
  rfl

end Found

section Once

variable (programmed : config.Programmed) (unambiguous : config.Unambiguous)

include unambiguous in
theorem found_inj (hp : config.Found p) (hq : config.Found q)
    (h : config.physical p.device = config.physical q.device) : p = q := by
  have h := canonical_inj hp.bound hq.bound h
  have hb : p.bus = q.bus := canonical_bus.symm.trans <| (congrArg Position.bus h).trans canonical_bus
  have hs : p.slot = q.slot := canonical_slot.symm.trans <| (congrArg Position.slot h).trans canonical_slot
  by_cases hh : config.headerType ⟨p.bus, p.slot, 0⟩ &&& 0x80 = 0
  case pos =>
    have func_eq {p : Position} (hp : config.Found p) (hh : config.headerType ⟨p.bus, p.slot, 0⟩ &&& 0x80 = 0) :
        p.func = 0 := by
      by_contra hf
      exact unambiguous.single p hp.reached hp.slot hp.func hp.present hf hh
    have hf := func_eq hp hh
    have hf' := func_eq hq (hs ▸ hb ▸ hh)
    cases p
    cases q
    simp_all
  case neg =>
    rw [Config.canonical, if_neg hh, Config.canonical, if_neg (hs ▸ hb ▸ hh)] at h
    exact h

include programmed unambiguous

theorem forest_reached : Forest config.functions config.secondary { b | config.Reached b } := by
  apply forest_of_ascending
  case bound     => exact fun _ => reached_lt
  case ascending => exact programmed.ascending
  case closed    => exact Config.Reached.tail
  case distinct  =>
    intro p q hp hq bp bq h
    exact found_inj unambiguous ⟨hp, bp.slot, bp.func, bp.present⟩ ⟨hq, bq.slot, bq.func, bq.present⟩
      (programmed.distinct p q bp bq h)

theorem nodup_visited {n : Nat} {ps : List Position}
    (h : visitAll (traverse config.functions config.secondary n) config.starts = some ps) : ps.Nodup := by
  have forest := forest_reached programmed unambiguous
  have reached {s : Nat} (hs : s ∈ config.starts) : config.Reached s := ⟨s, hs, .refl⟩
  -- A bus at which the enumeration starts is not reached from another one.
  have empty {s t b : Nat} (hs : s ∈ config.starts) (ht : t ∈ config.starts) (hne : s ≠ t)
      (h : ReflTransGen config.Leads s t) (h' : ReflTransGen config.Leads t b) : config.functions b = [] := by
    have ht' : config.functions t = [] := by
      cases ReflTransGen.cases_tail h
      case inl he => exact absurd he.symm hne
      case inr he =>
        have ⟨c, hc, he⟩ := he
        exact unambiguous.apart c t ⟨s, hs, hc⟩ he ht
    cases ReflTransGen.cases_head h'
    case inl he => exact he ▸ ht'
    case inr he =>
      have ⟨c, ⟨p, hp, _⟩, _⟩ := he
      rw [ht'] at hp
      cases hp
  apply nodup_visitAll h nodup_starts
  case hn   => exact fun s hs ys hy => forest.nodup_traverse (reached hs) hy
  case hdis =>
    intro s hs t ht hne ys zs hy hz p hp hp'
    have ⟨b, hr, hb⟩ := (mem_traverse_iff hy).mp hp
    have ⟨b', hr', hb'⟩ := (mem_traverse_iff hz).mp hp'
    cases (mem_functions_iff.mp hb).left.symm.trans (mem_functions_iff.mp hb').left
    have he : config.functions b = [] := by
      cases forest.total (reached hs) (reached ht) hr hr'
      case inl h => exact empty hs ht hne h hr'
      case inr h => exact empty ht hs hne.symm h hr
    rw [he] at hb
    cases hb

end Once

section Twice

variable (programmed : config.Programmed)
include programmed

theorem terminates_of_programmed (hq : config.Quiet f) : ∃ fuel, ((scan fuel f type).run config.read).isSome := by
  refine (scan_terminates_iff hq).mpr fun s hs => (acc_iff_acyclic finite_reachable).mpr fun b hr => ?_
  exact acyclic_of_ascending programmed.ascending (reached_lt ⟨s, hs, hr⟩)

theorem apart_of_nodup {n : Nat} {ps : List Position}
    (h : visitAll (traverse config.functions config.secondary n) config.starts = some ps) (hn : ps.Nodup)
    (hb : config.Reached b) (hl : config.Leads b c) (hc : c ∈ config.starts) : config.functions c = [] := by
  by_contra he
  have ⟨p, hp⟩ := List.exists_mem_of_ne_nil _ he
  have ⟨s, hs, hr⟩ := hb
  have hne : s ≠ c := by
    rintro rfl
    exact acyclic_of_ascending programmed.ascending (starts_lt hs) (.tail' hr hl)
  have some_of_mem {t : Nat} (ht : t ∈ config.starts) :=
    Option.isSome_iff_exists.mp <| visitAll_isSome_iff.mp (Option.isSome_of_eq_some h) t ht
  have ⟨ys, hy⟩ := some_of_mem hs
  have ⟨zs, hz⟩ := some_of_mem hc
  have hp' : p ∈ ys := (mem_traverse_iff hy).mpr ⟨c, hr.tail hl, hp⟩
  exact disjoint_of_nodup_visitAll h hn hs hc hne hy hz hp' <| (mem_traverse_iff hz).mpr ⟨c, .refl, hp⟩

theorem unambiguous_of_reportsOnce (h : config.ReportsOnce) : config.Unambiguous := by
  have ⟨⟨fuel, hs⟩, h⟩ := h ignore quiet_ignore (-1)
  have ⟨⟨hits, _⟩, hs⟩ := Option.isSome_iff_exists.mp hs
  have ⟨ps, hv, hh⟩ := exists_visited quiet_ignore hs
  have hn := h fuel hits hs
  rw [hh, map_hits] at hn
  simp only [true_or, decide_true, List.filter_true] at hn
  constructor
  case single =>
    intro p hr hs hf hp h0 hh
    have found : config.Found p := ⟨hr, hs, hf, hp⟩
    have found' : config.Found ⟨p.bus, p.slot, 0⟩ := ⟨hr, hs, Nat.zero_lt_succ 7, hp.left, .inl rfl⟩
    have hc : config.physical p.device = config.physical (Position.device ⟨p.bus, p.slot, 0⟩) := by
      rw [physical_device found.bound, physical_device found'.bound]
      simp only [Config.canonical, hh, ↓reduceIte]
    have he := List.inj_on_of_nodup_map hn ((mem_iff_found hv).mpr found) ((mem_iff_found hv).mpr found') hc
    exact h0 (congrArg Position.func he)
  case apart => exact fun b c hb hl hc => apart_of_nodup programmed hv hn.of_map hb hl hc

theorem reportsOnce_of_unambiguous (unambiguous : config.Unambiguous) : config.ReportsOnce := by
  intro f hq type
  refine ⟨terminates_of_programmed programmed hq, fun fuel hits h => ?_⟩
  have ⟨ps, hv, hh⟩ := exists_visited hq h
  rw [hh, map_hits]
  apply List.Nodup.map_on
  case H =>
    intro p hp q hq he
    have hp := (mem_iff_found hv).mp (List.mem_of_mem_filter hp)
    have hq := (mem_iff_found hv).mp (List.mem_of_mem_filter hq)
    exact found_inj unambiguous hp hq he
  case d => exact (nodup_visited programmed unambiguous hv).filter _

-- The enumeration reports every function once if and only if there is no slot in which a single function is taken for
-- several ones, and no bus is scanned from the beginning as well as through a bridge.
theorem reportsOnce_iff : config.ReportsOnce ↔ config.Unambiguous :=
  ⟨unambiguous_of_reportsOnce programmed, reportsOnce_of_unambiguous programmed⟩

end Twice

section Example

-- The only device is a bridge at 0:0 that leads to bus 1. It may or may not ignore the function number.
def soleBridge (ignoresFunction : Bool) : Config := fun address =>
  if address.extractLsb' 11 13 = 0 ∧ (ignoresFunction ∨ address.extractLsb' 8 3 = 0) then
    match address.extractLsb' 0 8 with
    | 0x00 => 0x12348086
    | 0x08 => 0x06040000
    | 0x0C => 0x00010000
    | 0x18 => 0x00000100
    | _    => 0x00000000
  else
    0xFFFFFFFF

variable {ignoresFunction : Bool}

theorem vendorID_soleBridge (hp : p.bus < 256 ∧ p.slot < 32 ∧ p.func < 8)
    (h : (soleBridge ignoresFunction).vendorID p ≠ PCINull) :
    p.bus = 0 ∧ p.slot = 0 ∧ (ignoresFunction ∨ p.func = 0) := by
  have ha := toNat_addressOf .VendorID hp
  have hc : (addressOf p.device .VendorID).extractLsb' 11 13 = 0 ∧
      (ignoresFunction ∨ (addressOf p.device .VendorID).extractLsb' 8 3 = 0) := by
    by_contra hn
    apply h
    simp only [Config.vendorID, Config.read, Config.input, soleBridge, if_neg hn]
    rfl
  have toNat_eq {n m : Nat} (h : (addressOf p.device .VendorID).extractLsb' n m = 0) :
      (addressOf p.device .VendorID).toNat / 2 ^ n % 2 ^ m = 0 := by
    simpa [Nat.shiftRight_eq_div_pow] using congrArg BitVec.toNat h
  have ho : (Field.VendorID.offset &&& 0xFC).toNat = 0 := rfl
  have hbs := toNat_eq hc.left
  refine ⟨by omega, by omega, hc.right.imp id fun hf => ?_⟩
  have hf := toNat_eq hf
  omega

theorem present_soleBridge (hp : p.bus < 256 ∧ p.slot < 32 ∧ p.func < 8)
    (h : (soleBridge ignoresFunction).Present p) : p.bus = 0 ∧ p.slot = 0 ∧ (ignoresFunction ∨ p.func = 0) := by
  have ⟨h0, hf⟩ := h
  cases hf
  case inl hf =>
    have ⟨hb, hs, _⟩ := vendorID_soleBridge (p := ⟨p.bus, p.slot, 0⟩) ⟨hp.left, hp.right.left, Nat.zero_lt_succ 7⟩ h0
    exact ⟨hb, hs, .inr hf⟩
  case inr hf => exact vendorID_soleBridge hp hf.right

theorem secondaryBus_soleBridge : ∀ (ignoresFunction : Bool) (func : Fin 8),
    (soleBridge ignoresFunction).type ⟨0, 0, func⟩ = Bridge →
    (soleBridge ignoresFunction).secondaryBus ⟨0, 0, func⟩ = 1 := by decide

theorem headerType_soleBridge : ∀ ignoresFunction : Bool,
    (soleBridge ignoresFunction).headerType ⟨0, 0, 0⟩ &&& 0x80 = 0 := by decide

theorem isBridge_soleBridge (h : (soleBridge ignoresFunction).IsBridge p) :
    p.bus = 0 ∧ (soleBridge ignoresFunction).secondaryBus p = 1 ∧
    (soleBridge ignoresFunction).canonical p = ⟨0, 0, 0⟩ := by
  have ⟨hb, hs, _⟩ := present_soleBridge ⟨h.bus, h.slot, h.func⟩ h.present
  obtain ⟨bus, slot, func⟩ := p
  cases hb
  cases hs
  refine ⟨rfl, secondaryBus_soleBridge ignoresFunction ⟨func, h.func⟩ h.type, ?_⟩
  exact if_pos (headerType_soleBridge ignoresFunction)

theorem programmed_soleBridge : (soleBridge ignoresFunction).Programmed where
  ascending := by
    intro p hp
    have ⟨hb, hs, _⟩ := isBridge_soleBridge hp
    rw [hb, hs]
    decide
  distinct := by
    intro p q hp hq _
    rw [physical_device ⟨hp.bus, hp.slot, hp.func⟩, physical_device ⟨hq.bus, hq.slot, hq.func⟩,
      (isBridge_soleBridge hp).right.right, (isBridge_soleBridge hq).right.right]

theorem starts_soleBridge : (soleBridge ignoresFunction).starts = [0] :=
  if_pos (headerType_soleBridge ignoresFunction)

-- Nothing is wrong with a bridge that does not ignore the function number.
theorem reportsOnce_iff_soleBridge : (soleBridge false).ReportsOnce := by
  refine (reportsOnce_iff programmed_soleBridge).mpr ⟨?_, ?_⟩
  case refine_1 =>
    intro p hr hs hf hp h0
    have ⟨_, _, hf⟩ := present_soleBridge ⟨reached_lt hr, hs, hf⟩ hp
    exact absurd (hf.resolve_left nofun) h0
  case refine_2 =>
    intro b c hr hl hc
    have ⟨p, hb, hs, hf, hp, ht, hc'⟩ := leads_iff.mp hl
    have ⟨_, hs, _⟩ := isBridge_soleBridge ⟨hb ▸ reached_lt hr, hs, hf, hp, ht⟩
    rw [starts_soleBridge, ← hc', hs] at hc
    exact absurd hc (by decide)

theorem not_reportsOnce : ¬∀ config : Config, config.Programmed → config.ReportsOnce := by
  intro h
  have h := unambiguous_of_reportsOnce programmed_soleBridge <| h (soleBridge true) programmed_soleBridge
  have hr : (soleBridge true).Reached 0 := ⟨0, starts_soleBridge ▸ List.mem_singleton_self 0, .refl⟩
  exact h.single ⟨0, 0, 1⟩ hr (by decide) (by decide) (by decide) (by decide) (headerType_soleBridge true)

end Example
end PCI
