import Xesual.Pci.Registers
import Xesual.Pci.Theorems.Filter

-- When the enumeration terminates, and what it finds.

namespace PCI

open Traversal Relation

variable {config : Config} {f : Callback} {type : Int} {b b' : Nat} {p q : Position}

theorem mem_functions_iff : p ∈ config.functions b ↔
    p.bus = b ∧ p.slot < 32 ∧ p.func < 8 ∧ config.Present p := by
  obtain ⟨bus, slot, func⟩ := p
  simp only [Config.functions, Config.slotFunctions, List.mem_flatMap, List.mem_range, List.mem_filter,
    List.mem_map, decide_eq_true_eq, Position.mk.injEq]
  constructor
  case mp =>
    rintro ⟨slot', hs, ⟨func', hf, hb, hs', hf'⟩, hp⟩
    subst hb hs' hf'
    exact ⟨rfl, hs, hf, hp⟩
  case mpr =>
    rintro ⟨hb, hs, hf, hp⟩
    exact ⟨slot, hs, ⟨func, hf, hb.symm, rfl, rfl⟩, hp⟩

-- Buses are numbered by bytes.
theorem secondaryBus_lt : (config.secondaryBus p).toNat < 256 := by
  rw [Config.secondaryBus, Config.read, Config.input, BitVec.toNat_setWidth, BitVec.toNat_setWidth]
  omega

theorem nodup_functions : (config.functions b).Nodup := by
  refine List.nodup_flatMap.mpr ⟨fun slot _ => ?_, ?_⟩
  case refine_1 => exact (List.nodup_range.map fun _ _ h => (Position.mk.inj h).right.right).filter _
  case refine_2 =>
    refine List.nodup_range.imp fun {slot slot'} hne p hp hp' => hne ?_
    simp only [Config.slotFunctions, List.mem_filter, List.mem_map] at hp hp'
    obtain ⟨⟨_, _, h⟩, _⟩ := hp
    obtain ⟨⟨_, _, h'⟩, _⟩ := hp'
    exact (Position.mk.inj (h.trans h'.symm)).right.left

theorem leads_iff : config.Leads b b' ↔ ∃ p, p.bus = b ∧ p.slot < 32 ∧ p.func < 8 ∧ config.Present p ∧
    config.type p = Bridge ∧ (config.secondaryBus p).toNat = b' := by
  simp only [Config.Leads, Edge, mem_functions_iff, Config.secondary, and_assoc,
    Option.ite_none_right_eq_some, Option.some.injEq]

theorem lt_of_leads (h : config.Leads b b') : b' < 256 := by
  have ⟨p, _, _, _, _, _, h⟩ := leads_iff.mp h
  exact h ▸ secondaryBus_lt

theorem finite_reachable : { b' | ReflTransGen config.Leads b b' }.Finite := by
  refine ((Set.finite_lt_nat 256).insert b).subset fun b' h => ?_
  cases ReflTransGen.cases_tail h
  case inl h => exact .inl h
  case inr h =>
    have ⟨_, _, h⟩ := h
    exact .inr (lt_of_leads h)

section Termination

theorem scan_isSome_iff {fuel : Nat} (hq : config.Quiet f) : ((scan fuel f type).run config.read).isSome ↔
    ∀ b ∈ config.starts, (traverse config.functions config.secondary (config.depth fuel) b).isSome := by
  rw [show (scan fuel f type).run config.read = _ from scans_scan hq, Option.isSome_map, visitAll_isSome_iff]

theorem le_depth {fuel : Nat} : fuel ≤ config.depth fuel := by
  unfold Config.depth
  split
  case isTrue => exact le_rfl
  case isFalse =>
    split
    case isTrue  => exact Nat.le_succ _
    case isFalse => exact le_rfl

theorem scan_terminates_iff (hq : config.Quiet f) : (∃ fuel, ((scan fuel f type).run config.read).isSome) ↔
    ∀ b ∈ config.starts, Acc (fun b' b => config.Leads b b') b := by
  simp only [scan_isSome_iff hq, Config.Leads, ← traverse_terminates_iff]
  constructor
  case mp  => exact fun ⟨fuel, h⟩ b hb => ⟨_, h b hb⟩
  case mpr =>
    intro h
    have ⟨n, hn⟩ := exists_fuel h
    exact ⟨n, fun b hb => traverse_isSome_mono (hn b hb) le_depth⟩

-- The enumeration terminates if and only if no bus is reached that lies on a cycle of bridges.
theorem terminates_iff_acyclic (config : Config) (type : Int) (hq : config.Quiet f) :
    (∃ fuel, ((scan fuel f type).run config.read).isSome) ↔
    ∀ b ∈ config.starts, ∀ b', ReflTransGen config.Leads b b' → ¬TransGen config.Leads b' b' := by
  rw [scan_terminates_iff hq]
  exact forall₂_congr fun b _ => acc_iff_acyclic finite_reachable

-- A configuration space in which the only device is a bridge at 0:0.0, whose secondary bus has not been
-- programmed.
def unprogrammed : Config
  | 0x80000000 => 0x12348086
  | 0x80000008 => 0x06040000
  | 0x8000000C => 0x00010000
  | 0x80000018 => 0x00000000
  | _          => 0xFFFFFFFF

theorem not_terminates : ¬∀ (config : Config) (type : Int),
    ∃ fuel, ((scan fuel ignore type).run config.read).isSome := by
  intro h
  have hl : unprogrammed.Leads 0 0 := leads_iff.mpr ⟨⟨0, 0, 0⟩, by decide⟩
  have h := (scan_terminates_iff quiet_ignore).mp (h unprogrammed (-1)) 0 (by decide)
  exact (acc_iff_acyclic finite_reachable).mp h 0 .refl (.single hl)

end Termination

section Box

theorem toNat_box {bus slot func : Nat} (hb : bus < 256) (hs : slot < 256) (hf : func < 256) :
    (box bus slot func).toNat = bus * 2 ^ 16 + slot * 2 ^ 8 + func := by
  have h₁ : bus <<< 16 ||| slot <<< 8 = (bus * 2 ^ 8 + slot) <<< 8 := by
    rw [← Nat.shiftLeft_add_eq_or_of_lt (by rw [Nat.shiftLeft_eq]; omega)]
    simp only [Nat.shiftLeft_eq]
    omega
  have h₂ : bus <<< 16 < 2 ^ 32 := by rw [Nat.shiftLeft_eq]; omega
  have h₃ : slot <<< 8 < 2 ^ 32 := by rw [Nat.shiftLeft_eq]; omega
  simp only [box, BitVec.toNat_or, BitVec.toNat_shiftLeft, BitVec.toNat_ofNat]
  rw [Nat.mod_eq_of_lt (a := bus) (by omega), Nat.mod_eq_of_lt (a := slot) (by omega),
    Nat.mod_eq_of_lt (a := func) (by omega), Nat.mod_eq_of_lt h₂, Nat.mod_eq_of_lt h₃, h₁,
    ← Nat.shiftLeft_add_eq_or_of_lt (by omega), Nat.shiftLeft_eq]
  omega

-- Different functions have different device numbers.
theorem device_inj (hp : p.bus < 256 ∧ p.slot < 32 ∧ p.func < 8) (hq : q.bus < 256 ∧ q.slot < 32 ∧ q.func < 8)
    (h : p.device = q.device) : p = q := by
  obtain ⟨bus, slot, func⟩ := p
  obtain ⟨bus', slot', func'⟩ := q
  have h := congrArg BitVec.toNat h
  simp only at hp hq
  simp only [Position.device] at h
  rw [toNat_box hp.left (by omega) (by omega), toNat_box hq.left (by omega) (by omega)] at h
  rw [Position.mk.injEq]
  omega

theorem toNat_addressAt {field : BitVec 32} (hp : p.bus < 256 ∧ p.slot < 32 ∧ p.func < 8) :
    (addressAt p.device field).toNat =
      2 ^ 31 + p.bus * 2 ^ 16 + p.slot * 2 ^ 11 + p.func * 2 ^ 8 + (field &&& 0xFC).toNat := by
  have ho : (field &&& 0xFC).toNat < 2 ^ 8 := by
    rw [BitVec.toNat_and]
    exact Nat.and_lt_two_pow _ (by decide)
  have hd : p.device.toNat = p.bus * 2 ^ 16 + p.slot * 2 ^ 8 + p.func :=
    toNat_box hp.left (by omega) (by omega)
  have hb : (busOf p.device).toNat = p.bus := by
    simp only [busOf, BitVec.toNat_setWidth, BitVec.toNat_ushiftRight, Nat.shiftRight_eq_div_pow, hd]
    omega
  have hs : (slotOf p.device).toNat = p.slot := by
    simp only [slotOf, BitVec.toNat_setWidth, BitVec.toNat_ushiftRight, Nat.shiftRight_eq_div_pow, hd]
    omega
  have hf : (funcOf p.device).toNat = p.func := by
    simp only [funcOf, BitVec.toNat_setWidth, hd]
    omega
  -- The parts do not overlap, so that they can be added.
  have hor {x y : BitVec 32} {n : Nat} (hx : 2 ^ n ∣ x.toNat) (hy : y.toNat < 2 ^ n) :
      (x ||| y).toNat = x.toNat + y.toNat := by
    have ⟨k, hk⟩ := hx
    rw [BitVec.toNat_or, hk, ← Nat.two_pow_add_eq_or_of_lt hy]
  have hsh {x : BitVec 32} {n : Nat} (h : x.toNat * 2 ^ n < 2 ^ 32) : (x <<< n).toNat = x.toNat * 2 ^ n := by
    rw [BitVec.toNat_shiftLeft, Nat.shiftLeft_eq, Nat.mod_eq_of_lt h]
  have h16 := hsh (x := busOf p.device) (n := 16) (by omega)
  have h11 := hsh (x := slotOf p.device) (n := 11) (by omega)
  have h8 := hsh (x := funcOf p.device) (n := 8) (by omega)
  have he : ((0x80000000 : Nat) : BitVec 32).toNat = 2 ^ 31 := rfl
  rw [addressAt]
  generalize ((0x80000000 : Nat) : BitVec 32) = enable at *
  have h₁ := hor (x := enable) (y := busOf p.device <<< 16) (n := 31) (by omega) (by omega)
  have h₂ := hor (x := enable ||| busOf p.device <<< 16) (y := slotOf p.device <<< 11) (n := 16) (by omega) (by omega)
  have h₃ := hor (x := enable ||| busOf p.device <<< 16 ||| slotOf p.device <<< 11) (y := funcOf p.device <<< 8)
    (n := 11) (by omega) (by omega)
  rw [hor (n := 8) (by omega) ho]
  omega

theorem toNat_addressOf (field : Field) (hp : p.bus < 256 ∧ p.slot < 32 ∧ p.func < 8) :
    (addressOf p.device field).toNat =
      2 ^ 31 + p.bus * 2 ^ 16 + p.slot * 2 ^ 11 + p.func * 2 ^ 8 + (field.offset &&& 0xFC).toNat :=
  toNat_addressAt hp

end Box

-- A bridge that is present on one of the buses 0-255.
structure Config.IsBridge (config : Config) (p : Position) : Prop where
  bus     : p.bus < 256
  slot    : p.slot < 32
  func    : p.func < 8
  present : config.Present p
  type    : config.type p = Bridge

-- The bridges on some of the buses 0-255 have been programmed such that these buses form a forest.
section Forest

variable {nodes : Set Nat} (bound : ∀ b ∈ nodes, b < 256)
  (ascending : ∀ p, config.IsBridge p → p.bus < (config.secondaryBus p).toNat)

include ascending

theorem lt_of_leads_ascending (hb : b < 256) (h : config.Leads b b') : b < b' := by
  have ⟨p, hp, hs, hf, hpr, ht, h⟩ := leads_iff.mp h
  have := ascending p ⟨hp ▸ hb, hs, hf, hpr, ht⟩
  omega

theorem acyclic_of_ascending (hb : b < 256) : ¬TransGen config.Leads b b := by
  have key {c : Nat} (h : TransGen config.Leads b c) : b < c ∧ c < 256 := by
    induction h
    case single h    => exact ⟨lt_of_leads_ascending ascending hb h, lt_of_leads h⟩
    case tail _ h ih => exact ⟨ih.left.trans (lt_of_leads_ascending ascending ih.right h), lt_of_leads h⟩
  exact fun h => (key h).left.false

include bound

theorem forest_of_ascending (closed : ∀ {b c}, b ∈ nodes → config.Leads b c → c ∈ nodes)
    (distinct : ∀ p q, p.bus ∈ nodes → q.bus ∈ nodes → config.IsBridge p → config.IsBridge q →
      config.secondaryBus p = config.secondaryBus q → p = q) :
    Forest config.functions config.secondary nodes where
  closed  := closed
  nodup   := fun _ _ => nodup_functions
  owner   := by
    intro p b b' _ _ hp hp'
    exact (mem_functions_iff.mp hp).left.symm.trans (mem_functions_iff.mp hp').left
  parent  := by
    intro p q b b' c hb hb' hp hq hc hc'
    have ⟨hbus, hs, hf, hpr⟩ := mem_functions_iff.mp hp
    have ⟨hbus', hs', hf', hpr'⟩ := mem_functions_iff.mp hq
    have ⟨ht, hc⟩ := Option.ite_none_right_eq_some.mp hc
    have ⟨ht', hc'⟩ := Option.ite_none_right_eq_some.mp hc'
    subst hbus hbus'
    refine distinct p q hb hb' ⟨bound _ hb, hs, hf, hpr, ht⟩ ⟨bound _ hb', hs', hf', hpr', ht'⟩ ?_
    exact BitVec.eq_of_toNat_eq <| Option.some.inj (hc.trans hc'.symm)
  acyclic := fun b hb => acyclic_of_ascending ascending (bound b hb)

end Forest

-- There is a single host controller, and the bridges have been programmed such that the buses form a tree.
structure BridgeTree (config : Config) : Prop where
  single    : config.headerType ⟨0, 0, 0⟩ &&& 0x80 = 0
  ascending : ∀ p, config.IsBridge p → p.bus < (config.secondaryBus p).toNat
  distinct  : ∀ p q, config.IsBridge p → config.IsBridge q → config.secondaryBus p = config.secondaryBus q → p = q

namespace BridgeTree

variable (tree : BridgeTree config)
include tree

theorem starts_eq : config.starts = [0] := by
  rw [Config.starts, if_pos tree.single]

theorem forest : Forest config.functions config.secondary { b | b < 256 } :=
  forest_of_ascending (fun _ => id) tree.ascending (fun _ h => PCI.lt_of_leads h) fun p q _ _ => tree.distinct p q

end BridgeTree

-- The callback is called exactly once for each function that can be found.
theorem enumerates_once (hq : config.Quiet f) (tree : BridgeTree config) :
    (∃ fuel, ((scan fuel f (-1)).run config.read).isSome) ∧
    ∀ fuel hits, (scan fuel f (-1)).run config.read = some (hits, ()) →
      (hits.map Hit.device).Nodup ∧
      ∀ h, h ∈ hits ↔ ∃ p : Position, ReflTransGen config.Leads 0 p.bus ∧ p.slot < 32 ∧ p.func < 8 ∧
        config.Present p ∧ config.hit p = h := by
  have hlt {b : Nat} (h : ReflTransGen config.Leads 0 b) : b < 256 := tree.forest.reachable (by simp) h
  constructor
  case left =>
    refine (scan_terminates_iff hq).mpr fun b hb => ?_
    cases List.mem_singleton.mp (tree.starts_eq ▸ hb)
    exact (acc_iff_acyclic finite_reachable).mpr fun b' h => acyclic_of_ascending tree.ascending (hlt h)
  case right =>
    intro fuel hits h
    have hrun : (scan fuel f (-1)).run config.read = _ := scans_scan hq
    rw [hrun, tree.starts_eq, visitAll_singleton] at h
    obtain ⟨ps, ht, h⟩ := Option.map_eq_some_iff.mp h
    have hh : hits = ps.map config.hit := by simpa [Config.hits] using (Prod.mk.inj h).left.symm
    have hm {p : Position} : p ∈ ps ↔ ReflTransGen config.Leads 0 p.bus ∧ p.slot < 32 ∧ p.func < 8 ∧
        config.Present p := by
      simp only [mem_traverse_iff ht, mem_functions_iff]
      constructor
      case mp =>
        rintro ⟨b, hr, hb, hp⟩
        exact ⟨hb ▸ hr, hp⟩
      case mpr =>
        rintro ⟨hr, hp⟩
        exact ⟨p.bus, hr, rfl, hp⟩
    subst hh
    constructor
    case left =>
      rw [List.map_map]
      refine List.Nodup.map_on (fun p hp q hq he => ?_) (tree.forest.nodup_traverse (by simp) ht)
      obtain ⟨hr, hs, hf, _⟩ := hm.mp hp
      obtain ⟨hr', hs', hf', _⟩ := hm.mp hq
      exact device_inj ⟨hlt hr, hs, hf⟩ ⟨hlt hr', hs', hf'⟩ he
    case right =>
      intro h
      simp only [List.mem_map, hm, and_assoc]

section Example

-- Behind a host bridge there are two bridges, one behind the other, and a device with two functions.
def nested : Config
  | 0x80000000 => 0x12378086
  | 0x80000008 => 0x06000000
  | 0x8000000C => 0x00000000
  | 0x80000800 => 0x244E8086
  | 0x80000808 => 0x06040000
  | 0x8000080C => 0x00010000
  | 0x80000818 => 0x00000100
  | 0x80010000 => 0x244E8086
  | 0x80010008 => 0x06040000
  | 0x8001000C => 0x00010000
  | 0x80010018 => 0x00000200
  | 0x80020000 => 0x29228086
  | 0x80020008 => 0x01060000
  | 0x8002000C => 0x00800000
  | 0x80020100 => 0x29308086
  | 0x80020108 => 0x0C050000
  | _          => 0xFFFFFFFF

theorem isBridge_nested (h : nested.IsBridge p) : p = ⟨0, 1, 0⟩ ∨ p = ⟨1, 0, 0⟩ := by
  obtain ⟨bus, slot, func⟩ := p
  obtain ⟨hb, hs, hf, -, ht⟩ := h
  have ha := toNat_addressOf .Class (p := ⟨bus, slot, func⟩) ⟨hb, hs, hf⟩
  have ho : (Field.Class.offset &&& 0xFC).toNat = 8 := rfl
  rw [ho] at ha
  -- The class and the subclass are found in the same 32 bits.
  have hsubclass : addressOf (box bus slot func) .Subclass = addressOf (box bus slot func) .Class := rfl
  have h24 : 8 * (Field.Class.offset &&& 0b11).toNat = 24 := rfl
  have h16 : 8 * (Field.Subclass.offset &&& 0b11).toNat = 16 := rfl
  simp only [Config.type, Config.read, Config.input, Position.device, hsubclass, h24, h16] at ht
  simp only [Position.mk.injEq, Position.device] at *
  generalize addressOf (box bus slot func) .Class = a at ha ht
  unfold nested at ht
  split at ht
  case h_5 =>
    have hv : (0x80000808#32).toNat = 2 ^ 31 + 2 ^ 11 + 8 := rfl
    rw [hv] at ha
    omega
  case h_9 =>
    have hv : (0x80010008#32).toNat = 2 ^ 31 + 2 ^ 16 + 8 := rfl
    rw [hv] at ha
    omega
  all_goals exact absurd ht (by decide)

theorem bridgeTree_nested : BridgeTree nested where
  single    := by decide
  ascending := by
    intro p hp
    obtain rfl | rfl := isBridge_nested hp <;> decide
  distinct  := by
    intro p q hp hq h
    obtain rfl | rfl := isBridge_nested hp <;> obtain rfl | rfl := isBridge_nested hq
    case inl.inl => rfl
    case inr.inr => rfl
    all_goals exact absurd h (by decide)

-- The last function is found, although it is only reached through two bridges.
theorem enumerates_once_nested : ∃ fuel hits,
    (scan fuel displayCallback (-1)).run nested.read = some (hits, ()) ∧ (hits.map Hit.device).Nodup ∧
    ⟨box 2 0 1, 0x8086, 0x2930⟩ ∈ hits := by
  obtain ⟨⟨fuel, hs⟩, h⟩ := enumerates_once quiet_displayCallback bridgeTree_nested
  obtain ⟨⟨hits, _⟩, hs⟩ := Option.isSome_iff_exists.mp hs
  obtain ⟨hn, hm⟩ := h fuel hits hs
  have h₁ : nested.Leads 0 1 := leads_iff.mpr ⟨⟨0, 1, 0⟩, by decide⟩
  have h₂ : nested.Leads 1 2 := leads_iff.mpr ⟨⟨1, 0, 0⟩, by decide⟩
  exact ⟨fuel, hits, hs, hn, (hm _).mpr ⟨⟨2, 0, 1⟩, .tail (.single h₁) h₂, by decide⟩⟩

-- The enumeration with the callback of the kernel terminates there.
theorem terminates_iff_acyclic_nested : ∃ fuel, ((scan fuel displayCallback 0x106).run nested.read).isSome := by
  refine (terminates_iff_acyclic nested 0x106 quiet_displayCallback).mpr fun b hb b' hr => ?_
  rw [bridgeTree_nested.starts_eq, List.mem_singleton] at hb
  exact acyclic_of_ascending bridgeTree_nested.ascending (bridgeTree_nested.forest.reachable (by simp [hb]) hr)

end Example

end PCI
