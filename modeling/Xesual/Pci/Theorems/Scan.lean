import Xesual.Pci.Devices

namespace PCI

open Traversal

variable {config : Config} {f : Callback} {type : Int} {bus slot func : Nat} {dev : BitVec 32}

-- The program terminates if and only if the traversal does, and then calls the callback for what has been
-- visited.
def Scans (config : Config) (type : Int) (p : Code Unit) (t : Option (List Position)) : Prop :=
  p.run config.read = t.map fun ps => (config.hits type ps, ())

theorem hits_nil : config.hits type [] = [] := rfl

theorem hits_append {ps qs : List Position} :
    config.hits type (ps ++ qs) = config.hits type ps ++ config.hits type qs := by
  simp [Config.hits]

-- The callback may read from the configuration space, but it returns and does not start another enumeration.
def Config.Quiet (config : Config) (f : Callback) : Prop :=
  ∀ h, (f h).run config.read = some ([], ())

theorem quiet_ignore : config.Quiet ignore :=
  fun _ => rfl

-- What the parts of the enumeration do in a configuration space that does not change.
section Run

variable {p : Position}

theorem run_readField {size : Size} {field : Field} :
    (readField size dev field).run config.read = some ([], config.read ⟨size, dev, field⟩) := rfl

theorem run_findType : (findType p.device).run config.read = some ([], config.type p) := rfl

theorem run_scanHit (hq : config.Quiet f) : (scanHit f p.device).run config.read = some ([config.hit p], ()) := by
  have h : (scanHit f p.device).run config.read = (Program.emit (config.hit p) (f (config.hit p))).run config.read := rfl
  rw [h, Program.run_emit, hq, Option.map_some]

theorem run_hasType : (hasType type p.device).run config.read =
    some ([], decide (type = -1 ∨ type = (config.type p).toNat)) := by
  unfold hasType
  split
  case isTrue h  => simp [h]
  case isFalse h => simp [run_findType, h]

end Run

theorem scans_scanFunc {scanBus : Nat → Code Unit} {t : Nat → Option (List Position)} (hq : config.Quiet f)
    (h : ∀ b, Scans config type (scanBus b) (t b)) :
    Scans config type (scanFunc scanBus f type bus slot func)
      (visit config.secondary t ⟨bus, slot, func⟩) := by
  have hp : box bus slot func = Position.device ⟨bus, slot, func⟩ := rfl
  unfold Scans scanFunc
  simp only [Program.run_bind, hp, run_hasType, Option.bind_some]
  generalize Position.mk bus slot func = p
  -- What is done for a bridge, after the callback.
  have hb : (findType p.device >>= fun t => if t = Bridge then
      readField .one p.device .SecondaryBus >>= fun secondary => scanBus secondary.toNat
      else pure ()).run config.read =
      match config.secondary p with
      | none   => some ([], ())
      | some b => (t b).map fun ps => (config.hits type ps, ()) := by
    simp only [Program.run_bind, run_findType, Option.bind_some, Config.secondary]
    split
    case isTrue hb  =>
      simp [run_readField, show (scanBus _).run _ = _ from h _, Config.secondaryBus, Function.comp_def]
    case isFalse hb => simp
  unfold visit
  by_cases ht : type = -1 ∨ type = (config.type p).toNat
  case pos =>
    simp only [ht, decide_true, ↓reduceIte, Program.run_bind (p := scanHit _ _), run_scanHit hq, hb]
    cases config.secondary p <;> simp [Config.hits, ht, Function.comp_def]
  case neg =>
    simp only [ht, decide_false, Bool.false_eq_true, ↓reduceIte, hb]
    cases config.secondary p <;> simp [Config.hits, ht, Function.comp_def]

namespace Scans

variable {X : Type} {l : List X} {g : X → Code Unit} {p q : Code Unit} {t u : Option (List Position)}

theorem nil : Scans config type (pure ()) (some []) := by
  simp [Scans, hits_nil]

theorem seq (h : Scans config type p t) (h' : Scans config type q u) :
    Scans config type (p >>= fun _ => q) (t.bind fun ps => u.map (ps ++ ·)) := by
  unfold Scans at *
  rw [Program.run_bind, h, h']
  cases t <;> cases u <;> simp [hits_append]

theorem read {size : Size} {field : Field} {k : BitVec 32 → Code Unit}
    (h : Scans config type (k (config.read ⟨size, dev, field⟩)) t) :
    Scans config type (readField size dev field >>= k) t := h

theorem forM {v : X → Option (List Position)} (h : ∀ x ∈ l, Scans config type (g x) (v x)) :
    Scans config type (l.forM g) (visitAll v l) := by
  induction l
  case nil         => exact nil
  case cons x l ih => exact (h x (by simp)).seq (ih fun y hy => h y (by simp [hy]))

end Scans

-- The functions 1-7 of a slot that are present.
theorem filter_present {funcs : List Nat} (h : ∀ func ∈ funcs, func ≠ 0) :
    (funcs.map (Position.mk bus slot)).filter (config.Present ·) =
    if config.vendorID ⟨bus, slot, 0⟩ = PCINull ∨ config.headerType ⟨bus, slot, 0⟩ = 0 then []
    else funcs.flatMap fun func =>
      if config.vendorID ⟨bus, slot, func⟩ ≠ PCINull then [⟨bus, slot, func⟩] else [] := by
  induction funcs
  case nil => simp
  case cons func funcs ih =>
    simp only [List.mem_cons, forall_eq_or_imp] at h
    rw [List.map_cons, List.filter_cons, ih h.right]
    by_cases hv : config.vendorID ⟨bus, slot, 0⟩ = PCINull <;>
      by_cases hh : config.headerType ⟨bus, slot, 0⟩ = 0 <;>
        by_cases hf : config.vendorID ⟨bus, slot, func⟩ = PCINull <;> simp_all [Config.Present]

-- The functions of a slot, in the order in which they are visited.
theorem slotFunctions_eq : config.slotFunctions bus slot =
    if config.vendorID ⟨bus, slot, 0⟩ = PCINull then []
    else if config.headerType ⟨bus, slot, 0⟩ = 0 then [⟨bus, slot, 0⟩]
    else ⟨bus, slot, 0⟩ :: (List.range' 1 7).flatMap fun func =>
      if config.vendorID ⟨bus, slot, func⟩ ≠ PCINull then [⟨bus, slot, func⟩] else [] := by
  have hr : List.range 8 = 0 :: List.range' 1 7 := rfl
  rw [Config.slotFunctions, hr, List.map_cons, List.filter_cons, filter_present (by decide)]
  by_cases hv : config.vendorID ⟨bus, slot, 0⟩ = PCINull
  case pos => simp [Config.Present, hv]
  case neg => by_cases hh : config.headerType ⟨bus, slot, 0⟩ = 0#32 <;> simp [Config.Present, hv, hh]

theorem scans_scanSlot {scanBus : Nat → Code Unit} {t : Nat → Option (List Position)} (hq : config.Quiet f)
    (h : ∀ b, Scans config type (scanBus b) (t b)) :
    Scans config type (scanSlot scanBus f type bus slot)
      (visitAll (visit config.secondary t) (config.slotFunctions bus slot)) := by
  rw [slotFunctions_eq]
  refine Scans.read ?_
  by_cases hv : config.vendorID ⟨bus, slot, 0⟩ = PCINull
  case pos =>
    rw [if_pos hv, if_pos (show config.read ⟨.two, box bus slot 0, .VendorID⟩ = _ from hv)]
    exact .nil
  case neg =>
    rw [if_neg hv, if_neg (show config.read ⟨.two, box bus slot 0, .VendorID⟩ ≠ _ from hv)]
    by_cases hh : config.headerType ⟨bus, slot, 0⟩ = 0
    case pos =>
      rw [if_pos hh]
      refine (scans_scanFunc hq h).seq (Scans.read ?_)
      rw [if_pos (show config.read ⟨.one, box bus slot 0, .HeaderType⟩ = _ from hh)]
      exact .nil
    case neg =>
      rw [if_neg hh]
      refine (scans_scanFunc hq h).seq (Scans.read ?_)
      rw [if_neg (show config.read ⟨.one, box bus slot 0, .HeaderType⟩ ≠ _ from hh)]
      rw [visitAll_flatMap]
      refine Scans.forM fun func _ => Scans.read ?_
      by_cases hf : config.vendorID ⟨bus, slot, func⟩ ≠ PCINull
      case pos =>
        rw [if_pos hf, if_pos (show config.read ⟨.two, box bus slot func, .VendorID⟩ ≠ _ from hf),
          visitAll_singleton]
        exact scans_scanFunc hq h
      case neg =>
        rw [if_neg hf, if_neg (show ¬config.read ⟨.two, box bus slot func, .VendorID⟩ ≠ _ from hf)]
        exact .nil

theorem scans_scanBus {fuel : Nat} (hq : config.Quiet f) : Scans config type (scanBus f type fuel bus)
    (traverse config.functions config.secondary fuel bus) := by
  induction fuel generalizing bus
  case zero => rfl
  case succ fuel ih =>
    rw [Traversal.traverse, Config.functions, visitAll_flatMap]
    exact Scans.forM fun slot _ => scans_scanSlot hq fun b => ih

theorem run_scanHosts {fuel : Nat} {funcs : List Nat} {hit : Bool} (hq : config.Quiet f) :
    (scanHosts fuel f type funcs hit).run config.read =
    (visitAll (traverse config.functions config.secondary fuel)
      (funcs.takeWhile fun func => config.vendorID ⟨0, 0, func⟩ ≠ PCINull)).map fun ps =>
        (config.hits type ps,
          hit || !(funcs.takeWhile fun func => config.vendorID ⟨0, 0, func⟩ ≠ PCINull).isEmpty) := by
  induction funcs generalizing hit
  case nil => simp [scanHosts, visitAll, hits_nil]
  case cons func funcs ih =>
    rw [scanHosts, Program.run_bind, run_readField, Option.bind_some]
    by_cases hf : config.vendorID ⟨0, 0, func⟩ = PCINull
    case pos =>
      have hf' : config.read ⟨.two, box 0 0 func, .VendorID⟩ = PCINull := hf
      simp [hf, hf', visitAll, hits_nil]
    case neg =>
      have hf' : config.read ⟨.two, box 0 0 func, .VendorID⟩ ≠ PCINull := hf
      simp only [hf', ne_eq, not_false_eq_true, ↓reduceIte, Program.run_bind, ih,
        show (scanBus _ _ _ _).run _ = _ from scans_scanBus hq]
      simp only [hf, not_false_eq_true, decide_true, List.takeWhile_cons_of_pos, visitAll]
      cases traverse config.functions config.secondary fuel func
      case none   => rfl
      case some ps => simp [Function.comp_def, hits_append]

-- If there is nothing at 0:0 then the bridges on the buses are only followed from the second level on.
def Config.depth (config : Config) (fuel : Nat) : Nat :=
  if config.headerType ⟨0, 0, 0⟩ &&& 0x80 = 0 then fuel
  else if config.hosts = [] then fuel + 1
  else fuel

theorem scans_scan {fuel : Nat} (hq : config.Quiet f) : Scans config type (scan fuel f type)
    (visitAll (traverse config.functions config.secondary (config.depth fuel)) config.starts) := by
  refine Scans.read ?_
  by_cases hh : config.headerType ⟨0, 0, 0⟩ &&& 0x80 = 0
  case pos =>
    rw [if_pos (show config.read ⟨.one, 0, .HeaderType⟩ &&& 0x80 = 0 from hh), Config.starts, if_pos hh,
      Config.depth, if_pos hh]
    exact (scans_scanBus hq).seq .nil
  case neg =>
    rw [if_neg (show ¬config.read ⟨.one, 0, .HeaderType⟩ &&& 0x80 = 0 from hh), Config.starts, if_neg hh,
      Config.depth, if_neg hh]
    unfold Scans
    rw [Program.run_bind, run_scanHosts hq, ← Config.hosts]
    by_cases hs : config.hosts = []
    case pos =>
      have hall : Scans config type ((List.range 256).forM fun bus => scanBus f type (fuel + 1) bus)
          (visitAll (traverse config.functions config.secondary (fuel + 1)) (List.range 256)) :=
        Scans.forM fun bus _ => scans_scanBus hq
      simp only [Scans, scanBus] at hall
      simpa [hs, visitAll, hits_nil] using hall
    case neg =>
      have he : config.hosts.isEmpty = false := by simpa using hs
      simp only [hs, ↓reduceIte, he]
      cases visitAll (traverse config.functions config.secondary fuel) config.hosts
      case none    => rfl
      case some ps => simp

end PCI
