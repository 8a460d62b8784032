import Xesual.Pci.Concurrent
import Xesual.Pci.Theorems.Scan

-- The argument `type` of `scan` has an effect on the calls of the callback only.

namespace PCI

open Traversal

variable {config : Config} {f : Callback} {type : Int} {fuel : Nat} {p : Position} {ps : List Position}

-- The callback has been called for a device of the given type, according to `findType`.
def Config.ofType (config : Config) (type : Int) (hit : Hit) : Bool :=
  (findType hit.device).run config.read |>.any fun (_, t) => type = t.toNat

theorem ofType_hit : config.ofType type (config.hit p) = decide (type = (config.type p).toNat) := by
  have h : (findType (config.hit p).device).run config.read = some ([], config.type p) := run_findType
  rw [Config.ofType, h, Option.any_some]

-- All calls of the callback, if there is no restriction.
theorem hits_any : config.hits (-1) ps = ps.map config.hit := by
  simp [Config.hits]

theorem hits_eq_filter (h : type ≠ -1) : config.hits type ps = (config.hits (-1) ps).filter (config.ofType type) := by
  rw [hits_any, List.filter_map, Config.hits]
  congr 1
  refine List.filter_congr fun p _ => ?_
  simp only [h, false_or, Function.comp_apply, ofType_hit]

-- The calls of the callback are the ones of an enumeration without restriction, less those for devices of another
-- type. Both enumerations terminate at the same depth, or not at all.
theorem scan_eq_filter (hq : config.Quiet f) (h : type ≠ -1) : (scan fuel f type).run config.read =
    ((scan fuel f (-1)).run config.read).map fun (hits, u) => (hits.filter (config.ofType type), u) := by
  have ht : (scan fuel f type).run config.read = _ := scans_scan hq
  have ha : (scan fuel f (-1)).run config.read = _ := scans_scan hq
  rw [ht, ha, Option.map_map]
  congr 1
  funext ps
  rw [Function.comp_apply, hits_eq_filter h]

-- The callback that is used by the kernel.
theorem quiet_displayCallback : config.Quiet displayCallback := by
  intro hit
  unfold displayCallback
  split <;> rfl

-- A bridge at 0:0.0, and a SATA controller behind it.
def bridged : Config
  | 0x80000000 => 0x12348086
  | 0x80000008 => 0x06040000
  | 0x8000000C => 0x00010000
  | 0x80000018 => 0x00000100
  | 0x80010000 => 0x29228086
  | 0x80010008 => 0x01060000
  | 0x8001000C => 0x00000000
  | _          => 0xFFFFFFFF

-- The bridge is not reported, but the controller behind it is.
theorem scan_eq_filter_bridged :
    (scan 2 displayCallback (-1)).run bridged.read = some ([⟨0, 0x8086, 0x1234⟩, ⟨0x10000, 0x8086, 0x2922⟩], ()) ∧
    (scan 2 displayCallback 0x106).run bridged.read = some ([⟨0x10000, 0x8086, 0x2922⟩], ()) := by
  have h : (scan 2 displayCallback (-1)).run bridged.read =
      some ([⟨0, 0x8086, 0x1234⟩, ⟨0x10000, 0x8086, 0x2922⟩], ()) := by decide +kernel
  refine ⟨h, ?_⟩
  rw [scan_eq_filter quiet_displayCallback (by decide), h]
  decide

end PCI
