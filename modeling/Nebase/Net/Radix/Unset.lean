/- When an unset is safe, and what it removes. -/

import Nebase.Net.Radix.Effects

set_option autoImplicit false
set_option relaxedAutoImplicit false

namespace Nebase.Net.Radix

open Nebase.Foundation

variable {H : Type} {ops : RnOps H} {bigEndian : Bool} {f : Family} {routes : H → Routes}
variable {rt : NebNetRadixTree H} {v : Sockaddr}

/-- `rt'` is `rt` without the one entry stored for the network and the prefix of `v`. -/
def RemovedOnly (bigEndian : Bool) (f : Family) (routes : H → Routes) (v : Sockaddr)
    (rt rt' : NebNetRadixTree H) : Prop :=
  ∃ e rte rnh, rt.entries e = some rte ∧ sinAddr f rte.network = sinAddr f v ∧
    sinPort bigEndian rte.network = sinPort bigEndian v ∧
    routes rnh = (routes rt.rnh).set (sinAddr f v) (prefixMask f (sinPort bigEndian v)) none ∧
    rt' = nebNetRadixEntryDel e { rt with rnh := rnh }

/-- The unset writes inside the mask, gives the caller's address back as it was, and removes at most
the entry of the network, none for a prefix that a set refuses. -/
def UnsetSafe (ops : RnOps H) (bigEndian : Bool) (f : Family) (routes : H → Routes) (calloc : Bool)
    (v : Sockaddr) (rt : NebNetRadixTree H) : Prop :=
  ∃ rt', nebNetRadixTreeUnset ops bigEndian calloc v rt = some (v, rt') ∧
    (rt' = rt ∨ RemovedOnly bigEndian f routes v rt rt') ∧
    (8 * f.addrSize ≤ sinPort bigEndian v → rt' = rt)

/-- The route that an unset finds is that of an entry with its network and its prefix. -/
private theorem Linked.entry_of_route (linked : Linked bigEndian f routes rt) {e : EntryAddr}
    (fits : sinPort bigEndian v ≤ 8 * (f.sockaddrSize - f.addrOffset))
    (route : routes rt.rnh (sinAddr f v) (prefixMask f (sinPort bigEndian v)) = some e) :
    sinPort bigEndian v < 8 * f.addrSize ∧ ∃ rte, rt.entries e = some rte ∧
      sinAddr f rte.network = sinAddr f v ∧ sinPort bigEndian rte.network = sinPort bigEndian v := by
  obtain ⟨network, below, hmask, haddr, hnet⟩ := linked.entry _ _ e route
  have hport := prefix_mask_unique below fits hmask.symm
  obtain ⟨rte, hrte, rfl⟩ := Option.map_eq_some_iff.mp hnet
  exact ⟨hport ▸ below, rte, hrte, haddr, hport⟩

/-- In every tree that sets and unsets have made, an unset is safe exactly when the mask for its
port ends inside the socket address. -/
theorem nebNetRadixTreeUnset_safe_iff {H : Type} (ops : RnOps H) (f : Family) (onDel : Bool)
    (routes : H → Routes) (laws : RnKeyLaws ops f.addrOffset routes) (bigEndian : Bool)
    (calls : List Call) (rt : NebNetRadixTree H)
    (reached : Machine.run (step ops bigEndian) (nebNetRadixTreeCreate ops f onDel) calls = some rt)
    (whole : ∀ c ∈ calls, c.Whole bigEndian f) (v : Sockaddr) (size : v.length = f.sockaddrSize)
    (family : saFamily bigEndian v = some f) (calloc : Bool) :
    UnsetSafe ops bigEndian f routes calloc v rt ↔
      calloc = false ∨ sinPort bigEndian v ≤ 8 * (f.sockaddrSize - f.addrOffset) := by
  have create : Linked bigEndian f routes (nebNetRadixTreeCreate ops f onDel) :=
    Linked.create laws onDel
  have linked := create.ofRun laws whole reached
  have effect := unset_effect laws linked.family family size calloc
  unfold UnsetSafe
  generalize nebNetRadixTreeUnset ops bigEndian calloc v rt = res at effect ⊢
  cases effect with
  | overrun alloc beyond =>
    refine iff_of_false ?_ ?_
    · rintro ⟨rt', hres, -⟩
      cases hres
    · rintro (hfail | fits)
      · rw [alloc] at hfail
        cases hfail
      · omega
  | kept fits => exact iff_of_true ⟨rt, rfl, .inl rfl, fun _ => rfl⟩ fits
  | removed x rnh fits route routes' =>
    obtain ⟨below, rte, hrte, haddr, hport⟩ := linked.entry_of_route fits route
    refine iff_of_true ⟨_, rfl, .inr ⟨x, rte, rnh, hrte, haddr, hport, routes', rfl⟩, ?_⟩
      (.inr fits)
    intro hbeyond
    omega

/-- 10.0.0.0/8 is set, and its unset is safe. -/
theorem nebNetRadixTreeUnset_safe_iff_net : ∃ rt,
    Machine.run (step (listOps 4) false) (nebNetRadixTreeCreate (listOps 4) .inet true)
      [.set ⟨some 1, true, true⟩ [2, 0, 8, 0, 10, 0, 0, 0, 0, 0, 0, 0, 0, 0, 0, 0] 7] = some rt ∧
    UnsetSafe (listOps 4) false .inet listRoutes true
      [2, 0, 8, 0, 10, 0, 0, 0, 0, 0, 0, 0, 0, 0, 0, 0] rt :=
  ⟨_, rfl, (nebNetRadixTreeUnset_safe_iff (listOps 4) .inet true listRoutes (list_laws 4).keys false
    [.set ⟨some 1, true, true⟩ [2, 0, 8, 0, 10, 0, 0, 0, 0, 0, 0, 0, 0, 0, 0, 0] 7] _ rfl
    (fun c hc => by
      obtain rfl := List.mem_singleton.mp hc
      exact fun _ => rfl)
    [2, 0, 8, 0, 10, 0, 0, 0, 0, 0, 0, 0, 0, 0, 0, 0] rfl rfl true).mpr (.inr (by decide))⟩

/-- A port of 200 has the mask written past the end of the socket address. -/
theorem nebNetRadixTreeUnset_overrun :
    nebNetRadixTreeUnset (listOps 4) false true [2, 0, 200, 0, 10, 0, 0, 0, 0, 0, 0, 0, 0, 0, 0, 0]
        (nebNetRadixTreeCreate (listOps 4) .inet true) = none ∧
      ¬ UnsetSafe (listOps 4) false .inet listRoutes true
        [2, 0, 200, 0, 10, 0, 0, 0, 0, 0, 0, 0, 0, 0, 0, 0]
        (nebNetRadixTreeCreate (listOps 4) .inet true) := by
  refine ⟨rfl, ?_⟩
  rintro ⟨rt', hres, -⟩
  cases hres

end Nebase.Net.Radix
