import HftEngine.Lib.SortedList
import Mathlib.Data.Finmap
import Mathlib.Data.Finset.Max

/-!
# A sorted list as a finite map

A list of elements with a `key` and a `val` stands for a finite map, the first
element of a key being the one that counts.  On a list that ascends strictly,
changing it at a cut is changing the map at the key, and the ends of the list
are the least and the greatest key.

* `lookup_toMap` — the map as a search through the list;
* `toMap_insert`, `toMap_replace`, `toMap_erase` — the list changed at a cut;
* `max_keys`, `min_keys`, `card_keys` — the ends and the length.
-/

namespace HftEngine.Lib.SortedList

variable {E K V : Type*} [LinearOrder K] {key : E → K} {val : E → V}

/-- The finite map a list stands for. -/
def toMap (key : E → K) (val : E → V) (xs : List E) : Finmap fun _ : K => V :=
  (xs.map fun x => (⟨key x, val x⟩ : Sigma fun _ : K => V)).toFinmap

theorem toMap_cons (x : E) (xs : List E) :
    toMap key val (x :: xs) = (toMap key val xs).insert (key x) (val x) :=
  Finmap.toFinmap_cons ..

theorem lookup_toMap (k : K) (xs : List E) :
    (toMap key val xs).lookup k = (xs.find? fun x => key x = k).map val := by
  induction xs with
  | nil => rfl
  | cons x xs ih =>
    rw [toMap_cons]
    by_cases hk : k = key x
    · subst hk
      rw [Finmap.lookup_insert, List.find?_cons_of_pos (by simp)]
      rfl
    · rw [Finmap.lookup_insert_of_ne _ hk, ih, List.find?_cons_of_neg (by simpa using Ne.symm hk)]

theorem mem_keys_toMap {k : K} {xs : List E} :
    k ∈ (toMap key val xs).keys ↔ ∃ x ∈ xs, key x = k := by
  rw [Finmap.mem_keys, ← Finmap.lookup_isSome, lookup_toMap, Option.isSome_map,
    List.find?_isSome]
  simp

theorem lookup_absent {k : K} {xs : List E} (h : ∀ x ∈ xs, key x ≠ k) :
    (toMap key val xs).lookup k = none := by
  rw [lookup_toMap, List.find?_eq_none.mpr fun x hx => by simpa using h x hx]
  rfl

/-! ## Changes at a cut -/

theorem toMap_insert {lo : List E} {x : E} (hi : List E) (hlo : ∀ y ∈ lo, key y ≠ key x) :
    toMap key val (lo ++ x :: hi) = (toMap key val (lo ++ hi)).insert (key x) (val x) := by
  refine Finmap.ext_lookup fun k => ?_
  by_cases hk : k = key x
  · subst hk
    have hnone : (lo.find? fun y => key y = key x) = none :=
      List.find?_eq_none.mpr fun y hy => by simpa using hlo y hy
    rw [Finmap.lookup_insert, lookup_toMap, List.find?_append, hnone, Option.none_or,
      List.find?_cons_of_pos (by simp)]
    rfl
  · rw [Finmap.lookup_insert_of_ne _ hk, lookup_toMap, lookup_toMap, List.find?_append,
      List.find?_append, List.find?_cons_of_neg (by simpa using Ne.symm hk)]

theorem lookup_cut {lo : List E} {x : E} (hi : List E) (hlo : ∀ y ∈ lo, key y ≠ key x) :
    (toMap key val (lo ++ x :: hi)).lookup (key x) = some (val x) := by
  rw [toMap_insert hi hlo, Finmap.lookup_insert]

theorem toMap_replace {lo : List E} {x x' : E} (hi : List E) (hlo : ∀ y ∈ lo, key y ≠ key x)
    (hx : key x' = key x) :
    toMap key val (lo ++ x' :: hi) = (toMap key val (lo ++ x :: hi)).insert (key x) (val x') := by
  rw [toMap_insert hi hlo, Finmap.insert_insert, ← hx]
  exact toMap_insert hi fun y hy => by rw [hx]; exact hlo y hy

theorem toMap_erase {lo hi : List E} {x : E} (hlo : ∀ y ∈ lo, key y ≠ key x)
    (hhi : ∀ y ∈ hi, key y ≠ key x) :
    toMap key val (lo ++ hi) = (toMap key val (lo ++ x :: hi)).erase (key x) := by
  refine Finmap.ext_lookup fun k => ?_
  rw [toMap_insert hi hlo]
  by_cases hk : k = key x
  · subst hk
    rw [Finmap.lookup_erase]
    refine lookup_absent fun y hy => ?_
    rcases List.mem_append.mp hy with hy | hy
    · exact hlo y hy
    · exact hhi y hy
  · rw [Finmap.lookup_erase_ne hk, Finmap.lookup_insert_of_ne _ hk]

/-! ## Ends and length -/

theorem max_keys {xs : List E} {x : E} (h : Ascending key (xs ++ [x])) :
    (toMap key val (xs ++ [x])).keys.max = (key x : WithBot K) := by
  refine le_antisymm (Finset.max_le ?_) (Finset.le_max (mem_keys_toMap.mpr ⟨x, by simp, rfl⟩))
  intro k hk
  obtain ⟨y, hy, rfl⟩ := mem_keys_toMap.mp hk
  rcases List.mem_append.mp hy with hy | hy
  · exact WithBot.coe_le_coe.mpr ((List.pairwise_append.mp h).2.2 y hy x (by simp)).le
  · rw [List.mem_singleton.mp hy]

theorem min_keys {xs : List E} {x : E} (h : Ascending key (x :: xs)) :
    (toMap key val (x :: xs)).keys.min = (key x : WithTop K) := by
  refine le_antisymm (Finset.min_le (mem_keys_toMap.mpr ⟨x, by simp, rfl⟩)) (Finset.le_min ?_)
  intro k hk
  obtain ⟨y, hy, rfl⟩ := mem_keys_toMap.mp hk
  rcases List.mem_cons.mp hy with rfl | hy
  · exact le_rfl
  · exact WithTop.coe_le_coe.mpr ((List.pairwise_cons.mp h).1 y hy).le

theorem card_keys {xs : List E} (h : Ascending key xs) :
    (toMap key val xs).keys.card = xs.length := by
  have hnodup : (xs.map key).Nodup := by
    refine List.pairwise_map.mpr (h.imp ?_)
    exact fun hlt => hlt.ne
  have hkeys : (toMap key val xs).keys = (xs.map key).toFinset := by
    ext k
    rw [mem_keys_toMap, List.mem_toFinset, List.mem_map]
  rw [hkeys, List.toFinset_card_of_nodup hnodup, List.length_map]

end HftEngine.Lib.SortedList
