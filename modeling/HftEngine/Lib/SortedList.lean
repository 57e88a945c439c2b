import Mathlib.Order.Lattice
import Mathlib.Data.List.InsertIdx

/-!
# Lists sorted by a key

A flat sorted array keyed by `key : E → K` over a linear order, searched by
`lowerBound`: the first position whose key is not below the argument, the
contract of the C++ `std::lower_bound` on a sorted range.

Every operation of such an array starts with one search, so everything
about it follows from one fact: the search cuts an ascending list in two.
`Cut` names the two ways it can do so — the key is there (`found`), or it is
not (`absent`) — and `cut` says that one of them holds.  The `_lowerBound`
equations then read the element accesses at the found position off a cut.
-/

namespace HftEngine.Lib.SortedList

variable {E K : Type*} [LinearOrder K] (key : E → K)

/-- The keys ascend strictly. -/
def Ascending (xs : List E) : Prop := xs.Pairwise fun x y => key x < key y

/-- The first position whose key is not below `k`; the length if there is
none. -/
def lowerBound (xs : List E) (k : K) : Nat := xs.findIdx fun x => !decide (key x < k)

/-- The two ways in which `lowerBound xs k` cuts an ascending list. -/
inductive Cut (xs : List E) (k : K) : Prop
  | found (lo : List E) (x : E) (hi : List E) :
      xs = lo ++ x :: hi → lowerBound key xs k = lo.length →
      (∀ y ∈ lo, key y < k) → key x = k → (∀ y ∈ hi, k < key y) → Cut xs k
  | absent (lo hi : List E) :
      xs = lo ++ hi → lowerBound key xs k = lo.length →
      (∀ y ∈ lo, key y < k) → (∀ y ∈ hi, k < key y) → Cut xs k

variable {key}

theorem lowerBound_append {lo hi : List E} {k : K} (hlo : ∀ y ∈ lo, key y < k)
    (hhi : ∀ y ∈ hi.head?, k ≤ key y) :
    lowerBound key (lo ++ hi) k = lo.length := by
  unfold lowerBound
  induction lo with
  | nil =>
    cases hi with
    | nil => rfl
    | cons y ys =>
      have hy : k ≤ key y := hhi y rfl
      simp [List.findIdx_cons, not_lt.mpr hy]
  | cons x xs ih =>
    have hx : key x < k := hlo x List.mem_cons_self
    have hxs := ih (fun y hy => hlo y (List.mem_cons_of_mem _ hy))
    simp [List.findIdx_cons, hx, hxs]

theorem lowerBound_nil_append {hi : List E} {k : K} (hhi : ∀ y ∈ hi.head?, k ≤ key y) :
    lowerBound key hi k = 0 := by
  have h := lowerBound_append (List.forall_mem_nil fun y => key y < k) hhi
  exact h

/-- Searching an ascending list cuts it at the key. -/
theorem cut {xs : List E} (h : Ascending key xs) (k : K) : Cut key xs k := by
  induction xs with
  | nil => exact .absent [] [] rfl rfl (by simp) (by simp)
  | cons x xs ih =>
    obtain ⟨hx, hxs⟩ := List.pairwise_cons.mp h
    rcases lt_trichotomy (key x) k with hlt | heq | hgt
    · -- `x` is below the key: the cut of the tail, with `x` put in front
      have hlow : ∀ lo : List E, (∀ y ∈ lo, key y < k) → ∀ y ∈ x :: lo, key y < k := by
        intro lo hlo y hy
        rcases List.mem_cons.mp hy with rfl | hy
        · exact hlt
        · exact hlo y hy
      have hidx : lowerBound key (x :: xs) k = lowerBound key xs k + 1 := by
        simp [lowerBound, List.findIdx_cons, hlt]
      cases ih hxs with
      | found lo y hi hcut hlb hlo hy hhi =>
        exact .found (x :: lo) y hi (by rw [hcut]; rfl) (by rw [hidx, hlb]; rfl)
          (hlow lo hlo) hy hhi
      | absent lo hi hcut hlb hlo hhi =>
        exact .absent (x :: lo) hi (by rw [hcut]; rfl) (by rw [hidx, hlb]; rfl)
          (hlow lo hlo) hhi
    · refine .found [] x xs rfl ?_ (by simp) heq (fun y hy => heq ▸ hx y hy)
      exact lowerBound_nil_append (by simp [heq])
    · refine .absent [] (x :: xs) rfl ?_ (by simp) ?_
      · exact lowerBound_nil_append (by simp [hgt.le])
      · intro y hy
        rcases List.mem_cons.mp hy with rfl | hy
        · exact hgt
        · exact hgt.trans (hx y hy)

/-! ## Element accesses at the cut -/

theorem getElem?_cut (lo : List E) (x : E) (hi : List E) :
    (lo ++ x :: hi)[lo.length]? = some x := by
  simp

theorem getElem?_cut_absent (lo : List E) {hi : List E} {k : K} (hhi : ∀ y ∈ hi, k < key y) :
    ∀ y ∈ (lo ++ hi)[lo.length]?, key y ≠ k := by
  intro y hy
  rw [List.getElem?_append_right (Nat.le_refl _), Nat.sub_self] at hy
  exact (hhi y (List.mem_of_getElem? hy)).ne'

theorem set_cut (lo : List E) (x x' : E) (hi : List E) :
    (lo ++ x :: hi).set lo.length x' = lo ++ x' :: hi := by
  simp [List.set_append_right]

theorem eraseIdx_cut (lo : List E) (x : E) (hi : List E) :
    (lo ++ x :: hi).eraseIdx lo.length = lo ++ hi := by
  simp [List.eraseIdx_append_of_length_le]

theorem insertIdx_cut (lo hi : List E) (x : E) :
    (lo ++ hi).insertIdx lo.length x = lo ++ x :: hi := by
  induction lo with
  | nil => simp
  | cons y ys ih => simp [ih]

/-! ## Ascending lists, rebuilt at a cut -/

theorem ascending_replace (lo : List E) {hi : List E} {x x' : E}
    (h : Ascending key (lo ++ x :: hi)) (hkey : key x' = key x) : Ascending key (lo ++ x' :: hi) := by
  unfold Ascending at h ⊢
  rw [List.pairwise_append, List.pairwise_cons] at h ⊢
  obtain ⟨hlo, ⟨hx, hhi⟩, hcross⟩ := h
  refine ⟨hlo, ⟨fun y hy => hkey ▸ hx y hy, hhi⟩, ?_⟩
  intro y hy z hz
  rcases List.mem_cons.mp hz with rfl | hz
  · exact hkey ▸ hcross y hy x List.mem_cons_self
  · exact hcross y hy z (List.mem_cons_of_mem _ hz)

theorem ascending_insert {lo hi : List E} {x : E} (h : Ascending key (lo ++ hi))
    (hlo : ∀ y ∈ lo, key y < key x) (hhi : ∀ y ∈ hi, key x < key y) :
    Ascending key (lo ++ x :: hi) := by
  unfold Ascending at h ⊢
  rw [List.pairwise_append] at h ⊢
  refine ⟨h.1, List.pairwise_cons.mpr ⟨hhi, h.2.1⟩, ?_⟩
  intro y hy z hz
  rcases List.mem_cons.mp hz with rfl | hz
  · exact hlo y hy
  · exact h.2.2 y hy z hz

theorem ascending_erase {lo hi : List E} {x : E} (h : Ascending key (lo ++ x :: hi)) :
    Ascending key (lo ++ hi) :=
  List.Pairwise.sublist (List.Sublist.append_left (List.sublist_cons_self x hi) lo) h

/-- An ascending list is determined by its elements. -/
theorem ascending_ext {xs ys : List E} (hxs : Ascending key xs) (hys : Ascending key ys)
    (h : ∀ x, x ∈ xs ↔ x ∈ ys) : xs = ys := by
  have hnodup : ∀ {zs : List E}, Ascending key zs → zs.Nodup := by
    intro zs hzs
    refine List.Pairwise.imp ?_ hzs
    intro x y hlt heq
    rw [heq] at hlt
    exact lt_irrefl _ hlt
  have hperm : xs.Perm ys := (List.perm_ext_iff_of_nodup (hnodup hxs) (hnodup hys)).mpr h
  refine hperm.eq_of_pairwise ?_ hxs hys
  intro x y _ _ hxy hyx
  exact absurd hyx hxy.not_gt

end HftEngine.Lib.SortedList
