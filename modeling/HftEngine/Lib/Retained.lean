import Mathlib.Data.List.Basic
import Mathlib.Data.List.Nodup

/-!
# What a direct-mapped table still knows

A table of handles has one entry for each value of `index`, the place where an
id belongs, and one record for each slot.  Writing an id with its slot
overwrites what was in that entry and what was in that slot.  Looking an id up
finds its slot as long as neither has been overwritten.

`Retained index id slot log` says so of the log of all writes, newest first.

* `retained_iff` — the write is in the log, and no later one met its entry or
  its slot;
* `retained_split`, `Retained.unique` — when no id is written twice, its one
  write decides.
-/

namespace HftEngine.Lib

variable {κ ι σ : Type*} {index : κ → ι} {id : κ} {slot slot' : σ} {log later earlier : List (κ × σ)}

def Retained (index : κ → ι) (id : κ) (slot : σ) : List (κ × σ) → Prop
  | [] => False
  | a :: log =>
    a = (id, slot) ∨ (index a.1 ≠ index id ∧ a.2 ≠ slot ∧ Retained index id slot log)

instance decidableRetained [DecidableEq κ] [DecidableEq ι] [DecidableEq σ] :
    (log : List (κ × σ)) → Decidable (Retained index id slot log)
  | [] => isFalse fun h => h
  | a :: log =>
    have := decidableRetained log
    inferInstanceAs (Decidable
      (a = (id, slot) ∨ (index a.1 ≠ index id ∧ a.2 ≠ slot ∧ Retained index id slot log)))

theorem retained_iff :
    Retained index id slot log ↔ ∃ later earlier, log = later ++ (id, slot) :: earlier ∧
      ∀ a ∈ later, index a.1 ≠ index id ∧ a.2 ≠ slot := by
  induction log with
  | nil => simp [Retained]
  | cons a log ih =>
    constructor
    · rintro (rfl | ⟨hindex, hslot, hlog⟩)
      · exact ⟨[], log, rfl, nofun⟩
      · obtain ⟨later, earlier, rfl, hlater⟩ := ih.mp hlog
        refine ⟨a :: later, earlier, rfl, ?_⟩
        intro a' ha'
        rcases List.mem_cons.mp ha' with rfl | ha'
        · exact ⟨hindex, hslot⟩
        · exact hlater a' ha'
    · rintro ⟨later, earlier, hlog, hlater⟩
      cases later with
      | nil =>
        injection hlog with ha _
        exact .inl ha
      | cons a' later =>
        injection hlog with ha hlog
        subst ha
        obtain ⟨hindex, hslot⟩ := hlater _ List.mem_cons_self
        refine .inr ⟨hindex, hslot, ih.mpr ⟨later, earlier, hlog, ?_⟩⟩
        exact fun a' ha' => hlater a' (List.mem_cons_of_mem _ ha')

theorem Retained.mem (h : Retained index id slot log) : (id, slot) ∈ log := by
  obtain ⟨later, earlier, rfl, _⟩ := retained_iff.mp h
  exact List.mem_append_right _ List.mem_cons_self

/-- Whether a lookup finds anything. -/
instance [DecidableEq κ] [DecidableEq ι] [DecidableEq σ] :
    Decidable (∃ slot, Retained index id slot log) :=
  decidable_of_iff (∃ a ∈ log, a.1 = id ∧ Retained index id a.2 log)
    ⟨fun ⟨a, _, _, h⟩ => ⟨a.2, h⟩, fun ⟨slot, h⟩ => ⟨(id, slot), h.mem, rfl, h⟩⟩

/-- An id that is written once is retained with the slot it was written with. -/
theorem Retained.unique (hids : (log.map Prod.fst).Nodup) (h : Retained index id slot log)
    (h' : (id, slot') ∈ log) : slot' = slot := by
  have heq := List.inj_on_of_nodup_map hids h' h.mem rfl
  exact congrArg Prod.snd heq

theorem Retained.not_overwritten (hids : ((later ++ (id, slot) :: earlier).map Prod.fst).Nodup)
    (h : Retained index id slot (later ++ (id, slot) :: earlier)) :
    ∀ a ∈ later, index a.1 ≠ index id ∧ a.2 ≠ slot := by
  induction later with
  | nil => exact nofun
  | cons a later ih =>
    obtain ⟨hfresh, hids⟩ := List.nodup_cons.mp hids
    rcases h with rfl | ⟨hindex, hslot, hlog⟩
    · -- the id would be there twice
      refine absurd (List.mem_map.mpr ⟨(id, slot), ?_, rfl⟩) hfresh
      exact List.mem_append_right _ List.mem_cons_self
    · intro a' ha'
      rcases List.mem_cons.mp ha' with rfl | ha'
      · exact ⟨hindex, hslot⟩
      · exact ih hids hlog a' ha'

theorem retained_split (hids : ((later ++ (id, slot) :: earlier).map Prod.fst).Nodup) :
    (∃ slot', Retained index id slot' (later ++ (id, slot) :: earlier)) ↔
      ∀ a ∈ later, index a.1 ≠ index id ∧ a.2 ≠ slot := by
  constructor
  · rintro ⟨slot', h⟩
    have hslot : slot = slot' := h.unique hids (List.mem_append_right _ List.mem_cons_self)
    subst hslot
    exact h.not_overwritten hids
  · intro hlater
    exact ⟨slot, retained_iff.mpr ⟨later, earlier, rfl, hlater⟩⟩

end HftEngine.Lib
