import Mathlib.Data.List.TakeWhile

/-!
# Fields between separators

`fields sep xs` cuts `xs` at each separator; a separator at the very end
closes the last field and opens no new one.  A list is read field by field
from the front:

* `fields_cons` — up to the first separator, then the rest;
* `fields_last` — a last field that is not closed;
* `fields_of_ne_nil` — the two cases in one;
* `fields_terminated_append` — fields that are closed one by one come back as
  they were, before those of what follows;
* `prefix_terminated` — a list of closed fields that is cut short ends inside
  one of them, unless it is cut right behind a separator.
-/

namespace HftEngine.Lib

variable {α : Type*} [DecidableEq α]

/-- The fields of `xs`; a final separator adds no empty field. -/
def fields (sep : α) (xs : List α) : List (List α) :=
  let parts := xs.splitOn sep
  if parts.getLast? = some [] then parts.dropLast else parts

/-- Each field followed by a separator. -/
def terminated (sep : α) (fs : List (List α)) : List α := fs.flatMap fun f => f ++ [sep]

variable {sep : α}

omit [DecidableEq α] in
theorem terminated_cons (f : List α) (fs : List (List α)) :
    terminated sep (f :: fs) = f ++ sep :: terminated sep fs := by
  simp [terminated]

theorem fields_nil : fields sep [] = [] := by simp [fields]

theorem fields_last {field : List α} (hne : field ≠ []) (hsep : sep ∉ field) :
    fields sep field = [field] := by
  have hparts : field.splitOn sep = [field] := by
    apply List.splitOnP_eq_singleton
    intro x hx
    rw [beq_eq_false_iff_ne]
    rintro rfl
    exact hsep hx
  simp only [fields, hparts, List.getLast?_singleton]
  rw [if_neg (by simpa using hne)]

theorem fields_cons {field : List α} (hsep : sep ∉ field) (rest : List α) :
    fields sep (field ++ sep :: rest) = field :: fields sep rest := by
  have hparts : (field ++ sep :: rest).splitOn sep = field :: rest.splitOn sep := by
    apply List.splitOnP_append_cons_of_forall_mem
    · intro x hx
      rw [beq_eq_false_iff_ne]
      rintro rfl
      exact hsep hx
    · exact beq_self_eq_true sep
  obtain ⟨part, parts, hrest⟩ := List.exists_cons_of_ne_nil
    (List.splitOnP_ne_nil (fun x => x == sep) rest)
  have hrest : rest.splitOn sep = part :: parts := hrest
  simp only [fields, hparts, hrest, List.getLast?_cons_cons, List.dropLast_cons_cons]
  split <;> rfl

/-- What a search for the separator stops at is the separator. -/
theorem eq_of_dropWhile {xs rest : List α} {x : α}
    (h : (xs.dropWhile fun x => x ≠ sep) = x :: rest) : x = sep := by
  have hhead := List.head?_dropWhile_not (fun x => x ≠ sep) xs
  rw [h] at hhead
  simpa using hhead

/-- The first field ends at the first separator, or at the end. -/
theorem fields_of_ne_nil {xs : List α} (hne : xs ≠ []) :
    fields sep xs = xs.takeWhile (fun x => x ≠ sep) ::
      fields sep (xs.dropWhile fun x => x ≠ sep).tail := by
  have hsplit : xs.takeWhile (fun x => x ≠ sep) ++ xs.dropWhile (fun x => x ≠ sep) = xs :=
    List.takeWhile_append_dropWhile
  have hsep : sep ∉ xs.takeWhile fun x => x ≠ sep := by
    intro hmem
    have hkeep := List.mem_takeWhile_imp hmem
    simp at hkeep
  cases hrest : xs.dropWhile fun x => x ≠ sep with
  | nil =>
    rw [hrest, List.append_nil] at hsplit
    rw [hsplit] at hsep ⊢
    rw [fields_last hne hsep, List.tail_nil, fields_nil]
  | cons x rest =>
    rw [hrest, eq_of_dropWhile hrest] at hsplit
    calc fields sep xs = fields sep (xs.takeWhile (fun x => x ≠ sep) ++ sep :: rest) := by
          rw [hsplit]
      _ = _ := fields_cons hsep rest

/-- Closed fields, and whatever follows them. -/
theorem fields_terminated_append {fs : List (List α)} (hsep : ∀ f ∈ fs, sep ∉ f) (rest : List α) :
    fields sep (terminated sep fs ++ rest) = fs ++ fields sep rest := by
  induction fs with
  | nil => rfl
  | cons f fs ih =>
    rw [terminated_cons, List.append_assoc, List.cons_append,
      fields_cons (hsep f List.mem_cons_self),
      ih fun f' hf' => hsep f' (List.mem_cons_of_mem _ hf'), List.cons_append]

theorem fields_terminated {fs : List (List α)} (hsep : ∀ f ∈ fs, sep ∉ f) :
    fields sep (terminated sep fs) = fs := by
  have h := fields_terminated_append hsep []
  rwa [List.append_nil, fields_nil, List.append_nil] at h

omit [DecidableEq α] in
/-- Every list is some closed fields and a last one that is not closed. -/
theorem exists_terminated_append (sep : α) (xs : List α) :
    ∃ fs last, (∀ f ∈ fs, sep ∉ f) ∧ sep ∉ last ∧ xs = terminated sep fs ++ last := by
  induction xs with
  | nil => exact ⟨[], [], by simp, by simp, rfl⟩
  | cons x xs ih =>
    obtain ⟨fs, last, hfs, hlast, rfl⟩ := ih
    by_cases hx : x = sep
    · refine ⟨[] :: fs, last, by simpa using hfs, hlast, ?_⟩
      rw [hx, terminated_cons]
      rfl
    · have hx : sep ≠ x := Ne.symm hx
      cases fs with
      | nil => exact ⟨[], x :: last, by simp, by simp [hx, hlast], rfl⟩
      | cons f fs =>
        refine ⟨(x :: f) :: fs, last, ?_, hlast, ?_⟩
        · simpa [hx] using hfs
        · simp only [terminated_cons, List.cons_append]

omit [DecidableEq α] in
/-- A list that ends with a separator is closed fields. -/
theorem exists_terminated {xs : List α} (h : xs = [] ∨ xs.getLast? = some sep) :
    ∃ fs, (∀ f ∈ fs, sep ∉ f) ∧ xs = terminated sep fs := by
  obtain ⟨fs, last, hfs, hlast, rfl⟩ := exists_terminated_append sep xs
  cases last with
  | nil => exact ⟨fs, hfs, List.append_nil _⟩
  | cons x last =>
    rcases h with h | h
    · simp at h
    · have hend : (x :: last).getLast? = some sep := by
        simpa [List.getLast?_append] using h
      exact absurd (List.mem_of_getLast? hend) hlast

omit [DecidableEq α] in
/-- A cut through closed fields, not behind a separator, is inside a field. -/
theorem prefix_terminated {fs : List (List α)} {p : List α} (h : p <+: terminated sep fs)
    (hne : p ≠ []) (hlast : p.getLast? ≠ some sep) :
    ∃ fs₁ f fs₂ q, fs = fs₁ ++ f :: fs₂ ∧ p = terminated sep fs₁ ++ q ∧ q <+: f ∧ q ≠ [] := by
  induction fs generalizing p with
  | nil => exact absurd (List.prefix_nil.mp h) hne
  | cons f fs ih =>
    rw [terminated_cons] at h
    rcases List.prefix_or_prefix_of_prefix h (List.prefix_append f _) with hin | ⟨more, rfl⟩
    · exact ⟨[], f, fs, p, rfl, rfl, hin, hne⟩
    · -- the field is whole; what follows is nothing, or a separator and a cut
      -- through the other fields
      rcases List.prefix_cons_iff.mp ((List.prefix_append_right_inj f).mp h) with rfl | ⟨p', rfl, hp'⟩
      · rw [List.append_nil] at hne ⊢
        exact ⟨[], f, fs, f, rfl, rfl, List.prefix_refl f, hne⟩
      · cases p' with
        | nil => simp at hlast
        | cons x p' =>
          have hlast' : (x :: p').getLast? ≠ some sep := by
            simpa [List.getLast?_append] using hlast
          obtain ⟨fs₁, f', fs₂, q, rfl, heq, hq, hqne⟩ := ih hp' (by simp) hlast'
          refine ⟨f :: fs₁, f', fs₂, q, rfl, ?_, hq, hqne⟩
          rw [heq, terminated_cons, List.append_assoc]
          rfl

end HftEngine.Lib
