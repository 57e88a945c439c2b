import Mathlib.Data.List.Basic

/-!
# Machines observed step by step

A machine is a function `step : σ → ι → Option (σ × Option ω)`: an action
leads from a state to at most one state, and may be observed.  Threads that
share memory are such a machine, an action being one atomic step of one of
them: the runs of the machine are the interleavings of the threads.

`Trace step start log s` says that some sequence of actions leads from
`start` to `s` and that `log` is what was observed on the way, oldest first.

* `Trace.invariant` — a relation between log and state that every step keeps;
* `Trace.observed` — the state in which an observation of the log was made;
* `trace_run`, `trace_of_log` — the trace of a given schedule, which `run`
  computes.
-/

namespace HftEngine.Lib

variable {σ ι ω : Type*} {step : σ → ι → Option (σ × Option ω)}

inductive Trace (step : σ → ι → Option (σ × Option ω)) (start : σ) : List ω → σ → Prop
  | nil : Trace step start [] start
  | step {log : List ω} {s s' : σ} {a : ι} {o : Option ω} :
      Trace step start log s → step s a = some (s', o) → Trace step start (log ++ o.toList) s'

/-- The invariant rule. -/
theorem Trace.invariant {start : σ} {inv : List ω → σ → Prop} (hstart : inv [] start)
    (hstep : ∀ log s a s' o, inv log s → step s a = some (s', o) → inv (log ++ o.toList) s')
    {log : List ω} {s : σ} (h : Trace step start log s) : inv log s := by
  induction h with
  | nil => exact hstart
  | step _ hs ih => exact hstep _ _ _ _ _ ih hs

theorem Trace.single {s s' : σ} {a : ι} {o : Option ω} (h : step s a = some (s', o)) :
    Trace step s o.toList s' :=
  .step .nil h

/-- A step that is not observed. -/
theorem Trace.silent {start s s' : σ} {log : List ω} {a : ι} (h : Trace step start log s)
    (hs : step s a = some (s', none)) : Trace step start log s' := by
  have hnext := Trace.step h hs
  rwa [Option.toList_none, List.append_nil] at hnext

theorem Trace.trans {start mid s : σ} {log log' : List ω} (h : Trace step start log mid)
    (h' : Trace step mid log' s) : Trace step start (log ++ log') s := by
  induction h' with
  | nil => rwa [List.append_nil]
  | step _ hs ih =>
    rw [← List.append_assoc]
    exact .step ih hs

/-- Where an observation of the log was made: a trace up to it, the step that
made it, and a trace of the rest. -/
theorem Trace.observed {start s : σ} {before after : List ω} {w : ω}
    (h : Trace step start (before ++ w :: after) s) :
    ∃ s₁ a s₂, Trace step start before s₁ ∧ step s₁ a = some (s₂, some w) ∧
      Trace step s₂ after s := by
  generalize hlog : before ++ w :: after = log at h
  induction h generalizing after with
  | nil => exact absurd hlog (by simp)
  | @step log s s' a o htrace hs ih =>
    cases o with
    | none =>
      rw [Option.toList_none, List.append_nil] at hlog
      obtain ⟨s₁, a₁, s₂, hbefore, hw, hafter⟩ := ih hlog
      refine ⟨s₁, a₁, s₂, hbefore, hw, ?_⟩
      have hlast := Trace.step hafter hs
      rwa [Option.toList_none, List.append_nil] at hlast
    | some w' =>
      -- the observation is the last one, or one of those before it
      rcases List.eq_nil_or_concat after with rfl | ⟨after, last, rfl⟩
      · obtain ⟨rfl, hw⟩ := List.append_inj' hlog rfl
        injection hw with hw _
        subst hw
        exact ⟨s, a, s', htrace, hs, .nil⟩
      · rw [List.concat_eq_append, ← List.cons_append, ← List.append_assoc] at hlog
        obtain ⟨hfront, hlast⟩ := List.append_inj' hlog rfl
        injection hlast with hlast _
        subst hlast
        obtain ⟨s₁, a₁, s₂, hbefore, hw, hafter⟩ := ih hfront
        refine ⟨s₁, a₁, s₂, hbefore, hw, ?_⟩
        rw [List.concat_eq_append]
        exact .step hafter hs

/-! ## Schedules -/

/-- The actions of a schedule, one after the other: the state they lead to and
what is observed; `none` if one of them is not possible. -/
def run (step : σ → ι → Option (σ × Option ω)) : List ι → σ → Option (σ × List ω)
  | [], s => some (s, [])
  | a :: acts, s => do
    let (s', o) ← step s a
    let (s'', log) ← run step acts s'
    some (s'', o.toList ++ log)

theorem run_cons {a : ι} {acts : List ι} {s s' s'' : σ} {o : Option ω} {log : List ω}
    (ha : step s a = some (s', o)) (hacts : run step acts s' = some (s'', log)) :
    run step (a :: acts) s = some (s'', o.toList ++ log) := by
  simp only [run, ha, hacts, Option.bind_eq_bind, Option.bind_some]

theorem run_append {acts acts' : List ι} {s s' s'' : σ} {log log' : List ω}
    (h : run step acts s = some (s', log)) (h' : run step acts' s' = some (s'', log')) :
    run step (acts ++ acts') s = some (s'', log ++ log') := by
  induction acts generalizing s log with
  | nil =>
    cases h
    exact h'
  | cons a acts ih =>
    simp only [run, Option.bind_eq_bind, Option.bind_eq_some_iff, Prod.exists] at h
    obtain ⟨s₁, o, ha, s₂, log₂, hacts, hend⟩ := h
    cases hend
    rw [List.append_assoc]
    exact run_cons ha (ih hacts)

theorem trace_run {acts : List ι} {s s' : σ} {log : List ω}
    (h : run step acts s = some (s', log)) : Trace step s log s' := by
  induction acts generalizing s log with
  | nil =>
    cases h
    exact .nil
  | cons a acts ih =>
    simp only [run, Option.bind_eq_bind, Option.bind_eq_some_iff, Prod.exists] at h
    obtain ⟨s₁, o, ha, s₂, log₂, hacts, hend⟩ := h
    cases hend
    exact Trace.trans (Trace.step .nil ha) (ih hacts)

/-- The trace of a schedule whose log has been computed. -/
theorem trace_of_log {acts : List ι} {s : σ} {log : List ω}
    (h : (run step acts s).map Prod.snd = some log) : ∃ s', Trace step s log s' := by
  obtain ⟨⟨s', log'⟩, hrun, rfl⟩ := Option.map_eq_some_iff.mp h
  exact ⟨s', trace_run hrun⟩

end HftEngine.Lib
