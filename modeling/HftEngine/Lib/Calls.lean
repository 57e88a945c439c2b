import Mathlib.Data.List.Basic

/-!
# Objects that are called

An object is a function `call : σ → ι → ω × σ`: in a state, a call returns an
answer and leaves a state.  Calls come one after the other, without overlap.

`replies_of_simulation` is the rule by which one object is shown to answer as
another one does: a relation between their states under which every call
returns the same, and which every call keeps.
-/

namespace HftEngine.Lib

variable {σ τ ι ω : Type*}

/-- What the calls of a sequence return. -/
def replies (call : σ → ι → ω × σ) : σ → List ι → List ω
  | _, [] => []
  | s, c :: cs => (call s c).1 :: replies call (call s c).2 cs

/-- The state that a sequence of calls leads to. -/
def after (call : σ → ι → ω × σ) : σ → List ι → σ
  | s, [] => s
  | s, c :: cs => after call (call s c).2 cs

theorem replies_of_simulation {call : σ → ι → ω × σ} {call' : τ → ι → ω × τ}
    {rel : σ → τ → Prop}
    (hcall : ∀ s t c, rel s t →
      (call s c).1 = (call' t c).1 ∧ rel (call s c).2 (call' t c).2)
    {s : σ} {t : τ} (h : rel s t) (cs : List ι) :
    replies call s cs = replies call' t cs ∧ rel (after call s cs) (after call' t cs) := by
  induction cs generalizing s t with
  | nil => exact ⟨rfl, h⟩
  | cons c cs ih =>
    obtain ⟨hanswer, hnext⟩ := hcall s t c h
    obtain ⟨hreplies, hafter⟩ := ih hnext
    refine ⟨?_, hafter⟩
    rw [replies, replies, hanswer, hreplies]

end HftEngine.Lib
