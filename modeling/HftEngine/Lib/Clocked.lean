import Mathlib.Data.List.Basic

/-!
# Clocked machines with a gated input

A machine is clocked once a cycle.  In a cycle with the valid line up it takes
the byte on the bus; in any other it is idle, whatever the bus carries.  A
`Delivery` is a byte taken and the idle cycles behind it, so a list of
deliveries is a schedule for a string of bytes.

Many machines settle: the first idle cycle may still change the state, further
ones do not.  How many idle cycles follow a byte is then of no importance, as
long as there is one wherever the machine has something to settle
(`deliver_spaced`).
-/

namespace HftEngine.Lib

variable {σ β : Type*}

/-- A byte, and what the bus carries in the idle cycles behind it. -/
structure Delivery (β : Type*) where
  byte : β
  idles : List β

/-- The cycles of a delivery: the valid line and the bus. -/
def Delivery.cycles (d : Delivery β) : List (Bool × β) :=
  (true, d.byte) :: d.idles.map fun x => (false, x)

/-- Cycles one after the other. -/
def clocks (clock : σ → Bool → β → σ) (s : σ) (cycles : List (Bool × β)) : σ :=
  cycles.foldl (fun s c => clock s c.1 c.2) s

/-- Deliveries one after the other. -/
def deliver (clock : σ → Bool → β → σ) (s : σ) (ds : List (Delivery β)) : σ :=
  clocks clock s (ds.flatMap Delivery.cycles)

/-- Bytes taken one after the other, the machine settled after each. -/
def absorb (clock : σ → Bool → β → σ) (settle : σ → σ) (s : σ) (bytes : List β) : σ :=
  bytes.foldl (fun s b => settle (clock s true b)) s

/-- An idle cycle settles the machine, and a settled machine stays as it is. -/
structure Settles (clock : σ → Bool → β → σ) (settle : σ → σ) : Prop where
  idle : ∀ s x, clock s false x = settle s
  idem : ∀ s, settle (settle s) = settle s

/-- Every byte that leaves something to settle has an idle cycle behind it. -/
def Spaced (clock : σ → Bool → β → σ) (settle : σ → σ) : σ → List (Delivery β) → Prop
  | _, [] => True
  | s, d :: ds =>
    (d.idles = [] → settle (clock s true d.byte) = clock s true d.byte) ∧
      Spaced clock settle (settle (clock s true d.byte)) ds

variable {clock : σ → Bool → β → σ} {settle : σ → σ}

theorem clocks_append (s : σ) (cs cs' : List (Bool × β)) :
    clocks clock s (cs ++ cs') = clocks clock (clocks clock s cs) cs' := List.foldl_append

theorem absorb_append (s : σ) (bs bs' : List β) :
    absorb clock settle s (bs ++ bs') = absorb clock settle (absorb clock settle s bs) bs' :=
  List.foldl_append

theorem deliver_cons (s : σ) (d : Delivery β) (ds : List (Delivery β)) :
    deliver clock s (d :: ds) =
      deliver clock (clocks clock (clock s true d.byte) (d.idles.map fun x => (false, x))) ds := by
  rw [deliver, List.flatMap_cons, clocks_append]
  rfl

/-- What one cycle keeps, a run keeps. -/
theorem clocks_invariant (inv : σ → Prop) (hstep : ∀ s v x, inv s → inv (clock s v x)) {s : σ}
    (hs : inv s) (cycles : List (Bool × β)) : inv (clocks clock s cycles) := by
  induction cycles generalizing s with
  | nil => exact hs
  | cons c cycles ih => exact ih (hstep s c.1 c.2 hs)

theorem Settles.idles (h : Settles clock settle) (s : σ) {xs : List β} (hxs : xs ≠ []) :
    clocks clock s (xs.map fun x => (false, x)) = settle s := by
  cases xs with
  | nil => exact absurd rfl hxs
  | cons x xs =>
    clear hxs
    show clocks clock (clock s false x) _ = settle s
    rw [h.idle]
    induction xs with
    | nil => rfl
    | cons y ys ih =>
      show clocks clock (clock (settle s) false y) _ = settle s
      rw [h.idle, h.idem]
      exact ih

/-- A schedule that gives the machine time where it needs it has the effect of
its bytes. -/
theorem deliver_spaced (h : Settles clock settle) {s : σ} {ds : List (Delivery β)}
    (hds : Spaced clock settle s ds) :
    deliver clock s ds = absorb clock settle s (ds.map (·.byte)) := by
  induction ds generalizing s with
  | nil => rfl
  | cons d ds ih =>
    obtain ⟨hd, hrest⟩ := hds
    have hsettled : clocks clock (clock s true d.byte) (d.idles.map fun x => (false, x)) =
        settle (clock s true d.byte) := by
      by_cases hidles : d.idles = []
      · rw [hd hidles, hidles]
        rfl
      · exact h.idles _ hidles
    rw [deliver_cons, hsettled, ih hrest]
    rfl

theorem spaced_of_idles {s : σ} {ds : List (Delivery β)} (h : ∀ d ∈ ds, d.idles ≠ []) :
    Spaced clock settle s ds := by
  induction ds generalizing s with
  | nil => trivial
  | cons d ds ih =>
    refine ⟨fun hnil => absurd hnil (h d List.mem_cons_self), ?_⟩
    exact ih fun x hx => h x (List.mem_cons_of_mem _ hx)

end HftEngine.Lib
