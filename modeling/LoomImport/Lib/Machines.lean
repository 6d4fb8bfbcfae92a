import Mathlib.Data.List.Basic

/-!
# Machines with inputs and outputs

A machine takes an input in each cycle, gives an output and moves. One machine simulates another when every step of the other from
related states is a step of its own that gives the same output, and leads to related states; then all traces are its own.
-/

namespace Machines

/-- A machine over inputs and outputs. -/
structure Machine (ι ο : Type) where
  State : Type
  Init : State → Prop
  Step : State → ι → ο → State → Prop

namespace Machine

variable {ι ι' ο : Type}

/-- Some cycles, from a state to a state. -/
inductive Run (M : Machine ι ο) : M.State → List ι → List ο → M.State → Prop where
  | nil (s : M.State) : Run M s [] [] s
  | cons {s s' s'' : M.State} {i : ι} {o : ο} {is : List ι} {os : List ο} : M.Step s i o s' → Run M s' is os s'' →
    Run M s (i :: is) (o :: os) s''

/-- The inputs and the outputs of a run from a first state. -/
def Trace (M : Machine ι ο) (is : List ι) (os : List ο) : Prop := ∃ s s', M.Init s ∧ M.Run s is os s'

/-- A machine with one first state, whose outputs and moves are computed. -/
def ofFun {σ : Type} (first : σ) (observe : ι → σ → ο) (next : ι → σ → σ) : Machine ι ο where
  State := σ
  Init s := s = first
  Step s i o s' := o = observe i s ∧ s' = next i s

/-! ## Simulation -/

/-- The second machine does what the first one does, on inputs that are seen through a function. -/
structure Simulates (A : Machine ι ο) (B : Machine ι' ο) (view : ι → ι') (R : A.State → B.State → Prop) : Prop where
  init : ∀ a, A.Init a → ∃ b, B.Init b ∧ R a b
  step : ∀ a b i o a', R a b → A.Step a i o a' → ∃ b', B.Step b (view i) o b' ∧ R a' b'

namespace Simulates

variable {A : Machine ι ο} {B : Machine ι' ο} {view : ι → ι'} {R : A.State → B.State → Prop}

/-- A run is matched by a run. -/
theorem run (h : Simulates A B view R) {a a' : A.State} {is : List ι} {os : List ο} (hrun : A.Run a is os a') :
    ∀ b, R a b → ∃ b', B.Run b (is.map view) os b' ∧ R a' b' := by
  induction hrun with
  | nil a => exact fun b hb => ⟨b, Run.nil b, hb⟩
  | cons hstep _ ih =>
    intro b hb
    obtain ⟨b₁, hb₁, hr₁⟩ := h.step _ b _ _ _ hb hstep
    obtain ⟨b₂, hb₂, hr₂⟩ := ih b₁ hr₁
    exact ⟨b₂, Run.cons hb₁ hb₂, hr₂⟩

/-- A trace is a trace of the machine that simulates. -/
theorem trace (h : Simulates A B view R) {is : List ι} {os : List ο} (htrace : A.Trace is os) : B.Trace (is.map view) os := by
  obtain ⟨a, a', ha, hrun⟩ := htrace
  obtain ⟨b, hb, hr⟩ := h.init a ha
  obtain ⟨b', hb', -⟩ := h.run hrun b hr
  exact ⟨b, b', hb, hb'⟩

end Simulates

end Machine

end Machines
