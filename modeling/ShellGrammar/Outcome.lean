/-! How a run can end other than well.

A run stops with a `fault` when the text it reads is at fault, and with a
`breach` when whoever drives it broke a promise: stepped back from the first
token, left a rule set that was never entered, and so on. The two are kept apart
because no text can cause the second kind.

Runs are computations of core's `EStateM`: they carry a state that survives a
stop, which is what lets `ensuring` put things back on every way out. -/
namespace ShellGrammar

/-- Promises of a caller that can be broken. -/
inductive Breach where
  /-- Stepping back with nothing consumed. -/
  | backAtStart
  /-- Reading with the cursor beyond the buffer, further than one token can fill. -/
  | cursorPastBuffer
  /-- Cutting the source inside a character or past its end. -/
  | badCut
  /-- Noting a span that stops before it starts. -/
  | spanBackwards
  /-- Leaving a rule set when none was entered. -/
  | noRulesToLeave
  /-- Leaving a nesting level when none was entered. -/
  | noLevelToLeave
  /-- A loop that ran longer than its bound. -/
  | outOfSteps
deriving DecidableEq

/-- Why a run stopped. -/
inductive Halt (ε : Type) where
  | fault (e : ε)
  | breach (b : Breach)
deriving DecidableEq

namespace Halt

/-- The same stop with its fault put in other terms. -/
def map {ε δ : Type} (f : ε → δ) : Halt ε → Halt δ
  | fault e => .fault (f e)
  | breach b => .breach b

end Halt

variable {ε δ σ τ α : Type}

/-- Stops with a breach. -/
def breached (b : Breach) : EStateM (Halt ε) σ α :=
  throw (.breach b)

/-- Runs `act`, and `leave` after it whether `act` succeeded or stopped. A stop
of `leave` replaces the outcome of `act`. -/
def ensuring (act : EStateM ε σ α) (leave : EStateM ε σ Unit) : EStateM ε σ α := fun s =>
  match act s with
  | .ok a s =>
    match leave s with
    | .ok _ s => .ok a s
    | .error e s => .error e s
  | .error e s =>
    match leave s with
    | .ok _ s => .error e s
    | .error e s => .error e s

/-- Runs `step` until it yields nothing and gathers what it yields, at most
`bound` times. -/
def gather (step : EStateM (Halt ε) σ (Option α)) :
    (bound : Nat) → EStateM (Halt ε) σ (List α)
  | 0 => breached .outOfSteps
  | bound + 1 => do
    match ← step with
    | none => return []
    | some a => return a :: (← gather step bound)

/-! ### Outcomes of a run -/

section Results
variable {ε σ α β : Type} {m : EStateM ε σ α} {f : α → EStateM ε σ β} {s s' : σ}

theorem bind_of_ok {a : α} (h : m s = .ok a s') : (m >>= f) s = f a s' := by
  simp only [bind, EStateM.bind, h]

theorem bind_of_error {e : ε} (h : m s = .error e s') : (m >>= f) s = .error e s' := by
  simp only [bind, EStateM.bind, h]

theorem bind_of_eq {m' : EStateM ε σ α} (h : m s = m' s') : (m >>= f) s = (m' >>= f) s' := by
  simp only [bind, EStateM.bind, h]

/-- What ends well did so step by step. -/
theorem ok_of_bind {b : β} {s'' : σ} (h : (m >>= f) s = .ok b s'') :
    ∃ a s', m s = .ok a s' ∧ f a s' = .ok b s'' := by
  cases hm : m s with
  | ok a s' =>
    rw [bind_of_ok hm] at h
    exact ⟨a, s', rfl, h⟩
  | error e s' =>
    rw [bind_of_error hm] at h
    cases h

/-- Naming a value does not fail, so what fails did so before. -/
theorem error_of_map {g : α → β} {e : ε} {s'' : σ}
    (h : (m >>= fun a => pure (g a)) s = .error e s'') : m s = .error e s'' := by
  cases hm : m s with
  | ok a s' =>
    rw [bind_of_ok hm] at h
    cases h
  | error e' s' =>
    rw [bind_of_error hm] at h
    cases h
    rfl

/-- What yields a value ended well. -/
theorem ok_of_run {a : α} (h : m.run' s = some a) : ∃ s', m s = .ok a s' := by
  unfold EStateM.run' EStateM.run at h
  cases hm : m s with
  | ok a' s' =>
    rw [hm] at h
    exact ⟨s', by rw [Option.some.inj h]⟩
  | error e s' =>
    rw [hm] at h
    cases h

variable {leave : EStateM ε σ Unit} {s'' : σ}

theorem ensuring_of_ok {a : α} (h : m s = .ok a s') (hl : leave s' = .ok () s'') :
    ensuring m leave s = .ok a s'' := by
  simp only [ensuring, h, hl]

theorem ensuring_of_error {e : ε} (h : m s = .error e s') (hl : leave s' = .ok () s'') :
    ensuring m leave s = .error e s'' := by
  simp only [ensuring, h, hl]

end Results

end ShellGrammar
