import Mathlib

/-!
# Programs over a state that may fail

`EStateM ε σ` is the shape of a method with exclusive access to a value of type
`σ`: a failing call returns an error together with the state it had reached.
This file collects the equations with which such a program is executed symbolically,
the rules for its postconditions, and the induction over whole runs of a transition
system.
-/

namespace SeqCache.Program

universe u

variable {σ ε α β : Type u}

/-- State left behind by a run, whether it succeeded or failed. -/
def finalState : EStateM.Result ε σ α → σ
  | .ok _ state => state
  | .error _ state => state

/-- Value or error of a run. -/
def outcome : EStateM.Result ε σ α → Except ε α
  | .ok value _ => .ok value
  | .error error _ => .error error

@[simp]
theorem finalState_ok (value : α) (state : σ) :
    finalState (.ok value state : EStateM.Result ε σ α) = state := rfl

@[simp]
theorem outcome_ok (value : α) (state : σ) :
    outcome (.ok value state : EStateM.Result ε σ α) = .ok value := rfl

/-- A run that returned a value ended in its final state. -/
theorem eq_ok_of_outcome {result : EStateM.Result ε σ α} {value : α}
    (h : outcome result = .ok value) : result = .ok value (finalState result) := by
  cases result with
  | ok found state =>
      cases h
      rfl
  | error error state => cases h

/-- A run that failed ended in its final state. -/
theorem eq_error_of_outcome {result : EStateM.Result ε σ α} {error : ε}
    (h : outcome result = .error error) : result = .error error (finalState result) := by
  cases result with
  | ok value state => cases h
  | error found state =>
      cases h
      rfl

/-! ## Guards and reads -/

section Guards

variable {m : Type u → Type u} [Monad m] [MonadExcept ε m]

/-- Continue when `condition` holds, fail with `error` otherwise. -/
def ensure (condition : Prop) [Decidable condition] (error : ε) : m PUnit :=
  if condition then pure ⟨⟩ else throw error

/-- The value of an option, or the failure `error`. -/
def okOr (value : Option α) (error : ε) : m α :=
  match value with
  | some value => pure value
  | none => throw error

theorem ensure_pos {condition : Prop} [Decidable condition] {error : ε}
    (h : condition) : (ensure condition error : m PUnit) = pure ⟨⟩ := if_pos h

theorem ensure_neg {condition : Prop} [Decidable condition] {error : ε}
    (h : ¬ condition) : (ensure condition error : m PUnit) = throw error := if_neg h

@[simp]
theorem okOr_some (value : α) (error : ε) :
    (okOr (some value) error : m α) = pure value := rfl

@[simp]
theorem okOr_none (error : ε) : (okOr none error : m α) = throw error := rfl

end Guards

/-- Run a computation that only reads the state. -/
def reads (observe : σ → Except ε α) : EStateM ε σ α := fun state =>
  match observe state with
  | .ok value => .ok value state
  | .error error => .error error state

/-- Run a program on a component of the state. -/
def zoom {τ : Type u} (view : σ → τ) (put : τ → σ → σ) (program : EStateM ε τ α) :
    EStateM ε σ α := fun state =>
  match program (view state) with
  | .ok value part => .ok value (put part state)
  | .error error part => .error error (put part state)

/-! ## Symbolic execution -/

section Execution

variable {program : EStateM ε σ α} {next : α → EStateM ε σ β}
variable {state state' : σ} {value : α} {error : ε}

theorem bind_ok (h : program state = .ok value state') :
    (program >>= next) state = next value state' := by
  simp only [bind, EStateM.bind, h]

theorem bind_error (h : program state = .error error state') :
    (program >>= next) state = .error error state' := by
  simp only [bind, EStateM.bind, h]

theorem map_ok (view : α → β) (h : program state = .ok value state') :
    (view <$> program) state = .ok (view value) state' := by
  simp only [Functor.map, EStateM.map, h]

theorem map_error (view : α → β) (h : program state = .error error state') :
    (view <$> program) state = .error error state' := by
  simp only [Functor.map, EStateM.map, h]

theorem pure_run (value : α) (state : σ) :
    (pure value : EStateM ε σ α) state = .ok value state := rfl

theorem throw_run (error : ε) (state : σ) :
    (throw error : EStateM ε σ α) state = .error error state := rfl

theorem throw_bind_run (error : ε) (next : α → EStateM ε σ β) (state : σ) :
    ((throw error : EStateM ε σ α) >>= next) state = .error error state := rfl

theorem pure_bind_run (value : α) (next : α → EStateM ε σ β) (state : σ) :
    ((pure value : EStateM ε σ α) >>= next) state = next value state := rfl

theorem get_bind_run (next : σ → EStateM ε σ β) (state : σ) :
    ((get : EStateM ε σ σ) >>= next) state = next state state := rfl

theorem modify_run (update : σ → σ) (state : σ) :
    (modify update : EStateM ε σ PUnit) state = .ok ⟨⟩ (update state) := rfl

theorem modify_bind_run (update : σ → σ) (next : PUnit → EStateM ε σ β) (state : σ) :
    ((modify update : EStateM ε σ PUnit) >>= next) state = next ⟨⟩ (update state) := rfl

theorem reads_ok (observe : σ → Except ε α) (h : observe state = .ok value) :
    reads observe state = .ok value state := by
  simp only [reads, h]

theorem reads_error (observe : σ → Except ε α) (h : observe state = .error error) :
    (reads observe : EStateM ε σ α) state = .error error state := by
  simp only [reads, h]

/-- A successful sequence splits into its two halves. -/
theorem bind_eq_ok {result : β} (h : (program >>= next) state = .ok result state') :
    ∃ middle between, program state = .ok middle between ∧
      next middle between = .ok result state' := by
  cases hrun : program state with
  | ok middle between =>
      refine ⟨middle, between, rfl, ?_⟩
      rw [bind_ok hrun] at h
      exact h
  | error failure between =>
      rw [bind_error hrun] at h
      exact absurd h (by simp)

end Execution

theorem except_bind_ok {program : Except ε α} {next : α → Except ε β} {value : α}
    (h : program = .ok value) : (program >>= next) = next value := by
  subst h
  rfl

theorem except_bind_error {program : Except ε α} {next : α → Except ε β} {error : ε}
    (h : program = .error error) : (program >>= next) = .error error := by
  subst h
  rfl

/-! ## Postconditions -/

/-- A run that succeeds ends in `ok`, a run that fails ends in `error`. -/
def Ends (result : EStateM.Result ε σ α) (ok : α → σ → Prop) (error : ε → σ → Prop) : Prop :=
  match result with
  | .ok value state => ok value state
  | .error failure state => error failure state

namespace Ends

variable {ok : β → σ → Prop} {failed failed' : ε → σ → Prop} {state : σ}

theorem mono {result : EStateM.Result ε σ β} {ok' : β → σ → Prop}
    (h : Ends result ok failed) (hok : ∀ value state, ok value state → ok' value state)
    (hfailed : ∀ error state, failed error state → failed' error state) :
    Ends result ok' failed' := by
  cases result with
  | ok value state => exact hok value state h
  | error error state => exact hfailed error state h

/-- A way to fail that is ruled out. -/
theorem resolve {result : EStateM.Result ε σ β} {other : ε → σ → Prop}
    (h : Ends result ok fun error state => failed error state ∨ other error state)
    (hnot : ∀ error state, ¬ other error state) : Ends result ok failed :=
  h.mono (fun _ _ hok => hok) fun error state hends => hends.resolve_right (hnot error state)

theorem bind {program : EStateM ε σ α} {next : α → EStateM ε σ β} {middle : α → σ → Prop}
    (h : Ends (program state) middle failed)
    (hnext : ∀ value state, middle value state → Ends (next value state) ok failed) :
    Ends ((program >>= next) state) ok failed := by
  cases hrun : program state with
  | ok value between =>
      rw [bind_ok hrun]
      rw [hrun] at h
      exact hnext value between h
  | error error between =>
      rw [bind_error hrun]
      rw [hrun] at h
      exact h

theorem get {next : σ → EStateM ε σ β} (h : Ends (next state state) ok failed) :
    Ends ((MonadState.get >>= next) state) ok failed := h

theorem ensure {condition : Prop} [Decidable condition] {error : ε}
    {next : PUnit → EStateM ε σ β} (hfailed : ¬ condition → failed error state)
    (hok : condition → Ends (next ⟨⟩ state) ok failed) :
    Ends ((Program.ensure condition error >>= next) state) ok failed := by
  by_cases hcondition : condition
  · rw [ensure_pos hcondition, pure_bind_run]
    exact hok hcondition
  · rw [ensure_neg hcondition, throw_bind_run]
    exact hfailed hcondition

theorem okOr {value : Option α} {error : ε} {next : α → EStateM ε σ β}
    (hfailed : value = none → failed error state)
    (hok : ∀ found, value = some found → Ends (next found state) ok failed) :
    Ends ((Program.okOr value error >>= next) state) ok failed := by
  cases value with
  | none => exact hfailed rfl
  | some found => exact hok found rfl

theorem reads {observe : σ → Except ε α} {next : α → EStateM ε σ β}
    (hfailed : ∀ error, observe state = .error error → failed error state)
    (hok : ∀ value, observe state = .ok value → Ends (next value state) ok failed) :
    Ends ((Program.reads observe >>= next) state) ok failed := by
  cases hrun : observe state with
  | ok value =>
      rw [bind_ok (reads_ok _ hrun)]
      exact hok value hrun
  | error error =>
      rw [bind_error (reads_error _ hrun)]
      exact hfailed error hrun

end Ends

theorem except_bind_eq_ok {program : Except ε α} {next : α → Except ε β} {result : β} :
    (program >>= next) = .ok result ↔
      ∃ value, program = .ok value ∧ next value = .ok result := by
  cases program with
  | error error =>
      simp only [reduceCtorEq, false_and, exists_false, iff_false]
      intro h
      cases h
  | ok value =>
      simp only [Except.ok.injEq, exists_eq_left']
      rfl

theorem ensure_eq_ok {condition : Prop} [Decidable condition] {error : ε} {result : PUnit} :
    (ensure condition error : Except ε PUnit) = .ok result ↔ condition := by
  by_cases hcondition : condition
  · rw [ensure_pos hcondition]
    simp only [hcondition, iff_true]
    rfl
  · rw [ensure_neg hcondition]
    simp only [hcondition, iff_false]
    intro h
    cases h

theorem okOr_eq_ok {value : Option α} {error : ε} {result : α} :
    (okOr value error : Except ε α) = .ok result ↔ value = some result := by
  cases value with
  | none => exact ⟨(fun h => nomatch h), (fun h => nomatch h)⟩
  | some found => exact ⟨fun h => congrArg some (Except.ok.inj h),
      fun h => congrArg Except.ok (Option.some.inj h)⟩

/-- A guard of a computation without state. -/
theorem ensure_bind_eq_ok {condition : Prop} [Decidable condition] {error : ε}
    {next : PUnit → Except ε β} {result : β} :
    (ensure condition error >>= next) = .ok result ↔ condition ∧ next ⟨⟩ = .ok result := by
  by_cases hcondition : condition
  · rw [ensure_pos hcondition]
    simp only [hcondition, true_and]
    rfl
  · rw [ensure_neg hcondition]
    simp only [hcondition, false_and, iff_false]
    intro h
    cases h

theorem okOr_bind_eq_ok {value : Option α} {error : ε} {next : α → Except ε β} {result : β} :
    (okOr value error >>= next) = .ok result ↔
      ∃ found, value = some found ∧ next found = .ok result := by
  cases value with
  | none =>
      simp only [okOr_none, reduceCtorEq, false_and, exists_false, iff_false]
      intro h
      cases h
  | some found =>
      simp only [okOr_some, Option.some.injEq, exists_eq_left']
      rfl

theorem okOr_eq_error {value : Option α} {error failure : ε}
    (h : (okOr value error : Except ε α) = .error failure) : failure = error := by
  cases value with
  | none => exact (Except.error.inj h).symm
  | some found => cases h

/-! ## Lists of calls -/

/-- Every listed call succeeds, one after the other. -/
inductive EachOk {ι : Type*} (call : ι → EStateM ε σ α) : σ → List ι → List α → σ → Prop
  | nil {state : σ} : EachOk call state [] [] state
  | cons {state middle final : σ} {item : ι} {rest : List ι} {value : α} {values : List α} :
      call item state = .ok value middle → EachOk call middle rest values final →
      EachOk call state (item :: rest) (value :: values) final

namespace EachOk

variable {ι : Type*} {call : ι → EStateM ε σ α} {state final : σ}
variable {items : List ι} {values : List α}

theorem length_eq (h : EachOk call state items values final) : values.length = items.length := by
  induction h with
  | nil => rfl
  | cons _ _ ih => rw [List.length_cons, List.length_cons, ih]

/-- What every successful call keeps holds after all of them. -/
theorem invariant {holds : σ → Prop} (h : EachOk call state items values final)
    (hstart : holds state)
    (hcall : ∀ item ∈ items, ∀ state value state', holds state →
      call item state = .ok value state' → holds state') : holds final := by
  induction h with
  | nil => exact hstart
  | cons hrun _ ih =>
      exact ih (hcall _ (by simp) _ _ _ hstart hrun)
        fun item hmem => hcall item (List.mem_cons_of_mem _ hmem)

end EachOk

/-! ## Runs -/

/-- States reachable from `start` by steps that `allowed` admits. -/
inductive Reachable {State Step : Type*} (step : Step → State → State)
    (allowed : State → Step → Prop) (start : State) : State → Prop
  | start : Reachable step allowed start start
  | step {state : State} (next : Step) : Reachable step allowed start state →
      allowed state next → Reachable step allowed start (step next state)

namespace Reachable

variable {State Step : Type*} {step : Step → State → State}
variable {allowed : State → Step → Prop} {start state : State}

/-- What holds at the start and survives every allowed step holds in every
reachable state. -/
theorem invariant {holds : State → Prop} (hstart : holds start)
    (hstep : ∀ state next, holds state → allowed state next → holds (step next state))
    (hreach : Reachable step allowed start state) : holds state := by
  induction hreach with
  | start => exact hstart
  | step next _ hallowed ih => exact hstep _ next ih hallowed

theorem mono {allowed' : State → Step → Prop}
    (himp : ∀ state next, allowed state next → allowed' state next)
    (hreach : Reachable step allowed start state) :
    Reachable step allowed' start state := by
  induction hreach with
  | start => exact .start
  | step next _ hallowed ih => exact .step next ih (himp _ _ hallowed)

end Reachable

/-- State after a list of steps. -/
def runAll {State Step : Type*} (step : Step → State → State) : List Step → State → State
  | [], state => state
  | next :: rest, state => runAll step rest (step next state)

/-- Every listed step is allowed where it is taken. -/
def AllAllowed {State Step : Type*} (step : Step → State → State)
    (allowed : State → Step → Prop) : List Step → State → Prop
  | [], _ => True
  | next :: rest, state => allowed state next ∧ AllAllowed step allowed rest (step next state)

instance AllAllowed.decidable {State Step : Type*} {step : Step → State → State}
    {allowed : State → Step → Prop} [∀ state next, Decidable (allowed state next)] :
    (steps : List Step) → (state : State) → Decidable (AllAllowed step allowed steps state)
  | [], _ => inferInstanceAs (Decidable True)
  | next :: rest, state =>
      have := @AllAllowed.decidable _ _ step allowed _ rest (step next state)
      inferInstanceAs (Decidable (allowed state next ∧ _))

theorem Reachable.runAll {State Step : Type*} {step : Step → State → State}
    {allowed : State → Step → Prop} {start state : State} {steps : List Step}
    (hreach : Reachable step allowed start state) (h : AllAllowed step allowed steps state) :
    Reachable step allowed start (runAll step steps state) := by
  induction steps generalizing state with
  | nil => exact hreach
  | cons next rest ih => exact ih (hreach.step next h.1) h.2

theorem runAll_append {State Step : Type*} (step : Step → State → State) (steps steps' : List Step)
    (state : State) :
    runAll step (steps ++ steps') state = runAll step steps' (runAll step steps state) := by
  induction steps generalizing state with
  | nil => rfl
  | cons next rest ih => exact ih (step next state)

end SeqCache.Program
