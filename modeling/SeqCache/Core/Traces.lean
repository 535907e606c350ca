import SeqCache.Core.Program

/-!
# What a run reports

Steps may report events, such as the capabilities they issue or consume.  A capability is
good for one use when every step uses it at most once, only before it is spent, and leaves
it spent.  Then so does every loop of calls, and every run.
-/

namespace SeqCache.Program

/-! ## Single use -/

/-- Between two states something was used `uses` times: at most once, not after it was
spent, and from then on it is spent. -/
structure UsedOnce {State : Type*} (spent : State → Prop) (state state' : State) (uses : ℕ) :
    Prop where
  kept : spent state → spent state'
  unused : spent state → uses = 0
  le_one : uses ≤ 1
  spent_of_used : 0 < uses → spent state'

namespace UsedOnce

variable {State : Type*} {spent : State → Prop} {state state' state'' : State} {uses uses' : ℕ}

theorem ofKept (h : spent state → spent state') : UsedOnce spent state state' 0 where
  kept := h
  unused := fun _ => rfl
  le_one := Nat.zero_le 1
  spent_of_used := fun hused => absurd hused (Nat.lt_irrefl 0)

theorem trans (h : UsedOnce spent state state' uses) (h' : UsedOnce spent state' state'' uses') :
    UsedOnce spent state state'' (uses + uses') where
  kept := fun hspent => h'.kept (h.kept hspent)
  unused := by
    intro hspent
    rw [h.unused hspent, h'.unused (h.kept hspent)]
  le_one := by
    rcases Nat.eq_zero_or_pos uses with hzero | hused
    · rw [hzero, Nat.zero_add]
      exact h'.le_one
    · rw [h'.unused (h.spent_of_used hused), Nat.add_zero]
      exact h.le_one
  spent_of_used := by
    intro hused
    rcases Nat.eq_zero_or_pos uses with hzero | hfirst
    · rw [hzero, Nat.zero_add] at hused
      exact h'.spent_of_used hused
    · exact h'.kept (h.spent_of_used hfirst)

end UsedOnce

/-! ## Loops of calls -/

section Loops

universe u

variable {σ ε α : Type u} {ι : Type*} (call : ι → EStateM ε σ α)

theorem finalState_map {β : Type u} (view : α → β) (program : EStateM ε σ α) (state : σ) :
    finalState ((view <$> program) state) = finalState (program state) := by
  cases hrun : program state with
  | ok value state' => rw [map_ok view hrun]; rfl
  | error error state' => rw [map_error view hrun]; rfl

/-- What holds however a program ends holds of its final state. -/
theorem finalState_of_ends {β : Type u} {holds : σ → Prop} {view : α → β}
    {program : EStateM ε σ α} {state : σ}
    (h : Ends (program state) (fun _ state' => holds state') fun _ state' => holds state') :
    holds (finalState ((view <$> program) state)) := by
  rw [finalState_map]
  cases hrun : program state with
  | ok value state' =>
      rw [hrun] at h
      exact h
  | error error state' =>
      rw [hrun] at h
      exact h

/-- The calls that succeed before the first one that fails. -/
def succeeding : List ι → σ → List ι
  | [], _ => []
  | item :: rest, state =>
      match call item state with
      | .ok _ state' => item :: succeeding rest state'
      | .error _ _ => []

/-- State after the first call that fails, or after all of them. -/
def stoppedState : List ι → σ → σ
  | [], state => state
  | item :: rest, state =>
      match call item state with
      | .ok _ state' => stoppedState rest state'
      | .error _ state' => state'

variable {call}

theorem succeeding_usedOnce {spent holds : σ → Prop} {used : ι → Bool}
    (hcall : ∀ item state, holds state → Ends (call item state)
      (fun _ state' => holds state' ∧ UsedOnce spent state state' (if used item then 1 else 0))
      (fun _ state' => spent state → spent state'))
    (items : List ι) {state : σ} (hholds : holds state) :
    UsedOnce spent state (stoppedState call items state)
      ((succeeding call items state).countP used) := by
  induction items generalizing state with
  | nil => exact .ofKept id
  | cons item rest ih =>
      have hends := hcall item state hholds
      rw [stoppedState, succeeding]
      cases hrun : call item state with
      | ok value state' =>
          rw [hrun] at hends
          rw [List.countP_cons, Nat.add_comm]
          exact hends.2.trans (ih hends.1)
      | error failure state' =>
          rw [hrun] at hends
          exact .ofKept hends

end Loops

/-! ## Runs -/

section Runs

variable {State Step Event : Type*} {step : Step → State → State}
variable {report : Step → State → List Event} {holds spent : State → Prop} {state : State}

/-- What the listed steps report, in order. -/
def reported (step : Step → State → State) (report : Step → State → List Event) :
    List Step → State → List Event
  | [], _ => []
  | next :: rest, state => report next state ++ reported step report rest (step next state)

theorem runAll_invariant (holds : State → Prop)
    (hstep : ∀ next state, holds state → holds (step next state))
    (steps : List Step) (hholds : holds state) : holds (runAll step steps state) := by
  induction steps generalizing state with
  | nil => exact hholds
  | cons next rest ih => exact ih (hstep next state hholds)

/-- Whatever holds of everything that a step reports holds of everything that a run
reports. -/
theorem reported_invariant (holds : State → Prop) {good : Event → Prop}
    (hstep : ∀ next state, holds state → holds (step next state))
    (hreport : ∀ next state, holds state → ∀ event ∈ report next state, good event)
    (steps : List Step) (hholds : holds state) :
    ∀ event ∈ reported step report steps state, good event := by
  induction steps generalizing state with
  | nil => exact fun event hmem => absurd hmem List.not_mem_nil
  | cons next rest ih =>
      intro event hmem
      obtain hfirst | hlater := List.mem_append.mp hmem
      · exact hreport next state hholds event hfirst
      · exact ih (hstep next state hholds) event hlater

/-- What an event of a run has spent stays spent. -/
theorem spent_of_reported {event : Event}
    (hstep : ∀ next state, holds state → holds (step next state) ∧
      (spent state ∨ event ∈ report next state → spent (step next state)))
    (steps : List Step) (hholds : holds state)
    (hspent : spent state ∨ event ∈ reported step report steps state) :
    spent (runAll step steps state) := by
  induction steps generalizing state with
  | nil => exact hspent.resolve_right List.not_mem_nil
  | cons next rest ih =>
      obtain ⟨hnext, hstill⟩ := hstep next state hholds
      rw [reported, List.mem_append, ← or_assoc] at hspent
      exact ih hnext (hspent.imp_left hstill)

theorem reported_usedOnce [DecidableEq Event] {event : Event}
    (hstep : ∀ next state, holds state → holds (step next state) ∧
      UsedOnce spent state (step next state) ((report next state).count event))
    (steps : List Step) (hholds : holds state) :
    UsedOnce spent state (runAll step steps state)
      ((reported step report steps state).count event) := by
  induction steps generalizing state with
  | nil => exact .ofKept id
  | cons next rest ih =>
      obtain ⟨hnext, hused⟩ := hstep next state hholds
      rw [reported, List.count_append, runAll]
      exact hused.trans (ih hnext)

/-- Where every step issues keys that were not issued before, no key is issued twice. -/
theorem reported_fresh {Key : Type*} (holds : State → Prop) (issued : State → Key → Prop)
    (key : Event → Key)
    (hstep : ∀ next state, holds state → holds (step next state) ∧
      (∀ key, issued state key → issued (step next state) key) ∧
      ((report next state).map key).Nodup ∧ ∀ event ∈ report next state,
        ¬ issued state (key event) ∧ issued (step next state) (key event))
    (steps : List Step) (hholds : holds state) :
    ((reported step report steps state).map key).Nodup ∧
      ∀ event ∈ reported step report steps state, ¬ issued state (key event) := by
  induction steps generalizing state with
  | nil => exact ⟨List.nodup_nil, fun _ hmem => absurd hmem List.not_mem_nil⟩
  | cons next rest ih =>
      obtain ⟨hnext, hkept, hnodup, hissues⟩ := hstep next state hholds
      obtain ⟨hnodup', hfresh⟩ := ih hnext
      rw [reported, List.map_append]
      constructor
      · refine List.nodup_append.mpr ⟨hnodup, hnodup', fun early hearly late hlate => ?_⟩
        obtain ⟨event, hevent, rfl⟩ := List.mem_map.mp hearly
        obtain ⟨event', hevent', rfl⟩ := List.mem_map.mp hlate
        intro hsame
        exact hfresh event' hevent' (hsame ▸ (hissues event hevent).2)
      · intro event hmem
        obtain hevent | hevent := List.mem_append.mp hmem
        · exact (hissues event hevent).1
        · exact fun hold => hfresh event hevent (hkept _ hold)

end Runs

end SeqCache.Program
