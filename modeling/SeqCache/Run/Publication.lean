import SeqCache.Steps.Reserve

/-!
# Published page tables

A kernel reads the table that was last published in its context.  Four kinds of calls
publish one, and only when they succeed; `Shows` reads the last publication off the
history of a backend.
-/

namespace SeqCache

open Machine Program

variable {R : Runtime}

/-- The context, table and position that a call publishes. -/
def BackendEvent.publication? {Page Context Transaction Error : Type} :
    BackendEvent Page Context Transaction Error → Option (Context × List Page × ℕ)
  | .updatePageTable context pages position (.ok _) => some (context, pages, position)
  | .commitAppend context commit (.ok _) => some (context, commit.committedPages, commit.position)
  | .abortAppend context restoredPages _ restoredPosition (.ok _) =>
      some (context, restoredPages, restoredPosition)
  | _ => none

/-- The table and position last published in a context. -/
def Shows (context : R.Context) (table : List R.Page) (position : ℕ) : R.History → Prop
  | [] => False
  | event :: earlier =>
      match event.publication? with
      | some published => published = (context, table, position) ∨
          published.1 ≠ context ∧ Shows context table position earlier
      | none => Shows context table position earlier

section Shows

variable {context other : R.Context} {table table' : List R.Page} {position position' : ℕ}
variable {history history' : R.History} {event : R.Event}

theorem shows_of_silent (h : event.publication? = none) :
    Shows context table position (event :: history) ↔ Shows context table position history := by
  rw [Shows, h]

theorem shows_of_published (h : event.publication? = some (context, table, position)) :
    Shows context table position (event :: history) := by
  rw [Shows, h]
  exact Or.inl rfl

theorem shows_of_elsewhere (h : event.publication? = some (other, table', position'))
    (hne : other ≠ context) :
    Shows context table position (event :: history) ↔ Shows context table position history := by
  rw [Shows, h]
  simp [hne]

theorem Shows.unique (h : Shows context table position history)
    (h' : Shows context table' position' history) : table' = table ∧ position' = position := by
  induction history with
  | nil => exact h.elim
  | cons event earlier ih =>
      rw [Shows] at h h'
      cases hevent : event.publication? with
      | none =>
          rw [hevent] at h h'
          exact ih h h'
      | some published =>
          rw [hevent] at h h'
          rcases h with rfl | ⟨hne, h⟩
          · rcases h' with heq | ⟨hne, -⟩
            · simp only [Prod.mk.injEq, true_and] at heq
              exact ⟨heq.1.symm, heq.2.symm⟩
            · exact absurd rfl hne
          · rcases h' with rfl | ⟨-, h'⟩
            · exact absurd rfl hne
            · exact ih h h'

theorem Calls.shows_iff {limit : ℕ} {flight flight' : List R.Page}
    (h : Calls limit history flight history' flight') :
    Shows context table position history' ↔ Shows context table position history := by
  induction h with
  | refl => rfl
  | acquire event _ hevent _ ih =>
      rw [shows_of_silent, ih]
      cases event <;> simp_all [BackendEvent.isAcquisition, BackendEvent.publication?]
  | rollback _ _ _ _ ih =>
      rw [shows_of_silent rfl, ih]
  | neutral event _ hevent ih =>
      rw [shows_of_silent, ih]
      cases event with
      | abortAppend _ _ _ _ answer | commitAppend _ _ answer | updatePageTable _ _ _ answer =>
          cases answer with
          | ok _ => simp [BackendEvent.isNeutral] at hevent
          | error _ => rfl
      | _ => rfl
  | overreported _ _ _ _ ih =>
      rw [shows_of_silent rfl, ih]

theorem Retirement.shows_iff {physical : List R.Page} {deferred : ℕ}
    (h : Retirement other physical deferred history history') :
    Shows context table position history' ↔ Shows context table position history := by
  rcases h with ⟨-, -, rfl⟩ | ⟨outcome, -, rfl, -⟩
  · rfl
  · exact shows_of_silent rfl

namespace SequenceCache

variable {cache cache' : SequenceCache R}

theorem Reclaimed.shows_iff {reclaimed : ℕ} (h : Reclaimed cache cache' other reclaimed) :
    Shows context table position cache'.backend ↔ Shows context table position cache.backend := by
  rw [h.state]
  exact shows_of_silent rfl

/-- A published table is shown in its context. -/
theorem shows_publish (cache : SequenceCache R) (context : R.Context) (table : List R.Page)
    (position : ℕ) : Shows context table position (cache.publish context table position).backend :=
  shows_of_published rfl

theorem publish_shows_iff (hne : other ≠ context) :
    Shows context table position (cache.publish other table' position').backend ↔
      Shows context table position cache.backend :=
  shows_of_elsewhere rfl hne

end SequenceCache

end Shows

end SeqCache
