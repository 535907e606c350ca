import SeqCache.Run.Publication
import SeqCache.Steps.Batch
import SeqCache.Steps.Finish
import SeqCache.Steps.Retain

/-!
# Calls as chains of changes

Whatever a client calls, the state moves by changes of a few kinds.  `Change` lists them,
`Progress` chains them, and `Evolves` says how every call ends: after a chain of changes,
after the use of an entry, with a new entry, or torn by the exhaustion of generations.
Everything that holds along whole runs is proved once for each kind of change.
-/

namespace SeqCache

open Machine Program Std

variable {R : Runtime}

/-! ## Changes -/

namespace SequenceCache

/-- One change of the state.  `uses` holds of a sequence and the context it is operated
with, `opens` of the context of a sequence about to be admitted. -/
inductive Change (orphans : List PageId) (uses : SequenceId → R.Context → Prop)
    (opens : R.Context → Prop) (cache : SequenceCache R) : SequenceCache R → Prop
  | quiet {cache' : SequenceCache R} {limit : ℕ} {flight : List R.Page} : Quiet cache cache' →
      Calls limit cache.backend [] cache'.backend flight → Change orphans uses opens cache cache'
  | interned {cache' : SequenceCache R} {stray blocks : List TokenBlockId} {tokens : List Token} :
      Interns cache cache' stray blocks tokens → Change orphans uses opens cache cache'
  | published {context : R.Context} {table : List R.Page} {position : ℕ} : opens context →
      Change orphans uses opens cache (cache.publish context table position)
  | evicted {cache' : SequenceCache R} {stray : List TokenBlockId} {entries : List PrefixEntryId}
      {context : R.Context} {retired : List PageId} {physical : List R.Page} {deferred : ℕ} :
      Inv orphans stray cache → Evicted cache cache' entries context retired physical deferred →
      Change orphans uses opens cache cache'
  | reclaimed {cache' : SequenceCache R} {stray : List TokenBlockId} {context : R.Context}
      {reclaimed : ℕ} : Inv orphans stray cache → Reclaimed cache cache' context reclaimed →
      Change orphans uses opens cache cache'
  | admitted {cache' : SequenceCache R} {context : R.Context} {shared fresh : List PageId}
      {physical table : List R.Page} {id : SequenceId}
      {record : SequenceRecord R.AppendTransaction} : opens context →
      Admitted cache cache' shared fresh physical id record →
      Shows context table record.position cache.backend → Stored cache'.pages record.pages table →
      (R.ImmediateHonest → Within cache' cache'.config.maxManagedBytes) →
      Change orphans uses opens cache cache'
  | reserved {cache' : SequenceCache R} {stray : List TokenBlockId} {sequence : SequenceId}
      {record : SequenceRecord R.AppendTransaction} {rows : ℕ} {context : R.Context}
      {transaction : R.AppendTransaction} {fresh : List PageId} {allocations : List R.Page}
      {prepared : R.History} : uses sequence context → Inv orphans stray cache →
      Reserved cache cache' sequence record rows context transaction fresh allocations prepared →
      Change orphans uses opens cache cache'
  | settled {cache' : SequenceCache R} {stray : List TokenBlockId} {sequence : SequenceId}
      {record : SequenceRecord R.AppendTransaction} {pending : PendingAppend R.AppendTransaction}
      {context : R.Context} {committed : ℕ} {event : R.Event} : uses sequence context →
      Inv orphans stray cache → Accepted cache record pending context committed event →
      Settled cache cache' sequence record pending committed event →
      Change orphans uses opens cache cache'
  | finished {cache' : SequenceCache R} {stray : List TokenBlockId} {sequence : SequenceId}
      {record : SequenceRecord R.AppendTransaction} {context : R.Context}
      {physical : List R.Page} {deferred : ℕ} : Inv orphans stray cache →
      Finished cache cache' sequence record context physical deferred →
      Change orphans uses opens cache cache'

/-- A chain of changes. -/
abbrev Progress (orphans : List PageId) (uses : SequenceId → R.Context → Prop)
    (opens : R.Context → Prop) : SequenceCache R → SequenceCache R → Prop :=
  Relation.ReflTransGen (Change orphans uses opens)

end SequenceCache

/-! ## Operations -/

/-- The entry that a reply reports as used. -/
def Reply.touched : Reply R → Option PrefixEntryId
  | .retained (.inserted id) => some id
  | .retained (.duplicate id) => some id
  | .found result => result.map PrefixMatch.entry
  | _ => none

/-- The entry that a call has used, according to what it returned. -/
def touchedBy : Except (Failure R.Error) (Reply R) → Option PrefixEntryId
  | .ok reply => reply.touched
  | .error _ => none

namespace Operation

open SequenceCache

/-- The call operates on the sequence with the context. -/
def uses : Operation R → SequenceId → R.Context → Prop
  | .reserveAppend sequence _ context, id, other => id = sequence ∧ other = context
  | .commitAppend reservation _ context, id, other => id = reservation.sequence ∧ other = context
  | .abortAppend reservation context, id, other => id = reservation.sequence ∧ other = context
  | .reserveAppendBatch requests contexts, id, other =>
      ∃ item ∈ requests.zip contexts, id = item.1.sequence ∧ other = item.2
  | .commitAppendBatch reservations committedRows contexts, id, other =>
      ∃ item ∈ (reservations.zip committedRows).zip contexts,
        id = item.1.1.sequence ∧ other = item.2
  | .abortAppendBatch reservations contexts, id, other =>
      ∃ item ∈ reservations.zip contexts, id = item.1.sequence ∧ other = item.2
  | _, _, _ => False

/-- The call opens a sequence in the context. -/
def opens : Operation R → R.Context → Prop
  | .admitSequence _ _ context _, other => other = context
  | .branch _ _ context, other => other = context
  | _, _ => False

end Operation

namespace SequenceCache

/-- How a call ends that started from `cache`.  Where `strays` holds, the call may leave
references to interned blocks behind. -/
inductive Evolves (orphans : List PageId) (stray : List TokenBlockId) (strays : Prop)
    (uses : SequenceId → R.Context → Prop) (opens : R.Context → Prop) (cache : SequenceCache R)
    (result : Except (Failure R.Error) (Reply R)) : SequenceCache R → Prop
  | progressed {cache' : SequenceCache R} {stray' : List TokenBlockId} :
      Progress orphans uses opens cache cache' → touchedBy result = none →
      stray' = stray ∨ strays → Inv orphans stray' cache' →
      Evolves orphans stray strays uses opens cache result cache'
  | touched {cache' : SequenceCache R} : Touched cache cache' (touchedBy result) →
      Inv orphans stray cache' → Evolves orphans stray strays uses opens cache result cache'
  | retained {middle cache' : SequenceCache R} {sequence : SequenceId}
      {record : SequenceRecord R.AppendTransaction} {blocks : List TokenBlockId}
      {snapshot : R.Snapshot} : Progress orphans uses opens cache middle →
      Retained middle cache' sequence record blocks snapshot →
      touchedBy result = some middle.nextPrefixId → Inv orphans stray cache' →
      (R.ImmediateHonest → Within cache' cache'.config.maxManagedBytes) →
      Evolves orphans stray strays uses opens cache result cache'
  | torn {middle cache' : SequenceCache R} {reservation : AppendReservation} {committed : ℕ}
      {context : R.Context} {lost : List PageId} : Progress orphans uses opens cache middle →
      Inv orphans stray middle → uses reservation.sequence context →
      Interrupted middle reservation committed context lost cache' → Exhausted result →
      touchedBy result = none → Inv (orphans ++ lost) stray cache' →
      Evolves orphans stray strays uses opens cache result cache'

/-! ## Single calls -/

section Calls

variable {orphans : List PageId} {stray : List TokenBlockId} {strays : Prop}
variable {uses : SequenceId → R.Context → Prop} {opens : R.Context → Prop}
variable {cache cache' middle : SequenceCache R} {limit : ℕ} {flight : List R.Page}
variable {result : Except (Failure R.Error) (Reply R)}

theorem Called.change (h : Called limit cache cache' flight) :
    Change orphans uses opens cache cache' := by
  refine .quiet ?_ h.calls
  rw [h.state]
  exact Quiet.ofBackend _

theorem Unchanged.inv (h : Unchanged cache cache') (hinv : Inv orphans stray cache) :
    Inv orphans stray cache' :=
  h.quiet.inv hinv h.calls.deferredTotal_eq

/-- A call that used no entry and lost no page. -/
theorem Evolves.ofProgress (h : Progress orphans uses opens cache cache')
    (htouched : touchedBy result = none) (hinv : Inv orphans stray cache') :
    Evolves orphans stray strays uses opens cache result cache' :=
  .progressed h htouched (Or.inl rfl) hinv

/-- A call that failed without an effect. -/
theorem Evolves.ofFailed {failure : Failure R.Error} (h : Progress orphans uses opens cache cache')
    (hinv : Inv orphans stray cache') :
    Evolves orphans stray strays uses opens cache (.error failure) cache' :=
  Evolves.ofProgress h rfl hinv

/-- Evicting and registering keep the storage of the pages that a new sequence shares. -/
theorem Admitted.stored_table {start evicted : SequenceCache R} {entries : List PrefixEntryId}
    {context : R.Context} {retired shared fresh : List PageId} {physical copied : List R.Page}
    {deferred : ℕ} {id : SequenceId} {record : SequenceRecord R.AppendTransaction}
    {table : List R.Page} (h : Admitted evicted cache' shared fresh copied id record)
    (hevicted : Evicted start evicted entries context retired physical deferred)
    (hstored : Stored start.pages shared table) :
    Stored cache'.pages record.pages (table ++ copied) := by
  rw [h.table]
  refine (hstored.congr fun page hmem => ?_).append h.stored
  obtain ⟨found, hfound, -⟩ := h.pages.shared_sealed page hmem
  obtain ⟨found', hfound', hphysical, -⟩ := h.pages.keeps page found hfound
  rw [hevicted.pages] at hfound
  split_ifs at hfound
  obtain ⟨old, hold, rfl⟩ := Option.map_eq_some_iff.mp hfound
  rw [hfound', hold, Option.bind_some, Option.bind_some, hphysical]

/-- A published table, the evictions and the registration, as a chain of changes. -/
theorem Admission.progress {protectedEntry : Option PrefixEntryId} {context : R.Context}
    {shared fresh retired : List PageId} {id : SequenceId}
    {record : SequenceRecord R.AppendTransaction} {plan : List PrefixEntryId}
    {start evicted : SequenceCache R} {physical table : List R.Page} {deferred : ℕ}
    (h : Admission cache cache' limit protectedEntry flight context shared fresh id record plan
      start evicted retired physical deferred) (hopens : opens context)
    (hinv : Inv orphans stray start) (hstored : Stored cache.pages shared table)
    (hshows : Shows context (table ++ flight) record.position start.backend)
    (hcache : Inv orphans stray cache) (hlimit : limit ≤ cache.config.maxManagedBytes) :
    Progress orphans uses opens start cache' := by
  have hwithin : R.ImmediateHonest → Within cache' cache'.config.maxManagedBytes := by
    intro hhonest
    have hfits := h.within hhonest hcache
    rw [h.config]
    exact ⟨hfits.bytes.trans hlimit, hfits.pages⟩
  have hpages : start.pages = cache.pages := by rw [h.published]
  have hshows' : Shows context (table ++ flight) record.position evicted.backend :=
    h.carried_out.retirement.shows_iff.mpr hshows
  refine (Relation.ReflTransGen.single (.evicted hinv h.carried_out)).tail
    (.admitted hopens h.admitted hshows' ?_ hwithin)
  exact h.admitted.stored_table h.carried_out (hpages ▸ hstored)

/-- What is known of a program is known of the call that runs it. -/
theorem Evolves.ofEnds {α : Type} {program : CacheM R α} {reply : α → Reply R}
    (h : Ends (program cache)
      (fun value cache' => Evolves orphans stray strays uses opens cache (.ok (reply value)) cache')
      (fun failure cache' => Evolves orphans stray strays uses opens cache
        (.error failure) cache')) :
    Evolves orphans stray strays uses opens cache (outcome ((reply <$> program) cache))
      (finalState ((reply <$> program) cache)) := by
  simp only [Functor.map, EStateM.map]
  cases hrun : program cache with
  | ok value cache' =>
      rw [hrun] at h
      exact h
  | error failure cache' =>
      rw [hrun] at h
      exact h

theorem admitSequence_evolves (hinv : Inv orphans stray cache)
    (prefixMatch : Option PrefixMatch) (request : AdmissionRequest) (context : R.Context)
    (restore : Option R.Snapshot → ℕ → Except R.Error Unit) (hopens : opens context) :
    Ends (admitSequence prefixMatch request context restore cache)
      (fun outcome => Evolves orphans stray strays uses opens cache (.ok (.admission outcome)))
      (fun failure cache' => Evolves orphans stray strays uses opens cache (.error failure) cache' ∨
        Breached cache failure cache') := by
  refine Ends.mono (admitSequence_ends hinv prefixMatch request context restore) ?_
    fun failure cache' => Or.imp_left ?_
  · rintro outcome cache' ⟨hfinal, reclaimed, middle, hreclaimed, hmiddle, hadmits⟩
    refine .ofProgress ?_ rfl hfinal
    refine .head (.reclaimed hinv hreclaimed) ?_
    rcases hadmits with ⟨-, rfl, -⟩ | ⟨protectedEntry, position, shared, reservedPages, extra,
      limit, plan, table, id, evicted, retired, physical, deferred, -, hopened, hadmission⟩
    · exact .refl
    · refine .head (.published hopens) (hadmission.progress hopens
        (publish_inv hmiddle context table position)
        (stored_of_physicalRefsFrom hopened.resolved) ?_ hmiddle
        (admissionLimit_le hopened.quoted.limit))
      rw [List.append_nil]
      exact shows_publish middle context table position
  · rintro ⟨-, hcalled | ⟨reclaimed, middle, hreclaimed, hmiddle, hfailed⟩⟩
    · exact .ofFailed (.single hcalled.change) (hcalled.inv hinv)
    · rcases hfailed with hcalled | ⟨protectedEntry, position, shared, reservedPages, extra, limit,
        plan, table, -, -, hcalled⟩
      · exact .ofFailed (.head (.reclaimed hinv hreclaimed) (.single hcalled.change))
          (hcalled.inv hmiddle)
      · exact .ofFailed (.head (.reclaimed hinv hreclaimed) (.head (.published hopens)
          (.single hcalled.change)))
          (hcalled.inv (publish_inv hmiddle context table position))

theorem branch_evolves (hinv : Inv orphans stray cache) (source : SequenceId)
    (request : AdmissionRequest) (context : R.Context) (hopens : opens context) :
    Ends (branch source request context cache)
      (fun outcome => Evolves orphans stray strays uses opens cache (.ok (.admission outcome)))
      (fun failure cache' => Evolves orphans stray strays uses opens cache (.error failure) cache' ∨
        Breached cache failure cache') := by
  -- The copy of the tail is a silent call, the publication a change of its own.
  have hcopied : ∀ {start : SequenceCache R} {record : SequenceRecord R.AppendTransaction}
      {copied : Option R.Page} {history : R.History},
      Copies cache start record context copied history →
      Progress orphans uses opens cache start := by
    rintro start record copied history ⟨htail, table, -, -, rfl⟩
    exact .head (.quiet (Quiet.ofBackend history) htail.calls) (.single (.published hopens))
  refine Ends.mono (branch_ends hinv source request context) ?_
    fun failure cache' => Or.imp_left ?_
  · rintro outcome cache' ⟨hfinal, ⟨-, rfl, -⟩ | ⟨record, copied, history, reservedPages, extra,
      limit, fresh, id, plan, start, evicted, retired, physical, deferred, -, hforked,
      hadmission⟩⟩
    · exact .ofProgress .refl rfl hfinal
    · obtain ⟨table, hstored, -, hstart⟩ := hforked.copies.published
      refine .ofProgress ((hcopied hforked.copies).trans
        (hadmission.progress hopens (hforked.copies.inv hinv) hstored ?_ hinv
          (admissionLimit_le hforked.quoted.limit))) rfl hfinal
      rw [hstart]
      exact shows_publish _ context _ _
  · rintro ⟨-, ⟨hcalled, -⟩ | ⟨record, copied, history, reservedPages, extra, limit, plan,
      start, hforked, -, hcalled⟩⟩
    · exact .ofFailed (.single hcalled.change) (hcalled.inv hinv)
    · exact .ofFailed ((hcopied hforked.copies).tail hcalled.change)
        (hcalled.inv (hforked.copies.inv hinv))

theorem reserveAppend_evolves (hinv : Inv orphans stray cache) (sequence : SequenceId) (rows : ℕ)
    (context : R.Context) (huses : uses sequence context) :
    Ends (reserveAppend sequence rows context cache)
      (fun _ cache' => Progress orphans uses opens cache cache' ∧ Inv orphans stray cache')
      (fun failure cache' => (∃ error, failure = .error error) ∧
        Progress orphans uses opens cache cache' ∧ Inv orphans stray cache') := by
  refine Ends.mono (reserveAppend_spec hinv sequence rows context) ?_ ?_
  · rintro reservation cache' ⟨hfinal, record, transaction, fresh, allocations, prepared,
      hreserved, -⟩
    exact ⟨.single (.reserved huses hinv hreserved), hfinal⟩
  · rintro failure cache' ⟨herror, -, hattempted⟩
    exact ⟨herror, .single (.quiet hattempted.quiet hattempted.calls),
      hattempted.quiet.inv hinv hattempted.calls.deferredTotal_eq⟩

/-- What a finalization that failed leaves behind. -/
def Unsettled (orphans : List PageId) (stray : List TokenBlockId)
    (uses : SequenceId → R.Context → Prop) (opens : R.Context → Prop) (cache : SequenceCache R)
    (failure : Failure R.Error) (cache' : SequenceCache R) : Prop :=
  (∃ error, failure = .error error) ∧
    (Progress orphans uses opens cache cache' ∧ Inv orphans stray cache' ∨
      (∃ kind, failure = .error (.idExhausted kind)) ∧ ∃ reservation committed context lost,
        uses reservation.sequence context ∧
        Interrupted cache reservation committed context lost cache' ∧
        Inv (orphans ++ lost) stray cache')

theorem Unsettled.evolves {failure : Failure R.Error}
    (h : Unsettled orphans stray uses opens cache failure cache') (hinv : Inv orphans stray cache) :
    Evolves orphans stray strays uses opens cache (.error failure) cache' := by
  obtain ⟨-, ⟨hprogress, hfinal⟩ | ⟨⟨kind, rfl⟩, reservation, committed, context, lost,
    huses, htorn, hfinal⟩⟩ := h
  · exact .ofFailed hprogress hfinal
  · exact .torn .refl hinv huses htorn trivial rfl hfinal

section Finalize

variable {reservation : AppendReservation} {committed : ℕ} {context : R.Context}

theorem Finalized.change (h : Finalized cache reservation committed context cache')
    (hinv : Inv orphans stray cache) (huses : uses reservation.sequence context) :
    Change orphans uses opens cache cache' := by
  obtain ⟨record, pending, event, -, haccepted, hsettled⟩ := h
  exact .settled huses hinv haccepted hsettled

theorem FinalizeFails.unsettled {valid : Prop} {failure : Failure R.Error}
    (h : FinalizeFails orphans stray cache reservation valid committed context failure cache')
    (hinv : Inv orphans stray cache) (huses : uses reservation.sequence context) :
    Unsettled orphans stray uses opens cache failure cache' := by
  rcases h with ⟨hrejected, rfl⟩ | ⟨error, rfl, hputBack⟩ | ⟨rfl, lost, hfinal, htorn⟩
  · refine ⟨?_, Or.inl ⟨.refl, hinv⟩⟩
    rcases hrejected with ⟨error, -, rfl⟩ | ⟨-, rfl⟩ <;> exact ⟨_, rfl⟩
  · exact ⟨⟨_, rfl⟩, Or.inl ⟨.single (.quiet hputBack.unchanged.quiet hputBack.calls),
      hputBack.unchanged.inv hinv⟩⟩
  · exact ⟨⟨_, rfl⟩, Or.inr ⟨⟨_, rfl⟩, reservation, committed, context, lost, huses, htorn,
      hfinal⟩⟩

theorem commitAppend_evolves (hinv : Inv orphans stray cache)
    (huses : uses reservation.sequence context) :
    Ends (commitAppend reservation committed context cache)
      (fun _ cache' => Progress orphans uses opens cache cache' ∧ Inv orphans stray cache')
      (Unsettled orphans stray uses opens cache) :=
  Ends.mono (commitAppend_spec hinv reservation committed context)
    (fun _ _ h => ⟨.single (h.2.change hinv huses), h.1⟩)
    fun _ _ h => h.unsettled hinv huses

theorem abortAppend_evolves (hinv : Inv orphans stray cache)
    (huses : uses reservation.sequence context) :
    Ends (abortAppend reservation context cache)
      (fun _ cache' => Progress orphans uses opens cache cache' ∧ Inv orphans stray cache')
      (Unsettled orphans stray uses opens cache) :=
  Ends.mono (abortAppend_spec hinv reservation context)
    (fun _ _ h => ⟨.single (h.2.change hinv huses), h.1⟩)
    fun _ _ h => h.unsettled hinv huses

end Finalize

/-! ## Loops of calls -/

section Loops

variable {ι α : Type} {call : ι → CacheM R α} {items before : List ι} {item : ι}
variable {values : List α} {failure : Failure R.Error}

theorem EachOk.progress (h : EachOk call cache items values cache') (hinv : Inv orphans stray cache)
    (hcall : ∀ item ∈ items, ∀ state value state', Inv orphans stray state →
      call item state = .ok value state' →
      Progress orphans uses opens state state' ∧ Inv orphans stray state') :
    Progress orphans uses opens cache cache' ∧ Inv orphans stray cache' := by
  have hkeeps : ∀ item ∈ items, ∀ state value state',
      Progress orphans uses opens cache state ∧ Inv orphans stray state →
      call item state = .ok value state' →
      Progress orphans uses opens cache state' ∧ Inv orphans stray state' := by
    rintro item hmem state value state' ⟨hprogress, hstate⟩ hrun
    have hstep := hcall item hmem state value state' hstate hrun
    exact ⟨hprogress.trans hstep.1, hstep.2⟩
  exact h.invariant ⟨.refl, hinv⟩ hkeeps

/-- A loop over finalizations is a chain of changes, up to its last call. -/
theorem Finalizes.evolves {call : ι → CacheM R Unit} {batch : List AppendReservation}
    {result : EStateM.Result (Failure R.Error) (SequenceCache R) (BatchResult R Unit)}
    (h : Finalizes call batch items cache result) (hinv : Inv orphans stray cache)
    (hcall : ∀ item ∈ items, ∀ state, Inv orphans stray state → Ends (call item state)
      (fun _ state' => Progress orphans uses opens state state' ∧ Inv orphans stray state')
      (Unsettled orphans stray uses opens state)) :
    Ends result (fun value => Evolves orphans stray strays uses opens cache
      (.ok (.finalized value)))
      (fun failure => Evolves orphans stray strays uses opens cache (.error failure)) := by
  have hok : ∀ item ∈ items, ∀ state value state', Inv orphans stray state →
      call item state = .ok value state' →
      Progress orphans uses opens state state' ∧ Inv orphans stray state' := by
    intro item hmem state value state' hstate hrun
    have hends := hcall item hmem state hstate
    rw [hrun] at hends
    exact hends
  rcases h with ⟨new, cache', heach, rfl⟩ |
    ⟨before, item, after, new, middle, failure, cache', rfl, hstopped, hresult⟩
  · obtain ⟨hprogress, hfinal⟩ := EachOk.progress heach hinv hok
    exact .ofProgress hprogress rfl hfinal
  obtain ⟨hprogress, hmiddle⟩ := EachOk.progress hstopped.succeeded hinv fun other hmem =>
    hok other (List.mem_append_left _ hmem)
  have hfailed := hcall item (by simp) middle hmiddle
  rw [hstopped.failed] at hfailed
  obtain ⟨⟨error, rfl⟩, hleft⟩ := hfailed
  rcases hresult with ⟨error', heq, rfl⟩ | ⟨message, heq, -⟩
  · cases heq
    rcases hleft with ⟨hlast, hfinal⟩ | ⟨⟨kind, hkind⟩, reservation, committed, context,
      lost, huses, htorn, hfinal⟩
    · exact .ofProgress (hprogress.trans hlast) rfl hfinal
    · cases hkind
      exact .torn hprogress hmiddle huses htorn ⟨kind, rfl⟩ rfl hfinal
  · cases heq

theorem Dismissed.evolves {batch : List AppendReservation}
    {result : EStateM.Result (Failure R.Error) (SequenceCache R) (BatchResult R Unit)}
    (h : Dismissed batch cache result) (hinv : Inv orphans stray cache) :
    Ends result (fun value => Evolves orphans stray strays uses opens cache
      (.ok (.finalized value)))
      (fun failure => Evolves orphans stray strays uses opens cache (.error failure)) := by
  obtain ⟨error, index, -, rfl⟩ := h
  exact .ofProgress .refl rfl hinv

end Loops

theorem reserveAppendBatch_evolves (hinv : Inv orphans stray cache)
    (requests : List AppendBatchRequest) (contexts : List R.Context)
    (huses : ∀ item ∈ requests.zip contexts, uses item.1.sequence item.2) :
    Ends (reserveAppendBatch requests contexts cache)
      (fun _ cache' => Progress orphans uses opens cache cache' ∧ Inv orphans stray cache')
      (fun _ cache' => Progress orphans uses opens cache cache' ∧ Inv orphans stray cache') := by
  unfold reserveAppendBatch
  by_cases hlength : requests.length ≠ contexts.length
  · rw [if_pos hlength]
    exact ⟨.refl, hinv⟩
  rw [if_neg hlength]
  have hok : ∀ item ∈ requests.zip contexts, ∀ state value state', Inv orphans stray state →
      reserveItem item state = .ok value state' →
      Progress orphans uses opens state state' ∧ Inv orphans stray state' := by
    intro item hmem state value state' hstate hrun
    have hends := @reserveAppend_evolves R orphans stray uses opens state hstate item.1.sequence
      item.1.rows item.2 (huses item hmem)
    rw [show reserveAppend item.1.sequence item.1.rows item.2 state = .ok value state' from hrun]
      at hends
    exact hends
  rcases reserveEach_cases (requests.zip contexts) 0 [] cache with ⟨new, cache', heach, hrun⟩ |
    ⟨before, item, after, new, middle, failure, cache', hitems, hstopped, hresult⟩
  · rw [hrun]
    exact EachOk.progress heach hinv hok
  obtain ⟨hprogress, hmiddle⟩ := EachOk.progress hstopped.succeeded hinv fun other hmem =>
    hok other (hitems ▸ List.mem_append_left _ hmem)
  have hfailed := @reserveAppend_evolves R orphans stray uses opens middle hmiddle item.1.sequence
    item.1.rows item.2 (huses item (hitems ▸ by simp))
  rw [show reserveAppend item.1.sequence item.1.rows item.2 middle = .error failure cache' from
    hstopped.failed] at hfailed
  obtain ⟨⟨error, rfl⟩, hlast, hfinal⟩ := hfailed
  rcases hresult with ⟨error', -, hrun⟩ | ⟨message, heq, -⟩
  · rw [hrun]
    exact ⟨hprogress.trans hlast, hfinal⟩
  · cases heq

/-- A retention that failed in this way leaves the blocks of its key interned. -/
def Litters (cache : SequenceCache R) (result : Except (Failure R.Error) (Reply R)) : Prop :=
  result = .error (.error (.idExhausted "prefix entry")) ∨
    result = .error (.error .arithmeticOverflow) ∧
      (usizeMax < cache.stats.totalManagedBytes + cache.config.maxSnapshotBytes ∨
        usizeMax < cache.stats.residentPages + cache.stats.reservedPages)

theorem Retains.within {sequence : SequenceId} {tokens : List Token} {snapshot : R.Snapshot}
    {context : R.Context} {outcome : RetainOutcome} {id : PrefixEntryId}
    (h : Retains stray cache sequence tokens snapshot context outcome cache')
    (houtcome : outcome = .inserted id) (hinv : Inv orphans stray cache)
    (hhonest : R.ImmediateHonest) : Within cache' cache'.config.maxManagedBytes := by
  cases h with
  | duplicate _ _ _ => cases houtcome
  | @inserted record blocks interned evicted _ plan retired physical deferred hretainable hne
      hinterns hbytes hplan hevicted hretained =>
      have hinv' := hinterns.inv hinv hne
      rw [← hinterns.retainPlan_eq hinv hne] at hplan
      rcases planEvictions_cases hinv'
          (some (interned.stats.retainedSnapshotBytes + R.retainedBytes snapshot))
          (some (interned.prefixes.size + 1)) (Nat.le_add_right _ _) (Nat.le_succ _) with
        ⟨-, herror⟩ | ⟨result, hresult, hplanned⟩
      · rw [retainPlan, herror] at hplan
        cases hplan
      rw [retainPlan, hresult] at hplan
      obtain ⟨hfits, hfits'⟩ := (hplanned plan (Except.ok.inj hplan)).within hhonest hinv' rfl
        (.refl _) hevicted
      have hresident := hevicted.resident_ge hinv'.published.resident_le
      have htotal := hevicted.total_eq hinv'.total_eq
      have hmul := Nat.mul_le_mul_right evicted.pageBytes hresident
      have hlength : cache'.pages.values.length = evicted.pages.values.length :=
        hretained.pages.length_values
      rw [hretained.state]
      unfold residentNow at hresident hmul
      unfold chargedBytes at htotal
      constructor
      · change (cache'.pages.values.length + evicted.deferredPages) * evicted.pageBytes +
          evicted.stats.reservedPages * evicted.pageBytes +
          evicted.stats.activePrivateStateBytes +
          (evicted.stats.retainedSnapshotBytes + R.retainedBytes snapshot) +
          evicted.stats.pageTableBytes ≤ evicted.config.maxManagedBytes
        rw [hlength, hevicted.config]
        omega
      · change cache'.pages.values.length + evicted.deferredPages + evicted.stats.reservedPages ≤
          evicted.pageCapacity
        omega

theorem retainPrefix_evolves (hinv : Inv orphans stray cache) (sequence : SequenceId)
    (tokens : List Token) (snapshot : R.Snapshot) (context : R.Context) :
    Ends (retainPrefix sequence tokens snapshot context cache)
      (fun outcome => Evolves orphans stray (Litters cache (.ok (.retained outcome))) uses opens
        cache (.ok (.retained outcome)))
      (fun failure cache' => Evolves orphans stray (Litters cache (.error failure)) uses opens cache
          (.error failure) cache' ∨ Breached cache failure cache') := by
  refine Ends.mono (retainPrefix_ends hinv sequence tokens snapshot context) ?_
    fun failure cache' => Or.imp ?_ Forsaken.breached
  · rintro outcome cache' ⟨hfinal, hretains⟩
    have hwithin := fun id houtcome => @Retains.within R orphans stray cache cache' sequence tokens
      snapshot context outcome id hretains houtcome hinv
    cases hretains with
    | duplicate _ _ htouched => exact .touched htouched hfinal
    | @inserted record blocks interned evicted _ plan retired physical deferred hretainable hne
        hinterns hbytes hplan hevicted hretained =>
        have hnext : evicted.nextPrefixId = cache.nextPrefixId := by
          rw [hevicted.nextPrefixId, hinterns.state]
        refine .retained ?_ hretained (congrArg some hnext.symm) hfinal (hwithin _ rfl)
        exact .head (.interned hinterns) (.single (.evicted (hinterns.inv hinv hne) hevicted))
  · intro hfails
    cases hfails with
    | stale _ => exact .ofFailed .refl hinv
    | invalid _ _ => exact .ofFailed .refl hinv
    | crowded _ _ _ htouched => exact .touched htouched (htouched.inv hinv)
    | oversized _ _ => exact .ofFailed .refl hinv
    | uncountable _ _ => exact .ofFailed .refl hinv
    | unkeyed _ _ _ _ hundone =>
        exact .ofFailed (.single (.quiet hundone.unchanged.quiet hundone.calls))
          (hundone.unchanged.inv hinv)
    | full _ _ _ _ hundone =>
        exact .ofFailed (.single (.quiet hundone.unchanged.quiet hundone.calls))
          (hundone.unchanged.inv hinv)
    | refused _ _ _ _ _ _ hundone =>
        exact .ofFailed (.single (.quiet hundone.unchanged.quiet hundone.calls))
          (hundone.unchanged.inv hinv)
    | overflown _ hbytes hover _ hne hinterns =>
        refine .progressed (.single (.interned hinterns)) rfl (Or.inr (Or.inr ⟨rfl, ?_⟩))
          (hinterns.inv hinv hne)
        exact hover.imp (fun h => h.trans_le (Nat.add_le_add_left hbytes _)) id
    | unnumbered _ _ _ _ _ hne hinterns =>
        exact .progressed (.single (.interned hinterns)) rfl (Or.inr (Or.inl rfl))
          (hinterns.inv hinv hne)

end Calls

end SequenceCache

/-! ## All calls -/

open SequenceCache

/-- The call is a retention that leaves blocks interned. -/
def Operation.Strays : Operation R → SequenceCache R → Prop
  | .retainPrefix sequence tokens snapshot context, cache => Litters cache
      ((Operation.retainPrefix sequence tokens snapshot context).result cache)
  | _, _ => False

/-- The call was given up at an answer that breaks the contract of retirements. -/
def Operation.Breaks (operation : Operation R) (cache : SequenceCache R) : Prop :=
  ∃ failure, operation.result cache = .error failure ∧
    Breached cache failure (operation.step cache)

/-- What is known of a program that may be given up is known of the call that runs it. -/
theorem Operation.breaks_of_ends {α : Type} {program : CacheM R α} {reply : α → Reply R}
    {operation : Operation R} {cache : SequenceCache R}
    {evolves : Except (Failure R.Error) (Reply R) → SequenceCache R → Prop}
    (hrun : operation.run = reply <$> program)
    (h : Ends (program cache) (fun value cache' => evolves (.ok (reply value)) cache')
      (fun failure cache' => evolves (.error failure) cache' ∨
        Breached cache failure cache')) :
    evolves (operation.result cache) (operation.step cache) ∨ operation.Breaks cache := by
  unfold Operation.Breaks
  rw [Operation.result, Operation.step, hrun]
  cases hprogram : program cache with
  | ok value cache' =>
      rw [hprogram] at h
      rw [map_ok reply hprogram]
      exact Or.inl h
  | error failure cache' =>
      rw [hprogram] at h
      rw [map_error reply hprogram]
      exact h.imp_right fun hbreached => ⟨failure, rfl, hbreached⟩

/-- Whatever the backend answers, every call evolves the state or is given up at an answer that
breaks the contract of retirements. -/
theorem Operation.evolves_or_breaks {orphans : List PageId} {stray : List TokenBlockId}
    {cache : SequenceCache R} (hinv : Inv orphans stray cache) (operation : Operation R) :
    Evolves orphans stray (operation.Strays cache) operation.uses operation.opens cache
      (operation.result cache) (operation.step cache) ∨ operation.Breaks cache := by
  cases operation with
  | admitSequence prefixMatch request context restore =>
      exact Operation.breaks_of_ends rfl
        (admitSequence_evolves hinv prefixMatch request context restore rfl)
  | branch source request context =>
      exact Operation.breaks_of_ends rfl (branch_evolves hinv source request context rfl)
  | reserveAppend sequence rows context =>
      have huses : (Operation.reserveAppend sequence rows context).uses sequence context :=
        ⟨rfl, rfl⟩
      exact .inl <| Evolves.ofEnds
        (Ends.mono (reserveAppend_evolves hinv sequence rows context huses)
        (fun _ _ h => .ofProgress h.1 rfl h.2) fun _ _ h => .ofFailed h.2.1 h.2.2)
  | commitAppend reservation rows context =>
      have huses : (Operation.commitAppend reservation rows context).uses reservation.sequence
        context := ⟨rfl, rfl⟩
      exact .inl <| Evolves.ofEnds (Ends.mono (commitAppend_evolves hinv huses)
        (fun _ _ h => .ofProgress h.1 rfl h.2) fun _ _ h => h.evolves hinv)
  | abortAppend reservation context =>
      have huses : (Operation.abortAppend reservation context).uses reservation.sequence context :=
        ⟨rfl, rfl⟩
      exact .inl <| Evolves.ofEnds (Ends.mono (abortAppend_evolves hinv huses)
        (fun _ _ h => .ofProgress h.1 rfl h.2) fun _ _ h => h.evolves hinv)
  | reserveAppendBatch requests contexts =>
      exact .inl <| Evolves.ofEnds (Ends.mono (reserveAppendBatch_evolves hinv requests contexts
        fun item hmem => ⟨item, hmem, rfl, rfl⟩) (fun _ _ h => .ofProgress h.1 rfl h.2)
        fun _ _ h => .ofFailed h.1 h.2)
  | commitAppendBatch reservations rows contexts =>
      refine .inl (Evolves.ofEnds ?_)
      rcases commitAppendBatch_cases reservations rows contexts cache with
        hdismissed | ⟨-, -, -, hfinalizes⟩
      · exact hdismissed.evolves hinv
      · exact hfinalizes.evolves hinv fun item hmem state hstate =>
          commitAppend_evolves hstate ⟨item, hmem, rfl, rfl⟩
  | abortAppendBatch reservations contexts =>
      refine .inl (Evolves.ofEnds ?_)
      rcases abortAppendBatch_cases reservations contexts cache with
        hdismissed | ⟨-, -, hfinalizes⟩
      · exact hdismissed.evolves hinv
      · exact hfinalizes.evolves hinv fun item hmem state hstate =>
          abortAppend_evolves hstate ⟨item, hmem, rfl, rfl⟩
  | withAppendPages reservation operation =>
      refine .inl <| Evolves.ofEnds
        (Ends.mono (withAppendPages_spec hinv reservation operation) ?_ ?_)
      · exact fun _ _ h => .ofProgress (.single h.change) rfl (h.inv hinv)
      · rintro failure cache' (⟨error, -, -, rfl⟩ | ⟨-, hcalled, -⟩)
        · exact .ofFailed .refl hinv
        · exact .ofFailed (.single hcalled.change) (hcalled.inv hinv)
  | withAppendReservations reservations operation =>
      refine .inl <| Evolves.ofEnds (Ends.mono
        (withAppendReservations_spec hinv reservations operation) ?_ ?_)
      · exact fun _ _ h => .ofProgress (.single h.change) rfl (h.inv hinv)
      · rintro failure cache' (⟨_, -, error, -, -, rfl⟩ | ⟨-, hcalled, -⟩)
        · exact .ofFailed .refl hinv
        · exact .ofFailed (.single hcalled.change) (hcalled.inv hinv)
  | retainPrefix sequence tokens snapshot context =>
      have hends := @retainPrefix_evolves R orphans stray
        (Operation.retainPrefix sequence tokens snapshot context).uses
        (Operation.retainPrefix sequence tokens snapshot context).opens cache hinv sequence
        tokens snapshot context
      unfold Operation.Breaks
      simp only [Operation.Strays, Operation.result, Operation.step, Operation.run, Functor.map,
        EStateM.map]
      cases hrun : SequenceCache.retainPrefix sequence tokens snapshot context cache with
      | ok outcome cache' =>
          rw [hrun] at hends
          exact Or.inl hends
      | error failure cache' =>
          rw [hrun] at hends
          exact hends.imp_right fun hbreached => ⟨failure, rfl, hbreached⟩
  | evictPrefix entry context =>
      refine Operation.breaks_of_ends rfl (Ends.mono (evictPrefix_ends hinv entry context) ?_
        fun failure cache' => Or.imp_left ?_)
      · rintro - cache' ⟨hfinal, -, retired, physical, deferred, hevicted⟩
        exact .ofProgress (.single (.evicted hinv hevicted)) rfl hfinal
      · rintro (⟨-, -, rfl⟩ | ⟨-, -, hcalled⟩)
        · exact .ofFailed .refl hinv
        · exact .ofFailed (.single hcalled.change) (hcalled.inv hinv)
  | lookupPrefix tokens =>
      refine .inl <| Evolves.ofEnds (Ends.mono (lookupPrefix_spec hinv tokens) ?_ ?_)
      · exact fun _ _ h => .touched h.1 (h.1.inv hinv)
      · rintro failure cache' ⟨-, -, htouched⟩
        exact .touched htouched (htouched.inv hinv)
  | finish sequence context =>
      refine Operation.breaks_of_ends rfl (Ends.mono (finish_ends hinv sequence context) ?_
        fun failure cache' => Or.imp_left ?_)
      · rintro - cache' ⟨hfinal, record, physical, deferred, hfinished⟩
        exact .ofProgress (.single (.finished hinv hfinished)) rfl hfinal
      · rintro (⟨-, -, rfl⟩ | ⟨record, -, ⟨-, -, rfl⟩ | ⟨-, -, rfl⟩ | ⟨-, hcalled⟩⟩)
        · exact .ofFailed .refl hinv
        · exact .ofFailed .refl hinv
        · exact .ofFailed .refl hinv
        · exact .ofFailed (.single hcalled.change) (hcalled.inv hinv)
  | reclaimDeferred context =>
      refine .inl <| Evolves.ofEnds (Ends.mono (reclaimDeferred_spec hinv context) ?_ ?_)
      · exact fun _ _ h => .ofProgress (.single (.reclaimed hinv h.2)) rfl h.1
      · exact fun _ _ h => .ofFailed (.single h.2.change) (h.2.inv hinv)

theorem Operation.evolves (hlaw : R.Retires) {orphans : List PageId} {stray : List TokenBlockId}
    {cache : SequenceCache R} (hinv : Inv orphans stray cache) (operation : Operation R) :
    Evolves orphans stray (operation.Strays cache) operation.uses operation.opens cache
      (operation.result cache) (operation.step cache) := by
  refine (operation.evolves_or_breaks hinv).resolve_right ?_
  rintro ⟨failure, -, hbreached⟩
  exact not_breached hlaw failure _ hbreached

end SeqCache
