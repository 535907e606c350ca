import SeqCache.Core.Arena

/-!
# The runtime the cache is built over

The cache is generic over a page backend, a snapshot type and a radix tree from a
third-party crate.  All three are parameters here.

A backend answers a call by its private state, which is determined by the calls it has
received.  `History` records these calls with their arguments and answers, so a backend
is a family of functions of the history: nothing is assumed about them except what
`Lawful` states.  The history doubles as the trace over which conservation of physical
pages and publication of page tables are stated.
-/

namespace SeqCache

/-- One physical segment covered by a pending append transaction. -/
structure BackendAppendPage (Page : Type) where
  page : Page
  pageOffset : ℕ
  inputOffset : ℕ
  rows : ℕ
  existing : Bool
  deriving DecidableEq

/-- Backend-visible result of committing a reserved append prefix. -/
structure BackendAppendCommit (Page : Type) where
  committedPages : List Page
  sealedPages : List Page
  releasedPages : List Page
  rows : ℕ
  position : ℕ
  deriving DecidableEq

/-- An all-or-nothing retirement failure, handing every page back. -/
structure RetireError (Error Page : Type) where
  error : Error
  pages : List Page

/-- Successful ownership transfer for a retirement batch. -/
structure RetireOutcome where
  deferredPages : ℕ
  deriving DecidableEq

/-- One call received by a backend, with its arguments and its answer. -/
inductive BackendEvent (Page Context Transaction Error : Type)
  | allocatePage (context : Context) (answer : Except Error Page)
  | rollbackPage (context : Context) (page : Page)
  | prepareAppend (context : Context) (pages : List (BackendAppendPage Page))
      (startPosition : ℕ) (answer : Except Error Transaction)
  | abortAppend (context : Context) (restoredPages releasedPages : List Page)
      (restoredPosition : ℕ) (answer : Except Error Unit)
  | copyPartialPage (context : Context) (source : Page) (validTokens : ℕ)
      (answer : Except Error Page)
  | commitAppend (context : Context) (commit : BackendAppendCommit Page)
      (answer : Except Error Unit)
  | updatePageTable (context : Context) (pages : List Page) (position : ℕ)
      (answer : Except Error Unit)
  | retirePages (context : Context) (pages : List Page)
      (answer : Except (RetireError Error Page) RetireOutcome)
  | pollReclaimed (context : Context) (answer : Except Error ℕ)
  | withAppendPages (pages : List Page)

/-- Calls received so far, most recent first. -/
abbrev BackendHistory (Page Context Transaction Error : Type) :=
  List (BackendEvent Page Context Transaction Error)

/-- The `PageBackend` trait.  `commitAppend` and `abortAppend` may change the
transaction they are given, whether or not they succeed. -/
structure PageBackend where
  Page : Type
  Context : Type
  AppendTransaction : Type
  Error : Type
  pageBytes : ℕ
  pageCapacity : Option ℕ
  allocatePage : BackendHistory Page Context AppendTransaction Error → Context →
    Except Error Page
  prepareAppend : BackendHistory Page Context AppendTransaction Error → Context →
    List (BackendAppendPage Page) → ℕ → Except Error AppendTransaction
  abortAppend : BackendHistory Page Context AppendTransaction Error → Context →
    AppendTransaction → List Page → List Page → ℕ → Except Error Unit × AppendTransaction
  copyPartialPage : BackendHistory Page Context AppendTransaction Error → Context →
    Page → ℕ → Except Error Page
  commitAppend : BackendHistory Page Context AppendTransaction Error → Context →
    AppendTransaction → BackendAppendCommit Page → Except Error Unit × AppendTransaction
  updatePageTable : BackendHistory Page Context AppendTransaction Error → Context →
    List Page → ℕ → Except Error Unit
  retirePages : BackendHistory Page Context AppendTransaction Error → Context →
    List Page → Except (RetireError Error Page) RetireOutcome
  retirementIsImmediate : BackendHistory Page Context AppendTransaction Error → Bool
  pollReclaimed : BackendHistory Page Context AppendTransaction Error → Context →
    Except Error ℕ

/-- The `RetainedSnapshot` trait. -/
structure RetainedSnapshot where
  Snapshot : Type
  retainedBytes : Snapshot → ℕ

abbrev Byte := Fin 256

/-- The adaptive radix tree behind the prefix index.  The laws are its documented
behaviour: a finite map on byte strings, with the longest stored prefix of a query. -/
structure RadixTree where
  Tree : Type
  newTree : Tree
  getBytes : Tree → List Byte → Option ℕ
  longestPrefixValueBytes : Tree → List Byte → Option ℕ
  insertK : Tree → List Byte → ℕ → Tree
  removeK : Tree → List Byte → Tree
  getBytes_newTree : ∀ key, getBytes newTree key = none
  getBytes_insertK : ∀ tree key value other, getBytes (insertK tree key value) other =
    if other = key then some value else getBytes tree other
  getBytes_removeK : ∀ tree key other, getBytes (removeK tree key) other =
    if other = key then none else getBytes tree other
  longestPrefixValueBytes_eq_some : ∀ tree query value,
    longestPrefixValueBytes tree query = some value ↔
      ∃ key, key <+: query ∧ getBytes tree key = some value ∧
        ∀ other, other <+: query → (getBytes tree other).isSome → other.length ≤ key.length

/-- Everything the cache is generic over, together with the iteration order of the
standard hash map, which is unspecified and may change from call to call. -/
structure Runtime extends PageBackend, RetainedSnapshot, RadixTree where
  hashOrder : BackendHistory Page Context AppendTransaction Error → List Handle → List Handle
  hashOrder_perm : ∀ history ids, (hashOrder history ids).Perm ids

namespace Runtime

variable (R : Runtime)

abbrev Event := BackendEvent R.Page R.Context R.AppendTransaction R.Error

abbrev History := BackendHistory R.Page R.Context R.AppendTransaction R.Error

end Runtime

/-! ## What a history says -/

section History

variable {Page Context Transaction Error : Type}

/-- Physical pages a call obtained from the backend. -/
def BackendEvent.acquired : BackendEvent Page Context Transaction Error → List Page
  | .allocatePage _ (.ok page) => [page]
  | .copyPartialPage _ _ _ (.ok page) => [page]
  | _ => []

/-- Physical pages a call gave back to the backend. -/
def BackendEvent.returned : BackendEvent Page Context Transaction Error → List Page
  | .rollbackPage _ page => [page]
  | .retirePages _ pages (.ok _) => pages
  | .commitAppend _ commit (.ok _) => commit.releasedPages
  | .abortAppend _ _ releasedPages _ (.ok _) => releasedPages
  | _ => []

/-- Every physical page ever handed out, with multiplicity. -/
def handedOut (history : BackendHistory Page Context Transaction Error) : List Page :=
  history.flatMap BackendEvent.acquired

/-- Every physical page ever handed back, with multiplicity. -/
def handedBack (history : BackendHistory Page Context Transaction Error) : List Page :=
  history.flatMap BackendEvent.returned

/-- Retired pages the backend has reported as deferred and not yet as reclaimed.  A report
of more reclaimed pages than were deferred is not accepted. -/
def deferredTotal : BackendHistory Page Context Transaction Error → ℕ
  | [] => 0
  | .retirePages _ _ (.ok outcome) :: earlier => deferredTotal earlier + outcome.deferredPages
  | .pollReclaimed _ (.ok reclaimed) :: earlier =>
      if reclaimed ≤ deferredTotal earlier then deferredTotal earlier - reclaimed
      else deferredTotal earlier
  | _ :: earlier => deferredTotal earlier

end History

/-- The answer to a retirement keeps its contract: a failure hands every page back, and at
most the retired pages are deferred. -/
def KeepsContract {Error Page : Type} (pages : List Page) :
    Except (RetireError Error Page) RetireOutcome → Prop
  | .error failure => failure.pages = pages
  | .ok outcome => outcome.deferredPages ≤ pages.length

section Answers

variable {Page Context Transaction Error : Type}

/-- Every retirement so far was answered within its contract. -/
def RetiredHonestly (history : BackendHistory Page Context Transaction Error) : Prop :=
  ∀ context pages answer, .retirePages context pages answer ∈ history → KeepsContract pages answer

/-- Some retirement was answered with more deferred pages than it was handed. -/
def Overstated (history : BackendHistory Page Context Transaction Error) : Prop :=
  ∃ context pages outcome, .retirePages context pages (.ok outcome) ∈ history ∧
    pages.length < outcome.deferredPages

end Answers

/-- The contract of a retirement, for every answer a backend can give. -/
structure PageBackend.Retires (B : PageBackend) : Prop where
  retire_failure : ∀ history context pages failure,
    B.retirePages history context pages = .error failure → failure.pages = pages
  retire_deferred : ∀ history context pages outcome,
    B.retirePages history context pages = .ok outcome → outcome.deferredPages ≤ pages.length

theorem PageBackend.Retires.keepsContract {B : PageBackend} (h : B.Retires)
    (history : BackendHistory B.Page B.Context B.AppendTransaction B.Error) (context : B.Context)
    (pages : List B.Page) : KeepsContract pages (B.retirePages history context pages) := by
  cases hanswer : B.retirePages history context pages with
  | error failure => exact h.retire_failure _ _ _ _ hanswer
  | ok outcome => exact h.retire_deferred _ _ _ _ hanswer

/-- The contract of the `PageBackend` trait.  That a failing allocation, copy or
publication has no effect is part of the types: the answer carries no page. -/
structure PageBackend.Lawful (B : PageBackend) : Prop extends B.Retires where
  poll_reclaimed : ∀ history context reclaimed,
    B.pollReclaimed history context = .ok reclaimed → reclaimed ≤ deferredTotal history

/-- A call between the planning of evictions and their retirement: a branch copies the tail
of its source, and admissions publish a page table. -/
def BackendEvent.isPreparation {Page Context Transaction Error : Type} :
    BackendEvent Page Context Transaction Error → Bool
  | .copyPartialPage _ _ _ (.ok _) => true
  | .updatePageTable _ _ _ (.ok _) => true
  | _ => false

/-- A call that hands retired pages over. -/
def BackendEvent.isRetirement {Page Context Transaction Error : Type} :
    BackendEvent Page Context Transaction Error → Bool
  | .retirePages _ _ _ => true
  | _ => false

theorem BackendEvent.isRetirement_of_isPreparation {Page Context Transaction Error : Type}
    {event : BackendEvent Page Context Transaction Error} (h : event.isPreparation = true) :
    event.isRetirement = false := by
  cases event with
  | retirePages => cases h
  | _ => rfl

/-- What the backend answers to `retirement_is_immediate` while evictions are planned binds
it when they are carried out. -/
structure PageBackend.ImmediateHonest (B : PageBackend) : Prop where
  never_deferred : ∀ history prepared context pages outcome,
    B.retirementIsImmediate history = true → (∀ event ∈ prepared, event.isPreparation = true) →
    B.retirePages (prepared ++ history) context pages = .ok outcome → outcome.deferredPages = 0

/-- The answer to `retirement_is_immediate` never changes. -/
def PageBackend.SteadyRetirement (B : PageBackend) : Prop :=
  ∀ history history', B.retirementIsImmediate history = B.retirementIsImmediate history'

end SeqCache
