import Mathlib

/-!
# Books

Writers keep lists of rows that grow: rows are drafted first, and a commit adopts the first
of them.  Readers hold finished lists.  The rows are of any type, so that the same books
can be kept over places and over what is stored there.
-/

namespace SeqCache

/-- The rows of a writer, and those of an append in progress. -/
@[ext]
structure Account (Row : Type*) where
  rows : List Row
  draft : Option (List Row)
  deriving DecidableEq

/-- The lists of all writers and readers. -/
@[ext]
structure Books (Writer Reader Row : Type*) where
  accounts : Writer → Option (Account Row)
  frozen : Reader → Option (List Row)

namespace Account

variable {Row Row' : Type*}

/-- Adopt the first `count` drafted rows and drop the others. -/
def commit (account : Account Row) (count : ℕ) : Account Row :=
  ⟨account.rows ++ (account.draft.getD []).take count, none⟩

def map (view : Row → Row') (account : Account Row) : Account Row' :=
  ⟨account.rows.map view, account.draft.map (List.map view)⟩

/-- Everything but the contents of the draft. -/
def outline (account : Account Row) : List Row × Option ℕ :=
  (account.rows, account.draft.map List.length)

theorem map_commit (view : Row → Row') (account : Account Row) (count : ℕ) :
    (account.commit count).map view = (account.map view).commit count := by
  rw [map, commit, map, commit, List.map_append, List.map_take]
  cases account.draft <;> rfl

end Account

namespace Books

variable {Writer Reader Row Row' : Type*}

/-- Look at every row through `view`. -/
def map (view : Row → Row') (books : Books Writer Reader Row) : Books Writer Reader Row' where
  accounts := Option.map (Account.map view) ∘ books.accounts
  frozen := Option.map (List.map view) ∘ books.frozen

/-! ## Entries -/

section Accounts

variable [DecidableEq Writer]

def write (books : Books Writer Reader Row) (writer : Writer) (account : Option (Account Row)) :
    Books Writer Reader Row :=
  { books with accounts := Function.update books.accounts writer account }

/-- A writer appears with its first rows. -/
def enroll (books : Books Writer Reader Row) (writer : Writer) (rows : List Row) :
    Books Writer Reader Row :=
  books.write writer (some ⟨rows, none⟩)

/-- A writer starts to draft. -/
def reserve (books : Books Writer Reader Row) (writer : Writer) (draft : List Row) :
    Books Writer Reader Row :=
  books.write writer ((books.accounts writer).map fun account => ⟨account.rows, some draft⟩)

/-- A writer adopts the first `count` drafted rows. -/
def commit (books : Books Writer Reader Row) (writer : Writer) (count : ℕ) :
    Books Writer Reader Row :=
  books.write writer ((books.accounts writer).map fun account => account.commit count)

def dismiss (books : Books Writer Reader Row) (writer : Writer) : Books Writer Reader Row :=
  books.write writer none

variable (view : Row → Row') (books : Books Writer Reader Row) (writer : Writer)

@[simp]
theorem accounts_enroll_self (rows : List Row) :
    (books.enroll writer rows).accounts writer = some ⟨rows, none⟩ :=
  Function.update_self _ _ _

theorem map_write (account : Option (Account Row)) :
    (books.write writer account).map view =
      (books.map view).write writer (account.map (Account.map view)) :=
  congrArg (fun accounts => Books.mk accounts _) (Function.comp_update _ _ _ _)

theorem map_enroll (rows : List Row) :
    (books.enroll writer rows).map view = (books.map view).enroll writer (rows.map view) :=
  books.map_write view writer _

theorem map_reserve (draft : List Row) :
    (books.reserve writer draft).map view = (books.map view).reserve writer (draft.map view) := by
  rw [reserve, reserve, map_write, Option.map_map]
  change _ = (books.map view).write writer
    (((books.accounts writer).map (Account.map view)).map fun account =>
      ⟨account.rows, some (draft.map view)⟩)
  rw [Option.map_map]
  rfl

theorem map_commit (count : ℕ) :
    (books.commit writer count).map view = (books.map view).commit writer count := by
  rw [commit, commit, map_write, Option.map_map]
  change _ = (books.map view).write writer
    (((books.accounts writer).map (Account.map view)).map fun account => account.commit count)
  rw [Option.map_map]
  refine congrArg (fun change => (books.map view).write writer
    ((books.accounts writer).map change)) ?_
  funext account
  exact account.map_commit view count

theorem map_dismiss :
    (books.dismiss writer).map view = (books.map view).dismiss writer :=
  books.map_write view writer _

/-- The writer, who was idle, drafts `count` rows. -/
def Reserves (writer : Writer) (count : ℕ) (books books' : Books Writer Reader Row) : Prop :=
  ∃ rows draft, books.accounts writer = some ⟨rows, none⟩ ∧ draft.length = count ∧
    books' = books.reserve writer draft

/-- The writer adopts the first `count` rows of the draft. -/
def Commits (writer : Writer) (count : ℕ) (books books' : Books Writer Reader Row) : Prop :=
  ∃ rows draft, books.accounts writer = some ⟨rows, some draft⟩ ∧ count ≤ draft.length ∧
    books' = books.commit writer count

variable {books} {writer} {books' : Books Writer Reader Row} {count : ℕ}

theorem Reserves.map (h : Reserves writer count books books') :
    Reserves writer count (books.map view) (books'.map view) := by
  obtain ⟨rows, draft, haccount, hlength, rfl⟩ := h
  refine ⟨rows.map view, draft.map view, ?_, by rw [List.length_map, hlength],
    books.map_reserve view writer draft⟩
  exact congrArg (Option.map (Account.map view)) haccount

theorem Commits.map (h : Commits writer count books books') :
    Commits writer count (books.map view) (books'.map view) := by
  obtain ⟨rows, draft, haccount, hle, rfl⟩ := h
  refine ⟨rows.map view, draft.map view, ?_, by rwa [List.length_map],
    books.map_commit view writer count⟩
  exact congrArg (Option.map (Account.map view)) haccount

end Accounts

/-- The listed changes, one after the other. -/
inductive Each {ι σ : Type*} (change : ι → σ → σ → Prop) : List ι → σ → σ → Prop
  | nil {state : σ} : Each change [] state state
  | cons {item : ι} {rest : List ι} {state middle final : σ} : change item state middle →
      Each change rest middle final → Each change (item :: rest) state final

theorem Each.map {ι σ τ : Type*} {change : ι → σ → σ → Prop} {change' : ι → τ → τ → Prop}
    (view : σ → τ) (h : ∀ item state state', change item state state' →
      change' item (view state) (view state')) {items : List ι} {state state' : σ}
    (heach : Each change items state state') : Each change' items (view state) (view state') := by
  induction heach with
  | nil => exact .nil
  | cons hchange _ ih => exact .cons (h _ _ _ hchange) ih

theorem Each.of_map {ι κ σ : Type*} {change : κ → σ → σ → Prop} {view : ι → κ} {items : List ι}
    {state state' : σ} (h : Each (fun item => change (view item)) items state state') :
    Each change (items.map view) state state' := by
  induction h with
  | nil => exact .nil
  | cons hchange _ ih => exact .cons hchange ih

section Frozen

variable [DecidableEq Reader]

def freeze (books : Books Writer Reader Row) (reader : Reader) (rows : List Row) :
    Books Writer Reader Row :=
  { books with frozen := Function.update books.frozen reader (some rows) }

/-- The lists of the listed readers go. -/
def discard (books : Books Writer Reader Row) (readers : List Reader) :
    Books Writer Reader Row :=
  { books with frozen := fun reader => if reader ∈ readers then none else books.frozen reader }

variable (view : Row → Row') (books : Books Writer Reader Row)

@[simp]
theorem frozen_freeze_self (reader : Reader) (rows : List Row) :
    (books.freeze reader rows).frozen reader = some rows :=
  Function.update_self _ _ _

theorem map_freeze (reader : Reader) (rows : List Row) :
    (books.freeze reader rows).map view = (books.map view).freeze reader (rows.map view) :=
  congrArg (Books.mk _) (Function.comp_update _ _ _ _)

theorem map_discard (readers : List Reader) :
    (books.discard readers).map view = (books.map view).discard readers := by
  refine congrArg (Books.mk _) ?_
  funext reader
  exact apply_ite _ _ _ _

end Frozen

/-! ## Drafts -/

/-- The books differ at most in the contents of drafts. -/
structure Redrafted (books books' : Books Writer Reader Row) : Prop where
  accounts : ∀ writer, (books'.accounts writer).map Account.outline =
    (books.accounts writer).map Account.outline
  frozen : books'.frozen = books.frozen

/-- The row is committed or frozen. -/
def Covers (books : Books Writer Reader Row) (row : Row) : Prop :=
  (∃ writer account, books.accounts writer = some account ∧ row ∈ account.rows) ∨
    ∃ reader rows, books.frozen reader = some rows ∧ row ∈ rows

/-- Adding the same account to both. -/
theorem Redrafted.write [DecidableEq Writer] {books books' : Books Writer Reader Row}
    (h : Redrafted books books') (writer : Writer) (account : Option (Account Row)) :
    Redrafted (books.write writer account) (books'.write writer account) := by
  refine ⟨fun other => ?_, h.frozen⟩
  change (Function.update books'.accounts writer account other).map _ =
    (Function.update books.accounts writer account other).map _
  by_cases heq : other = writer
  · subst heq
    rw [Function.update_self, Function.update_self]
  · rw [Function.update_of_ne heq, Function.update_of_ne heq, h.accounts]

/-- Views that agree on everything committed or frozen differ in drafts only. -/
theorem redrafted_map {books : Books Writer Reader Row} {view view' : Row → Row'}
    (h : ∀ row, books.Covers row → view' row = view row) :
    Redrafted (books.map view) (books.map view') := by
  constructor
  · intro writer
    change ((books.accounts writer).map _).map _ = ((books.accounts writer).map _).map _
    rw [Option.map_map, Option.map_map]
    cases haccount : books.accounts writer with
    | none => rfl
    | some account =>
        have hrows : account.rows.map view' = account.rows.map view :=
          List.map_congr_left fun row hmem => h row (Or.inl ⟨writer, account, haccount, hmem⟩)
        have hdraft : (account.draft.map (List.map view')).map List.length =
            (account.draft.map (List.map view)).map List.length := by
          cases account.draft with
          | none => rfl
          | some draft => simp
        exact congrArg some (Prod.ext hrows hdraft)
  · funext reader
    change (books.frozen reader).map _ = (books.frozen reader).map _
    cases hrows : books.frozen reader with
    | none => rfl
    | some rows =>
        exact congrArg some
          (List.map_congr_left fun row hmem => h row (Or.inr ⟨reader, rows, hrows, hmem⟩))

/-! ## Growth -/

/-- Who is in both books has lost no row, and what is frozen in both is the same. -/
structure Extends (books books' : Books Writer Reader Row) : Prop where
  accounts : ∀ writer account account', books.accounts writer = some account →
    books'.accounts writer = some account' → account.rows <+: account'.rows
  frozen : ∀ reader rows rows', books.frozen reader = some rows →
    books'.frozen reader = some rows' → rows' = rows

/-- Every writer stays, and has lost no row. -/
structure Appends (books books' : Books Writer Reader Row) : Prop where
  accounts : ∀ writer account, books.accounts writer = some account →
    ∃ account', books'.accounts writer = some account' ∧ account.rows <+: account'.rows
  frozen : books'.frozen = books.frozen

variable {books books' books'' : Books Writer Reader Row}

theorem Appends.refl (books : Books Writer Reader Row) : books.Appends books :=
  ⟨fun _ account h => ⟨account, h, List.prefix_rfl⟩, rfl⟩

theorem Appends.trans (h : books.Appends books') (h' : books'.Appends books'') :
    books.Appends books'' := by
  refine ⟨fun writer account haccount => ?_, h'.frozen.trans h.frozen⟩
  obtain ⟨middle, hmiddle, hfirst⟩ := h.accounts writer account haccount
  obtain ⟨account', haccount', hsecond⟩ := h'.accounts writer middle hmiddle
  exact ⟨account', haccount', hfirst.trans hsecond⟩

theorem Appends.extends (h : books.Appends books') : books.Extends books' := by
  constructor
  · intro writer account account' haccount haccount'
    obtain ⟨found, hfound, hrows⟩ := h.accounts writer account haccount
    exact Option.some.inj (hfound.symm.trans haccount') ▸ hrows
  · intro reader rows rows' hrows hrows'
    rw [h.frozen, hrows] at hrows'
    exact (Option.some.inj hrows').symm

theorem Extends.refl (books : Books Writer Reader Row) : books.Extends books :=
  (Appends.refl books).extends

/-- Other drafts make no difference. -/
theorem Extends.redrafted (h : books.Extends books') (hdrafts : books'.Redrafted books'') :
    books.Extends books'' := by
  constructor
  · intro writer account account'' haccount haccount''
    have houtline := hdrafts.accounts writer
    rw [haccount'', Option.map_some] at houtline
    obtain ⟨account', haccount', hsame⟩ := Option.map_eq_some_iff.mp houtline.symm
    have hrows : account'.rows = account''.rows := congrArg Prod.fst hsame
    exact hrows ▸ h.accounts writer account account' haccount haccount'
  · intro reader rows rows'' hrows hrows''
    rw [hdrafts.frozen] at hrows''
    exact h.frozen reader rows rows'' hrows hrows''

section Accounts

variable [DecidableEq Writer] {writer : Writer} {count : ℕ}

theorem appends_write {account account' : Account Row} (h : books.accounts writer = some account)
    (hrows : account.rows <+: account'.rows) :
    books.Appends (books.write writer (some account')) := by
  refine ⟨fun other found hfound => ?_, rfl⟩
  change ∃ found', Function.update books.accounts writer (some account') other = some found' ∧ _
  by_cases heq : other = writer
  · subst heq
    rw [Function.update_self]
    exact ⟨account', rfl, Option.some.inj (h.symm.trans hfound) ▸ hrows⟩
  · rw [Function.update_of_ne heq]
    exact ⟨found, hfound, List.prefix_rfl⟩

theorem Reserves.appends (h : Reserves writer count books books') : books.Appends books' := by
  obtain ⟨rows, draft, haccount, -, rfl⟩ := h
  rw [reserve, haccount]
  exact appends_write haccount List.prefix_rfl

theorem Commits.appends (h : Commits writer count books books') : books.Appends books' := by
  obtain ⟨rows, draft, haccount, -, rfl⟩ := h
  rw [commit, haccount]
  exact appends_write haccount (List.prefix_append _ _)

omit [DecidableEq Writer] in
/-- What every single change does, all of them do. -/
theorem Each.appends {ι : Type*} {change : ι → Books Writer Reader Row →
    Books Writer Reader Row → Prop} (hchange : ∀ item books books', change item books books' →
      books.Appends books') {items : List ι} (h : Each change items books books') :
    books.Appends books' := by
  induction h with
  | nil => exact .refl _
  | cons hfirst _ ih => exact (hchange _ _ _ hfirst).trans ih

theorem extends_dismiss (books : Books Writer Reader Row) (writer : Writer) :
    books.Extends (books.dismiss writer) := by
  refine ⟨fun other account account' haccount haccount' => ?_, fun _ rows rows' hrows hrows' =>
    Option.some.inj (hrows'.symm.trans hrows)⟩
  change Function.update books.accounts writer none other = some account' at haccount'
  by_cases heq : other = writer
  · subst heq
    rw [Function.update_self] at haccount'
    cases haccount'
  · rw [Function.update_of_ne heq, haccount] at haccount'
    exact Option.some.inj haccount' ▸ List.prefix_rfl

end Accounts

section Frozen

variable [DecidableEq Reader]

theorem extends_discard (books : Books Writer Reader Row) (readers : List Reader) :
    books.Extends (books.discard readers) := by
  refine ⟨fun _ account account' haccount haccount' => ?_, fun reader rows rows' hrows hrows' => ?_⟩
  · exact Option.some.inj (haccount.symm.trans haccount') ▸ List.prefix_rfl
  · change (if reader ∈ readers then none else books.frozen reader) = some rows' at hrows'
    split_ifs at hrows'
    exact Option.some.inj (hrows'.symm.trans hrows)

theorem extends_freeze {reader : Reader} (hnew : books.frozen reader = none)
    (readers : List Reader) (rows : List Row) :
    books.Extends ((books.discard readers).freeze reader rows) := by
  refine ⟨(books.extends_discard readers).accounts, fun other found found' hfound hfound' => ?_⟩
  change Function.update (books.discard readers).frozen reader (some rows) other =
    some found' at hfound'
  by_cases heq : other = reader
  · subst heq
    rw [hnew] at hfound
    cases hfound
  · rw [Function.update_of_ne heq] at hfound'
    exact (books.extends_discard readers).frozen other found found' hfound hfound'

theorem extends_enroll [DecidableEq Writer] {writer : Writer}
    (hnew : books.accounts writer = none) (readers : List Reader) (rows : List Row) :
    books.Extends ((books.discard readers).enroll writer rows) := by
  refine ⟨fun other found found' hfound hfound' => ?_, (books.extends_discard readers).frozen⟩
  change Function.update books.accounts writer (some ⟨rows, none⟩) other = some found' at hfound'
  by_cases heq : other = writer
  · subst heq
    rw [hnew] at hfound
    cases hfound
  · rw [Function.update_of_ne heq, hfound] at hfound'
    exact Option.some.inj hfound' ▸ List.prefix_rfl

end Frozen

end Books

end SeqCache
