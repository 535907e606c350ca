import Mathlib

/-!
# Ledgers

A ledger lists what happened, the latest entry first.  An entry credits items, which are
then outstanding, and debits items, which are so no longer.  While nothing outstanding is
credited again, an item is outstanding at most once.
-/

namespace SeqCache.Ledger

variable {Entry Item : Type*} (credits debits : Entry → List Item)

/-- Everything credited so far, with multiplicity. -/
def credited (ledger : List Entry) : List Item := ledger.flatMap credits

section Counts

variable [DecidableEq Item]

/-- More of the item was credited than debited. -/
def Outstanding (ledger : List Entry) (item : Item) : Prop :=
  (credited debits ledger).count item < (credited credits ledger).count item

instance (ledger : List Entry) (item : Item) :
    Decidable (Outstanding credits debits ledger item) :=
  inferInstanceAs (Decidable (_ < _))

/-- Every entry credits only items that are not outstanding, each at most once. -/
def Fresh : List Entry → Prop
  | [] => True
  | entry :: earlier => Fresh earlier ∧ (credits entry).Nodup ∧
      ∀ item ∈ credits entry, ¬ Outstanding credits debits earlier item

instance Fresh.decidable : (ledger : List Entry) → Decidable (Fresh credits debits ledger)
  | [] => inferInstanceAs (Decidable True)
  | _ :: earlier =>
      have := Fresh.decidable earlier
      inferInstanceAs (Decidable (Fresh credits debits earlier ∧ _))

variable {credits debits} {ledger : List Entry} {item : Item} {held : List Item}

/-- What remains of a list after a difference is bounded by any list that accounts for it. -/
theorem length_diff_le {out back rest : List Item}
    (h : ∀ item, out.count item ≤ back.count item + rest.count item) :
    (out.diff back).length ≤ rest.length := by
  have hsub : (out.diff back).Subperm rest := by
    refine List.subperm_ext_iff.mpr fun item _ => ?_
    have hcount := h item
    rw [List.count_diff]
    omega
  exact hsub.length_le

theorem count_credited_append (view : Entry → List Item) (added ledger : List Entry)
    (item : Item) : (credited view (added ++ ledger)).count item =
      (credited view added).count item + (credited view ledger).count item := by
  rw [credited, List.flatMap_append, List.count_append]
  rfl

theorem Fresh.of_append {added : List Entry} (h : Fresh credits debits (added ++ ledger)) :
    Fresh credits debits ledger := by
  induction added with
  | nil => exact h
  | cons entry rest ih => exact ih h.1

/-- An item is outstanding at most once. -/
theorem Fresh.count_le (h : Fresh credits debits ledger) (item : Item) :
    (credited credits ledger).count item ≤ (credited debits ledger).count item + 1 := by
  induction ledger with
  | nil => exact Nat.zero_le _
  | cons entry earlier ih =>
      obtain ⟨hearlier, hnodup, hfresh⟩ := h
      have hcredit := count_credited_append credits [entry] earlier item
      have hdebit := count_credited_append debits [entry] earlier item
      rw [List.singleton_append] at hcredit hdebit
      by_cases hmem : item ∈ credits entry
      · have hold := Nat.le_of_not_lt (hfresh item hmem)
        have hone : (credited credits [entry]).count item ≤ 1 := by
          rw [credited, List.flatMap_singleton]
          exact List.nodup_iff_count_le_one.mp hnodup item
        omega
      · have hzero : (credited credits [entry]).count item = 0 := by
          rw [credited, List.flatMap_singleton]
          exact List.count_eq_zero.mpr hmem
        have hold := ih hearlier
        omega

/-- What is not debited is held without repetition, and is outstanding. -/
theorem Fresh.nodup_of_perm (h : Fresh credits debits ledger)
    (hperm : (credited credits ledger).Perm (credited debits ledger ++ held)) : held.Nodup := by
  refine List.nodup_iff_count_le_one.mpr fun item => ?_
  have hcount := hperm.count_eq item
  rw [List.count_append] at hcount
  have hle := h.count_le item
  omega

theorem outstanding_iff_mem
    (hperm : (credited credits ledger).Perm (credited debits ledger ++ held)) :
    Outstanding credits debits ledger item ↔ item ∈ held := by
  have hcount := hperm.count_eq item
  rw [List.count_append] at hcount
  rw [Outstanding, hcount, Nat.lt_add_right_iff_pos, List.count_pos_iff]

end Counts

end SeqCache.Ledger
