import Mathlib

/-!
# Paged rows

A table of pages of equal size holds consecutive rows.  The rows between two positions are
listed page by page, each as a page and the offset in it.
-/

namespace SeqCache.Paging

variable {Page : Type*} {pageRows start middle stop n count : ℕ} {table : List Page}

/-- Offsets in the `n`-th page of the rows between `start` and `stop`. -/
def offsets (pageRows start stop n : ℕ) : List ℕ :=
  List.range' (max start (n * pageRows) - n * pageRows)
    (min stop ((n + 1) * pageRows) - max start (n * pageRows))

/-- Rows between `start` and `stop` of a table whose first page is the `n`-th. -/
def rowsBetween (pageRows start stop : ℕ) : ℕ → List Page → List (Page × ℕ)
  | _, [] => []
  | n, page :: rest =>
      (offsets pageRows start stop n).map (page, ·) ++ rowsBetween pageRows start stop (n + 1) rest

theorem offsets_of_le (h : stop ≤ n * pageRows) : offsets pageRows start stop n = [] := by
  rw [offsets, List.range'_eq_nil_iff]
  omega

theorem offsets_of_ge (h : (n + 1) * pageRows ≤ start) : offsets pageRows start stop n = [] := by
  rw [offsets, List.range'_eq_nil_iff]
  omega

theorem offsets_append (hmiddle : start ≤ middle) (hstop : middle ≤ stop) :
    offsets pageRows start middle n ++ offsets pageRows middle stop n =
      offsets pageRows start stop n := by
  have hsucc : (n + 1) * pageRows = n * pageRows + pageRows := Nat.succ_mul n pageRows
  by_cases hlow : middle ≤ n * pageRows
  · rw [offsets_of_le hlow, List.nil_append, offsets, offsets, Nat.max_eq_right hlow,
      Nat.max_eq_right (hmiddle.trans hlow)]
  by_cases hhigh : (n + 1) * pageRows ≤ middle
  · rw [offsets_of_ge hhigh, List.append_nil, offsets, offsets, Nat.min_eq_right hhigh,
      Nat.min_eq_right (hhigh.trans hstop)]
  have hfirst : max middle (n * pageRows) - n * pageRows = max start (n * pageRows) -
      n * pageRows + (min middle ((n + 1) * pageRows) - max start (n * pageRows)) := by omega
  have hcount : min stop ((n + 1) * pageRows) - max start (n * pageRows) =
      min middle ((n + 1) * pageRows) - max start (n * pageRows) +
        (min stop ((n + 1) * pageRows) - max middle (n * pageRows)) := by omega
  rw [offsets, offsets, offsets, hfirst, hcount, List.range'_append_1]

/-- Pages from `stop` on hold none of the rows. -/
theorem rowsBetween_of_le (h : stop ≤ n * pageRows) (table : List Page) :
    rowsBetween pageRows start stop n table = [] := by
  induction table generalizing n with
  | nil => rfl
  | cons page rest ih =>
      have hnext : stop ≤ (n + 1) * pageRows := h.trans (Nat.mul_le_mul_right _ (Nat.le_succ n))
      rw [rowsBetween, offsets_of_le h, ih hnext]
      rfl

/-- Rows up to a middle position, and the rows from there on. -/
theorem rowsBetween_append (hmiddle : start ≤ middle) (hstop : middle ≤ stop) (n : ℕ)
    (table : List Page) :
    rowsBetween pageRows start middle n table ++ rowsBetween pageRows middle stop n table =
      rowsBetween pageRows start stop n table := by
  induction table generalizing n with
  | nil => rfl
  | cons page rest ih =>
      rw [rowsBetween, rowsBetween, rowsBetween, ← offsets_append hmiddle hstop, ← ih (n + 1)]
      by_cases hle : middle ≤ (n + 1) * pageRows
      · rw [rowsBetween_of_le hle, List.append_nil, List.nil_append, List.map_append,
          List.append_assoc]
      · have hge : (n + 1) * pageRows ≤ middle := Nat.le_of_not_le hle
        rw [offsets_of_ge hge, List.append_nil, List.map_nil, List.nil_append, List.append_assoc]

theorem length_rowsBetween (n : ℕ) (table : List Page) :
    (rowsBetween pageRows start stop n table).length =
      min stop ((n + table.length) * pageRows) - max start (n * pageRows) := by
  induction table generalizing n with
  | nil =>
      rw [List.length_nil, Nat.add_zero]
      change 0 = _
      omega
  | cons page rest ih =>
      have hsucc : (n + 1) * pageRows = n * pageRows + pageRows := Nat.succ_mul n pageRows
      have hle : (n + 1) * pageRows ≤ (n + 1 + rest.length) * pageRows :=
        Nat.mul_le_mul_right _ (Nat.le_add_right _ _)
      rw [rowsBetween, List.length_append, List.length_map, offsets, List.length_range', ih,
        List.length_cons, show n + (rest.length + 1) = n + 1 + rest.length by omega]
      omega

/-- The first rows are those up to a middle position that the table reaches. -/
theorem take_rowsBetween (hstart : n * pageRows ≤ start)
    (hmiddle : start + count ≤ (n + table.length) * pageRows) (hstop : start + count ≤ stop) :
    (rowsBetween pageRows start stop n table).take count =
      rowsBetween pageRows start (start + count) n table := by
  rw [← rowsBetween_append (Nat.le_add_right start count) hstop]
  refine List.take_left' ?_
  rw [length_rowsBetween, Nat.min_eq_left hmiddle, Nat.max_eq_left hstart, Nat.add_sub_cancel_left]

/-- Pages before `start` hold none of the rows. -/
theorem rowsBetween_drop (count : ℕ) (hstart : (n + count) * pageRows ≤ start)
    (table : List Page) :
    rowsBetween pageRows start stop (n + count) (table.drop count) =
      rowsBetween pageRows start stop n table := by
  induction table generalizing n count with
  | nil => rw [List.drop_nil]; rfl
  | cons page rest ih =>
      cases count with
      | zero => rfl
      | succ count =>
          have hnext : (n + 1 + count) * pageRows ≤ start := by
            rwa [Nat.add_assoc, Nat.add_comm 1]
          have hpage : (n + 1) * pageRows ≤ start :=
            (Nat.mul_le_mul_right _ (Nat.le_add_right _ _)).trans hnext
          rw [List.drop_succ_cons, rowsBetween, offsets_of_ge hpage, ← ih count hnext,
            Nat.add_assoc n 1, Nat.add_comm 1]
          rfl

theorem rowsBetween_take (count : ℕ) (hstop : stop ≤ (n + count) * pageRows)
    (table : List Page) :
    rowsBetween pageRows start stop n (table.take count) =
      rowsBetween pageRows start stop n table := by
  induction table generalizing n count with
  | nil => rw [List.take_nil]
  | cons page rest ih =>
      cases count with
      | zero => exact (rowsBetween_of_le hstop _).symm
      | succ count =>
          have hnext : stop ≤ (n + 1 + count) * pageRows := by
            rwa [Nat.add_assoc, Nat.add_comm 1]
          rw [List.take_succ_cons, rowsBetween, rowsBetween, ih count hnext]

/-- Pages that are filled up to a position hold the rows before it. -/
theorem flatMap_filled {filled : Page → ℕ} (n : ℕ) (table : List Page)
    (h : ∀ index page, table[index]? = some page →
      filled page = min pageRows (stop - (n + index) * pageRows)) :
    (table.flatMap fun page => (List.range (filled page)).map (page, ·)) =
      rowsBetween pageRows 0 stop n table := by
  induction table generalizing n with
  | nil => rfl
  | cons page rest ih =>
      have hpage : filled page = min pageRows (stop - n * pageRows) := h 0 page rfl
      have hsucc : (n + 1) * pageRows = n * pageRows + pageRows := Nat.succ_mul n pageRows
      have hcount : min stop ((n + 1) * pageRows) - max 0 (n * pageRows) = filled page := by omega
      have hfirst : max 0 (n * pageRows) - n * pageRows = 0 := by omega
      rw [List.flatMap_cons, rowsBetween, offsets, hcount, hfirst, List.range_eq_range']
      refine congrArg (_ ++ ·) (ih (n + 1) fun index other hother => ?_)
      rw [h (index + 1) other hother, Nat.add_assoc, Nat.add_comm 1]

end SeqCache.Paging
