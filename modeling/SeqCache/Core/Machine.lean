import Mathlib

/-!
# Fixed-width arithmetic

Counters of a 64-bit target as natural numbers.  The checked operations return
`none` where the machine operation reports an overflow, the saturating ones stop
at the end of the range, and the unchecked ones wrap.
-/

namespace SeqCache.Machine

def u32Max : ℕ := 2 ^ 32 - 1

/-- Largest `usize` and `u64` of a 64-bit target. -/
def usizeMax : ℕ := 2 ^ 64 - 1

def i64Max : ℕ := 2 ^ 63 - 1

def checkedAdd (left right : ℕ) : Option ℕ :=
  if left + right ≤ usizeMax then some (left + right) else none

def checkedSub (left right : ℕ) : Option ℕ :=
  if right ≤ left then some (left - right) else none

def checkedMul (left right : ℕ) : Option ℕ :=
  if left * right ≤ usizeMax then some (left * right) else none

def saturatingAdd (left right : ℕ) : ℕ := min (left + right) usizeMax

def wrappingAdd (left right : ℕ) : ℕ := (left + right) % 2 ^ 64

def wrappingMul (left right : ℕ) : ℕ := (left * right) % 2 ^ 64

/-- Reinterpretation of a `usize` as an `i64`. -/
def asI64 (value : ℕ) : ℤ :=
  if value % 2 ^ 64 ≤ i64Max then (value % 2 ^ 64 : ℕ)
  else (value % 2 ^ 64 : ℕ) - 2 ^ 64

/-- Round-up division as `checked_add(divisor - 1)` followed by a division. -/
def checkedDivCeil (value divisor : ℕ) : Option ℕ :=
  (checkedAdd value (divisor - 1)).map (· / divisor)

theorem checkedAdd_of_le {left right : ℕ} (h : left + right ≤ usizeMax) :
    checkedAdd left right = some (left + right) := by
  simp [checkedAdd, h]

theorem checkedAdd_eq_some {left right total : ℕ} :
    checkedAdd left right = some total ↔
      left + right ≤ usizeMax ∧ total = left + right := by
  unfold checkedAdd
  split <;> simp_all [eq_comm]

theorem checkedSub_of_le {left right : ℕ} (h : right ≤ left) :
    checkedSub left right = some (left - right) := by
  simp [checkedSub, h]

theorem checkedSub_eq_some {left right rest : ℕ} :
    checkedSub left right = some rest ↔ right ≤ left ∧ rest = left - right := by
  unfold checkedSub
  split <;> simp_all [eq_comm]

theorem checkedMul_of_le {left right : ℕ} (h : left * right ≤ usizeMax) :
    checkedMul left right = some (left * right) := by
  simp [checkedMul, h]

theorem checkedMul_eq_some {left right total : ℕ} :
    checkedMul left right = some total ↔
      left * right ≤ usizeMax ∧ total = left * right := by
  unfold checkedMul
  split <;> simp_all [eq_comm]

theorem checkedDivCeil_eq_some {value divisor pages : ℕ} :
    checkedDivCeil value divisor = some pages ↔
      value + (divisor - 1) ≤ usizeMax ∧ pages = value ⌈/⌉ divisor := by
  have hceil : (value + (divisor - 1)) / divisor = value ⌈/⌉ divisor := by
    rw [Nat.ceilDiv_eq_add_pred_div]
    rcases Nat.eq_zero_or_pos divisor with rfl | hpos
    · simp
    · rw [Nat.add_sub_assoc hpos]
  simp only [checkedDivCeil, Option.map_eq_some_iff, checkedAdd_eq_some, ← hceil]
  constructor
  · rintro ⟨sum, ⟨hle, rfl⟩, rfl⟩
    exact ⟨hle, rfl⟩
  · rintro ⟨hle, rfl⟩
    exact ⟨_, ⟨hle, rfl⟩, rfl⟩

theorem checkedDivCeil_of_le {value divisor : ℕ}
    (h : value + (divisor - 1) ≤ usizeMax) :
    checkedDivCeil value divisor = some (value ⌈/⌉ divisor) :=
  checkedDivCeil_eq_some.mpr ⟨h, rfl⟩

theorem wrappingAdd_of_le {left right : ℕ} (h : left + right ≤ usizeMax) :
    wrappingAdd left right = left + right := by
  unfold wrappingAdd
  unfold usizeMax at h
  exact Nat.mod_eq_of_lt (by omega)

theorem wrappingMul_of_le {left right : ℕ} (h : left * right ≤ usizeMax) :
    wrappingMul left right = left * right := by
  unfold wrappingMul
  unfold usizeMax at h
  exact Nat.mod_eq_of_lt (by omega)

/-! ## Round-up division -/

section CeilDiv

variable {divisor : ℕ}

theorem ceilDiv_le_iff (hpos : 0 < divisor) {page value : ℕ} :
    value ⌈/⌉ divisor ≤ page ↔ value ≤ page * divisor := by
  rw [ceilDiv_le_iff_le_mul hpos, Nat.mul_comm]

theorem lt_ceilDiv_iff (hpos : 0 < divisor) {page value : ℕ} :
    page < value ⌈/⌉ divisor ↔ page * divisor < value := by
  rw [← Nat.not_le, ceilDiv_le_iff hpos, Nat.not_le]

theorem ceilDiv_mono (hpos : 0 < divisor) {left right : ℕ} (h : left ≤ right) :
    left ⌈/⌉ divisor ≤ right ⌈/⌉ divisor := by
  rw [ceilDiv_le_iff hpos]
  exact h.trans ((ceilDiv_le_iff hpos).mp le_rfl)

theorem ceilDiv_of_aligned (hpos : 0 < divisor) {value : ℕ}
    (h : value % divisor = 0) : value ⌈/⌉ divisor = value / divisor := by
  have hvalue : value / divisor * divisor = value := Nat.div_mul_cancel (Nat.dvd_of_mod_eq_zero h)
  apply le_antisymm
  · exact (ceilDiv_le_iff hpos).mpr hvalue.ge
  · by_contra hlt
    have hle := (ceilDiv_le_iff hpos).mp (Nat.le_sub_one_of_lt (not_le.mp hlt))
    have hone : 1 ≤ value / divisor := by omega
    have hsub : (value / divisor - 1) * divisor = value / divisor * divisor - divisor := by
      rw [Nat.sub_mul, Nat.one_mul]
    have hmul : divisor ≤ value / divisor * divisor := Nat.le_mul_of_pos_left _ hone
    omega

theorem ceilDiv_of_unaligned (hpos : 0 < divisor) {value : ℕ}
    (h : value % divisor ≠ 0) : value ⌈/⌉ divisor = value / divisor + 1 := by
  have hvalue := Nat.div_add_mod' value divisor
  have hlt := Nat.mod_lt value hpos
  apply le_antisymm
  · rw [ceilDiv_le_iff hpos, Nat.succ_mul]
    omega
  · rw [Nat.succ_le_iff, lt_ceilDiv_iff hpos]
    omega

theorem div_le_ceilDiv (hpos : 0 < divisor) {value : ℕ} :
    value / divisor ≤ value ⌈/⌉ divisor := by
  by_cases h : value % divisor = 0
  · exact (ceilDiv_of_aligned hpos h).ge
  · rw [ceilDiv_of_unaligned hpos h]
    exact Nat.le_succ _

end CeilDiv

end SeqCache.Machine
