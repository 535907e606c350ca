import SeqCache.Core.Machine
import SeqCache.Core.Tabulation

/-!
# Generational arenas

A vector of slots with a stack of free slots.  A handle pairs a slot index with the
generation of the value it was issued for, so a handle to a released value no longer
resolves.  Seen through its handles an arena is a finite map: every operation changes
it at one handle only, whatever slot is recycled.
-/

namespace SeqCache

open Machine

/-- Slot index and generation, both stored as 32-bit words. -/
structure Handle where
  slot : ℕ
  generation : ℕ
  deriving DecidableEq, Repr

/-- A handle built from a slot index; the index is truncated to 32 bits. -/
def Handle.new (slot generation : ℕ) : Handle := ⟨slot % 2 ^ 32, generation⟩

/-- The value occupying a slot and the generation of the handle that names it. -/
structure Slot (α : Type*) where
  generation : ℕ
  value : Option α
  deriving DecidableEq

/-- Slots and the stack of free slot indices, most recently released first. -/
structure Arena (α : Type*) where
  slots : List (Slot α)
  free : List ℕ
  deriving DecidableEq

namespace Arena

variable {α : Type*}

def empty : Arena α := ⟨[], []⟩

/-- The slot a handle names, when its generation is current. -/
def slot? (arena : Arena α) (id : Handle) : Option (Slot α) :=
  arena.slots[id.slot]?.filter fun slot => slot.generation = id.generation

def get? (arena : Arena α) (id : Handle) : Option α :=
  (arena.slot? id).bind Slot.value

/-- Overwrite the value of a slot, keeping its generation. -/
def set (arena : Arena α) (id : Handle) (value : α) : Arena α :=
  { arena with
    slots := arena.slots.modify id.slot fun slot => { slot with value := some value } }

/-- Store a value in the most recently released slot, or in a new one.  `none` stands
for an out-of-range free slot. -/
def insert (arena : Arena α) (value : α) : Option (Handle × Arena α) :=
  match arena.free with
  | slot :: free =>
      match arena.slots[slot]? with
      | some old =>
          some (Handle.new slot old.generation,
            ⟨arena.slots.set slot ⟨old.generation, some value⟩, free⟩)
      | none => none
  | [] =>
      some (Handle.new arena.slots.length 0, ⟨arena.slots ++ [⟨0, some value⟩], []⟩)

/-- Empty a slot, move it to its next generation and put it on the free stack. -/
def release (arena : Arena α) (id : Handle) : Arena α :=
  ⟨arena.slots.modify id.slot fun slot => ⟨slot.generation + 1, none⟩, id.slot :: arena.free⟩

/-- Live values in slot order. -/
def values (arena : Arena α) : List α := arena.slots.filterMap Slot.value

/-- Live values with the handles that name them, in slot order. -/
def entries (arena : Arena α) : List (Handle × α) :=
  arena.slots.zipIdx.filterMap fun item =>
    item.1.value.map fun value => (⟨item.2, item.1.generation⟩, value)

/-- The free stack lists exactly the empty slots, and indices and generations fit
their words. -/
structure WF (arena : Arena α) : Prop where
  free_nodup : arena.free.Nodup
  mem_free : ∀ index, index ∈ arena.free ↔
    ∃ generation, arena.slots[index]? = some ⟨generation, none⟩
  length_le : arena.slots.length ≤ 2 ^ 32
  generation_le : ∀ slot ∈ arena.slots, slot.generation ≤ u32Max

theorem wf_empty : (empty : Arena α).WF :=
  ⟨List.nodup_nil, by simp [empty], by simp [empty], by simp [empty]⟩

theorem get?_eq_some {arena : Arena α} {id : Handle} {value : α} :
    arena.get? id = some value ↔
      arena.slots[id.slot]? = some ⟨id.generation, some value⟩ := by
  unfold get? slot?
  cases hslot : arena.slots[id.slot]? with
  | none => simp
  | some slot =>
      obtain ⟨generation, content⟩ := slot
      by_cases hgen : generation = id.generation <;> simp [Option.filter, hgen]

theorem get?_empty (id : Handle) : (empty : Arena α).get? id = none := by
  simp [get?, slot?, empty]

@[simp]
theorem map_snd_entries (arena : Arena α) : arena.entries.map Prod.snd = arena.values := by
  unfold entries values
  rw [List.map_filterMap]
  conv_rhs => rw [← List.zipIdx_map_fst 0 arena.slots, List.filterMap_map]
  congr 1
  funext item
  cases h : item.1.value <;> simp [h]

/-- The entries tabulate the lookup, for every arena. -/
theorem tabulates_entries (arena : Arena α) : Tabulates arena.entries arena.get? := by
  refine ⟨?_, ?_⟩
  · have hindex : arena.slots.zipIdx.Pairwise fun left right => left.2 ≠ right.2 := by
      rw [← List.pairwise_map (f := Prod.snd), List.zipIdx_map_snd]
      exact List.nodup_range'
    rw [List.Nodup, List.pairwise_map]
    refine hindex.filterMap _ fun left right hne entry hentry entry' hentry' heq => hne ?_
    obtain ⟨value, -, rfl⟩ := Option.map_eq_some_iff.mp hentry
    obtain ⟨value', -, rfl⟩ := Option.map_eq_some_iff.mp hentry'
    exact congrArg Handle.slot heq
  · rintro ⟨slot, generation⟩ value
    rw [get?_eq_some]
    simp only [entries, List.mem_filterMap, Prod.exists, Option.map_eq_some_iff, Prod.mk.injEq,
      Handle.mk.injEq, List.mem_zipIdx_iff_getElem?]
    constructor
    · rintro ⟨found, index, hfound, content, hcontent, ⟨rfl, rfl⟩, rfl⟩
      rw [hfound, ← hcontent]
    · intro hslot
      exact ⟨_, slot, hslot, value, rfl, ⟨rfl, rfl⟩, rfl⟩

theorem mem_entries {arena : Arena α} {id : Handle} {value : α} :
    (id, value) ∈ arena.entries ↔ arena.get? id = some value :=
  arena.tabulates_entries.mem_iff id value

/-! ## One operation changes the arena at one handle -/

section Operations

variable {arena : Arena α} {id other : Handle} {value old : α}

/-- Handles of one slot with different generations never both resolve. -/
theorem eq_of_slot_eq {value' : α} (h : arena.get? id = some value)
    (h' : arena.get? other = some value') (hslot : other.slot = id.slot) : other = id := by
  rw [get?_eq_some] at h h'
  rw [hslot, h, Option.some.injEq, Slot.mk.injEq] at h'
  cases id
  cases other
  simp_all

theorem slot_lt_of_get? (h : arena.get? id = some value) : id.slot < arena.slots.length := by
  rw [get?_eq_some] at h
  exact (List.getElem?_eq_some_iff.mp h).1

theorem generation_le_of_get? (hwf : arena.WF) (h : arena.get? id = some value) :
    id.generation ≤ u32Max :=
  hwf.generation_le _ (List.mem_of_getElem? (get?_eq_some.mp h))

theorem get?_set (hlive : arena.get? id = some old) :
    (arena.set id value).get? other =
      if other = id then some value else arena.get? other := by
  have hslot := get?_eq_some.mp hlive
  by_cases heq : other = id
  · subst heq
    rw [if_pos rfl, get?_eq_some]
    simp [set, hslot]
  · rw [if_neg heq]
    by_cases hsame : other.slot = id.slot
    · have hgen : id.generation ≠ other.generation := by
        intro hgen
        apply heq
        cases id
        cases other
        simp_all
      simp [get?, slot?, set, hsame, hslot, Option.filter, hgen]
    · simp [get?, slot?, set, Ne.symm hsame]

theorem wf_set (hwf : arena.WF) (hlive : arena.get? id = some old) :
    (arena.set id value).WF := by
  have hslot := get?_eq_some.mp hlive
  refine ⟨hwf.free_nodup, ?_, by simpa [set] using hwf.length_le, ?_⟩
  · intro index
    rw [show (arena.set id value).free = arena.free from rfl, hwf.mem_free]
    by_cases hindex : id.slot = index
    · subst hindex
      simp [set, hslot]
    · simp [set, hindex]
  · intro slot hmem
    obtain ⟨index, hindex⟩ := List.getElem?_of_mem hmem
    by_cases hsame : id.slot = index
    · subst hsame
      have hnew : slot = ⟨id.generation, some value⟩ := by
        simpa [set, hslot, eq_comm] using hindex
      rw [hnew]
      exact generation_le_of_get? hwf hlive
    · apply hwf.generation_le
      apply List.mem_of_getElem? (i := index)
      simpa [set, hsame] using hindex

private theorem new_eq {slot generation : ℕ} (h : slot < 2 ^ 32) :
    Handle.new slot generation = ⟨slot, generation⟩ := by
  rw [Handle.new, Nat.mod_eq_of_lt h]

/-- What storing `value` under `id` must achieve. -/
private def Stored (arena : Arena α) (value : α) (id : Handle) (arena' : Arena α) : Prop :=
  arena'.WF ∧ arena.get? id = none ∧
    ∀ other, arena'.get? other = if other = id then some value else arena.get? other

private theorem stored_pushed (hwf : arena.WF) (hfree : arena.free = [])
    (hroom : arena.slots.length < 2 ^ 32) (value : α) :
    Stored arena value ⟨arena.slots.length, 0⟩ ⟨arena.slots ++ [⟨0, some value⟩], []⟩ := by
  refine ⟨⟨List.nodup_nil, ?_, ?_, ?_⟩, by simp [get?, slot?], ?_⟩
  · intro index
    have hnone := hwf.mem_free index
    rw [hfree] at hnone
    simp only [List.not_mem_nil, false_iff, not_exists] at hnone ⊢
    intro generation
    rw [List.getElem?_append]
    split_ifs with hindex
    · exact hnone generation
    · cases hgap : index - arena.slots.length <;> simp
  · rw [List.length_append, List.length_singleton]
    exact hroom
  · intro slot hmem
    rcases List.mem_append.mp hmem with hmem | hmem
    · exact hwf.generation_le slot hmem
    · rw [List.mem_singleton.mp hmem]
      exact Nat.zero_le _
  · intro other
    by_cases heq : other = ⟨arena.slots.length, 0⟩
    · simp [heq, get?, slot?, Option.filter]
    · rw [if_neg heq]
      unfold get? slot?
      rw [List.getElem?_append]
      split_ifs with hindex
      · rfl
      · rw [List.getElem?_eq_none (not_lt.mp hindex)]
        cases hgap : other.slot - arena.slots.length with
        | zero =>
            have hgen : (0 : ℕ) ≠ other.generation := by
              intro hgen
              apply heq
              cases other
              simp only [Handle.mk.injEq] at hindex hgap hgen ⊢
              omega
            simp [Option.filter, hgen]
        | succ gap => simp

private theorem stored_recycled (hwf : arena.WF) {slot generation : ℕ} {free : List ℕ}
    (hfree : arena.free = slot :: free)
    (hslot : arena.slots[slot]? = some ⟨generation, none⟩) (value : α) :
    Stored arena value ⟨slot, generation⟩
      ⟨arena.slots.set slot ⟨generation, some value⟩, free⟩ := by
  have hindex := (List.getElem?_eq_some_iff.mp hslot).1
  have hnodup := hwf.free_nodup
  rw [hfree, List.nodup_cons] at hnodup
  refine ⟨⟨hnodup.2, ?_, by simpa using hwf.length_le, ?_⟩, ?_, ?_⟩
  · intro index
    have hmem := hwf.mem_free index
    rw [hfree, List.mem_cons] at hmem
    by_cases hsame : slot = index
    · subst hsame
      simp [hnodup.1, List.getElem?_set_self hindex]
    · rw [List.getElem?_set_ne hsame, ← hmem]
      simp [Ne.symm hsame]
  · intro entry hmem
    rcases List.mem_or_eq_of_mem_set hmem with hmem | rfl
    · exact hwf.generation_le entry hmem
    · exact hwf.generation_le ⟨generation, none⟩ (List.mem_of_getElem? hslot)
  · simp [get?, slot?, hslot, Option.filter]
  · intro other
    by_cases heq : other = ⟨slot, generation⟩
    · simp [heq, get?, slot?, List.getElem?_set_self hindex, Option.filter]
    · rw [if_neg heq]
      by_cases hsame : slot = other.slot
      · have hgen : generation ≠ other.generation := by
          intro hgen
          apply heq
          cases other
          simp_all
        subst hsame
        simp [get?, slot?, List.getElem?_set_self hindex, hslot, Option.filter, hgen]
      · simp [get?, slot?, List.getElem?_set_ne hsame]

/-- Storing a value issues a handle that did not resolve before. -/
theorem insert_spec (hwf : arena.WF)
    (hroom : arena.free = [] → arena.slots.length < 2 ^ 32) (value : α) :
    ∃ id arena', arena.insert value = some (id, arena') ∧ arena'.WF ∧
      arena.get? id = none ∧
      ∀ other, arena'.get? other = if other = id then some value else arena.get? other := by
  cases hfree : arena.free with
  | nil =>
      refine ⟨_, _, ?_, stored_pushed hwf hfree (hroom hfree) value⟩
      simp [insert, hfree, new_eq (hroom hfree)]
  | cons slot free =>
      obtain ⟨generation, hslot⟩ := (hwf.mem_free slot).mp (by simp [hfree])
      have hindex := (List.getElem?_eq_some_iff.mp hslot).1
      refine ⟨_, _, ?_, stored_recycled hwf hfree hslot value⟩
      simp [insert, hfree, hslot, new_eq (lt_of_lt_of_le hindex hwf.length_le)]

theorem get?_release (hlive : arena.get? id = some old) :
    (arena.release id).get? other = if other = id then none else arena.get? other := by
  have hslot := get?_eq_some.mp hlive
  by_cases hsame : other.slot = id.slot
  · have hnone : (arena.release id).get? other = none := by
      simp [get?, slot?, release, hsame, hslot, Option.filter]
    rw [hnone]
    split_ifs with heq
    · rfl
    · cases hother : arena.get? other with
      | none => rfl
      | some value => exact absurd (eq_of_slot_eq hlive hother hsame) heq
  · have hne : other ≠ id := fun heq => hsame (congrArg Handle.slot heq)
    simp [hne, get?, slot?, release, Ne.symm hsame]

theorem wf_release (hwf : arena.WF) (hlive : arena.get? id = some old)
    (hgen : id.generation < u32Max) : (arena.release id).WF := by
  have hslot := get?_eq_some.mp hlive
  have hnot : id.slot ∉ arena.free := by
    rw [hwf.mem_free, hslot]
    simp
  refine ⟨List.nodup_cons.mpr ⟨hnot, hwf.free_nodup⟩, ?_,
    by simpa [release] using hwf.length_le, ?_⟩
  · intro index
    rw [show (arena.release id).free = id.slot :: arena.free from rfl, List.mem_cons, hwf.mem_free]
    by_cases hsame : id.slot = index
    · subst hsame
      simp [release, hslot]
    · simp [release, hsame, Ne.symm hsame]
  · intro slot hmem
    obtain ⟨index, hindex⟩ := List.getElem?_of_mem hmem
    by_cases hsame : id.slot = index
    · subst hsame
      have hnew : slot = ⟨id.generation + 1, none⟩ := by
        simpa [release, hslot, eq_comm] using hindex
      rw [hnew]
      exact hgen
    · apply hwf.generation_le
      apply List.mem_of_getElem? (i := index)
      simpa [release, hsame] using hindex

end Operations

/-! ## Changing many values at once -/

/-- `arena'` holds the values of `arena` under the same handles, each changed by
`update`. -/
structure Updated (update : Handle → α → α) (arena arena' : Arena α) : Prop where
  free : arena'.free = arena.free
  generations : arena'.slots.map Slot.generation = arena.slots.map Slot.generation
  get? : ∀ id, arena'.get? id = (arena.get? id).map (update id)

namespace Updated

variable {update update' : Handle → α → α} {arena arena' arena'' : Arena α}

theorem refl (arena : Arena α) : Updated (fun _ value => value) arena arena :=
  ⟨rfl, rfl, fun id => by cases arena.get? id <;> rfl⟩

theorem trans (h : Updated update arena arena') (h' : Updated update' arena' arena'') :
    Updated (fun id value => update' id (update id value)) arena arena'' := by
  refine ⟨h'.free.trans h.free, h'.generations.trans h.generations, fun id => ?_⟩
  rw [h'.get?, h.get?, Option.map_map]
  rfl

/-- Only the values at live handles matter. -/
theorem congr (h : Updated update arena arena')
    (heq : ∀ id value, arena.get? id = some value → update' id value = update id value) :
    Updated update' arena arena' := by
  refine ⟨h.free, h.generations, fun id => ?_⟩
  rw [h.get?]
  cases hget : arena.get? id with
  | none => rfl
  | some value => simp [heq id value hget]

theorem set {id : Handle} {old : α} (value : α) (hlive : arena.get? id = some old) :
    Updated (fun other current => if other = id then value else current) arena
      (arena.set id value) := by
  refine ⟨rfl, ?_, fun other => ?_⟩
  · apply List.ext_getElem?
    intro index
    by_cases hindex : id.slot = index
    · subst hindex
      simp [Arena.set, Arena.get?_eq_some.mp hlive]
    · simp [Arena.set, hindex]
  · rw [Arena.get?_set hlive]
    by_cases heq : other = id
    · simp [heq, hlive]
    · simp [heq]

theorem slots (h : Updated update arena arena') (index : ℕ) :
    arena'.slots[index]? = arena.slots[index]?.map fun slot =>
      ⟨slot.generation, slot.value.map (update ⟨index, slot.generation⟩)⟩ := by
  have hgen : arena'.slots[index]?.map Slot.generation =
      arena.slots[index]?.map Slot.generation := by
    rw [← List.getElem?_map, ← List.getElem?_map, h.generations]
  cases hslot : arena.slots[index]? with
  | none => simpa [hslot] using hgen
  | some slot =>
      obtain ⟨generation, value⟩ := slot
      cases hslot' : arena'.slots[index]? with
      | none => simp [hslot, hslot'] at hgen
      | some slot' =>
          obtain ⟨generation', value'⟩ := slot'
          obtain rfl : generation' = generation := by simpa [hslot, hslot'] using hgen
          have hget := h.get? ⟨index, generation'⟩
          simpa [Arena.get?, slot?, hslot, hslot', Option.filter] using hget

theorem wf (h : Updated update arena arena') (hwf : arena.WF) : arena'.WF := by
  have hlength : arena'.slots.length = arena.slots.length := by
    simpa using congrArg List.length h.generations
  refine ⟨h.free ▸ hwf.free_nodup, fun index => ?_, hlength ▸ hwf.length_le, ?_⟩
  · rw [h.free, hwf.mem_free, h.slots]
    cases hslot : arena.slots[index]? with
    | none => simp
    | some slot =>
        obtain ⟨generation, value⟩ := slot
        cases value <;> simp
  · intro slot hmem
    obtain ⟨index, hindex⟩ := List.getElem?_of_mem hmem
    rw [h.slots, Option.map_eq_some_iff] at hindex
    obtain ⟨old, hold, rfl⟩ := hindex
    exact hwf.generation_le old (List.mem_of_getElem? hold)

/-- An update that changes nothing leaves the arena as it is. -/
theorem eq_of_id (h : Updated update arena arena')
    (hid : ∀ id value, arena.get? id = some value → update id value = value) :
    arena' = arena := by
  have h' := h.congr fun id value hget => (hid id value hget).symm
  have hslots : arena'.slots = arena.slots := by
    apply List.ext_getElem?
    intro index
    rw [h'.slots]
    cases arena.slots[index]? <;> simp
  have hfree := h.free
  cases arena
  cases arena'
  exact congrArg₂ Arena.mk hslots hfree

end Updated

theorem set_set (arena : Arena α) (id : Handle) (value value' : α) :
    (arena.set id value).set id value' = arena.set id value' := by
  unfold set
  simp only [List.modify_modify_eq, Function.comp_def]

/-! ## Issue order -/

/-- Slots only move forward: a slot that is given up starts a new generation. -/
def Advances (arena arena' : Arena α) : Prop :=
  ∀ (index : ℕ) (slot : Slot α), arena.slots[index]? = some slot →
    ∃ slot' : Slot α, arena'.slots[index]? = some slot' ∧
      (slot.generation < slot'.generation ∨
        slot'.generation = slot.generation ∧ (slot.value.isSome → slot'.value.isSome))

/-- The handle was issued, and its slot has moved on since. -/
def Expired (arena : Arena α) (id : Handle) : Prop :=
  ∃ slot : Slot α, arena.slots[id.slot]? = some slot ∧ id.generation < slot.generation

theorem Expired.get? {arena : Arena α} {id : Handle} (h : arena.Expired id) :
    arena.get? id = none := by
  obtain ⟨slot, hslot, hlt⟩ := h
  have hne : slot.generation ≠ id.generation := by omega
  simp [Arena.get?, slot?, hslot, Option.filter, hne]

namespace Advances

variable {arena arena' arena'' : Arena α} {id : Handle} {value : α}

theorem refl (arena : Arena α) : Advances arena arena :=
  fun _ slot hslot => ⟨slot, hslot, Or.inr ⟨rfl, fun h => h⟩⟩

theorem trans (h : Advances arena arena') (h' : Advances arena' arena'') :
    Advances arena arena'' := by
  intro index slot hslot
  obtain ⟨slot', hslot', hstep⟩ := h index slot hslot
  obtain ⟨slot'', hslot'', hstep'⟩ := h' index slot' hslot'
  refine ⟨slot'', hslot'', ?_⟩
  rcases hstep with hlt | ⟨heq, hlive⟩ <;> rcases hstep' with hlt' | ⟨heq', hlive'⟩
  · exact Or.inl (hlt.trans hlt')
  · exact Or.inl (heq' ▸ hlt)
  · exact Or.inl (heq ▸ hlt')
  · exact Or.inr ⟨heq'.trans heq, fun hsome => hlive' (hlive hsome)⟩

theorem ofUpdated {update : Handle → α → α} (h : Updated update arena arena') :
    Advances arena arena' := by
  intro index slot hslot
  have hslot' := h.slots index
  rw [hslot, Option.map_some] at hslot'
  exact ⟨_, hslot', Or.inr ⟨rfl, by simp⟩⟩

theorem set {old : α} (hlive : arena.get? id = some old) : Advances arena (arena.set id value) :=
  ofUpdated (Updated.set value hlive)

theorem insert (h : arena.insert value = some (id, arena')) : Advances arena arena' := by
  unfold Arena.insert at h
  split at h
  · rename_i recycled free hfree
    split at h
    · rename_i old hold
      obtain ⟨-, rfl⟩ : _ ∧ _ = arena' := by simpa using h
      have hindex := (List.getElem?_eq_some_iff.mp hold).1
      intro index slot hslot
      by_cases hsame : recycled = index
      · subst hsame
        obtain rfl : old = slot := by simpa [hold] using hslot
        exact ⟨_, List.getElem?_set_self hindex, Or.inr ⟨rfl, fun _ => rfl⟩⟩
      · exact ⟨slot, by rw [List.getElem?_set_ne hsame, hslot], Or.inr ⟨rfl, fun h => h⟩⟩
    · cases h
  · obtain ⟨-, rfl⟩ : _ ∧ _ = arena' := by simpa using h
    intro index slot hslot
    have hindex := (List.getElem?_eq_some_iff.mp hslot).1
    exact ⟨slot, by rw [List.getElem?_append_left hindex, hslot], Or.inr ⟨rfl, fun h => h⟩⟩

theorem release (arena : Arena α) (id : Handle) : Advances arena (arena.release id) := by
  intro index slot hslot
  by_cases hsame : id.slot = index
  · subst hsame
    exact ⟨⟨slot.generation + 1, none⟩, by simp [Arena.release, hslot], Or.inl (Nat.lt_succ_self _)⟩
  · exact ⟨slot, by simp [Arena.release, hsame, hslot], Or.inr ⟨rfl, fun h => h⟩⟩

theorem expired (h : Advances arena arena') (hexpired : arena.Expired id) : arena'.Expired id := by
  obtain ⟨slot, hslot, hlt⟩ := hexpired
  obtain ⟨slot', hslot', hstep⟩ := h id.slot slot hslot
  refine ⟨slot', hslot', ?_⟩
  rcases hstep with hstep | ⟨heq, -⟩
  · exact hlt.trans hstep
  · rwa [heq]

/-- A live handle stays live until it expires. -/
theorem live_or_expired (h : Advances arena arena') (hlive : arena.get? id = some value) :
    (∃ value', arena'.get? id = some value') ∨ arena'.Expired id := by
  obtain ⟨⟨generation, content⟩, hslot', hstep⟩ := h id.slot _ (get?_eq_some.mp hlive)
  rcases hstep with hlt | ⟨rfl, hsome⟩
  · exact Or.inr ⟨_, hslot', hlt⟩
  · obtain ⟨value', rfl⟩ := Option.isSome_iff_exists.mp (hsome rfl)
    exact Or.inl ⟨value', get?_eq_some.mpr hslot'⟩

end Advances

/-! ## Handles yet to be issued -/

/-- The handle that the insertion after `index` others issues. -/
def upcoming (arena : Arena α) (index : ℕ) : Handle :=
  match arena.free[index]? with
  | some slot => Handle.new slot ((arena.slots[slot]?.map Slot.generation).getD 0)
  | none => Handle.new (arena.slots.length + (index - arena.free.length)) 0

/-- The handles that the next `count` insertions issue. -/
def issued (arena : Arena α) (count : ℕ) : List Handle := (List.range count).map arena.upcoming

section Upcoming

variable {arena arena' : Arena α} {id : Handle} {value : α}

theorem upcoming_insert (h : arena.insert value = some (id, arena')) :
    id = arena.upcoming 0 ∧ ∀ index, arena'.upcoming index = arena.upcoming (index + 1) := by
  unfold insert at h
  cases hfree : arena.free with
  | cons slot free =>
      rw [hfree] at h
      simp only at h
      cases hslot : arena.slots[slot]? with
      | none =>
          rw [hslot] at h
          cases h
      | some old =>
          rw [hslot] at h
          obtain ⟨rfl, rfl⟩ := Prod.mk.inj (Option.some.inj h)
          refine ⟨by simp [upcoming, hfree, hslot], fun index => ?_⟩
          simp only [upcoming, hfree, List.getElem?_cons_succ, List.length_set, List.length_cons,
            Nat.add_sub_add_right]
          cases hnext : free[index]? with
          | none => rfl
          | some next =>
              -- The recycled slot keeps its generation while it is occupied.
              simp only [List.getElem?_set]
              split_ifs with heq hlt
              · subst heq
                rw [hslot]
                rfl
              · subst heq
                rw [List.getElem?_eq_none (Nat.le_of_not_lt hlt)] at hslot
                cases hslot
              · rfl
  | nil =>
      rw [hfree] at h
      obtain ⟨rfl, rfl⟩ := Prod.mk.inj (Option.some.inj h)
      refine ⟨by simp [upcoming, hfree], fun index => ?_⟩
      simp only [upcoming, hfree, List.getElem?_nil, List.length_append, List.length_singleton,
        List.length_nil, Nat.sub_zero]
      rw [Nat.add_assoc, Nat.add_comm 1 index]

theorem issued_insert (h : arena.insert value = some (id, arena')) (count : ℕ) :
    arena.issued (count + 1) = id :: arena'.issued count := by
  obtain ⟨rfl, hnext⟩ := upcoming_insert h
  simp only [issued, List.range_succ_eq_map, List.map_cons, List.map_map, List.cons.injEq, true_and]
  exact List.map_congr_left fun index _ => (hnext index).symm

theorem Updated.upcoming_eq {update : Handle → α → α} (h : Updated update arena arena')
    (index : ℕ) : arena'.upcoming index = arena.upcoming index := by
  have hlength : arena'.slots.length = arena.slots.length := by
    simpa using congrArg List.length h.generations
  have hgeneration : ∀ slot : ℕ, arena'.slots[slot]?.map Slot.generation =
      arena.slots[slot]?.map Slot.generation := fun slot => by
    rw [← List.getElem?_map, ← List.getElem?_map, h.generations]
  unfold upcoming
  rw [h.free, hlength]
  cases arena.free[index]? with
  | none => rfl
  | some slot => simp only [hgeneration]

theorem upcoming_release (hlive : arena.get? id = some value) :
    (arena.release id).upcoming 0 = Handle.new id.slot (id.generation + 1) := by
  have hslot := get?_eq_some.mp hlive
  simp [upcoming, release, hslot]

end Upcoming

/-! ## The number of live values -/

theorem length_entries (arena : Arena α) : arena.entries.length = arena.values.length := by
  rw [← map_snd_entries, List.length_map]

/-- Distinct live handles are no more than the live values. -/
theorem length_le_values {arena : Arena α} {ids : List Handle} (hids : ids.Nodup)
    (hlive : ∀ id ∈ ids, ∃ value, arena.get? id = some value) :
    ids.length ≤ arena.values.length := by
  rw [← length_entries, ← List.length_map (f := Prod.fst)]
  apply List.Subperm.length_le
  apply List.subperm_of_subset hids
  intro id hmem
  obtain ⟨value, hvalue⟩ := hlive id hmem
  exact List.mem_map.mpr ⟨(id, value), mem_entries.mpr hvalue, rfl⟩

/-- Counting the live values with a property by the handles that name them. -/
theorem countP_eq_length {arena : Arena α} {holds : α → Bool} {ids : List Handle}
    (hids : ids.Nodup)
    (hmem : ∀ id, id ∈ ids ↔ ∃ value, arena.get? id = some value ∧ holds value = true) :
    arena.values.countP holds = ids.length := by
  have hperm : ((arena.entries.filter fun entry => holds entry.2).map Prod.fst).Perm ids := by
    have hnodup := (tabulates_entries arena).keys_nodup
    rw [List.perm_ext_iff_of_nodup (hnodup.sublist (List.filter_sublist.map Prod.fst)) hids]
    intro id
    rw [hmem id, List.mem_map]
    constructor
    · rintro ⟨⟨_, value⟩, hentry, rfl⟩
      obtain ⟨hlive, hholds⟩ := List.mem_filter.mp hentry
      exact ⟨value, mem_entries.mp hlive, hholds⟩
    · rintro ⟨value, hlive, hholds⟩
      exact ⟨(id, value), List.mem_filter.mpr ⟨mem_entries.mpr hlive, hholds⟩, rfl⟩
  rw [← hperm.length_eq, List.length_map, ← map_snd_entries, List.countP_map,
    List.countP_eq_length_filter]
  rfl

/-- Every slot is either live or on the free stack. -/
theorem length_values_add_free {arena : Arena α} (hwf : arena.WF) :
    arena.values.length + arena.free.length = arena.slots.length := by
  have hfree : arena.free.Perm
      ((List.range arena.slots.length).filter fun index =>
        (arena.slots[index]?.bind Slot.value).isNone) := by
    rw [List.perm_ext_iff_of_nodup hwf.free_nodup (List.nodup_range.filter _)]
    intro index
    rw [hwf.mem_free, List.mem_filter, List.mem_range]
    constructor
    · rintro ⟨generation, hslot⟩
      exact ⟨(List.getElem?_eq_some_iff.mp hslot).1, by simp [hslot]⟩
    · rintro ⟨hlt, hnone⟩
      refine ⟨arena.slots[index].generation, ?_⟩
      rw [List.getElem?_eq_getElem hlt] at hnone ⊢
      cases hslot : arena.slots[index] with
      | mk generation content => simp_all
  have hcount : ∀ slots : List (Slot α),
      (slots.filterMap Slot.value).length +
        ((List.range slots.length).filter fun index =>
          (slots[index]?.bind Slot.value).isNone).length = slots.length := by
    intro slots
    induction slots with
    | nil => simp
    | cons slot slots ih =>
        rw [List.length_cons, List.range_succ_eq_map, List.filter_cons, List.filter_map,
          List.filterMap_cons]
        cases hvalue : slot.value <;>
          simp [hvalue, Function.comp_def, List.length_map] <;> omega
  rw [hfree.length_eq]
  exact hcount arena.slots

/-! ## Totals -/

/-- Total weight of the live values. -/
def total (weight : α → ℕ) (arena : Arena α) : ℕ := (arena.values.map weight).sum

section Totals

variable {arena arena' : Arena α} {id : Handle} {value old : α} (weight : α → ℕ)

theorem total_eq_entries (arena : Arena α) :
    arena.total weight = (arena.entries.map fun entry => weight entry.2).sum := by
  rw [total, ← map_snd_entries, List.map_map]
  rfl

theorem total_one (arena : Arena α) : arena.total (fun _ => 1) = arena.values.length := by
  simp [total]

theorem total_indicator (holds : α → Bool) (arena : Arena α) :
    arena.total (fun value => if holds value then 1 else 0) = arena.values.countP holds := by
  unfold total
  induction arena.values with
  | nil => rfl
  | cons value values ih =>
      rw [List.map_cons, List.sum_cons, ih, List.countP_cons, Nat.add_comm]

/-- The total depends only on the weights under the handles. -/
theorem total_congr
    (h : ∀ id, (arena'.get? id).map weight = (arena.get? id).map weight) :
    arena'.total weight = arena.total weight := by
  rw [total_eq_entries, total_eq_entries]
  exact (tabulates_entries arena).sum_congr weight (tabulates_entries arena') h

theorem total_fresh (hfresh : arena.get? id = none)
    (hget : ∀ other, arena'.get? other = if other = id then some value else arena.get? other) :
    arena'.total weight = arena.total weight + weight value := by
  rw [total_eq_entries, total_eq_entries]
  exact arena.tabulates_entries.sum_fresh weight arena'.tabulates_entries hfresh hget

theorem total_remove (hlive : arena.get? id = some old)
    (hget : ∀ other, arena'.get? other = if other = id then none else arena.get? other) :
    arena.total weight = arena'.total weight + weight old := by
  rw [total_eq_entries, total_eq_entries]
  exact arena.tabulates_entries.sum_remove weight arena'.tabulates_entries hlive hget

theorem total_set (value : α) (hlive : arena.get? id = some old) :
    (arena.set id value).total weight + weight old = arena.total weight + weight value := by
  rw [total_eq_entries, total_eq_entries]
  exact arena.tabulates_entries.sum_replace weight (arena.set id value).tabulates_entries hlive
    fun _ => get?_set hlive

theorem total_removeAll {update : Handle → α → α} {ids : List Handle} {removed : List α}
    (hids : ids.Nodup) (hremoved : ids.map arena.get? = removed.map some)
    (hget : ∀ other, arena'.get? other =
      if other ∈ ids then none else (arena.get? other).map (update other))
    (hweight : ∀ id value, weight (update id value) = weight value) :
    arena.total weight = arena'.total weight + (removed.map weight).sum := by
  rw [total_eq_entries, total_eq_entries]
  exact arena.tabulates_entries.sum_removeAll weight arena'.tabulates_entries hids hremoved hget
    hweight

/-- Changing values without changing their weight. -/
theorem total_map {update : Handle → α → α}
    (hget : ∀ other, arena'.get? other = (arena.get? other).map (update other))
    (hweight : ∀ id value, weight (update id value) = weight value) :
    arena'.total weight = arena.total weight := by
  have hget' : ∀ other, arena'.get? other =
      if other ∈ ([] : List Handle) then none else (arena.get? other).map (update other) := by
    simpa using hget
  have h : arena.total weight = arena'.total weight + (([] : List α).map weight).sum :=
    total_removeAll weight List.nodup_nil rfl hget' hweight
  simpa using h.symm

theorem Updated.length_values {update : Handle → α → α} (h : Updated update arena arena') :
    arena'.values.length = arena.values.length := by
  rw [← total_one, ← total_one]
  exact total_map _ h.get? fun _ _ => rfl

theorem countP_set (holds : α → Bool) (value : α) (hlive : arena.get? id = some old) :
    (arena.set id value).values.countP holds + (if holds old then 1 else 0) =
      arena.values.countP holds + if holds value then 1 else 0 := by
  rw [← total_indicator, ← total_indicator]
  exact total_set _ value hlive

theorem countP_pos_of_get? {holds : α → Bool} (hlive : arena.get? id = some value)
    (hholds : holds value = true) : 0 < arena.values.countP holds := by
  rw [List.countP_pos_iff]
  refine ⟨value, ?_, hholds⟩
  rw [← map_snd_entries]
  exact List.mem_map_of_mem (f := Prod.snd) (mem_entries.mpr hlive)

theorem countP_lt_of_get? {holds : α → Bool} (hlive : arena.get? id = some value)
    (hholds : holds value = false) : arena.values.countP holds < arena.values.length := by
  have hother : 0 < arena.values.countP fun value => !holds value :=
    countP_pos_of_get? hlive (by simp [hholds])
  have hsum := List.length_eq_countP_add_countP holds (l := arena.values)
  simp only [Bool.not_eq_true, Bool.decide_eq_false] at hsum
  omega

theorem le_total (hlive : arena.get? id = some value) : weight value ≤ arena.total weight := by
  apply List.single_le_sum (by simp)
  rw [← map_snd_entries]
  exact List.mem_map_of_mem (List.mem_map_of_mem (mem_entries.mpr hlive))

/-- Some live value contributes to a positive total. -/
theorem exists_of_total_pos (h : 0 < arena.total weight) :
    ∃ id value, arena.get? id = some value ∧ 0 < weight value := by
  rw [total_eq_entries] at h
  obtain ⟨term, hmem, hpos⟩ := List.exists_mem_ne_zero_of_sum_ne_zero h.ne'
  obtain ⟨⟨id, value⟩, hentry, rfl⟩ := List.mem_map.mp hmem
  exact ⟨id, value, mem_entries.mp hentry, Nat.pos_of_ne_zero hpos⟩

end Totals

end Arena

end SeqCache
