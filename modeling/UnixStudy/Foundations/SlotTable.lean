import Mathlib.Data.Fintype.Basic

/-!
# Tables of slots that are found by a key

A server keeps what belongs to each of its clients in one of finitely many slots. A slot has the key
of a client, and a value once the client has been set up. Looking a key up also *claims* a slot for
it: if no slot has the key, the first one without a value gets it (`SlotTable.claim`). A claim that
is not followed up leaves a key without a value behind, which a later claim may overwrite, so the
same key can stand in several slots; but only the first of them ever gets a value
(`SlotTable.Indexed`), and so a claimed slot is found again.

## Main definitions

* `Slot`, `SlotTable` : slots and tables.
* `SlotTable.lookup`, `SlotTable.free`, `SlotTable.claim`, `SlotTable.fill` : the operations.
* `SlotTable.IsFirst` : a slot is the first one with its key.
* `SlotTable.Indexed` : only the first slot with a key has a value.

## Main results

* `SlotTable.claim_eq_none_iff` : when there is no slot.
* `SlotTable.isFirst_of_claim`, `SlotTable.claim_of_isFirst` : a claimed slot is found again.
* `SlotTable.Indexed.claim`, `SlotTable.Indexed.fill` : the operations keep the index.
* `SlotTable.Indexed.injective` : slots with values have different keys.
-/

namespace UnixStudy

/-- A slot: a key, and a value once it is in use. -/
structure Slot (κ β : Type*) where
  key : κ
  value : Option β

/-- A table of `n` slots. -/
abbrev SlotTable (n : ℕ) (κ β : Type*) := Fin n → Slot κ β

namespace SlotTable

variable {n : ℕ} {κ β : Type*}

/-- The slot is the first one with the key. -/
def IsFirst (t : SlotTable n κ β) (k : κ) (i : Fin n) : Prop :=
  (t i).key = k ∧ ∀ j < i, (t j).key ≠ k

/-- Only the first slot with a key has a value. -/
def Indexed (t : SlotTable n κ β) : Prop :=
  ∀ i j, i < j → (t i).key = (t j).key → (t j).value = none

/-- Give a slot its value. -/
def fill (t : SlotTable n κ β) (i : Fin n) (v : β) : SlotTable n κ β :=
  Function.update t i ⟨(t i).key, some v⟩

/-- The first slot without a value. -/
def free (t : SlotTable n κ β) : Option (Fin n) := Fin.find? fun i => (t i).value.isNone

section Fill

variable {t : SlotTable n κ β} {i : Fin n}

theorem free_eq_none_iff : t.free = none ↔ ∀ i, (t i).value.isSome := by
  simp only [free, Fin.find?_eq_none_iff, Option.isNone_eq_false_iff]

theorem value_of_free (h : t.free = some i) : (t i).value = none :=
  Option.isNone_iff_eq_none.mp (Fin.find?_eq_some_iff.mp h).1

/-- Filling a slot leaves the keys as they are. -/
@[simp] theorem key_fill (v : β) (j : Fin n) : (t.fill i v j).key = (t j).key := by
  by_cases hj : j = i <;> simp [fill, hj]

theorem fill_of_ne (v : β) {j : Fin n} (h : j ≠ i) : t.fill i v j = t j :=
  Function.update_of_ne h ..

theorem isFirst_fill {k : κ} (v : β) (j : Fin n) :
    (t.fill i v).IsFirst k j ↔ t.IsFirst k j := by
  simp only [IsFirst, key_fill]

/-- Slots with values have different keys. -/
theorem Indexed.injective (h : t.Indexed) {j : Fin n} (hi : (t i).value.isSome)
    (hj : (t j).value.isSome) (hkey : (t i).key = (t j).key) : i = j := by
  rcases lt_trichotomy i j with hlt | rfl | hlt
  · rw [h i j hlt hkey] at hj
    exact Bool.noConfusion hj
  · rfl
  · rw [h j i hlt hkey.symm] at hi
    exact Bool.noConfusion hi

/-- Only the first slot with its key may be filled. -/
theorem Indexed.fill (h : t.Indexed) {k : κ} (hfirst : t.IsFirst k i) (v : β) :
    (t.fill i v).Indexed := by
  intro j l hjl hkey
  rw [key_fill, key_fill] at hkey
  by_cases hl : l = i
  · subst hl
    exact absurd (hkey.trans hfirst.1) (hfirst.2 j hjl)
  · rw [fill_of_ne v hl]
    exact h j l hjl hkey

end Fill

/-! ### Claiming a slot -/

section Claim

variable [DecidableEq κ] (t : SlotTable n κ β) (k : κ)

/-- The first slot with the key. -/
def lookup : Option (Fin n) := Fin.find? fun i => decide ((t i).key = k)

/-- Find the slot of a key, or give it one. -/
def claim : Option (Fin n) × SlotTable n κ β :=
  match t.lookup k with
  | some i => (some i, t)
  | none =>
    match t.free with
    | some i => (some i, Function.update t i ⟨k, none⟩)
    | none => (none, t)

variable {t k} {i : Fin n}

theorem lookup_eq_some_iff : t.lookup k = some i ↔ t.IsFirst k i := by
  simp only [lookup, Fin.find?_eq_some_iff, decide_eq_true_eq, decide_eq_false_iff_not, IsFirst]

theorem lookup_eq_none_iff : t.lookup k = none ↔ ∀ i, (t i).key ≠ k := by
  simp only [lookup, Fin.find?_eq_none_iff, decide_eq_false_iff_not, ne_eq]

/-- A slot that is the first one with its key is found, and nothing is changed. -/
theorem claim_of_isFirst (h : t.IsFirst k i) : t.claim k = (some i, t) := by
  rw [claim, lookup_eq_some_iff.mpr h]

/-- The three outcomes of a claim. -/
theorem claim_cases (t : SlotTable n κ β) (k : κ) :
    (∃ i, t.IsFirst k i ∧ t.claim k = (some i, t)) ∨
      (∃ i, (∀ j, (t j).key ≠ k) ∧ (t i).value = none ∧
        t.claim k = (some i, Function.update t i ⟨k, none⟩)) ∨
      ((∀ j, (t j).key ≠ k) ∧ (∀ j, (t j).value.isSome) ∧ t.claim k = (none, t)) := by
  cases hlookup : t.lookup k with
  | some i =>
    have hfirst := lookup_eq_some_iff.mp hlookup
    exact Or.inl ⟨i, hfirst, claim_of_isFirst hfirst⟩
  | none =>
    have hnone := lookup_eq_none_iff.mp hlookup
    cases hfree : t.free with
    | some i =>
      exact Or.inr (Or.inl ⟨i, hnone, value_of_free hfree, by rw [claim, hlookup, hfree]⟩)
    | none =>
      exact Or.inr (Or.inr ⟨hnone, free_eq_none_iff.mp hfree, by rw [claim, hlookup, hfree]⟩)

/-- **There is no slot** exactly if none has the key and all have values. -/
theorem claim_eq_none_iff :
    (t.claim k).1 = none ↔ (∀ i, (t i).key ≠ k) ∧ ∀ i, (t i).value.isSome := by
  rcases claim_cases t k with ⟨i, hfirst, hclaim⟩ | ⟨i, -, hvalue, hclaim⟩ |
    ⟨hkeys, hvalues, hclaim⟩ <;> rw [hclaim]
  · exact iff_of_false nofun fun h => h.1 i hfirst.1
  · refine iff_of_false nofun fun h => ?_
    have hsome := h.2 i
    rw [hvalue] at hsome
    exact Bool.noConfusion hsome
  · exact iff_of_true rfl ⟨hkeys, hvalues⟩

/-- **The claimed slot** is the first one with the key. -/
theorem isFirst_of_claim (h : (t.claim k).1 = some i) : (t.claim k).2.IsFirst k i := by
  rcases claim_cases t k with ⟨j, hfirst, hclaim⟩ | ⟨j, hkeys, -, hclaim⟩ | ⟨-, -, hclaim⟩ <;>
    rw [hclaim] at h ⊢
  · exact Option.some.inj h ▸ hfirst
  · obtain rfl : j = i := Option.some.inj h
    dsimp only
    refine ⟨by rw [Function.update_self], fun l hl => ?_⟩
    rw [Function.update_of_ne hl.ne]
    exact hkeys l
  · cases h

/-- A claim gives no slot a value and takes none away. -/
@[simp] theorem value_claim (j : Fin n) : ((t.claim k).2 j).value = (t j).value := by
  rcases claim_cases t k with ⟨i, -, hclaim⟩ | ⟨i, -, hvalue, hclaim⟩ | ⟨-, -, hclaim⟩ <;>
    rw [hclaim]
  dsimp only
  by_cases hj : j = i
  · rw [hj, Function.update_self, hvalue]
  · rw [Function.update_of_ne hj]

/-- A claim leaves the slots with values as they are. -/
theorem claim_of_isSome {j : Fin n} (h : (t j).value.isSome) : (t.claim k).2 j = t j := by
  rcases claim_cases t k with ⟨i, -, hclaim⟩ | ⟨i, -, hvalue, hclaim⟩ | ⟨-, -, hclaim⟩ <;>
    rw [hclaim]
  refine Function.update_of_ne ?_ ..
  rintro rfl
  rw [hvalue] at h
  exact Bool.noConfusion h

/-- A claim overwrites a key only with one that no slot has. -/
theorem Indexed.claim (h : t.Indexed) (k : κ) : (t.claim k).2.Indexed := by
  rcases claim_cases t k with ⟨l, -, hclaim⟩ | ⟨l, hkeys, hvalue, hclaim⟩ | ⟨-, -, hclaim⟩ <;>
    rw [hclaim]
  · exact h
  · dsimp only
    intro i j hij hkey
    by_cases hj : j = l
    · rw [hj, Function.update_self]
    · rw [Function.update_of_ne hj] at hkey ⊢
      by_cases hi : i = l
      · rw [hi, Function.update_self] at hkey
        exact absurd hkey.symm (hkeys j)
      · rw [Function.update_of_ne hi] at hkey
        exact h i j hij hkey
  · exact h

end Claim

end SlotTable

end UnixStudy
