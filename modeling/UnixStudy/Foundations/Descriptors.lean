import Mathlib.Data.Finset.Card
import Mathlib.Data.List.Basic
import Mathlib.Data.List.GetD

/-!
# Descriptor tables

A process of a POSIX system names the objects it has open by small natural numbers. A
*descriptor table* says which object, if any, each number names. New objects go into the
lowest free slot (`FdTable.lowestFree`), `FdTable.close` frees a slot, and `FdTable.dup2` makes one
slot name the object of another. Everything a program can observe of a table is its slot
function `FdTable.slot`; the lemmas below describe each operation through it, so that no later
proof looks at the list of slots itself.

## Main definitions

* `FdTable`, `FdTable.slot`, `FdTable.IsOpen` : tables, what a number names, whether it is open.
* `FdTable.put`, `FdTable.close`, `FdTable.dup2` : the operations.
* `FdTable.openSet` : the finite set of open numbers.
* `FdTable.sysOpen`, `FdTable.sysPipe`, `FdTable.sysDup2`, `FdTable.sysClose` : the system calls,
  which may fail and use `-1` for a descriptor that is none.

## Main results

* `FdTable.slot_put`, `FdTable.slot_close`, `FdTable.slot_dup2` : the operations on slots.
* `FdTable.not_isOpen_lowestFree`, `FdTable.le_lowestFree` : the lowest free number is free, and
  not below numbers that are all open.
* `FdTable.slot_sysDup2`, `FdTable.slot_sysClose` : the calls on slots.
-/

namespace UnixStudy

/-- The open descriptors of a process: slot `n` holds the object that descriptor `n` names. Slots
past the end of the list are free. -/
structure FdTable (α : Type*) where
  slots : List (Option α)
  deriving DecidableEq, Repr

namespace FdTable

variable {α : Type*} (t : FdTable α)

/-- The object that descriptor `n` names. -/
def slot (n : ℕ) : Option α := t.slots[n]?.join

/-- Descriptor `n` is open. -/
def IsOpen (n : ℕ) : Prop := (t.slot n).isSome

instance (n : ℕ) : Decidable (t.IsOpen n) := inferInstanceAs (Decidable ((t.slot n).isSome = true))

/-- Descriptor `n` names `a` from now on. -/
def put (n : ℕ) (a : α) : FdTable α :=
  ⟨(List.range (max (n + 1) t.slots.length)).map fun m => if m = n then some a else t.slot m⟩

/-- Descriptor `n` is free from now on; nothing happens when it was free. -/
def close (n : ℕ) : FdTable α := ⟨t.slots.set n none⟩

/-- The lowest number that names no object. -/
def lowestFree : ℕ := t.slots.findIdx Option.isNone

/-- Make `new` name the object of `old`; nothing happens when `old` is not open. -/
def dup2 (old new : ℕ) : FdTable α :=
  match t.slot old with
  | some a => t.put new a
  | none => t

/-- The open descriptors, as a finite set. -/
def openSet : Finset ℕ := (Finset.range t.slots.length).filter t.IsOpen

theorem isOpen_iff {n : ℕ} : t.IsOpen n ↔ ∃ a, t.slot n = some a := Option.isSome_iff_exists

theorem isOpen_of_slot {n : ℕ} {a : α} (h : t.slot n = some a) : t.IsOpen n :=
  t.isOpen_iff.mpr ⟨a, h⟩

theorem not_isOpen_iff {n : ℕ} : ¬ t.IsOpen n ↔ t.slot n = none := by
  simp [IsOpen]

theorem slot_eq_none_of_length_le {n : ℕ} (h : t.slots.length ≤ n) : t.slot n = none := by
  simp [slot, List.getElem?_eq_none h]

theorem lt_length_of_isOpen {n : ℕ} (h : t.IsOpen n) : n < t.slots.length := by
  by_contra hn
  exact t.not_isOpen_iff.mpr (t.slot_eq_none_of_length_le (not_lt.mp hn)) h

@[simp] theorem mem_openSet {n : ℕ} : n ∈ t.openSet ↔ t.IsOpen n := by
  simp only [openSet, Finset.mem_filter, Finset.mem_range, and_iff_right_iff_imp]
  exact t.lt_length_of_isOpen

/-! ### The operations on slots -/

theorem slot_put (n : ℕ) (a : α) (m : ℕ) :
    (t.put n a).slot m = if m = n then some a else t.slot m := by
  by_cases hm : m < max (n + 1) t.slots.length
  · simp [slot, put, List.getElem?_map, List.getElem?_range hm]
  · have hlen : t.slots.length ≤ m := le_trans (le_max_right _ _) (not_lt.mp hm)
    have hne : m ≠ n := fun h => hm (h ▸ lt_of_lt_of_le (Nat.lt_succ_self _) (le_max_left _ _))
    rw [if_neg hne, t.slot_eq_none_of_length_le hlen]
    exact slot_eq_none_of_length_le _ (by simpa [put] using not_lt.mp hm)

@[simp] theorem slot_put_self (n : ℕ) (a : α) : (t.put n a).slot n = some a := by
  simp [slot_put]

theorem slot_put_of_ne {n m : ℕ} (a : α) (h : m ≠ n) : (t.put n a).slot m = t.slot m := by
  simp [slot_put, h]

theorem slot_close (n m : ℕ) : (t.close n).slot m = if m = n then none else t.slot m := by
  simp only [slot, close, List.getElem?_set]
  by_cases h : n = m
  · subst h
    by_cases hn : n < t.slots.length <;> simp [hn]
  · simp [h, Ne.symm h]

theorem slot_dup2 {old new : ℕ} (h : t.IsOpen old) (m : ℕ) :
    (t.dup2 old new).slot m = if m = new then t.slot old else t.slot m := by
  obtain ⟨a, ha⟩ := t.isOpen_iff.mp h
  simp only [dup2, ha, slot_put]

theorem dup2_of_not_isOpen {old : ℕ} (h : ¬ t.IsOpen old) (new : ℕ) : t.dup2 old new = t := by
  simp only [dup2, t.not_isOpen_iff.mp h]

/-- Duplicating a descriptor onto itself changes no slot. -/
theorem slot_dup2_self (n m : ℕ) : (t.dup2 n n).slot m = t.slot m := by
  by_cases h : t.IsOpen n
  · rw [slot_dup2 t h]
    split_ifs with hm
    · rw [hm]
    · rfl
  · rw [dup2_of_not_isOpen t h]

/-! ### Which descriptors are open -/

theorem isOpen_put {n m : ℕ} {a : α} : (t.put n a).IsOpen m ↔ m = n ∨ t.IsOpen m := by
  simp only [IsOpen, slot_put]
  split_ifs with h <;> simp [h]

/-! ### The lowest free slot -/

theorem slot_lowestFree : t.slot t.lowestFree = none := by
  by_cases h : t.lowestFree < t.slots.length
  · have hnone := List.findIdx_getElem (w := h)
    simp only [Option.isNone_iff_eq_none] at hnone
    have hget : t.slots[t.lowestFree]? = some none := by
      rw [List.getElem?_eq_getElem h]
      exact congrArg some hnone
    simp [slot, hget]
  · exact t.slot_eq_none_of_length_le (not_lt.mp h)

theorem not_isOpen_lowestFree : ¬ t.IsOpen t.lowestFree :=
  t.not_isOpen_iff.mpr t.slot_lowestFree

theorem isOpen_of_lt_lowestFree {n : ℕ} (h : n < t.lowestFree) : t.IsOpen n := by
  have hlt : n < t.slots.length := h.trans_le List.findIdx_le_length
  have hsome := List.not_of_lt_findIdx h
  rw [Option.isNone_eq_false_iff] at hsome
  rwa [IsOpen, slot, List.getElem?_eq_getElem hlt, Option.join_some]

/-- A number below which everything is open bounds the lowest free number from below. -/
theorem le_lowestFree {n : ℕ} (hlow : ∀ m < n, t.IsOpen m) : n ≤ t.lowestFree := by
  by_contra h
  exact t.not_isOpen_lowestFree (hlow _ (not_le.mp h))

/-! ### System calls

A descriptor is an integer here, since `-1` stands for the result of a call that failed. Each call
takes whether the system lets it succeed; a call on a descriptor that is not open fails anyway. -/

/-- `open`: the lowest free descriptor, or `-1`. -/
def sysOpen (ok : Bool) (a : α) : ℤ × FdTable α :=
  if ok then ((t.lowestFree : ℤ), t.put t.lowestFree a) else (-1, t)

/-- `pipe` with the objects for its read and its write end: the two lowest free descriptors, or
`-1` twice. -/
def sysPipe (ok : Bool) (r w : α) : (ℤ × ℤ) × FdTable α :=
  if ok then
    let t' := t.put t.lowestFree r
    (((t.lowestFree : ℤ), (t'.lowestFree : ℤ)), t'.put t'.lowestFree w)
  else ((-1, -1), t)

/-- `dup2`. -/
def sysDup2 (ok : Bool) (old : ℤ) (new : ℕ) : FdTable α :=
  if ok ∧ 0 ≤ old then t.dup2 old.toNat new else t

/-- `close`. -/
def sysClose (fd : ℤ) : FdTable α := if 0 ≤ fd then t.close fd.toNat else t

@[simp] theorem sysDup2_false (old : ℤ) (new : ℕ) : t.sysDup2 false old new = t := by
  simp [sysDup2]

@[simp] theorem sysDup2_neg_one (ok : Bool) (new : ℕ) : t.sysDup2 ok (-1) new = t := by
  simp [sysDup2]

@[simp] theorem sysClose_neg_one : t.sysClose (-1) = t := by simp [sysClose]

@[simp] theorem sysClose_natCast (n : ℕ) : t.sysClose (n : ℤ) = t.close n := by simp [sysClose]

theorem slot_sysDup2 {old : ℕ} (h : t.IsOpen old) (new m : ℕ) :
    (t.sysDup2 true old new).slot m = if m = new then t.slot old else t.slot m := by
  simp [sysDup2, slot_dup2 t h]

/-- `open` gives a free descriptor above those that are all open. -/
theorem exists_sysOpen (a : α) {n : ℕ} (hlow : ∀ m < n, t.IsOpen m) :
    ∃ d : ℕ, t.sysOpen true a = ((d : ℤ), t.put d a) ∧ n ≤ d ∧ t.slot d = none :=
  ⟨t.lowestFree, rfl, t.le_lowestFree hlow, t.slot_lowestFree⟩

/-- `pipe` gives two different free descriptors above those that are all open. -/
theorem exists_sysPipe (a b : α) {n : ℕ} (hlow : ∀ m < n, t.IsOpen m) :
    ∃ r w : ℕ, (t.sysPipe true a b).1 = ((r : ℤ), (w : ℤ)) ∧ n ≤ r ∧ n ≤ w ∧ r ≠ w ∧
      t.slot r = none ∧ t.slot w = none ∧
      ∀ m, (t.sysPipe true a b).2.slot m =
        if m = w then some b else if m = r then some a else t.slot m := by
  have hw := (t.put t.lowestFree a).slot_lowestFree
  have hne : (t.put t.lowestFree a).lowestFree ≠ t.lowestFree := fun h => by
    rw [h, slot_put_self] at hw
    exact Option.some_ne_none a hw
  refine ⟨t.lowestFree, (t.put t.lowestFree a).lowestFree, rfl, t.le_lowestFree hlow,
    le_lowestFree _ fun m hm => t.isOpen_put.mpr (Or.inr (hlow m hm)), hne.symm,
    t.slot_lowestFree, ?_, fun m => ?_⟩
  · rwa [slot_put_of_ne _ _ hne] at hw
  · rw [← slot_put, ← slot_put]
    rfl

/-- Whatever its outcome, `dup2` changes no slot but its target. -/
theorem slot_sysDup2_of_ne (ok : Bool) (old : ℤ) {new m : ℕ} (h : m ≠ new) :
    (t.sysDup2 ok old new).slot m = t.slot m := by
  simp only [sysDup2]
  split_ifs
  · by_cases ho : t.IsOpen old.toNat
    · rw [slot_dup2 t ho, if_neg h]
    · rw [dup2_of_not_isOpen t ho]
  · rfl

/-- Duplicating a descriptor onto itself changes no slot, whatever the outcome. -/
theorem slot_sysDup2_self (ok : Bool) (n m : ℕ) : (t.sysDup2 ok n n).slot m = t.slot m := by
  simp only [sysDup2]
  split_ifs
  · exact t.slot_dup2_self n m
  · rfl

theorem slot_sysClose (fd : ℤ) (m : ℕ) :
    (t.sysClose fd).slot m = if (m : ℤ) = fd then none else t.slot m := by
  by_cases h : 0 ≤ fd
  · lift fd to ℕ using h
    rw [sysClose_natCast, slot_close]
    exact if_congr Int.natCast_inj.symm rfl rfl
  · rw [sysClose, if_neg h, if_neg (by omega)]

theorem isOpen_sysClose {fd : ℤ} {m : ℕ} :
    (t.sysClose fd).IsOpen m ↔ (m : ℤ) ≠ fd ∧ t.IsOpen m := by
  simp only [IsOpen, slot_sysClose]
  split_ifs with h <;> simp [h]

end FdTable

end UnixStudy
