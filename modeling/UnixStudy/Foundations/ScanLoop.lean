import Mathlib.Data.Nat.Find
import Mathlib.Logic.Function.Basic
import Mathlib.Order.Basic

/-!
# A loop that stops at a mark

An array lies in memory from some address on, and a loop goes over it until it finds a mark. Every
element in front of the mark is replaced; where the loop stops, the mark may be written once more.
The loop does not know how long the array is: it stays inside if and only if the array has a mark.

## Main definitions

* `ScanLoop` : the state of the loop: its index, the memory, and the indices it has touched.
* `ScanLoop.step`, `ScanLoop.run` : one turn of the loop, and the first turns of it.
* `ScanLoop.StaysInside` : only elements of the array are touched, and nothing in front of it has
  changed.

## Main results

* `ScanLoop.run_of_forall`, `ScanLoop.run_of_first` : the loop in front of the mark, and behind it.
* `ScanLoop.staysInside_iff` : when the loop stays inside.
-/

namespace UnixStudy

/-- The state of a loop over an array in memory. -/
structure ScanLoop (α : Type*) where
  i : ℕ
  mem : ℕ → α
  touched : List ℕ
  ended : Bool

namespace ScanLoop

section Replaced

variable {α : Type*} (f : α → α) (base : ℕ) (mem : ℕ → α)

/-- The memory when the first elements of the array are replaced. -/
def replaced (n : ℕ) (a : ℕ) : α := if base ≤ a ∧ a < base + n then f (mem a) else mem a

theorem replaced_of_le {n a : ℕ} (h : base + n ≤ a) : replaced f base mem n a = mem a :=
  if_neg fun hlt => Nat.not_lt.mpr h hlt.2

theorem update_replaced (n : ℕ) :
    Function.update (replaced f base mem n) (base + n) (f (mem (base + n))) =
      replaced f base mem (n + 1) := by
  funext a
  by_cases ha : a = base + n
  · rw [ha, Function.update_self, replaced, if_pos ⟨Nat.le_add_right _ _, Nat.lt_succ_self _⟩]
  · rw [Function.update_of_ne ha, replaced, replaced]
    have hiff : base ≤ a ∧ a < base + n ↔ base ≤ a ∧ a < base + (n + 1) := by omega
    simp only [hiff]

end Replaced

variable {α : Type*} [DecidableEq α] (mark : α) (f : α → α) (closes : Bool) (base : ℕ) (mem : ℕ → α)

/-- One turn of the loop over the array at the address `base`. It touches the element with the index
`i`: it reads it, and replaces it, or stops, and writes the mark if `closes` is set. -/
def step (s : ScanLoop α) : ScanLoop α :=
  if s.ended then s
  else if s.mem (base + s.i) = mark then
    { s with
      mem := if closes then Function.update s.mem (base + s.i) mark else s.mem
      touched := s.touched ++ [s.i], ended := true }
  else
    { s with
      i := s.i + 1, mem := Function.update s.mem (base + s.i) (f (s.mem (base + s.i)))
      touched := s.touched ++ [s.i] }

/-- The loop after its first turns. -/
def run : ℕ → ScanLoop α
  | 0 => ⟨0, mem, [], false⟩
  | k + 1 => step mark f closes base (run k)

/-- Only elements of an array of the given size are touched, and what is in front of the array stays
as it is. -/
def StaysInside (size base : ℕ) (loop : ℕ → ScanLoop α) : Prop :=
  (∀ k, ∀ j ∈ (loop k).touched, j < size) ∧ ∀ k, ∀ a < base, (loop k).mem a = (loop 0).mem a

variable {mark f closes base mem} {n k : ℕ}

/-- **In front of the mark** every turn replaces one element. -/
theorem run_of_forall (h : ∀ j < k, mem (base + j) ≠ mark) :
    run mark f closes base mem k = ⟨k, replaced f base mem k, List.range k, false⟩ := by
  induction k with
  | zero =>
    have hmem : replaced f base mem 0 = mem := by
      funext a
      exact if_neg fun hlt => Nat.not_lt.mpr hlt.1 hlt.2
    rw [run, hmem]
    rfl
  | succ k ih =>
    have hne : ¬ replaced f base mem k (base + k) = mark := by
      rw [replaced_of_le f base mem le_rfl]
      exact h k (Nat.lt_succ_self k)
    rw [run, ih fun j hj => h j (Nat.lt_succ_of_lt hj), step, if_neg Bool.false_ne_true, if_neg hne]
    dsimp only
    rw [replaced_of_le f base mem le_rfl, update_replaced, List.range_succ]

/-- **At the mark** the loop stops. -/
theorem run_of_first (h : ∀ j < n, mem (base + j) ≠ mark) (hn : mem (base + n) = mark)
    (hk : n < k) :
    run mark f closes base mem k = ⟨n, replaced f base mem n, List.range (n + 1), true⟩ := by
  induction k with
  | zero => exact absurd hk (Nat.not_lt_zero n)
  | succ k ih =>
    rw [run]
    rcases Nat.lt_succ_iff_lt_or_eq.mp hk with hlt | rfl
    · rw [ih hlt, step, if_pos rfl]
    · have heq : replaced f base mem n (base + n) = mark := by
        rw [replaced_of_le f base mem le_rfl, hn]
      rw [run_of_forall h, step, if_neg Bool.false_ne_true, if_pos heq]
      have hself :
          Function.update (replaced f base mem n) (base + n) mark = replaced f base mem n :=
        Function.update_eq_self_iff.mpr heq.symm
      dsimp only
      rw [hself, ite_self, List.range_succ]

/-- What is in front of the array stays as it is. -/
theorem mem_run_of_lt (k : ℕ) {a : ℕ} (ha : a < base) :
    (run mark f closes base mem k).mem a = mem a := by
  induction k with
  | zero => rfl
  | succ k ih =>
    have hne : a ≠ base + (run mark f closes base mem k).i :=
      (ha.trans_le (Nat.le_add_right _ _)).ne
    rw [run, step]
    split_ifs
    · exact ih
    · exact (Function.update_of_ne hne ..).trans ih
    · exact ih
    · exact (Function.update_of_ne hne ..).trans ih

/-- **When the loop stays inside**: if and only if the array has a mark. -/
theorem staysInside_iff {size : ℕ} : StaysInside size base (run mark f closes base mem) ↔
    ∃ n < size, mem (base + n) = mark := by
  constructor
  · intro h
    by_contra hnone
    have hne : ∀ j < size, mem (base + j) ≠ mark := fun j hj heq => hnone ⟨j, hj, heq⟩
    have htouched : size ∈ (run mark f closes base mem (size + 1)).touched := by
      rw [run, run_of_forall hne, step, if_neg Bool.false_ne_true]
      split_ifs <;> exact List.mem_append_right _ List.mem_cons_self
    exact Nat.lt_irrefl _ (h.1 _ _ htouched)
  · rintro ⟨n, hn, hmark⟩
    have hex : ∃ n, mem (base + n) = mark := ⟨n, hmark⟩
    have hfirst : ∀ j < Nat.find hex, mem (base + j) ≠ mark := fun j hj => Nat.find_min hex hj
    have hsize : Nat.find hex < size := (Nat.find_min' hex hmark).trans_lt hn
    refine ⟨fun k j hj => ?_, fun k a ha => mem_run_of_lt k ha⟩
    rcases Nat.lt_or_ge (Nat.find hex) k with hk | hk
    · rw [run_of_first hfirst (Nat.find_spec hex) hk] at hj
      exact (Nat.le_of_lt_succ (List.mem_range.mp hj)).trans_lt hsize
    · rw [run_of_forall fun j hj => hfirst j (hj.trans_le hk)] at hj
      exact (List.mem_range.mp hj).trans_le (hk.trans hsize.le)

end ScanLoop

end UnixStudy
