import Mathlib.Data.List.Nodup
import Mathlib.Logic.Function.Basic

/-!
# Linked lists in memory

Memory holds cells at some addresses, and the cell at an address may have the address of the next
one. The cells on the way from an address to the null address, in order, are a linked list. There is
at most one such way from an address, and so no address is on it twice. Cells that are not on the
way may change, a cell may be put in front of the list, and the first one may be taken away.

## Main definitions

* `Linked` : the cells on the way from an address.

## Main results

* `Linked.unique` : there is only one way.
* `Linked.nodup` : the addresses are distinct.
* `Linked.update`, `Linked.push`, `Linked.pop` : changes in memory.
-/

namespace UnixStudy

variable {γ : Type*} {next : γ → Option ℕ}

/-- The cells in memory on the way from an address to the null address `none`, with their
addresses. -/
def Linked (next : γ → Option ℕ) (mem : ℕ → Option γ) : Option ℕ → List (ℕ × γ) → Prop
  | p, [] => p = none
  | p, x :: xs => p = some x.1 ∧ mem x.1 = some x.2 ∧ Linked next mem (next x.2) xs

namespace Linked

variable {mem : ℕ → Option γ} {p : Option ℕ} {x : ℕ × γ} {xs ys : List (ℕ × γ)} {a : ℕ}

/-- There is only one way from an address. -/
theorem unique (h : Linked next mem p xs) (h' : Linked next mem p ys) : xs = ys := by
  induction xs generalizing p ys with
  | nil =>
    cases ys with
    | nil => rfl
    | cons y ys => exact absurd (h'.1.symm.trans h) (Option.some_ne_none _)
  | cons x xs ih =>
    obtain ⟨a, c⟩ := x
    cases ys with
    | nil => exact absurd (h.1.symm.trans h') (Option.some_ne_none _)
    | cons y ys =>
      obtain ⟨a', c'⟩ := y
      obtain rfl : a = a' := Option.some.inj (h.1.symm.trans h'.1)
      obtain rfl : c = c' := Option.some.inj (h.2.1.symm.trans h'.2.1)
      rw [ih h.2.2 h'.2.2]

/-- The cells of a list are in memory. -/
theorem mem_of_mem (h : Linked next mem p xs) (hx : x ∈ xs) : mem x.1 = some x.2 := by
  induction xs generalizing p with
  | nil => exact absurd hx List.not_mem_nil
  | cons y ys ih =>
    rcases List.mem_cons.mp hx with rfl | hx
    · exact h.2.1
    · exact ih h.2.2 hx

/-- What is not in memory is not on a list. -/
theorem not_mem (h : Linked next mem p xs) (ha : mem a = none) :
    a ∉ xs.map Prod.fst := fun hmem => by
  obtain ⟨x, hx, rfl⟩ := List.mem_map.mp hmem
  exact Option.some_ne_none _ ((h.mem_of_mem hx).symm.trans ha)

/-- The address where a list begins. -/
theorem eq_head? (h : Linked next mem p xs) : p = xs.head?.map Prod.fst := by
  cases xs with
  | nil => exact h
  | cons x xs => exact h.1

/-- The end of a list is a list. -/
theorem of_append (h : Linked next mem p (xs ++ x :: ys)) :
    Linked next mem (some x.1) (x :: ys) := by
  induction xs generalizing p with
  | nil => exact ⟨rfl, h.2⟩
  | cons y xs ih => exact ih h.2.2

/-- **The addresses of a list are distinct**: a second visit would go on for ever. -/
theorem nodup (h : Linked next mem p xs) : (xs.map Prod.fst).Nodup := by
  induction xs generalizing p with
  | nil => exact List.nodup_nil
  | cons x xs ih =>
    refine List.nodup_cons.mpr ⟨fun hmem => ?_, ih h.2.2⟩
    obtain ⟨y, hy, hyx⟩ := List.mem_map.mp hmem
    obtain ⟨as, bs, rfl⟩ := List.append_of_mem hy
    have hstart : Linked next mem (some x.1) (x :: (as ++ y :: bs)) := ⟨rfl, h.2⟩
    have hend : Linked next mem (some x.1) (y :: bs) := hyx ▸ h.2.2.of_append
    have hlength := congrArg List.length (hend.unique hstart)
    simp only [List.length_cons, List.length_append] at hlength
    omega

/-- Memory may change where the list is not. -/
theorem congr {mem' : ℕ → Option γ} (h : Linked next mem p xs)
    (hmem : ∀ a ∈ xs.map Prod.fst, mem' a = mem a) : Linked next mem' p xs := by
  induction xs generalizing p with
  | nil => exact h
  | cons x xs ih =>
    rw [List.map_cons, List.forall_mem_cons] at hmem
    exact ⟨h.1, hmem.1.trans h.2.1, ih h.2.2 hmem.2⟩

/-- Only the cells of the list matter. -/
theorem update (h : Linked next mem p xs) (ha : a ∉ xs.map Prod.fst) (c : Option γ) :
    Linked next (Function.update mem a c) p xs := by
  induction xs generalizing p with
  | nil => exact h
  | cons x xs ih =>
    rw [List.map_cons, List.mem_cons, not_or] at ha
    exact ⟨h.1, (Function.update_of_ne (Ne.symm ha.1) ..).trans h.2.1, ih h.2.2 ha.2⟩

/-- A cell that is not on the list is put in front of it. -/
theorem push (h : Linked next mem p xs) (ha : a ∉ xs.map Prod.fst) {c : γ} (hc : next c = p) :
    Linked next (Function.update mem a (some c)) (some a) ((a, c) :: xs) :=
  ⟨rfl, Function.update_self .., hc ▸ h.update ha _⟩

/-- The first cell of a list is taken away. -/
theorem pop (h : Linked next mem (some a) xs) {c : γ} (hc : mem a = some c) : ∃ ys,
    xs = (a, c) :: ys ∧ Linked next (Function.update mem a none) (next c) ys := by
  cases xs with
  | nil => exact absurd h (Option.some_ne_none a)
  | cons x xs =>
    obtain ⟨a', c'⟩ := x
    obtain rfl : a = a' := Option.some.inj h.1
    obtain rfl : c = c' := Option.some.inj (hc.symm.trans h.2.1)
    exact ⟨xs, rfl, h.2.2.update (List.nodup_cons.mp h.nodup).1 none⟩

end Linked

end UnixStudy
