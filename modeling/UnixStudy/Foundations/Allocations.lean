import Mathlib.Data.Fintype.EquivFin
import Mathlib.Data.List.Nodup
import Mathlib.Logic.Function.Basic

/-!
# Memory from `malloc`

`malloc` returns an address that is not in use, and `free` gives one back. `malloc` may return it
again later, so an address does not say which call of `malloc` it is from. The calls are counted,
and memory knows for each address in use the number of the call that has returned it, and which
calls have had their result freed. What is written to, or freed, has to be in use.

## Main definitions

* `Allocations` : what is in use, and what has been freed.
* `Allocations.malloc`, `Allocations.store`, `Allocations.free` : calls and assignments.

## Main results

* `Allocations.malloc_eq_some`, `Allocations.store_eq_some`, `Allocations.free_eq_some` : what they
  do.
* `Allocations.malloc_cell_ne_none`, `Allocations.store_cell_ne_none`,
  `Allocations.free_cell_ne_none` : what is in use then.
* `Allocations.exists_malloc`, `Allocations.exists_store`, `Allocations.exists_free` : when they can
  be done.
-/

namespace UnixStudy

/-- The contents of what is in use at each address, the number of the call of `malloc` that has
returned the address, the number of calls so far, and the calls of which the result was freed. -/
structure Allocations (γ : Type*) where
  cell : ℕ → Option γ
  call : ℕ → ℕ
  calls : ℕ
  freed : List ℕ
  call_lt : ∀ a, cell a ≠ none → call a < calls
  call_inj : ∀ a b, cell a ≠ none → cell b ≠ none → call a = call b → a = b
  not_freed : ∀ a, cell a ≠ none → call a ∉ freed
  freed_lt : ∀ n ∈ freed, n < calls
  freed_nodup : freed.Nodup

namespace Allocations

variable {γ : Type*}

/-- Nothing is in use. -/
def empty : Allocations γ where
  cell _ := none
  call _ := 0
  calls := 0
  freed := []
  call_lt _ h := absurd rfl h
  call_inj _ _ h := absurd rfl h
  not_freed _ h := absurd rfl h
  freed_lt _ h := absurd h List.not_mem_nil
  freed_nodup := List.nodup_nil

variable (m : Allocations γ) {m' : Allocations γ} {a : ℕ} {c : γ}

theorem update_ne_none {f : ℕ → Option γ} {v : Option γ} {b : ℕ}
    (h : Function.update f a v b ≠ none) (hb : b ≠ a) : f b ≠ none := by
  rwa [Function.update_of_ne hb] at h

/-- `malloc` returns the address `a`, which is not in use, with some contents. -/
def malloc (a : ℕ) (c : γ) : Option (Allocations γ) :=
  if m.cell a = none then
    some
      { cell := Function.update m.cell a (some c)
        call := Function.update m.call a m.calls
        calls := m.calls + 1
        freed := m.freed
        call_lt := fun b hb => by
          by_cases h : b = a
          · rw [h, Function.update_self]
            exact Nat.lt_succ_self _
          · rw [Function.update_of_ne h]
            exact Nat.lt_succ_of_lt (m.call_lt b (update_ne_none hb h))
        call_inj := fun b b' hb hb' heq => by
          by_cases h : b = a <;> by_cases h' : b' = a
          · exact h.trans h'.symm
          · rw [h, Function.update_self, Function.update_of_ne h'] at heq
            exact absurd heq (Nat.ne_of_gt (m.call_lt b' (update_ne_none hb' h')))
          · rw [h', Function.update_self, Function.update_of_ne h] at heq
            exact absurd heq (Nat.ne_of_lt (m.call_lt b (update_ne_none hb h)))
          · rw [Function.update_of_ne h, Function.update_of_ne h'] at heq
            exact m.call_inj b b' (update_ne_none hb h) (update_ne_none hb' h') heq
        not_freed := fun b hb => by
          by_cases h : b = a
          · rw [h, Function.update_self]
            exact fun hmem => Nat.lt_irrefl _ (m.freed_lt _ hmem)
          · rw [Function.update_of_ne h]
            exact m.not_freed b (update_ne_none hb h)
        freed_lt := fun n hn => Nat.lt_succ_of_lt (m.freed_lt n hn)
        freed_nodup := m.freed_nodup }
  else none

/-- An assignment to what is at the address `a`. -/
def store (a : ℕ) (c : γ) : Option (Allocations γ) :=
  if ha : m.cell a ≠ none then
    have hcell : ∀ b, Function.update m.cell a (some c) b ≠ none → m.cell b ≠ none := fun b hb => by
      by_cases h : b = a
      · exact h ▸ ha
      · exact update_ne_none hb h
    some
      { cell := Function.update m.cell a (some c)
        call := m.call
        calls := m.calls
        freed := m.freed
        call_lt := fun b hb => m.call_lt b (hcell b hb)
        call_inj := fun b b' hb hb' => m.call_inj b b' (hcell b hb) (hcell b' hb')
        not_freed := fun b hb => m.not_freed b (hcell b hb)
        freed_lt := m.freed_lt
        freed_nodup := m.freed_nodup }
  else none

/-- `free` of the address `a`. -/
def free (a : ℕ) : Option (Allocations γ) :=
  if ha : m.cell a ≠ none then
    have hne : ∀ b, Function.update m.cell a none b ≠ none → b ≠ a := fun b hb h => by
      rw [h, Function.update_self] at hb
      exact hb rfl
    have hcell : ∀ b, Function.update m.cell a none b ≠ none → m.cell b ≠ none := fun b hb =>
      update_ne_none hb (hne b hb)
    some
      { cell := Function.update m.cell a none
        call := m.call
        calls := m.calls
        freed := m.freed ++ [m.call a]
        call_lt := fun b hb => m.call_lt b (hcell b hb)
        call_inj := fun b b' hb hb' => m.call_inj b b' (hcell b hb) (hcell b' hb')
        not_freed := fun b hb hmem => by
          rcases List.mem_append.mp hmem with hmem | hmem
          · exact m.not_freed b (hcell b hb) hmem
          · exact hne b hb (m.call_inj b a (hcell b hb) ha (List.mem_singleton.mp hmem))
        freed_lt := fun n hn => by
          rcases List.mem_append.mp hn with hn | hn
          · exact m.freed_lt n hn
          · exact List.mem_singleton.mp hn ▸ m.call_lt a ha
        freed_nodup := List.nodup_append.mpr ⟨m.freed_nodup, List.nodup_singleton _,
          fun n hn k hk h => m.not_freed a ha (List.mem_singleton.mp hk ▸ h ▸ hn)⟩ }
  else none

variable {m}

/-- What `malloc` does. -/
theorem malloc_eq_some (h : m.malloc a c = some m') :
    m.cell a = none ∧ m'.cell = Function.update m.cell a (some c) := by
  unfold malloc at h
  split_ifs at h with ha
  obtain rfl := Option.some.inj h
  exact ⟨ha, rfl⟩

/-- What an assignment does. -/
theorem store_eq_some (h : m.store a c = some m') :
    m.cell a ≠ none ∧ m'.cell = Function.update m.cell a (some c) := by
  unfold store at h
  split_ifs at h with ha
  obtain rfl := Option.some.inj h
  exact ⟨ha, rfl⟩

/-- What `free` does. -/
theorem free_eq_some (h : m.free a = some m') :
    m.cell a ≠ none ∧ m'.cell = Function.update m.cell a none := by
  unfold free at h
  split_ifs at h with ha
  obtain rfl := Option.some.inj h
  exact ⟨ha, rfl⟩

/-- What is in use after a call of `malloc`. -/
theorem malloc_cell_ne_none (h : m.malloc a c = some m') (b : ℕ) :
    m'.cell b ≠ none ↔ b = a ∨ m.cell b ≠ none := by
  rw [(malloc_eq_some h).2]
  by_cases hb : b = a
  · simp [hb]
  · simp [hb]

/-- What is in use after an assignment. -/
theorem store_cell_ne_none (h : m.store a c = some m') (b : ℕ) :
    m'.cell b ≠ none ↔ m.cell b ≠ none := by
  obtain ⟨ha, hcell⟩ := store_eq_some h
  rw [hcell]
  by_cases hb : b = a
  · simp [hb, ha]
  · simp [hb]

/-- What is in use after a call of `free`. -/
theorem free_cell_ne_none (h : m.free a = some m') (b : ℕ) :
    m'.cell b ≠ none ↔ m.cell b ≠ none ∧ b ≠ a := by
  rw [(free_eq_some h).2]
  by_cases hb : b = a
  · simp [hb]
  · simp [hb]

/-- What is not in use may be returned. -/
theorem exists_malloc (ha : m.cell a = none) (c : γ) : ∃ m', m.malloc a c = some m' :=
  ⟨_, if_pos ha⟩

/-- What is in use may be written to. -/
theorem exists_store (ha : m.cell a ≠ none) (c : γ) : ∃ m', m.store a c = some m' :=
  ⟨_, dif_pos ha⟩

/-- What is in use may be freed. -/
theorem exists_free (ha : m.cell a ≠ none) : ∃ m', m.free a = some m' := ⟨_, dif_pos ha⟩

/-- Not every address is in use. -/
theorem exists_cell_eq_none (m : Allocations γ) : ∃ a, m.cell a = none := by
  by_contra hall
  push Not at hall
  have hinj : Function.Injective fun a => (⟨m.call a, m.call_lt a (hall a)⟩ : Fin m.calls) :=
    fun a b heq => m.call_inj a b (hall a) (hall b) (Fin.val_eq_of_eq heq)
  exact not_injective_infinite_finite _ hinj

/-- What is in memory from `malloc` is overwritten. -/
theorem store_of_malloc (h : m.malloc a c = some m') (c' : γ) : m'.store a c' = m.malloc a c' := by
  unfold malloc at h ⊢
  split_ifs at h ⊢ with ha
  obtain rfl := Option.some.inj h
  have hcell : Function.update m.cell a (some c) a ≠ none := by
    rw [Function.update_self]
    exact Option.some_ne_none c
  rw [store, dif_pos hcell]
  simp only [Function.update_idem]

end Allocations

end UnixStudy
