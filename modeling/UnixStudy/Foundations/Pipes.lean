import UnixStudy.Foundations.Descriptors
import UnixStudy.Foundations.Runs
import Mathlib.Data.Set.Insert

/-!
# Pipes

A pipe holds a bounded number of items. A process that reads from it waits while it holds nothing,
but not if no process has the other end open: then it has come to the end. A process that writes to
it waits while it is full. Which processes have an end open is said by their descriptor tables.

A system of processes *completes* if it never comes to a stop before its end, and a measure of what
is left to be done goes down with every step: then every run has a bounded length, and can be
continued to the end.

## Main definitions

* `FdTable.Names`, `FdTable.named` : a process has something open, and on which descriptors.
* `pipeRead`, `pipeWrite` : the calls of `read` and `write` that return.

## Main results

* `exists_pipeRead`, `exists_pipeWrite` : when a call returns.
* `Run.length_add_le` : the length of a run.
* `Run.exists_completion` : a run can be continued to the end.
-/

namespace UnixStudy

/-! ### Open ends -/

namespace FdTable

variable {α : Type*} (t : FdTable α)

/-- Some descriptor names the object. -/
def Names (a : α) : Prop := ∃ n < t.slots.length, t.slot n = some a

instance [DecidableEq α] (a : α) : Decidable (t.Names a) :=
  inferInstanceAs (Decidable (∃ n < t.slots.length, t.slot n = some a))

theorem names_iff {a : α} : t.Names a ↔ ∃ n, t.slot n = some a :=
  ⟨fun ⟨n, _, h⟩ => ⟨n, h⟩, fun ⟨n, h⟩ => ⟨n, t.lt_length_of_isOpen (t.isOpen_of_slot h), h⟩⟩

/-- The descriptors that name the object. -/
def named (a : α) : Set ℕ := {n | t.slot n = some a}

variable {t} {a b : α} {n m : ℕ}

theorem mem_named : m ∈ t.named a ↔ t.slot m = some a := Iff.rfl

theorem names_iff_nonempty : t.Names a ↔ (t.named a).Nonempty := t.names_iff

theorem named_sysClose : (t.sysClose n).named a = t.named a \ {n} := by
  ext m
  rw [Set.mem_sdiff, mem_named, mem_named, Set.mem_singleton_iff, sysClose_natCast,
    slot_close]
  split_ifs with h <;> simp [h]

theorem named_sysDup2_self {old : ℕ} (h : t.slot old = some a) :
    (t.sysDup2 true old n).named a = insert n (t.named a) := by
  ext m
  rw [Set.mem_insert_iff, mem_named, mem_named, slot_sysDup2 t (t.isOpen_of_slot h)]
  split_ifs with hm <;> simp [hm, h]

theorem named_sysDup2_of_ne {old : ℕ} (h : t.slot old = some b) (hab : a ≠ b) :
    (t.sysDup2 true old n).named a = t.named a \ {n} := by
  ext m
  rw [Set.mem_sdiff, mem_named, mem_named, Set.mem_singleton_iff,
    slot_sysDup2 t (t.isOpen_of_slot h)]
  split_ifs with hm
  · simp [hm, h, hab.symm]
  · simp [hm]

theorem named_sysOpen {ok : Bool} (hab : a ≠ b) : (t.sysOpen ok b).2.named a = t.named a := by
  cases ok with
  | false => rfl
  | true =>
    ext m
    rw [sysOpen, if_pos rfl, mem_named, mem_named, slot_put]
    split_ifs with hm
    · simp [hm, t.slot_lowestFree, hab.symm]
    · rfl

/-- What `open` has opened is closed. -/
theorem named_sysClose_sysOpen {ok : Bool} (hab : a ≠ b) :
    ((t.sysOpen ok b).2.sysClose (t.sysOpen ok b).1).named a = t.named a := by
  cases ok with
  | false => exact congrArg (named · a) t.sysClose_neg_one
  | true =>
    refine named_sysClose.trans ?_
    rw [named_sysOpen hab]
    refine Set.sdiff_singleton_eq_self fun hmem => ?_
    exact Option.some_ne_none a (hmem.symm.trans t.slot_lowestFree)

end FdTable

/-! ### Calls -/

section Calls

variable {α : Type*}

/-- A call of `read` that returns at most `k` items, where it is known whether the other end is open
anywhere: what it returns, which is nothing at the end, and what is left in the pipe. -/
def pipeRead (writers : Bool) (queue : List α) (k : ℕ) : Option (List α × List α) :=
  if queue = [] then if writers then none else some ([], [])
  else if k = 0 then none
  else some (queue.take k, queue.drop k)

/-- A part of a call of `write`, which puts `k` items into a pipe: what is in the pipe then, and
what is still to be written. -/
def pipeWrite (capacity : ℕ) (queue items : List α) (k : ℕ) : Option (List α × List α) :=
  if k = 0 ∨ items.length < k ∨ capacity < queue.length + k then none
  else some (queue ++ items.take k, items.drop k)

variable {writers : Bool} {queue items taken rest : List α} {capacity k : ℕ}

/-- What a call of `read` does. -/
theorem pipeRead_eq_some (h : pipeRead writers queue k = some (taken, rest)) :
    queue = taken ++ rest ∧ (taken = [] → queue = [] ∧ writers = false) := by
  rw [pipeRead] at h
  split_ifs at h with hqueue hwriters hk
  · obtain ⟨rfl, rfl⟩ := Prod.mk.inj (Option.some.inj h)
    exact ⟨hqueue, fun _ => ⟨hqueue, Bool.eq_false_iff.mpr hwriters⟩⟩
  · obtain ⟨rfl, rfl⟩ := Prod.mk.inj (Option.some.inj h)
    refine ⟨(List.take_append_drop k queue).symm, fun hnil => ?_⟩
    exact absurd ((List.take_eq_nil_iff.mp hnil).resolve_left hk) hqueue

/-- A call of `read` returns if there is something, or the other end is not open. -/
theorem exists_pipeRead (h : queue ≠ [] ∨ writers = false) :
    ∃ k ≤ 1, ∃ r, pipeRead writers queue k = some r := by
  by_cases hqueue : queue = []
  · have hwriters := h.resolve_left (not_not.mpr hqueue)
    exact ⟨0, Nat.zero_le 1, ([], []), by rw [pipeRead, if_pos hqueue, hwriters]; rfl⟩
  · exact ⟨1, le_rfl, _, by rw [pipeRead, if_neg hqueue, if_neg Nat.one_ne_zero]⟩

/-- What a part of a call of `write` does. -/
theorem pipeWrite_eq_some {queue' : List α}
    (h : pipeWrite capacity queue items k = some (queue', rest)) :
    ∃ written, written ≠ [] ∧ items = written ++ rest ∧ queue' = queue ++ written := by
  rw [pipeWrite] at h
  split_ifs at h with hk
  rw [not_or, not_or, not_lt] at hk
  obtain ⟨rfl, rfl⟩ := Prod.mk.inj (Option.some.inj h)
  refine ⟨items.take k, fun hnil => ?_, (List.take_append_drop k items).symm, rfl⟩
  rcases List.take_eq_nil_iff.mp hnil with hzero | hitems
  · exact hk.1 hzero
  · exact hk.1 (Nat.le_zero.mp (hk.2.1.trans (by rw [hitems]; exact le_rfl)))

/-- A call of `write` goes on if the pipe is not full. -/
theorem exists_pipeWrite (hitems : items ≠ []) (hqueue : queue.length < capacity) :
    ∃ k r, pipeWrite capacity queue items k = some r := by
  have hpos := List.length_pos_iff.mpr hitems
  exact ⟨1, _, if_neg (by omega)⟩

end Calls

/-! ### Completion -/

namespace Run

variable {σ α : Type*} {step : σ → α → σ → Prop} {s s' : σ} {as : List α} {inv : σ → Prop}
  {measure : σ → ℕ}

/-- **The length of a run** is at most what there is to be done in the beginning, if every step does
some of it. -/
theorem length_add_le (hrun : Run step s as s') (h : inv s)
    (hinv : ∀ s a s', inv s → step s a s' → inv s')
    (hmeasure : ∀ s a s', inv s → step s a s' → measure s' < measure s) :
    as.length + measure s' ≤ measure s := by
  induction hrun with
  | refl => exact (Nat.zero_add _).le
  | tail hrun hs ih =>
    have hlt := hmeasure _ _ _ (hrun.invariant h hinv) hs
    rw [List.length_append, List.length_singleton]
    omega

/-- The steps of a kind are not too many, if each of them does some of what there is to be done, and
the others do not add to it. -/
theorem countP_add_le (hrun : Run step s as s') (p : α → Bool) (h : inv s)
    (hinv : ∀ s a s', inv s → step s a s' → inv s')
    (hmeasure : ∀ s a s', inv s → step s a s' → measure s' + (p a).toNat ≤ measure s) :
    as.countP p + measure s' ≤ measure s := by
  induction hrun with
  | refl => exact (Nat.zero_add _).le
  | @tail as a s' s'' hrun hs ih =>
    have hle := hmeasure _ _ _ (hrun.invariant h hinv) hs
    rw [List.countP_append, List.countP_singleton]
    cases hp : p a <;> simp [hp] at hle ⊢ <;> omega

/-- The steps of a kind are not too many for the other ones, if each of them does some of what there
is to be done, and none of the others adds more than `c` to it. -/
theorem countP_add_le_mul (hrun : Run step s as s') (p : α → Bool) (c : ℕ) (h : inv s)
    (hinv : ∀ s a s', inv s → step s a s' → inv s')
    (hmeasure : ∀ s a s', inv s → step s a s' →
      measure s' + (p a).toNat ≤ measure s + c * (!p a).toNat) :
    as.countP p + measure s' ≤ measure s + c * as.countP (!p ·) := by
  induction hrun with
  | refl => exact (Nat.zero_add _).le
  | @tail as a s' s'' hrun hs ih =>
    have hle := hmeasure _ _ _ (hrun.invariant h hinv) hs
    rw [List.countP_append, List.countP_append, List.countP_singleton, List.countP_singleton,
      Nat.mul_add]
    cases hp : p a <;> simp [hp] at hle ⊢ <;> omega

/-- **A run can be continued to the end**, if there is a step before the end, and no step too
many. -/
theorem exists_completion {final : σ → Prop} (h : inv s)
    (hinv : ∀ s a s', inv s → step s a s' → inv s')
    (hmeasure : ∀ s a s', inv s → step s a s' → measure s' < measure s)
    (hstep : ∀ s, inv s → ¬ final s → ∃ a s', step s a s') :
    ∃ as s', Run step s as s' ∧ final s' := by
  induction hn : measure s using Nat.strong_induction_on generalizing s with
  | _ n ih =>
    by_cases hfinal : final s
    · exact ⟨[], s, .refl, hfinal⟩
    · obtain ⟨a, s₁, hs⟩ := hstep s h hfinal
      obtain ⟨as, s₂, hrun, hs₂⟩ :=
        ih (measure s₁) (hn ▸ hmeasure s a s₁ h hs) (hinv s a s₁ h hs) rfl
      exact ⟨a :: as, s₂, hrun.head hs, hs₂⟩

end Run

end UnixStudy
