import Mathlib.Data.List.Nodup
import Mathlib.Logic.Relation

/-!
# Children and how a process waits for them

A process forks children, which terminate in any order. A terminated child is there until its parent
has reaped it, and the parent cannot choose which one it reaps next. Children are named by pids, and
a pid may be given again once its child has been reaped, so pids tell unreaped children apart and
nothing more (`Processes.Sound`).

A parent that waits for one child reaps children until it has reaped this one. As long as it waits,
the child is unreaped, so there is always something to wait for, and each turn leaves one child less
(`Processes.Awaits`).

## Main definitions

* `Processes` : the children of a process.
* `Processes.spawn`, `Processes.exit`, `Processes.reap` : what can happen to them.
* `FreshPids` : new children get pids that no unreaped child has.
* `Processes.Sound` : unreaped children have different pids, and no child is reaped twice.
* `Processes.Awaits` : the parent is waiting for a child.

## Main results

* `Processes.Sound.spawn`, `Processes.Sound.exit`, `Processes.Sound.reap` : soundness is kept.
* `Processes.Awaits.reap` : one turn of the loop that waits.
* `invariant_of_reachable` : what every step keeps holds in every run.
-/

namespace UnixStudy

/-- The children of a process: those it has not reaped, those that have terminated so far, and those
it has reaped, in order. -/
structure Processes (α : Type*) where
  unreaped : List α
  exited : List α
  reaped : List α

/-- Each of the new children, in the order in which they are forked, gets a pid that differs from
those of all unreaped children. -/
def FreshPids {α β : Type*} (pid : α → β) : List α → List α → Prop
  | _, [] => True
  | unreaped, a :: as => pid a ∉ unreaped.map pid ∧ FreshPids pid (unreaped ++ [a]) as

instance decidableFreshPids {α β : Type*} [DecidableEq β] (pid : α → β) :
    ∀ unreaped as, Decidable (FreshPids pid unreaped as)
  | _, [] => isTrue trivial
  | unreaped, a :: as =>
    have := decidableFreshPids pid (unreaped ++ [a]) as
    inferInstanceAs (Decidable (_ ∧ _))

theorem FreshPids.nodup {α β : Type*} {pid : α → β} {unreaped as : List α}
    (h : FreshPids pid unreaped as) (hpids : (unreaped.map pid).Nodup) :
    ((unreaped ++ as).map pid).Nodup := by
  induction as generalizing unreaped with
  | nil => rwa [List.append_nil]
  | cons a as ih =>
    have hpids' : ((unreaped ++ [a]).map pid).Nodup := by
      rw [List.map_append, List.map_singleton]
      exact hpids.append (List.nodup_singleton _) (List.disjoint_singleton.mpr h.1)
    have hrest := ih h.2 hpids'
    rwa [List.append_assoc] at hrest

namespace Processes

variable {α β : Type*}

/-- Fork children. -/
def spawn (p : Processes α) (as : List α) : Processes α := { p with unreaped := p.unreaped ++ as }

/-- A child terminates. -/
def exit (p : Processes α) (a : α) : Processes α := { p with exited := p.exited ++ [a] }

/-- Reap a child. -/
def reap [DecidableEq α] (p : Processes α) (a : α) : Processes α :=
  { p with unreaped := p.unreaped.erase a, reaped := p.reaped ++ [a] }

/-- Unreaped children have different pids, no child is reaped twice, and reaped children have
terminated. -/
structure Sound (pid : α → β) (p : Processes α) : Prop where
  pids : (p.unreaped.map pid).Nodup
  once : (p.reaped ++ p.unreaped).Nodup
  exited : ∀ a ∈ p.reaped, a ∈ p.exited

/-- The parent waits for a child with the pid `b`. It had `start` unreaped children when it began,
and has reaped `n` of them since. -/
structure Awaits (pid : α → β) (p : Processes α) (b : β) (start n : ℕ) : Prop where
  unreaped : ∃ a ∈ p.unreaped, pid a = b
  turns : n + p.unreaped.length = start

namespace Sound

variable {pid : α → β} {p : Processes α}

theorem spawn (h : p.Sound pid) {as : List α} (hfresh : FreshPids pid p.unreaped as)
    (hnew : ∀ a ∈ as, a ∉ p.reaped) : (p.spawn as).Sound pid := by
  have hpids := hfresh.nodup h.pids
  have hsplit := List.nodup_append.mp (List.Nodup.of_map pid hpids)
  refine ⟨hpids, ?_, h.exited⟩
  rw [Processes.spawn, ← List.append_assoc]
  refine h.once.append hsplit.2.1 fun a ha has => ?_
  rcases List.mem_append.mp ha with ha | ha
  · exact hnew a has ha
  · exact hsplit.2.2 a ha a has rfl

theorem exit (h : p.Sound pid) (a : α) : (p.exit a).Sound pid :=
  ⟨h.pids, h.once, fun b hb => List.mem_append_left _ (h.exited b hb)⟩

theorem reap [DecidableEq α] (h : p.Sound pid) {a : α} (ha : a ∈ p.unreaped)
    (hexited : a ∈ p.exited) : (p.reap a).Sound pid := by
  refine ⟨h.pids.sublist (List.erase_sublist.map pid), ?_, ?_⟩
  · have hperm : (p.reaped ++ [a] ++ p.unreaped.erase a).Perm (p.reaped ++ p.unreaped) := by
      rw [List.append_assoc]
      exact (List.perm_cons_erase ha).symm.append_left p.reaped
    exact hperm.nodup_iff.mpr h.once
  · intro b hb
    rcases List.mem_append.mp hb with hb | hb
    · exact h.exited b hb
    · rwa [List.mem_singleton.mp hb]

/-- A reaped child is not reaped again. -/
theorem not_mem_unreaped (h : p.Sound pid) {a : α} (ha : a ∈ p.reaped) : a ∉ p.unreaped :=
  fun ha' => (List.nodup_append.mp h.once).2.2 a ha a ha' rfl

/-- A pid names at most one unreaped child. -/
theorem eq_of_pid_eq (h : p.Sound pid) {a b : α} (ha : a ∈ p.unreaped) (hb : b ∈ p.unreaped)
    (hab : pid a = pid b) : a = b := List.inj_on_of_nodup_map h.pids ha hb hab

end Sound

namespace Awaits

variable {pid : α → β} {p : Processes α} {b : β} {start n : ℕ}

/-- There is a child to wait for. -/
theorem unreaped_ne_nil (h : p.Awaits pid b start n) : p.unreaped ≠ [] := by
  obtain ⟨a, ha, -⟩ := h.unreaped
  exact List.ne_nil_of_mem ha

/-- The turn that follows is at most the one with the number of children there were. -/
theorem turn_le (h : p.Awaits pid b start n) : n + 1 ≤ start := by
  have hpos := List.length_pos_iff.mpr h.unreaped_ne_nil
  have hturns := h.turns
  omega

/-- While another child is reaped the awaited one stays unreaped, and a turn is used up. -/
theorem reap [DecidableEq α] (h : p.Awaits pid b start n) {a : α} (ha : a ∈ p.unreaped)
    (hne : pid a ≠ b) : (p.reap a).Awaits pid b start (n + 1) := by
  obtain ⟨c, hc, rfl⟩ := h.unreaped
  have hca : c ≠ a := fun hca => hne (hca ▸ rfl)
  refine ⟨⟨c, (List.mem_erase_of_ne hca).mpr hc, rfl⟩, ?_⟩
  have hlen := List.length_erase_of_mem ha
  have hpos := List.length_pos_of_mem ha
  have hturns := h.turns
  rw [Processes.reap]
  dsimp only
  omega

end Awaits

end Processes

/-- What holds at the start of a run and is kept by every step holds at its end. -/
theorem invariant_of_reachable {σ : Type*} {step : σ → σ → Prop} (inv : σ → Prop)
    (hstep : ∀ s s', inv s → step s s' → inv s') {s s' : σ}
    (hrun : Relation.ReflTransGen step s s') (h : inv s) : inv s' := by
  induction hrun with
  | refl => exact h
  | tail _ hs ih => exact hstep _ _ ih hs

end UnixStudy
