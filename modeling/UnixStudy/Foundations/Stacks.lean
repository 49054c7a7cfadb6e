import UnixStudy.Foundations.Runs
import Mathlib.Data.List.Count
import Mathlib.Data.List.Nodup

/-!
# Stacks and queues

Two parties share a stack. What one of them puts on it the other takes from it, in an order of steps
that nobody controls. Nothing is lost or taken twice. But the stack is last in, first out: what is
taken comes in the order in which it was added as long as each thing is taken before the next one is
added, and not any more from the first time that there was a choice.

## Main definitions

* `Stack`, `Stack.Step` : a stack with its history, and what a step does to it.
* `Stack.OneAtATime` : a run in which there is never a choice.

## Main results

* `Stack.perm` : nothing is lost or taken twice.
* `Stack.prefix_iff` : when things come in the order in which they were added.
-/

namespace UnixStudy

/-- A stack, with what has been added to it and what has been removed from it. -/
structure Stack (α : Type*) where
  items : List α
  added : List α
  removed : List α

namespace Stack

variable {α β : Type*} {s s' : Stack α}

/-- What is done to a stack. -/
inductive Op
  | push
  | pop
  deriving DecidableEq

/-- Nothing has happened. -/
def empty : Stack α := ⟨[], [], []⟩

/-- A step that does something to the stack, or nothing. -/
inductive Step : Stack α → Option Op → Stack α → Prop
  | idle (s : Stack α) : Step s none s
  | push (x : α) (xs l l' : List α) : Step ⟨xs, l, l'⟩ (some .push) ⟨x :: xs, l ++ [x], l'⟩
  | pop (x : α) (xs l l' : List α) : Step ⟨x :: xs, l, l'⟩ (some .pop) ⟨xs, l, l' ++ [x]⟩

/-- The steps of a system of which each label says what is done to the stack. -/
abbrev StepOf (op : β → Option Op) (s : Stack α) (b : β) (s' : Stack α) : Prop := Step s (op b) s'

/-! ### Nothing is lost -/

/-- A step neither loses nor doubles anything. -/
theorem Step.perm {o : Option Op} (hs : Step s o s') (h : s.added.Perm (s.removed ++ s.items)) :
    s'.added.Perm (s'.removed ++ s'.items) := by
  cases hs with
  | idle => exact h
  | push x xs l l' =>
    calc l ++ [x]
      _ |>.Perm (l' ++ xs ++ [x]) := h.append_right [x]
      _ |>.Perm (l' ++ x :: xs) := by
        rw [List.append_assoc]
        exact (List.perm_append_singleton x xs).append_left l'
  | pop x xs l l' => simpa only [List.append_assoc, List.singleton_append] using h

variable {op : β → Option Op} {as : List β}

/-- **Nothing is lost or taken twice.** -/
theorem perm (hrun : Run (StepOf op) empty as s) :
    s.added.Perm (s.removed ++ s.items) :=
  hrun.invariant (p := fun s => s.added.Perm (s.removed ++ s.items)) (List.Perm.refl _)
    fun _ _ _ h hs => hs.perm h

/-! ### The order in which things are removed -/

/-- What has been added and removed only grows. -/
theorem Step.grows {o : Option Op} (hs : Step s o s') :
    s.added <+: s'.added ∧ s.removed <+: s'.removed := by
  cases hs with
  | idle => exact ⟨List.prefix_rfl, List.prefix_rfl⟩
  | push x xs l l' => exact ⟨List.prefix_append l [x], List.prefix_rfl⟩
  | pop x xs l l' => exact ⟨List.prefix_rfl, List.prefix_append l' [x]⟩

/-- In each step that removes something one thing more has been added than removed: there is no
choice. -/
def OneAtATime (op : β → Option Op) (as : List β) : Prop :=
  ∀ bs b cs, as = bs ++ b :: cs → op b = some .pop →
    bs.countP (op · = some .push) = bs.countP (op · = some .pop) + 1

theorem oneAtATime_append_singleton {a : β} : OneAtATime op (as ++ [a]) ↔ OneAtATime op as ∧
    (op a = some .pop →
      as.countP (op · = some .push) = as.countP (op · = some .pop) + 1) :=
  forall_split_append_singleton

/-- What is on the stack is what has been added and not removed. -/
theorem countP_eq (hrun : Run (StepOf op) empty as s) :
    as.countP (op · = some .push) = as.countP (op · = some .pop) + s.items.length := by
  induction hrun with
  | refl => rfl
  | @tail as a s s' _ hs ih =>
    rw [List.countP_append, List.countP_append, List.countP_singleton, List.countP_singleton]
    have hs : Step s (op a) s' := hs
    generalize op a = o at hs
    cases hs with
    | idle => exact ih
    | push x xs l l' => exact congrArg (· + 1) ih
    | pop x xs l l' => exact ih.trans (Nat.add_right_comm _ xs.length 1)

/-- As long as there is no choice, what has been added comes out in this order. -/
theorem added_eq (hrun : Run (StepOf op) empty as s)
    (h : OneAtATime op as) : s.added = s.removed ++ s.items.reverse := by
  induction hrun with
  | refl => rfl
  | @tail as a s s' hrun hs ih =>
    obtain ⟨has, ha⟩ := oneAtATime_append_singleton.mp h
    have hcount := countP_eq hrun
    have ih := ih has
    have hs : Step s (op a) s' := hs
    generalize op a = o at hs ha
    cases hs with
    | idle => exact ih
    | push x xs l l' =>
      rw [List.reverse_cons, ← List.append_assoc]
      exact congrArg (· ++ [x]) ih
    | pop x xs l l' =>
      have hlength : xs.length = 0 := by
        have hlength : as.countP (op · = some .push) =
            as.countP (op · = some .pop) + (xs.length + 1) := hcount
        have := ha rfl
        omega
      obtain rfl := List.eq_nil_of_length_eq_zero hlength
      simpa using ih

/-- If what has been removed is the beginning of what has been added, there was never a choice. -/
theorem oneAtATime_of_inOrder (hrun : Run (StepOf op) empty as s)
    (hnodup : s.added.Nodup) (h : s.removed <+: s.added) : OneAtATime op as := by
  induction hrun with
  | refl =>
    intro bs b cs heq
    exact absurd heq nil_ne_append_cons
  | @tail as a s s' hrun hs ih =>
    obtain ⟨hadded, hremoved⟩ := Step.grows hs
    have hlength : s.removed.length ≤ s.added.length := by
      rw [(perm hrun).length_eq, List.length_append]
      exact Nat.le_add_right ..
    have has := ih (hnodup.sublist hadded.sublist)
      (List.prefix_of_prefix_length_le (hremoved.trans h) hadded hlength)
    refine oneAtATime_append_singleton.mpr ⟨has, fun ha => ?_⟩
    have heq := added_eq hrun has
    rw [countP_eq hrun]
    have hs : Step s (some .pop) s' := ha ▸ hs
    cases hs with
    | pop x xs l l' =>
      -- The next thing to come out in order is the lowest one, and `x` is the highest.
      have hl : l = l' ++ (xs.reverse ++ [x]) := heq.trans (by rw [List.reverse_cons])
      subst hl
      have hx : [x] <+: xs.reverse ++ [x] := (List.prefix_append_right_inj l').mp h
      cases hxs : xs.reverse with
      | nil => rw [List.reverse_eq_nil_iff.mp hxs, List.length_singleton]
      | cons y ys =>
        rw [hxs, List.cons_append] at hx hnodup
        obtain rfl := List.head_eq_of_cons_eq (List.prefix_iff_eq_append.mp hx)
        have hy := (List.nodup_cons.mp (List.nodup_append.mp hnodup).2.1).1
        exact absurd (List.mem_append_right ys List.mem_cons_self) hy

/-- **When things are removed in the order in which they were added**: when there is never a
choice. -/
theorem prefix_iff (hrun : Run (StepOf op) empty as s)
    (hnodup : s.added.Nodup) : s.removed <+: s.added ↔ OneAtATime op as := by
  refine ⟨oneAtATime_of_inOrder hrun hnodup, fun h => ?_⟩
  rw [added_eq hrun h]
  exact List.prefix_append ..

end Stack

end UnixStudy
