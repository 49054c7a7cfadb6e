import Mathlib.Data.List.Induction

/-!
# Runs of a labelled system

A system makes steps, and each step has a label: what the environment has chosen for it. A run is
the list of its labels with the state it has reached. What every step keeps holds in every run;
what is kept by the steps with good labels holds in the runs with no other ones; and if a bad label
leaves a mark that no step removes, then a run bears the mark as soon as it has a bad label. The
last two rules say together when exactly something holds of a run.

## Main definitions

* `Run` : the runs of a system.

## Main results

* `Run.invariant` : what every step keeps.
* `Run.simulate` : what another system can follow.
* `Run.of_forall` : what the steps with good labels keep.
* `Run.of_exists` : what a step with a bad label leaves behind.
* `Run.iff_forall` : both at once, for a step function.
* `Run.of_foldlM` : the runs of a step function.
-/

namespace UnixStudy

variable {σ α : Type*} {step : σ → α → σ → Prop} {s s' : σ} {as : List α}

/-- A run from the state `s`: the labels of its steps, and the state it has reached. -/
inductive Run (step : σ → α → σ → Prop) (s : σ) : List α → σ → Prop
  | refl : Run step s [] s
  | tail {as : List α} {a : α} {s' s'' : σ} (h : Run step s as s') (hs : step s' a s'') :
      Run step s (as ++ [a]) s''

/-- There is no place in the empty list. -/
theorem nil_ne_append_cons {as₁ as₂ : List α} {a : α} : [] ≠ as₁ ++ a :: as₂ :=
  (List.append_ne_nil_of_right_ne_nil as₁ (List.cons_ne_nil a as₂)).symm

/-- The places in a list with one element more. -/
theorem forall_split_append_singleton {p : List α → α → List α → Prop} {a : α} :
    (∀ as₁ b as₂, as ++ [a] = as₁ ++ b :: as₂ → p as₁ b as₂) ↔
      (∀ as₁ b as₂, as = as₁ ++ b :: as₂ → p as₁ b (as₂ ++ [a])) ∧ p as a [] := by
  refine ⟨fun h => ⟨fun as₁ b as₂ heq => h as₁ b (as₂ ++ [a]) ?_, h as a [] rfl⟩,
    fun ⟨h, ha⟩ as₁ b as₂ heq => ?_⟩
  · rw [heq, List.append_assoc, List.cons_append]
  · rcases List.eq_nil_or_concat as₂ with rfl | ⟨as₂, c, rfl⟩
    · obtain ⟨rfl, hab⟩ := List.append_inj' heq rfl
      obtain rfl := List.singleton_inj.mp hab
      exact ha
    · rw [List.concat_eq_append, ← List.cons_append, ← List.append_assoc] at heq
      obtain ⟨hfront, hac⟩ := List.append_inj' heq rfl
      obtain rfl := List.singleton_inj.mp hac
      rw [List.concat_eq_append]
      exact h as₁ b as₂ hfront

theorem exists_split_append_singleton {p : List α → α → List α → Prop} {a : α} :
    (∃ as₁ b as₂, as ++ [a] = as₁ ++ b :: as₂ ∧ p as₁ b as₂) ↔
      (∃ as₁ b as₂, as = as₁ ++ b :: as₂ ∧ p as₁ b (as₂ ++ [a])) ∨ p as a [] := by
  have h := not_congr
    (@forall_split_append_singleton α as (fun as₁ b as₂ => ¬ p as₁ b as₂) a)
  rw [not_and_or, not_not] at h
  push Not at h
  exact h

namespace Run

/-- A run with a step in front of it. -/
theorem head {a : α} {s'' : σ} (hs : step s a s') (hrun : Run step s' as s'') :
    Run step s (a :: as) s'' := by
  induction hrun with
  | refl => exact Run.refl.tail hs
  | tail _ hs' ih => exact ih.tail hs'

/-- A run of a system with more steps. -/
theorem mono {step' : σ → α → σ → Prop} (hrun : Run step s as s')
    (hstep : ∀ s a s', step s a s' → step' s a s') : Run step' s as s' := by
  induction hrun with
  | refl => exact .refl
  | tail _ hs ih => exact ih.tail (hstep _ _ _ hs)

/-- What every step keeps holds in every run. -/
theorem invariant (hrun : Run step s as s') {p : σ → Prop} (h : p s)
    (hstep : ∀ s a s', p s → step s a s' → p s') : p s' := by
  induction hrun with
  | refl => exact h
  | tail _ hs ih => exact hstep _ _ _ ih hs

/-- If another system can follow each step, it can follow a run. -/
theorem simulate {τ : Type*} {step' : τ → α → τ → Prop} {t : τ} (hrun : Run step s as s')
    {p : σ → τ → Prop} (h : p s t)
    (hstep : ∀ s a s' t, p s t → step s a s' → ∃ t', step' t a t' ∧ p s' t') :
    ∃ t', Run step' t as t' ∧ p s' t' := by
  induction hrun with
  | refl => exact ⟨t, .refl, h⟩
  | tail _ hs ih =>
    obtain ⟨t', hrun, h⟩ := ih
    obtain ⟨t'', hs', h⟩ := hstep _ _ _ _ h hs
    exact ⟨t'', hrun.tail hs', h⟩

/-- What the steps with good labels keep holds in the runs with good labels. -/
theorem of_forall (hrun : Run step s as s') {good : α → Prop} {inv : σ → Prop}
    (has : ∀ a ∈ as, good a) (h : inv s)
    (hstep : ∀ s a s', inv s → good a → step s a s' → inv s') : inv s' := by
  induction hrun with
  | refl => exact h
  | tail _ hs ih =>
    exact hstep _ _ _ (ih fun a ha => has a (List.mem_append_left _ ha))
      (has _ (List.mem_append_right _ List.mem_cons_self)) hs

/-- A mark that a step with a bad label leaves, and no step removes, is there if there was a bad
label. -/
theorem of_exists (hrun : Run step s as s') (good : α → Prop) (inv : σ → Prop)
    {marked : σ → Prop} (has : ∃ a ∈ as, ¬ good a) (h : inv s)
    (hinv : ∀ s a s', inv s → step s a s' → inv s')
    (hmark : ∀ s a s', inv s → ¬ good a → step s a s' → marked s')
    (hkeep : ∀ s a s', marked s → step s a s' → marked s') : marked s' := by
  induction hrun with
  | refl =>
    obtain ⟨a, ha, -⟩ := has
    exact absurd ha List.not_mem_nil
  | tail hrun hs ih =>
    obtain ⟨a, ha, hbad⟩ := has
    rcases List.mem_append.mp ha with ha | ha
    · exact hkeep _ _ _ (ih ⟨a, ha, hbad⟩) hs
    · obtain rfl := List.mem_singleton.mp ha
      exact hmark _ _ _ (hrun.invariant h hinv) hbad hs

/-- Where a step is a function, a run has one end. -/
theorem unique {f : σ → α → Option σ} {s₁ s₂ : σ} (h₁ : Run (fun s a s' => f s a = some s') s as s₁)
    (h₂ : Run (fun s a s' => f s a = some s') s as s₂) : s₁ = s₂ := by
  induction h₁ generalizing s₂ with
  | refl =>
    generalize hnil : ([] : List α) = bs at h₂
    cases h₂ with
    | refl => rfl
    | tail _ _ => exact absurd hnil nil_ne_append_cons
  | @tail as a s' s₁ _ hs ih =>
    generalize hcs : as ++ [a] = cs at h₂
    cases h₂ with
    | refl => exact absurd hcs.symm nil_ne_append_cons
    | @tail bs b s'' _ h hs' =>
      obtain ⟨rfl, hab⟩ := List.append_inj' hcs rfl
      obtain rfl := List.singleton_inj.mp hab
      obtain rfl := ih h
      exact Option.some.inj (hs.symm.trans hs')

/-- What a step keeps if it is good, and breaks for ever if it is not, holds of a run if and only if
all its steps are good. -/
theorem iff_forall {f : σ → α → Option σ} (hrun : Run (fun s a s' => f s a = some s') s as s')
    (inv p : σ → Prop) (good : σ → α → Prop) (hinv : inv s) (hp : p s)
    (hkeep : ∀ s a s', inv s → f s a = some s' → inv s')
    (hstep : ∀ s a s', inv s → f s a = some s' → (p s' ↔ p s ∧ good s a)) :
    p s' ↔ ∀ as₁ a as₂, as = as₁ ++ a :: as₂ →
      ∀ s₁, Run (fun s a s' => f s a = some s') s as₁ s₁ → good s₁ a := by
  induction hrun with
  | refl =>
    exact iff_of_true hp fun as₁ a as₂ heq => absurd heq nil_ne_append_cons
  | @tail as a s₁ s₂ hrun hs ih =>
    rw [hstep _ _ _ (hrun.invariant hinv hkeep) hs, ih, forall_split_append_singleton]
    refine and_congr_right fun _ => ⟨fun hgood s₃ h₃ => ?_, fun h => h _ hrun⟩
    exact unique hrun h₃ ▸ hgood

/-- Where a step is a function, a run is its iteration over the labels. -/
theorem of_foldlM {f : σ → α → Option σ} (h : as.foldlM f s = some s') :
    Run (fun s a s' => f s a = some s') s as s' := by
  induction as using List.reverseRecOn generalizing s' with
  | nil =>
    obtain rfl := Option.some.inj h
    exact .refl
  | append_singleton as a ih =>
    rw [List.foldlM_append] at h
    obtain ⟨s₁, h₁, h₂⟩ := Option.bind_eq_some_iff.mp h
    rw [List.foldlM_cons] at h₂
    obtain ⟨s₂, hs₂, h₃⟩ := Option.bind_eq_some_iff.mp h₂
    obtain rfl := Option.some.inj h₃
    exact (ih h₁).tail hs₂

end Run

end UnixStudy
