import UnixStudy.Foundations.Runs
import Mathlib.Logic.Function.Basic

/-!
# A mutex and what it is for

Any number of threads run a program statement by statement, in any order. Some of its statements are
in sections: a thread comes into one by locking a mutex, and leaves it by unlocking the mutex. Only
statements in sections touch the shared state, and only the others touch the rest of the world.

If the shared state is as it should be whenever the mutex is free, and a section that finds it so
leaves it so when no other thread does anything, then it is so whatever the order of the steps. The
sections that were left are kept in their order, and the shared state may be said to be what these
sections, one after the other, have made of it.

## Main definitions

* `Sections` : a program, and which of its places are within a section.
* `Threads`, `Sections.step` : threads that run it, and a step of one of them.

## Main results

* `Sections.Exclusive.step` : the thread that has the mutex is the one within a section.
* `Sections.resource` : what holds of the shared state.
-/

namespace UnixStudy

variable {ι σ τ γ β : Type*}

/-- A program. A place in it is within a section or not; what a statement does may depend on what
its environment does. -/
structure Sections (σ τ γ β : Type*) where
  within : γ → Bool
  enter : γ → Option γ
  inside : γ → β → σ → Option (γ × σ)
  leave : γ → Option γ
  outside : γ → β → τ → Option (γ × τ)
  within_enter : ∀ c c', enter c = some c' → within c = false ∧ within c' = true
  within_inside : ∀ c b s r, inside c b s = some r → within c = true ∧ within r.1 = true
  within_leave : ∀ c c', leave c = some c' → within c = true ∧ within c' = false
  within_outside : ∀ c b w r, outside c b w = some r → within c = false ∧ within r.1 = false

/-- Threads: the shared state, the rest of the world, the thread that has the mutex, the places of
the threads, and the sections that were left, with the places where they were left. -/
structure Threads (ι σ τ γ : Type*) where
  shared : σ
  world : τ
  holder : Option ι
  control : ι → γ
  sections : List (ι × γ)

/-- A step of a thread. -/
inductive Act (β : Type*)
  | enter
  | inside (b : β)
  | leave
  | outside (b : β)

namespace Sections

variable (p : Sections σ τ γ β) [DecidableEq ι]

/-- A step of one of the threads. Only `enter` looks at the mutex. -/
def step (s : Threads ι σ τ γ) : ι × Act β → Option (Threads ι σ τ γ)
  | (i, .enter) =>
    if s.holder = none then
      (p.enter (s.control i)).map fun c =>
        { s with holder := some i, control := Function.update s.control i c }
    else none
  | (i, .inside b) => (p.inside (s.control i) b s.shared).map fun r =>
      { s with shared := r.2, control := Function.update s.control i r.1 }
  | (i, .leave) => (p.leave (s.control i)).map fun c =>
      { s with
        holder := none
        control := Function.update s.control i c
        sections := s.sections ++ [(i, s.control i)] }
  | (i, .outside b) => (p.outside (s.control i) b s.world).map fun r =>
      { s with world := r.2, control := Function.update s.control i r.1 }

/-- A step of one of the threads. -/
abbrev Step (s : Threads ι σ τ γ) (l : ι × Act β) (s' : Threads ι σ τ γ) : Prop :=
  p.step s l = some s'

variable {p} {s s' : Threads ι σ τ γ} {as : List (ι × Act β)} {i : ι}

/-- What a step is. -/
inductive Steps (p : Sections σ τ γ β) (s : Threads ι σ τ γ) :
    ι × Act β → Threads ι σ τ γ → Prop
  | enter {i : ι} {c : γ} (hfree : s.holder = none) (h : p.enter (s.control i) = some c) :
      Steps p s (i, .enter) { s with holder := some i, control := Function.update s.control i c }
  | inside {i : ι} {b : β} {c : γ} {r : σ} (h : p.inside (s.control i) b s.shared = some (c, r)) :
      Steps p s (i, .inside b) { s with shared := r, control := Function.update s.control i c }
  | leave {i : ι} {c : γ} (h : p.leave (s.control i) = some c) :
      Steps p s (i, .leave)
        { s with
          holder := none
          control := Function.update s.control i c
          sections := s.sections ++ [(i, s.control i)] }
  | outside {i : ι} {b : β} {c : γ} {w : τ}
      (h : p.outside (s.control i) b s.world = some (c, w)) :
      Steps p s (i, .outside b) { s with world := w, control := Function.update s.control i c }

theorem steps {l : ι × Act β} (hs : p.Step s l s') : Steps p s l s' := by
  obtain ⟨i, a⟩ := l
  cases a with
  | enter =>
    dsimp only [Step, step] at hs
    split_ifs at hs with hfree
    obtain ⟨c, hc, rfl⟩ := Option.map_eq_some_iff.mp hs
    exact .enter hfree hc
  | inside b =>
    obtain ⟨r, hr, rfl⟩ := Option.map_eq_some_iff.mp hs
    exact .inside hr
  | leave =>
    obtain ⟨c, hc, rfl⟩ := Option.map_eq_some_iff.mp hs
    exact .leave hc
  | outside b =>
    obtain ⟨r, hr, rfl⟩ := Option.map_eq_some_iff.mp hs
    exact .outside hr

/-- The thread that has the mutex is the one within a section. -/
def Exclusive (p : Sections σ τ γ β) (s : Threads ι σ τ γ) : Prop :=
  ∀ i, p.within (s.control i) = true ↔ s.holder = some i

/-- A thread goes on to another place that is within a section if and only if its place is. -/
theorem Exclusive.update (h : p.Exclusive s) {c : γ}
    (hc : p.within c = p.within (s.control i)) (j : ι) :
    p.within (Function.update s.control i c j) = true ↔ s.holder = some j := by
  by_cases hj : j = i
  · rw [hj, Function.update_self, hc]
    exact h i
  · rw [Function.update_of_ne hj]
    exact h j

/-- **Mutual exclusion** is kept by the steps. -/
theorem Exclusive.step (h : p.Exclusive s) {l : ι × Act β} (hs : p.Step s l s') :
    p.Exclusive s' := by
  cases steps hs with
  | @enter i c hfree henter =>
    intro j
    by_cases hj : j = i
    · simp [hj, (p.within_enter _ _ henter).2]
    · have hnone := h j
      rw [hfree] at hnone
      simpa [hj, Ne.symm hj] using hnone
  | @inside i b c r hinside =>
    obtain ⟨hc, hc'⟩ := p.within_inside _ _ _ _ hinside
    exact h.update (hc'.trans hc.symm)
  | @leave i c hleave =>
    obtain ⟨hc, hc'⟩ := p.within_leave _ _ hleave
    intro j
    by_cases hj : j = i
    · simp [hj, hc']
    · have hother : s.holder ≠ some j := fun heq =>
        hj (Option.some.inj (heq.symm.trans ((h i).mp hc)))
      simpa [hj] using fun hw => hother ((h j).mp hw)
  | @outside i b c w houtside =>
    obtain ⟨hc, hc'⟩ := p.within_outside _ _ _ _ houtside
    exact h.update (hc'.trans hc.symm)

/-- The shared state is right: as it should be if the mutex is free, and as the place of the thread
that has the mutex says if it is not. -/
def Right (free : List (ι × γ) → σ → Prop) (held : List (ι × γ) → γ → σ → Prop)
    (s : Threads ι σ τ γ) : Prop :=
  match s.holder with
  | none => free s.sections s.shared
  | some i => held s.sections (s.control i) s.shared

/-- **The shared state** is right in every run, if each section alone keeps it so. -/
theorem resource {s₀ : Threads ι σ τ γ} (hrun : Run p.Step s₀ as s)
    (free : List (ι × γ) → σ → Prop) (held : List (ι × γ) → γ → σ → Prop)
    (hexclusive : p.Exclusive s₀) (hstart : Right free held s₀)
    (henter : ∀ l c c' r, free l r → p.enter c = some c' → held l c' r)
    (hinside : ∀ l c b r c' r', held l c r → p.inside c b r = some (c', r') → held l c' r')
    (hleave : ∀ l c c' r i, held l c r → p.leave c = some c' → free (l ++ [(i, c)]) r) :
    p.Exclusive s ∧ Right free held s := by
  refine hrun.invariant (p := fun s => p.Exclusive s ∧ Right free held s) ⟨hexclusive, hstart⟩ ?_
  rintro s l s' ⟨hx, hright⟩ hs
  refine ⟨hx.step hs, ?_⟩
  cases steps hs with
  | @enter i c hfree h =>
    rw [Right, hfree] at hright
    simpa [Right] using henter _ _ _ _ hright h
  | @inside i b c r h =>
    have hholder := (hx i).mp (p.within_inside _ _ _ _ h).1
    simp only [Right, hholder] at hright
    simpa [Right, hholder] using hinside _ _ _ _ _ _ hright h
  | @leave i c h =>
    have hholder := (hx i).mp (p.within_leave _ _ h).1
    simp only [Right, hholder] at hright
    exact hleave _ _ _ _ i hright h
  | @outside i b c w h =>
    have hne : s.holder ≠ some i := fun heq => by
      have hw := (hx i).mpr heq
      rw [(p.within_outside _ _ _ _ h).1] at hw
      exact Bool.noConfusion hw
    unfold Right at hright ⊢
    dsimp only
    cases hholder : s.holder with
    | none =>
      rw [hholder] at hright
      exact hright
    | some j =>
      rw [hholder] at hright hne
      have hj : j ≠ i := fun heq => hne (congrArg some heq)
      simpa [Function.update_of_ne hj] using hright

end Sections

end UnixStudy
