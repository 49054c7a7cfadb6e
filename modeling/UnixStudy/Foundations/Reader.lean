import Mathlib.Data.List.Basic

/-!
# Reading a stream item by item

A *reader* takes the next item off a stream: `next s` returns an item and the stream that is
left. `Reads next s ts s'` says that repeated calls return exactly the items `ts`, in order, and
leave `s'`.

## Main definitions

* `Reads` : repeated calls of a reader.
* `EndsAtFirst` : a list whose last item, and no earlier one, satisfies a predicate.

## Main results

* `Reads.append`, `Reads.append_iff` : readings compose.
* `EndsAtFirst.cons_iff_of_not`, `EndsAtFirst.eq_nil_of_cons` : the first item, and the others.
-/

namespace UnixStudy

variable {σ τ : Type*} {next : σ → τ × σ}

/-- Repeated calls of `next` from the stream `s` return the items of the list and leave the last
stream. -/
inductive Reads (next : σ → τ × σ) : σ → List τ → σ → Prop
  | nil (s : σ) : Reads next s [] s
  | cons {s s' s'' : σ} {t : τ} {ts : List τ} (h : next s = (t, s')) (hs : Reads next s' ts s'') :
      Reads next s (t :: ts) s''

namespace Reads

theorem nil_iff {s s' : σ} : Reads next s [] s' ↔ s' = s :=
  ⟨fun h => by cases h; rfl, fun h => by subst h; exact .nil s'⟩

theorem cons_iff {s s'' : σ} {t : τ} {ts : List τ} :
    Reads next s (t :: ts) s'' ↔ ∃ s', next s = (t, s') ∧ Reads next s' ts s'' :=
  ⟨fun h => by cases h with | cons h hs => exact ⟨_, h, hs⟩, fun ⟨_, h, hs⟩ => .cons h hs⟩

theorem append {s s' s'' : σ} {ts us : List τ} (h : Reads next s ts s')
    (h' : Reads next s' us s'') : Reads next s (ts ++ us) s'' := by
  induction h with
  | nil => exact h'
  | cons hn _ ih => exact .cons hn (ih h')

theorem append_iff {s s'' : σ} {ts us : List τ} :
    Reads next s (ts ++ us) s'' ↔ ∃ s', Reads next s ts s' ∧ Reads next s' us s'' := by
  refine ⟨fun h => ?_, fun ⟨_, h, h'⟩ => h.append h'⟩
  induction ts generalizing s with
  | nil => exact ⟨s, .nil s, h⟩
  | cons t ts ih =>
    obtain ⟨s₁, hn, hs⟩ := cons_iff.mp h
    obtain ⟨s', h₁, h₂⟩ := ih hs
    exact ⟨s', .cons hn h₁, h₂⟩

/-- Every item of a reading was returned by a call. -/
theorem exists_next {s s' : σ} {ts : List τ} (h : Reads next s ts s') :
    ∀ t ∈ ts, ∃ u, (next u).1 = t := by
  induction h with
  | nil => simp
  | @cons s _ _ t ts hn _ ih =>
    intro u hu
    rcases List.mem_cons.mp hu with rfl | hu
    · exact ⟨s, by rw [hn]⟩
    · exact ih u hu

/-- The items determine what is left. -/
theorem unique {s s' s'' : σ} {ts : List τ} (h : Reads next s ts s') (h' : Reads next s ts s'') :
    s' = s'' := by
  induction h with
  | nil => exact (nil_iff.mp h').symm
  | cons hn _ ih =>
    obtain ⟨s₁, hn', hs'⟩ := cons_iff.mp h'
    obtain rfl := (Prod.mk.inj (hn.symm.trans hn')).2
    exact ih hs'

theorem singleton {s s' : σ} {t : τ} (h : next s = (t, s')) : Reads next s [t] s' :=
  .cons h (.nil s')

end Reads

/-- The last item of the list satisfies `p`, and no earlier item does. -/
def EndsAtFirst (p : τ → Prop) : List τ → Prop
  | [] => False
  | [t] => p t
  | t :: u :: ts => ¬ p t ∧ EndsAtFirst p (u :: ts)

namespace EndsAtFirst

variable {p : τ → Prop}

theorem cons_iff_of_not {t : τ} {ts : List τ} (ht : ¬ p t) :
    EndsAtFirst p (t :: ts) ↔ EndsAtFirst p ts := by
  cases ts with
  | nil => exact iff_of_false ht id
  | cons u ts => exact ⟨And.right, fun h => ⟨ht, h⟩⟩

theorem eq_nil_of_cons {t : τ} {ts : List τ} (ht : p t) (h : EndsAtFirst p (t :: ts)) :
    ts = [] := by
  cases ts with
  | nil => rfl
  | cons u ts => exact absurd ht h.1

end EndsAtFirst

end UnixStudy
