import UnixStudy.Ec.Print
import UnixStudy.Ec.Sections

/-!
# The sections are calls

Whatever the threads do statement by statement, when the mutex is free the list, memory and the
static variables are what whole calls, one after the other, would have made of them, and each trace
that was shown is the one that a whole call of `ec_print` would have shown. The thread that has the
mutex can always go on. However many threads find errors at the same time, `atexit` is called once.

## Main definitions

* `Serial` : the sections that were left are calls.
* `AtexitOnce` : who is the one to call `atexit`.

## Main results

* `right_run` : what there is in every run of the threads.
* `sections_are_calls` : the sections are calls.
* `atexit_called_once` : `atexit` is called once.

## References

* `src/common/ec.c`, lines 24–43, 65–108, 110–129 and 131–147.
-/

namespace UnixStudy.Ec

open Smi (Bytes)

variable {s : State}

/-! ### Calls that come to their end -/

section Ends

variable {syserrmsgtype : ℕ → Bytes → ℤ → ErrType → Bytes} {as : List Label}

/-- In every run each node of the list has a text. -/
theorem textAt_ne_none (hrun : Run Step start as s) {x : ℕ × Node}
    (hx : x ∈ entries (history as).period) : x.2.ec_context.bind s.textAt ≠ none := by
  have hshows := shows_run hrun
  revert hshows hx
  induction (history as).period with
  | nil => exact fun hx => absurd hx List.not_mem_nil
  | cons p older ih =>
    intro hx hshows
    rw [entries] at hx
    cases hplace : p.place older with
    | none =>
      rw [hplace] at hx
      rw [Shows, contexts, if_pos hplace] at hshows
      exact ih hx hshows
    | some a =>
      rw [hplace] at hx
      rw [Shows, contexts, if_neg (by simp [hplace])] at hshows
      rcases List.mem_cons.mp hx with rfl | hx
      · rw [Option.bind_some]
        by_cases hquestion : p.contextAt older = question
        · rw [hquestion]
          exact Option.some_ne_none s.literal
        · rw [hshows _ List.mem_cons_self hquestion]
          exact Option.some_ne_none p.shown
      · exact ih hx fun y hy => hshows y (List.mem_cons_of_mem _ hy)

/-- In every run `ec_print` comes to the end of the list. -/
theorem ec_print_ne_none (hrun : Run Step start as s) : ec_print s syserrmsgtype ≠ none := by
  have htext : ∀ x ∈ entries (history as).period, x.2.ec_context.bind s.textAt ≠ none :=
    fun x hx => textAt_ne_none hrun hx
  rw [ec_print, (holds_run hrun).traverse, Option.bind_eq_bind, Option.bind_some]
  revert htext
  generalize entries (history as).period = nodes
  generalize 0 = level
  intro htext
  induction nodes generalizing level with
  | nil => exact Option.some_ne_none []
  | cons x nodes ih =>
    obtain ⟨context, hcontext⟩ :=
      Option.ne_none_iff_exists'.mp (htext x List.mem_cons_self)
    obtain ⟨rest, hrest⟩ := Option.ne_none_iff_exists'.mp
      (ih (level + 1) fun y hy => htext y (List.mem_cons_of_mem _ hy))
    simp [lines, hcontext, hrest]

/-- In every run `ec_reinit` comes to the end of the list. -/
theorem releaseAll_ne_none (hrun : Run Step start as s) :
    releaseAll s.fuel s s.ec_head ≠ none := by
  obtain ⟨s', hs', -⟩ := (holds_run hrun).reinit
  obtain ⟨s₁, hs₁, -⟩ := Option.bind_eq_some_iff.mp hs'
  rw [hs₁]
  exact Option.some_ne_none s₁

end Ends

/-! ### The order of the sections -/

/-- The call of which a section was. -/
def Control.label (c : Control) : Label :=
  match c.place with
  | .unlockPush p _ => .push p
  | .unlockPrint _ => .print
  | _ => .reinit

variable {ι : Type*}

/-- The calls of which the sections were. -/
def labels (l : List (ι × Control)) : List Label := l.map fun x => x.2.label

/-- The sections that were left are calls: these have made what there is, and each one of `ec_print`
has shown what there was. -/
def Serial (syserrmsgtype : ℕ → Bytes → ℤ → ErrType → Bytes) (l : List (ι × Control)) (s : State) :
    Prop :=
  Run Step start (labels l) s ∧
    ∀ front x back, l = front ++ x :: back → ∀ shown, x.2.place = .unlockPrint shown →
      ∃ t, Run Step start (labels front) t ∧ ec_print t syserrmsgtype = some shown

variable {syserrmsgtype : ℕ → Bytes → ℤ → ErrType → Bytes} {l : List (ι × Control)}

/-- A section is left. -/
theorem Serial.leave (h : Serial syserrmsgtype l t) {c : Control}
    (hat : c.place.At syserrmsgtype t s) (hleave : c.place.leave ≠ none) (i : ι) :
    Serial syserrmsgtype (l ++ [(i, c)]) s := by
  obtain ⟨hrun, hshown⟩ := h
  have hlabels : labels (l ++ [(i, c)]) = labels l ++ [c.label] := List.map_append ..
  have hstep : Step t c.label s ∧
      ∀ shown, c.place = .unlockPrint shown → ec_print t syserrmsgtype = some shown := by
    cases hplace : c.place with
    | unlockPush p first =>
      rw [hplace] at hat
      simp only [Control.label, hplace]
      exact ⟨hat, fun _ heq => Place.noConfusion heq⟩
    | unlockPrint shown =>
      rw [hplace] at hat
      simp only [Control.label, hplace]
      obtain ⟨rfl, hat⟩ := hat
      refine ⟨?_, fun _ heq => by rw [hat, Place.unlockPrint.inj heq]⟩
      exact Option.map_eq_some_iff.mpr ⟨_, (holds_run hrun).traverse, rfl⟩
    | unlockReinit =>
      rw [hplace] at hat
      simp only [Control.label, hplace]
      exact ⟨hat, fun _ heq => Place.noConfusion heq⟩
    | _ =>
      rw [hplace] at hleave
      exact absurd rfl hleave
  refine ⟨hlabels ▸ hrun.tail hstep.1, forall_split_append_singleton.mpr ⟨?_, ?_⟩⟩
  · exact hshown
  · exact fun shown hplace => ⟨t, hrun, hstep.2 shown hplace⟩

/-- The beginning: no thread is in a call. -/
def threadsStart : Threads ι State ℕ Control := ⟨start, 0, none, fun _ => ⟨.idle, []⟩, []⟩

section Threads

variable [DecidableEq ι] {as : List (ι × Act Choice)} {s s' : Threads ι State ℕ Control}

/-- In every run of the threads the sections are calls. -/
theorem right_run (hrun : Run (sections syserrmsgtype).Step threadsStart as s) :
    (sections syserrmsgtype).Exclusive s ∧ Sections.Right (Serial syserrmsgtype)
      (fun l c s => ∃ t, Serial syserrmsgtype l t ∧ c.place.At syserrmsgtype t s) s := by
  refine Sections.resource hrun _ _ (fun i => ?_) ⟨.refl, fun _ _ _ h => ?_⟩ ?_ ?_ ?_
  · exact iff_of_false Bool.false_ne_true (Option.some_ne_none i).symm
  · exact absurd h nil_ne_append_cons
  · intro l c c' r hserial henter
    obtain ⟨place, hplace, rfl⟩ := Option.map_eq_some_iff.mp henter
    refine ⟨r, hserial, ?_⟩
    cases hc : c.place with
    | lock call =>
      rw [hc] at hplace
      cases call <;>
        · obtain rfl := Option.some.inj hplace
          exact rfl
    | _ =>
      rw [hc] at hplace
      exact absurd hplace.symm (Option.some_ne_none place)
  · rintro l c b r c' r' ⟨t, hserial, hat⟩ hinside
    obtain ⟨⟨place, r''⟩, hplace, heq⟩ := Option.map_eq_some_iff.mp hinside
    obtain ⟨rfl, rfl⟩ := Prod.mk.inj heq
    exact ⟨t, hserial, hat.inside hplace (ec_print_ne_none hserial.1)
      (releaseAll_ne_none hserial.1)⟩
  · rintro l c c' r i ⟨t, hserial, hat⟩ hleave
    obtain ⟨place, hplace, rfl⟩ := Option.map_eq_some_iff.mp hleave
    exact hserial.leave hat (hplace ▸ Option.some_ne_none place) i

/-! ### `atexit` -/

/-- A thread that is at this place is the one to call `atexit`. -/
def Place.CallsAtexit : Place → Prop
  | .unlockPush _ first => first = true
  | .atexit _ => True
  | _ => False

theorem Place.callsAtexit_of_enter {c c' : Place} (h : c.enter = some c') :
    ¬ c.CallsAtexit ∧ ¬ c'.CallsAtexit := by
  cases c with
  | lock call =>
    cases call <;>
      · obtain rfl := Option.some.inj h
        exact ⟨id, id⟩
  | _ => exact absurd h.symm (Option.some_ne_none c')

theorem Place.callsAtexit_of_leave {c c' : Place} (h : c.leave = some c') :
    c'.CallsAtexit ↔ c.CallsAtexit := by
  cases c with
  | unlockPush p first =>
    obtain rfl := Option.some.inj h
    cases first with
    | false => exact iff_of_false id Bool.false_ne_true
    | true => exact iff_of_true trivial rfl
  | unlockPrint | unlockReinit =>
    obtain rfl := Option.some.inj h
    exact Iff.rfl
  | _ => exact absurd h.symm (Option.some_ne_none c')

/-- A thread that can go on within its section does not call `atexit` yet. -/
theorem Place.callsAtexit_of_inside {c : Place} {b : Choice} {r : Place × State} {s : State}
    (h : c.inside syserrmsgtype b s = some r) : ¬ c.CallsAtexit := by
  cases c with
  | unlockPush | atexit => exact absurd h.symm (Option.some_ne_none r)
  | _ => exact id

/-- What a statement that is not in a section does. -/
theorem Control.callsAtexit_of_outside {c c' : Control} {b : Choice} {n n' : ℕ}
    (h : c.outside b n = some (c', n')) : ¬ c'.place.CallsAtexit ∧
      (¬ c.place.CallsAtexit ∧ n' = n ∨ c.place.CallsAtexit ∧ n' = n + 1) := by
  obtain ⟨place, todo⟩ := c
  cases place with
  | idle =>
    cases todo <;> cases b <;> simp only [outside, reduceCtorEq, Option.some.injEq] at h <;>
      · obtain ⟨rfl, rfl⟩ := Prod.mk.inj h
        exact ⟨id, Or.inl ⟨id, rfl⟩⟩
  | atexit e =>
    cases b with
    | atexit err =>
      cases err <;>
        · obtain ⟨rfl, rfl⟩ := Prod.mk.inj (Option.some.inj h)
          exact ⟨id, Or.inr ⟨trivial, rfl⟩⟩
    | _ => simp [outside] at h
  | _ => simp [outside] at h

/-- What the two kinds of assignments leave as it is. -/
theorem attexit_called_setText {a : ℕ} {text : Bytes} {s s' : State}
    (h : s.setText a text = some s') : s'.attexit_called = s.attexit_called := by
  rw [State.setText] at h
  split_ifs at h
  · obtain rfl := Option.some.inj h
    rfl
  · obtain rfl := Option.some.inj h
    rfl
  · obtain ⟨_, -, rfl⟩ := Option.map_eq_some_iff.mp h
    rfl

theorem attexit_called_setNode {a : ℕ} {n : Node} {s s' : State}
    (h : s.setNode a n = some s') : s'.attexit_called = s.attexit_called := by
  rw [State.setNode] at h
  split_ifs at h
  · obtain rfl := Option.some.inj h
    rfl
  · obtain ⟨_, -, rfl⟩ := Option.map_eq_some_iff.mp h
    rfl

/-- What a statement does to the variable that says whether `atexit` was called. -/
def Place.Notes (s : State) (c : Place) (r : Place × State) : Prop :=
  (∃ p, c = .testAtexit p ∧ r.1 = .unlockPush p (!s.attexit_called) ∧
      r.2.attexit_called = true) ∨
    r.2.attexit_called = s.attexit_called ∧ ∀ p first, r.1 ≠ .unlockPush p first

theorem Place.notes_insidePush {c : Place} {b : Choice} {r : Place × State} {s : State}
    (h : c.insidePush b s = some r) : c.Notes s r := by
  cases c with
  | callocText | callocNode =>
    obtain ⟨s', hs', rfl⟩ := Option.map_eq_some_iff.mp h
    exact Or.inr ⟨(At.static_of_callCalloc hs').2.2.2, fun _ _ => Place.noConfusion⟩
  | testText e text =>
    cases text <;>
      · obtain rfl := Option.some.inj h
        exact Or.inr ⟨rfl, fun _ _ => Place.noConfusion⟩
  | snprintf =>
    obtain ⟨s', hs', rfl⟩ := Option.map_eq_some_iff.mp h
    exact Or.inr ⟨attexit_called_setText hs', fun _ _ => Place.noConfusion⟩
  | setNode =>
    obtain ⟨s', hs', rfl⟩ := Option.map_eq_some_iff.mp h
    exact Or.inr ⟨attexit_called_setNode hs', fun _ _ => Place.noConfusion⟩
  | setNext p context place =>
    cases place <;>
      · obtain rfl := Option.some.inj h
        exact Or.inr ⟨rfl, fun _ _ => Place.noConfusion⟩
  | testNode | setHead =>
    obtain rfl := Option.some.inj h
    exact Or.inr ⟨rfl, fun _ _ => Place.noConfusion⟩
  | testAtexit p =>
    obtain rfl := Option.some.inj h
    exact Or.inl ⟨p, rfl, rfl, rfl⟩
  | _ => exact absurd h.symm (Option.some_ne_none r)

theorem Place.notes_inside {c : Place} {b : Choice} {r : Place × State} {s : State}
    (h : c.inside syserrmsgtype b s = some r) : c.Notes s r := by
  cases c with
  | printInit | reinitInit | resetHead | resetNode | resetText =>
    obtain rfl := Option.some.inj h
    exact Or.inr ⟨rfl, fun _ _ => Place.noConfusion⟩
  | freeNode a =>
    obtain rfl := Option.some.inj h
    refine Or.inr ⟨?_, fun _ _ => Place.noConfusion⟩
    dsimp only
    split_ifs <;> rfl
  | printLoop e level shown =>
    cases e with
    | none =>
      obtain rfl := Option.some.inj h
      exact Or.inr ⟨rfl, fun _ _ => Place.noConfusion⟩
    | some a =>
      obtain ⟨_, -, h⟩ := Option.bind_eq_some_iff.mp h
      obtain ⟨_, -, h⟩ := Option.bind_eq_some_iff.mp h
      obtain rfl := Option.some.inj h
      exact Or.inr ⟨rfl, fun _ _ => Place.noConfusion⟩
  | reinitLoop e =>
    cases e with
    | none =>
      obtain rfl := Option.some.inj h
      exact Or.inr ⟨rfl, fun _ _ => Place.noConfusion⟩
    | some a =>
      obtain ⟨_, -, h⟩ := Option.bind_eq_some_iff.mp h
      obtain rfl := Option.some.inj h
      exact Or.inr ⟨rfl, fun _ _ => Place.noConfusion⟩
  | freeContext a e_next =>
    obtain ⟨e, -, h⟩ := Option.bind_eq_some_iff.mp h
    obtain rfl := Option.some.inj h
    refine Or.inr ⟨?_, fun _ _ => Place.noConfusion⟩
    dsimp only
    split_ifs <;> rfl
  | _ => exact Place.notes_insidePush (b := b) h

/-- At most one thread is the one to call `atexit`, and it has not done so. -/
structure AtexitOnce (s : Threads ι State ℕ Control) : Prop where
  before : s.shared.attexit_called = false →
    s.world = 0 ∧ ∀ i, ¬ (s.control i).place.CallsAtexit
  one : ∀ i j, (s.control i).place.CallsAtexit → (s.control j).place.CallsAtexit → i = j
  pending : ∀ i, (s.control i).place.CallsAtexit → s.world = 0
  after : s.shared.attexit_called = true → (∀ i, ¬ (s.control i).place.CallsAtexit) → s.world = 1

namespace AtexitOnce

omit [DecidableEq ι] in
/-- A step that has nothing to do with `atexit`. -/
theorem move (h : AtexitOnce s) (hworld : s'.world = s.world)
    (hcalled : s'.shared.attexit_called = s.shared.attexit_called)
    (hcontrol : ∀ j, (s'.control j).place.CallsAtexit ↔ (s.control j).place.CallsAtexit) :
    AtexitOnce s' where
  before hflag := by
    obtain ⟨hzero, hnone⟩ := h.before (hcalled ▸ hflag)
    exact ⟨hworld.trans hzero, fun j hj => hnone j ((hcontrol j).mp hj)⟩
  one j k hj hk := h.one j k ((hcontrol j).mp hj) ((hcontrol k).mp hk)
  pending j hj := hworld.trans (h.pending j ((hcontrol j).mp hj))
  after hflag hnone :=
    hworld.trans (h.after (hcalled ▸ hflag) fun j hj => hnone j ((hcontrol j).mpr hj))

theorem callsAtexit_update {i : ι} {c : Control}
    (hc : c.place.CallsAtexit ↔ (s.control i).place.CallsAtexit) (j : ι) :
    (Function.update s.control i c j).place.CallsAtexit ↔ (s.control j).place.CallsAtexit := by
  by_cases hj : j = i
  · rw [hj, Function.update_self, hc]
  · rw [Function.update_of_ne hj]

/-- A thread is the first one to find that `atexit` was not called. -/
theorem first (h : AtexitOnce s) {i : ι} {c : Control} (hflag : s.shared.attexit_called = false)
    (hworld : s'.world = s.world) (hcalled : s'.shared.attexit_called = true)
    (hcontrol : s'.control = Function.update s.control i c) (hc : c.place.CallsAtexit) :
    AtexitOnce s' := by
  obtain ⟨hzero, hnone⟩ := h.before hflag
  have honly : ∀ j, (s'.control j).place.CallsAtexit → j = i := fun j hj => by
    by_contra hne
    rw [hcontrol, Function.update_of_ne hne] at hj
    exact hnone j hj
  have hi : (s'.control i).place.CallsAtexit := by rwa [hcontrol, Function.update_self]
  exact
    { before := fun hnot => absurd (hcalled.symm.trans hnot) Bool.noConfusion
      one := fun j k hj hk => (honly j hj).trans (honly k hk).symm
      pending := fun _ _ => hworld.trans hzero
      after := fun _ hall => absurd hi (hall i) }

/-- The steps keep it. -/
theorem step (h : AtexitOnce s) {l : ι × Act Choice} (hs : (sections syserrmsgtype).Step s l s') :
    AtexitOnce s' := by
  cases Sections.steps hs with
  | @enter i c hfree henter =>
    obtain ⟨place, hplace, rfl⟩ := Option.map_eq_some_iff.mp henter
    obtain ⟨hc, hc'⟩ := Place.callsAtexit_of_enter hplace
    exact h.move rfl rfl (callsAtexit_update (iff_of_false hc' hc))
  | @inside i b c r hinside =>
    obtain ⟨⟨place, r'⟩, hplace, heq⟩ := Option.map_eq_some_iff.mp hinside
    obtain ⟨rfl, rfl⟩ := Prod.mk.inj heq
    have hc := Place.callsAtexit_of_inside hplace
    rcases Place.notes_inside hplace with ⟨p, -, rfl, hcalled⟩ | ⟨hcalled, hplace'⟩
    · by_cases hflag : s.shared.attexit_called = true
      · refine h.move rfl (hcalled.trans hflag.symm) (callsAtexit_update (iff_of_false ?_ hc))
        simp [hflag, Place.CallsAtexit]
      · rw [Bool.not_eq_true] at hflag
        refine h.first hflag rfl hcalled rfl ?_
        simp [hflag, Place.CallsAtexit]
    · refine h.move rfl hcalled (callsAtexit_update (iff_of_false ?_ hc))
      have hwithin := (Place.within_of_inside hplace).2
      cases place with
      | unlockPush p first => exact absurd rfl (hplace' p first)
      | atexit => exact Bool.noConfusion hwithin
      | _ => exact id
  | @leave i c hleave =>
    obtain ⟨place, hplace, rfl⟩ := Option.map_eq_some_iff.mp hleave
    exact h.move rfl rfl (callsAtexit_update (Place.callsAtexit_of_leave hplace))
  | @outside i b c w houtside =>
    obtain ⟨hc', ⟨hc, rfl⟩ | ⟨hc, rfl⟩⟩ := Control.callsAtexit_of_outside houtside
    · exact h.move rfl rfl (callsAtexit_update (iff_of_false hc' hc))
    · have hzero := h.pending i hc
      have hnone : ∀ j, ¬ (Function.update s.control i c j).place.CallsAtexit := fun j hj => by
        by_cases hne : j = i
        · rw [hne, Function.update_self] at hj
          exact hc' hj
        · rw [Function.update_of_ne hne] at hj
          exact hne (h.one j i hj hc)
      exact ⟨fun hflag => absurd hc ((h.before hflag).2 i), fun j _ hj => absurd hj (hnone j),
        fun j hj => absurd hj (hnone j), fun _ _ => by rw [hzero]⟩

omit [DecidableEq ι] in
theorem start : AtexitOnce (threadsStart : Threads ι State ℕ Control) :=
  ⟨fun _ => ⟨rfl, fun _ => id⟩, fun _ _ h => h.elim, fun _ h => h.elim,
    fun h => absurd h Bool.false_ne_true⟩

end AtexitOnce

/-- The variable says whether there was a call of `ec_push`. -/
theorem attexit_called_run {as : List Label} {s : State} (hrun : Run Step start as s) :
    s.attexit_called = true ↔ ∃ p, Label.push p ∈ as := by
  induction hrun with
  | refl => exact iff_of_false Bool.false_ne_true fun ⟨p, hp⟩ => absurd hp List.not_mem_nil
  | @tail as l s s' hrun hs ih =>
    simp only [List.mem_append, List.mem_singleton, exists_or]
    cases l with
    | push p =>
      obtain ⟨_, _, hs⟩ := Option.bind_eq_some_iff.mp hs
      obtain ⟨_, _, hs⟩ := Option.bind_eq_some_iff.mp hs
      obtain rfl := Option.some.inj hs
      exact iff_of_true rfl (Or.inr ⟨p, rfl⟩)
    | print =>
      obtain ⟨_, -, rfl⟩ := Option.map_eq_some_iff.mp hs
      simpa using ih
    | reinit =>
      obtain ⟨s₁, hs₁, -, -, heq⟩ := (holds_run hrun).reinit
      obtain rfl := Option.some.inj (hs.symm.trans hs₁)
      rw [heq]
      simpa using ih

/-! ### Main results -/

/-- **The sections are calls.** Whatever the order of the statements of the threads, what there is
when the mutex is free was made by whole calls, one after the other, and each trace is one that a
whole call shows; and the thread that has the mutex can go on. -/
theorem sections_are_calls
    (hrun : Run (sections syserrmsgtype).Step (threadsStart : Threads ι State ℕ Control) as s) :
    (s.holder = none → Serial syserrmsgtype s.sections s.shared) ∧
    ∀ i, s.holder = some i → ∃ a s', (sections syserrmsgtype).Step s (i, a) s' := by
  obtain ⟨-, hright⟩ := right_run hrun
  refine ⟨fun hfree => ?_, fun i hi => ?_⟩
  · rwa [Sections.Right, hfree] at hright
  · rw [Sections.Right, hi] at hright
    obtain ⟨t, hserial, hat⟩ := hright
    rcases hat.exists_inside (ec_print_ne_none hserial.1) (releaseAll_ne_none hserial.1) with
      hleave | ⟨b, r, hr⟩
    · obtain ⟨place, hplace⟩ := Option.ne_none_iff_exists'.mp hleave
      exact ⟨.leave, _, Option.map_eq_some_iff.mpr
        ⟨_, Option.map_eq_some_iff.mpr ⟨place, hplace, rfl⟩, rfl⟩⟩
    · exact ⟨.inside b, _, Option.map_eq_some_iff.mpr
        ⟨_, Option.map_eq_some_iff.mpr ⟨r, hr, rfl⟩, rfl⟩⟩

/-- **`atexit` is called once**, however many threads find errors at the same time: not more often,
and not less often if there was a call of `ec_push` and no thread is in a call. -/
theorem atexit_called_once
    (hrun : Run (sections syserrmsgtype).Step (threadsStart : Threads ι State ℕ Control) as s) :
    s.world ≤ 1 ∧ ((∀ i, (s.control i).place = .idle) →
      (s.world = 1 ↔ ∃ p, Label.push p ∈ labels s.sections)) := by
  have honce := hrun.invariant AtexitOnce.start fun _ _ _ h hs => h.step hs
  have hle : s.world = 0 ∨ s.world = 1 := by
    cases hflag : s.shared.attexit_called with
    | false => exact Or.inl (honce.before hflag).1
    | true =>
      by_cases hpending : ∃ i, (s.control i).place.CallsAtexit
      · exact Or.inl (honce.pending _ hpending.choose_spec)
      · exact Or.inr (honce.after hflag fun i hi => hpending ⟨i, hi⟩)
  refine ⟨by omega, fun hidle => ?_⟩
  obtain ⟨hexclusive, hright⟩ := right_run hrun
  have hfree : s.holder = none := by
    by_contra hnone
    obtain ⟨i, hi⟩ := Option.ne_none_iff_exists'.mp hnone
    have hwithin := (hexclusive i).mpr hi
    simp [sections, hidle i, Place.within] at hwithin
  rw [Sections.Right, hfree] at hright
  rw [← attexit_called_run hright.1]
  constructor
  · intro hone
    by_contra hflag
    have hzero := (honce.before (Bool.not_eq_true _ ▸ hflag)).1
    omega
  · exact fun hflag => honce.after hflag fun i hi => by
      rw [hidle i] at hi
      exact hi

end Threads

/-- A thread adds a node while another one waits to show the trace. -/
def sampleThreads : List (Bool × Act Choice) :=
  [(false, .outside (.call (.push sampleError))), (true, .outside (.call .print)), (false, .enter),
    (false, .inside (.calloc (some 8))), (false, .inside .go), (false, .inside .go),
    (false, .inside (.calloc (some 9))), (false, .inside .go), (false, .inside .go),
    (false, .inside .go), (false, .inside .go), (false, .inside .go), (false, .leave),
    (true, .enter), (false, .outside (.atexit none)), (true, .inside .go), (true, .inside .go),
    (true, .inside .go), (true, .leave)]

theorem run_sampleThreads : (sampleThreads.foldlM (sections sampleText).step threadsStart).map
      (fun s => (s.holder, (s.control false).place, (s.control true).place, labels s.sections)) =
    some (none, .idle, .idle, [.push ⟨sampleError, some 8, some 9⟩, .print]) := rfl

theorem exists_sampleThreads : ∃ s : Threads Bool State ℕ Control,
    Run (sections sampleText).Step threadsStart sampleThreads s ∧ s.holder = none ∧
      (∀ i, (s.control i).place = .idle) ∧
      labels s.sections = [.push ⟨sampleError, some 8, some 9⟩, .print] := by
  obtain ⟨s, hs, heq⟩ := Option.map_eq_some_iff.mp run_sampleThreads
  obtain ⟨hfree, hfalse, htrue, hlabels⟩ := by simpa only [Prod.mk.injEq] using heq
  exact ⟨s, .of_foldlM hs, hfree, Bool.forall_bool.mpr ⟨hfalse, htrue⟩, hlabels⟩

theorem sections_are_calls_sample : ∃ s : Threads Bool State ℕ Control,
    Run (sections sampleText).Step threadsStart sampleThreads s ∧
      Run Step start [.push ⟨sampleError, some 8, some 9⟩, .print] s.shared := by
  obtain ⟨s, hrun, hfree, -, hlabels⟩ := exists_sampleThreads
  exact ⟨s, hrun, hlabels ▸ ((sections_are_calls hrun).1 hfree).1⟩

theorem atexit_called_once_sample : ∃ s : Threads Bool State ℕ Control,
    Run (sections sampleText).Step threadsStart sampleThreads s ∧ s.world = 1 := by
  obtain ⟨s, hrun, -, hidle, hlabels⟩ := exists_sampleThreads
  refine ⟨s, hrun, ((atexit_called_once hrun).2 hidle).mpr ⟨⟨sampleError, some 8, some 9⟩, ?_⟩⟩
  rw [hlabels]
  exact List.mem_cons_self

end UnixStudy.Ec
