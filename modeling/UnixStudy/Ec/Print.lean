import UnixStudy.Ec.Memory

/-!
# What is shown

`ec_print` writes a line for each call of `ec_push` that is on the list, the last one first. The
first error since the last call of `ec_reinit` is the reason for the others, and its line, which is
the last one, also has the number of the error. A call that is dropped has no line, but there is the
line `*** Trace may be incomplete ***` then.

## Main definitions

* `texts` : the calls that have a line, with the texts that are shown for them.
* `shownLines` : the lines.

## Main results

* `ec_print_eq` : what is shown, in every run.
* `first_error_shown` : the first error is shown last, with its number.
* `incomplete_mem_iff` : when the trace is said to be incomplete.
* `context_whole_iff` : when the text of a call has its end.

## References

* `src/common/ec.c`, lines 77–97 and 110–129.
-/

namespace UnixStudy.Ec

open Smi (Bytes decimal)

variable {s s' : State} {h : History} {as : List Label} {ps : List Push}

/-! ### The text of a call -/

/-- **The text of a call has its end**, when it is in a block, if and only if the number of the line
has six characters at most. -/
theorem context_whole_iff (e : Error) :
    (snprintf e.len e.context).2 = e.context ↔ -99999 ≤ e.line ∧ e.line ≤ 999999 := by
  have hdigits := Smi.length_decimal_le_iff (z := e.line) (show 1 < 6 by decide)
  have hlen : 0 < e.len := Nat.succ_pos _
  rw [snprintf_eq_iff hlen, Error.context, Error.len]
  simp only [List.length_append]
  norm_num at hdigits
  omega

/-- What is written for a call, unless it is written to the literal. -/
def Push.shown (p : Push) : Bytes :=
  (snprintf (if p.text = none then 100 else p.error.len) p.error.context).2

/-- Where the texts of the list are, and what they are. -/
def contexts : List Push → List (ℕ × Bytes)
  | [] => []
  | p :: older =>
    if p.place older = none then contexts older
    else (p.contextAt older, p.shown) :: contexts older

/-- The texts are where they were written to. -/
def Shows (s : State) (ps : List Push) : Prop :=
  ∀ x ∈ contexts ps, x.1 ≠ question → s.textAt x.1 = some x.2

/-- A text is in a block, in the array if there was no block, or in the literal. -/
theorem contexts_cases {x : ℕ × Bytes} (hx : x ∈ contexts ps) : x.1 ∈ owned ps ∨
    (x.1 = emergencyText ∧ ¬ ∀ q ∈ ps, q.text ≠ none) ∨ x.1 = question := by
  induction ps with
  | nil => exact absurd hx List.not_mem_nil
  | cons p ps ih =>
    rw [contexts] at hx
    rw [owned, List.forall_mem_cons]
    split_ifs at hx ⊢ with hplace
    · exact (ih hx).imp_right (Or.imp_left (And.imp_right fun hall h => hall h.2))
    · rcases List.mem_cons.mp hx with rfl | hx
      · cases htext : p.text with
        | some b =>
          refine .inl (List.mem_append_left _ (List.mem_append_left _ ?_))
          rw [Push.contextAt_of_some htext, htext]
          exact List.mem_cons_self
        | none =>
          by_cases hall : ∀ q ∈ ps, q.text ≠ none
          · exact .inr (.inl ⟨Push.contextAt_of_first htext hall, fun h => h.1 rfl⟩)
          · exact .inr (.inr (Push.contextAt_of_not_first htext hall))
      · exact (ih hx).imp (List.mem_append_right _)
          (Or.imp_left (And.imp_right fun hall h => hall h.2))

/-- A text stays where it is when blocks are allocated. -/
theorem Allocates.textAt_eq {bs : List ℕ} (h : Allocates s bs s') {a : ℕ} (ha : a ≠ question)
    (harray : a = emergencyText → s'.ec_s_emergency = s.ec_s_emergency)
    (hcell : a ≠ emergencyText → s.mem.cell a ≠ none) : s'.textAt a = s.textAt a := by
  rw [State.textAt, State.textAt]
  by_cases htext : a = emergencyText
  · rw [if_pos htext, if_pos htext, harray htext]
  · rw [if_neg htext, if_neg htext, if_neg ha, if_neg ha, h.same a (hcell htext)]

/-- A text that is not static is in a block. -/
theorem cell_of_textAt {a : ℕ} {t : Bytes} (h : s.textAt a = some t) (harray : a ≠ emergencyText)
    (hquestion : a ≠ question) : s.mem.cell a ≠ none := fun hcell => by
  rw [State.textAt, if_neg harray, if_neg hquestion, hcell] at h
  exact Option.some_ne_none t h.symm

/-- The text of a call is where it was written to. -/
theorem textAt_setContext {p : Push} {c : ℕ} (hs : s.setContext p.error p.text = some (c, s'))
    (hc : c ≠ question) : s'.textAt c = some p.shown := by
  rw [Push.shown]
  cases htext : p.text with
  | some a =>
    rw [htext] at hs
    obtain ⟨s₁, hcalloc, heq⟩ := Option.map_eq_some_iff.mp hs
    obtain ⟨rfl, rfl⟩ := Prod.mk.inj heq
    obtain ⟨ha, -, hcell, -⟩ := calloc_eq_some hcalloc
    rw [State.textAt, if_neg (ne_static ha).2.1, if_neg hc, hcell, Function.update_self,
      if_neg (Option.some_ne_none a)]
    rfl
  | none =>
    rw [htext, State.setContext] at hs
    split_ifs at hs
    · obtain ⟨rfl, rfl⟩ := Prod.mk.inj (Option.some.inj hs)
      rfl
    · exact absurd (Prod.mk.inj (Option.some.inj hs)).1.symm hc

/-- The array is written to only if it is empty. -/
theorem emergency_setContext {p : Push} {c : ℕ} (hs : s.setContext p.error p.text = some (c, s'))
    (hne : s.ec_s_emergency ≠ []) : s'.ec_s_emergency = s.ec_s_emergency := by
  cases htext : p.text with
  | some a =>
    rw [htext] at hs
    obtain ⟨s₁, hcalloc, heq⟩ := Option.map_eq_some_iff.mp hs
    obtain ⟨-, rfl⟩ := Prod.mk.inj heq
    rw [(calloc_eq_some hcalloc).2.2.2]
  | none =>
    rw [htext, State.setContext, if_neg hne] at hs
    obtain ⟨-, rfl⟩ := Prod.mk.inj (Option.some.inj hs)
    rfl

/-- A call of `ec_push` writes its text, and leaves those of the list. -/
theorem Shows.push (hshows : Shows s h.period) (hh : Holds s h) {p : Push}
    (hs : Step s (.push p) s') : Shows s' (h.next (.push p)).period := by
  obtain ⟨⟨c, s₁⟩, hcontext, hs⟩ := Option.bind_eq_some_iff.mp hs
  obtain ⟨s₂, hadd, hs⟩ := Option.bind_eq_some_iff.mp hs
  obtain rfl := Option.some.inj hs
  obtain ⟨halloc, rfl, hhead, hnode, hlinked, -⟩ := hh.setContext hcontext
  obtain ⟨halloc', harray, -, -⟩ := addNode_spec (hhead ▸ hlinked) (hnode ▸ hh.node) hadd
  have hadded : ∀ a, a ≠ question → (a ≠ emergencyText → s₁.mem.cell a ≠ none) →
      s₂.textAt a = s₁.textAt a := fun a ha hcell =>
    halloc'.textAt_eq ha (fun _ => harray) hcell
  have hnew : p.contextAt h.period ≠ question →
      s₂.textAt (p.contextAt h.period) = some p.shown := fun hne => by
    have htext := textAt_setContext hcontext hne
    rw [hadded _ hne fun harray => cell_of_textAt htext harray hne, htext]
  have hold : ∀ x ∈ contexts h.period, x.1 ≠ question → s₂.textAt x.1 = some x.2 :=
    fun x hx hne => by
      have hcell : x.1 ≠ emergencyText → s.mem.cell x.1 ≠ none := fun htext =>
        (hh.inUse x.1).mpr (List.mem_append_left _
          ((contexts_cases hx).resolve_right fun h => h.elim (fun h => htext h.1) hne))
      have hempty : x.1 = emergencyText → s₁.ec_s_emergency = s.ec_s_emergency := fun htext =>
        emergency_setContext hcontext fun hempty => by
          rcases contexts_cases hx with howned | ⟨-, hall⟩ | hquestion
          · have habove := hh.above _ ((hh.inUse x.1).mpr (List.mem_append_left _ howned))
            exact absurd (htext ▸ habove) (by decide)
          · exact hall (hh.text.mp hempty)
          · exact hne hquestion
      rw [hadded _ hne fun htext => (halloc.cell _).mpr (.inr (hcell htext)),
        halloc.textAt_eq hne hempty hcell, hshows x hx hne]
  intro x hx hne
  rw [History.next, contexts] at hx
  split_ifs at hx with hplace
  · exact hold x hx hne
  · rcases List.mem_cons.mp hx with rfl | hx
    · exact hnew hne
    · exact hold x hx hne

/-- In every run the texts are where they were written to. -/
theorem shows_run (hrun : Run Step start as s) : Shows s (history as).period := by
  induction hrun with
  | refl => exact fun x hx => absurd hx List.not_mem_nil
  | @tail as l s s' hrun hs ih =>
    rw [history_append]
    cases l with
    | push p => exact ih.push (holds_run hrun) hs
    | print =>
      obtain ⟨_, -, rfl⟩ := Option.map_eq_some_iff.mp hs
      exact ih
    | reinit => exact fun x hx => absurd hx List.not_mem_nil

/-! ### Lines -/

/-- The calls that have a line, the last one first, with the texts that are shown for them, where
the literal has some string in it. -/
def texts (literal : Bytes) : List Push → List (Push × Bytes)
  | [] => []
  | p :: older =>
    if p.place older = none then texts literal older
    else (p, if p.contextAt older = question then literal else p.shown) :: texts literal older

/-- The lines, from a level on. There is a line more for the call that has the static node. -/
def shownLines (syserrmsgtype : ℕ → Bytes → ℤ → ErrType → Bytes) :
    ℕ → List (Push × Bytes) → List Bytes
  | _, [] => []
  | level, (p, text) :: rest =>
    (if p.node = none then [incomplete] else []) ++
      levelText level
        (syserrmsgtype 200 text (if rest = [] then p.error.errno_arg else 0) p.error.type) ::
      shownLines syserrmsgtype (level + 1) rest

/-- A line is short enough for `buf2`. -/
theorem length_levelText {level : ℕ} {buf : Bytes} (hlevel : level < 2 ^ 31)
    (hbuf : buf.length < 200) : (levelText level buf).length < 225 := by
  have hdigits : (decimal level).length ≤ 10 :=
    (Smi.length_decimal_le_iff (by decide)).mpr (by omega)
  rw [levelText]
  by_cases h0 : level = 0
  · have hzero : (decimal (0 : ℕ)).length = 1 := rfl
    simp only [h0, hzero, if_true, ERROR, List.length_append, List.length_cons, List.length_nil]
    omega
  · simp only [h0, if_false, List.length_append, List.length_cons, List.length_nil]
    omega

theorem entries_eq_nil_iff {literal : Bytes} : entries ps = [] ↔ texts literal ps = [] := by
  induction ps with
  | nil => exact iff_of_true rfl rfl
  | cons p ps ih =>
    rw [entries, texts]
    cases hplace : p.place ps with
    | none => rwa [if_pos rfl]
    | some a =>
      rw [if_neg (Option.some_ne_none a)]
      exact iff_of_false (List.cons_ne_nil _ _) (List.cons_ne_nil _ _)

/-- The lines for the nodes of the list. -/
theorem lines_eq {syserrmsgtype : ℕ → Bytes → ℤ → ErrType → Bytes}
    (hlib : ∀ size text n t, 0 < size → (syserrmsgtype size text n t).length < size)
    (hshows : Shows s ps) (habove : ∀ b ∈ owned ps, question < b) {level : ℕ}
    (hlevel : level + ps.length ≤ 2 ^ 31) :
    lines s syserrmsgtype level (entries ps) =
      some (shownLines syserrmsgtype level (texts s.literal ps)) := by
  induction ps generalizing level with
  | nil => rfl
  | cons p ps ih =>
    rw [List.length_cons] at hlevel
    rw [Shows, contexts] at hshows
    rw [owned] at habove
    rw [entries, texts]
    cases hplace : p.place ps with
    | none =>
      rw [if_pos hplace] at hshows habove
      rw [if_pos rfl]
      exact ih hshows habove (by omega)
    | some a =>
      rw [if_neg (hplace ▸ Option.some_ne_none a)] at hshows habove
      rw [if_neg (Option.some_ne_none a)]
      set text := if p.contextAt ps = question then s.literal else p.shown with htext
      have hcontext : s.textAt (p.contextAt ps) = some text := by
        by_cases hquestion : p.contextAt ps = question
        · rw [htext, if_pos hquestion, hquestion]
          rfl
        · rw [htext, if_neg hquestion]
          exact hshows _ List.mem_cons_self hquestion
      have hnext : (entries ps).head?.map Prod.fst = none ↔ texts s.literal ps = [] := by
        rw [Option.map_eq_none_iff, List.head?_eq_none_iff, entries_eq_nil_iff]
      have hnode : a = emergencyNode ↔ p.node = none := by
        rcases Push.node_of_place hplace with hnode | ⟨hnode, ha⟩
        · have habove' : question < a := habove a (List.mem_append_left _
            (List.mem_append_right _ (by rw [hnode]; exact List.mem_cons_self)))
          rw [hnode]
          exact iff_of_false (ne_static habove').1 (Option.some_ne_none a)
        · exact iff_of_true ha hnode
      have hrest : lines s syserrmsgtype (level + 1) (entries ps) = _ :=
        ih (fun x hx => hshows x (List.mem_cons_of_mem _ hx))
          (fun b hb => habove b (List.mem_append_right _ hb)) (by omega)
      have hwhole : ∀ n,
          (snprintf 225 (levelText level (syserrmsgtype 200 text n p.error.type))).2 =
            levelText level (syserrmsgtype 200 text n p.error.type) := fun n =>
        (snprintf_eq_iff (by decide)).mpr
          (length_levelText (by omega) (hlib 200 text n p.error.type (by decide)))
      simp only [lines, Option.bind_some, hcontext, hrest, shownLines, hnext, hnode, hwhole,
        Option.bind_eq_bind]

section Run

variable {syserrmsgtype : ℕ → Bytes → ℤ → ErrType → Bytes}

/-- In every run `ec_print` writes the lines for the calls since the last call of `ec_reinit`, apart
from those that were dropped. -/
theorem ec_print_run (hrun : Run Step start as s)
    (hlib : ∀ size text n t, 0 < size → (syserrmsgtype size text n t).length < size)
    (hlength : (history as).period.length ≤ 2 ^ 31) :
    ec_print s syserrmsgtype =
      some (shownLines syserrmsgtype 0 (texts s.literal (history as).period)) := by
  have hh := holds_run hrun
  rw [ec_print, hh.traverse, Option.bind_eq_bind, Option.bind_some]
  exact lines_eq hlib (shows_run hrun) (fun b hb => hh.above b
    ((hh.inUse b).mpr (List.mem_append_left _ hb))) (by omega)

/-! ### The whole trace -/

/-- The calls that are on the list. -/
def kept : List Push → List Push
  | [] => []
  | p :: older => if p.place older = none then kept older else p :: kept older

/-- While the literal is not used, each call is shown with its own text. -/
theorem texts_eq {literal : Bytes} (hliteral : ¬ FreesLiteral ps)
    (habove : ∀ b ∈ owned ps, question < b) :
    texts literal ps = (kept ps).map fun p => (p, p.shown) := by
  induction ps with
  | nil => rfl
  | cons p ps ih =>
    rw [FreesLiteral, not_or] at hliteral
    rw [owned] at habove
    rw [texts, kept]
    split_ifs at habove ⊢ with hplace hquestion
    · exact ih hliteral.2 habove
    · refine absurd ?_ hliteral.1
      have hmem : p.text = none ∧ ¬ ∀ q ∈ ps, q.text ≠ none := (question_mem_context fun b hb =>
        habove b (List.mem_append_left _ (List.mem_append_left _ hb))).mp (by
          rw [hquestion, if_neg (by decide)]
          exact List.mem_cons_self)
      exact ⟨hmem.1, hmem.2, hplace⟩
    · rw [ih hliteral.2 fun b hb => habove b (List.mem_append_right _ hb), List.map_cons]

/-- What is written in a run in which memory is used rightly. -/
theorem ec_print_kept (hrun : Run Step start as s) (hone : OneWithoutText as)
    (hlib : ∀ size text n t, 0 < size → (syserrmsgtype size text n t).length < size)
    (hlength : (history as).period.length ≤ 2 ^ 31) :
    ec_print s syserrmsgtype =
      some (shownLines syserrmsgtype 0 ((kept (history as).period).map fun p => (p, p.shown))) := by
  have hh := holds_run hrun
  rw [ec_print_run hrun hlib hlength, texts_eq hone.not_freesLiteral fun b hb =>
    hh.above b ((hh.inUse b).mpr (List.mem_append_left _ hb))]

/-- **The trace.** In every run in which memory is used rightly, `ec_print` shows the calls since
the last call of `ec_reinit` that were not dropped, the last one first, each with its own text, and
the first one with the number of its error. -/
theorem trace_shown (hrun : Run Step start as s) (hone : OneWithoutText as)
    (hlib : ∀ size text n t, 0 < size → (syserrmsgtype size text n t).length < size)
    (hlength : (history as).period.length ≤ 2 ^ 31) :
    ec_print s syserrmsgtype =
      some (shownLines syserrmsgtype 0 ((kept (history as).period).map fun p => (p, p.shown))) :=
  ec_print_kept hrun hone hlib hlength

/-- A text with a number behind it. -/
def sampleText (size : ℕ) (text : Bytes) (n : ℤ) (_ : ErrType) : Bytes :=
  (snprintf size (text ++ [32] ++ decimal n)).2

theorem length_sampleText (size : ℕ) (text : Bytes) (n : ℤ) (t : ErrType) (hsize : 0 < size) :
    (sampleText size text n t).length < size :=
  (List.length_take_le _ _).trans_lt (Nat.sub_lt hsize Nat.one_pos)

theorem trace_shown_sample : ∃ s, Run Step start sample s ∧ ec_print s sampleText =
    some (shownLines sampleText 0 ((kept (history sample).period).map fun p => (p, p.shown))) := by
  obtain ⟨s, hrun, hone⟩ := exists_sample
  exact ⟨s, hrun, trace_shown hrun hone length_sampleText (by decide)⟩

/-! ### The first error -/

theorem place_nil (p : Push) : p.place [] ≠ none := by
  cases hnode : p.node with
  | some b => exact Push.place_of_some hnode ▸ Option.some_ne_none b
  | none =>
    have hall : ∀ q ∈ ([] : List Push), q.node ≠ none := fun q hq => absurd hq List.not_mem_nil
    exact Push.place_of_first hnode hall ▸ Option.some_ne_none _

/-- The first call since the last call of `ec_reinit` is never dropped. -/
theorem getLast?_kept : (kept ps).getLast? = ps.getLast? := by
  induction ps with
  | nil => rfl
  | cons p ps ih =>
    rw [kept]
    cases hlast : ps.getLast? with
    | none =>
      obtain rfl := List.getLast?_eq_none_iff.mp hlast
      rw [if_neg (place_nil p)]
      rfl
    | some q => split_ifs <;> simp [List.getLast?_cons, ih, hlast]

theorem getLast?_shownLines {xs : List (Push × Bytes)} {x : Push × Bytes} {level : ℕ}
    (hx : xs.getLast? = some x) : ∃ last, (shownLines syserrmsgtype level xs).getLast? =
      some (levelText last (syserrmsgtype 200 x.2 x.1.error.errno_arg x.1.error.type)) := by
  induction xs generalizing level with
  | nil => exact absurd hx.symm (Option.some_ne_none x)
  | cons y ys ih =>
    rw [shownLines, List.getLast?_append_of_ne_nil _ (List.cons_ne_nil _ _), List.getLast?_cons]
    rw [List.getLast?_cons] at hx
    cases hlast : ys.getLast? with
    | none =>
      obtain rfl := List.getLast?_eq_none_iff.mp hlast
      obtain rfl := Option.some.inj hx
      exact ⟨level, rfl⟩
    | some z =>
      rw [hlast] at hx
      obtain rfl := Option.some.inj hx
      obtain ⟨last, hys⟩ :
          ∃ last, (shownLines syserrmsgtype (level + 1) ys).getLast? = some (levelText last _) :=
        ih hlast
      exact ⟨last, by rw [hys]; rfl⟩

/-- **The first error is shown last**, with its number, in every run in which memory is used
rightly, whatever there is no memory for. -/
theorem first_error_shown (hrun : Run Step start as s) (hone : OneWithoutText as)
    (hlib : ∀ size text n t, 0 < size → (syserrmsgtype size text n t).length < size)
    (hlength : (history as).period.length ≤ 2 ^ 31) {p : Push}
    (hp : (history as).period.getLast? = some p) :
    ∃ lines level, ec_print s syserrmsgtype = some lines ∧ lines.getLast? =
      some (levelText level (syserrmsgtype 200 p.shown p.error.errno_arg p.error.type)) := by
  have hlast : ((kept (history as).period).map fun p => (p, p.shown)).getLast? =
      some (p, p.shown) := by
    rw [List.getLast?_map, getLast?_kept, hp]
    rfl
  obtain ⟨last, hlines⟩ := getLast?_shownLines hlast
  exact ⟨_, last, ec_print_kept hrun hone hlib hlength, hlines⟩

theorem first_error_shown_sample : ∃ s, Run Step start sample s ∧
    ∃ lines level, ec_print s sampleText = some lines ∧ lines.getLast? =
      some (levelText level (sampleText 200 (Push.shown ⟨sampleError, some 8, some 9⟩) 2
        .EC_ERRNO)) := by
  obtain ⟨s, hrun, hone⟩ := exists_sample
  exact ⟨s, hrun, first_error_shown hrun hone length_sampleText (by decide) rfl⟩

/-! ### The warning -/

/-- A line begins with `ERROR:`, or with a tabulator and a digit. -/
theorem levelText_ne_incomplete {level : ℕ} {buf : Bytes} : levelText level buf ≠ incomplete := by
  intro heq
  rw [levelText, incomplete] at heq
  by_cases h0 : level = 0
  · rw [if_pos h0] at heq
    exact absurd (List.cons.inj heq).1 (by decide)
  · rw [if_neg h0, List.nil_append, List.append_assoc, List.append_assoc,
      List.singleton_append] at heq
    have hstar := (List.cons.inj heq).2
    cases hdigits : decimal level with
    | nil =>
      rw [hdigits] at hstar
      exact absurd (List.cons.inj hstar).1 (by decide)
    | cons c cs =>
      rw [hdigits, List.cons_append] at hstar
      have hc : c ∈ decimal level := hdigits ▸ List.mem_cons_self
      rcases Smi.mem_decimal hc with rfl | ⟨hge, -⟩
      · exact absurd (List.cons.inj hstar).1 (by decide)
      · rw [(List.cons.inj hstar).1] at hge
        exact absurd hge (by decide)

theorem incomplete_mem_shownLines {xs : List (Push × Bytes)} {level : ℕ} :
    incomplete ∈ shownLines syserrmsgtype level xs ↔ ∃ x ∈ xs, x.1.node = none := by
  induction xs generalizing level with
  | nil => simp [shownLines]
  | cons x xs ih =>
    rw [shownLines, List.mem_append, List.mem_cons, ih, or_iff_right levelText_ne_incomplete.symm,
      List.exists_mem_cons_iff]
    split_ifs <;> simp_all

/-- A call that has the static node is on the list. -/
theorem exists_mem_kept_iff : (∃ q ∈ kept ps, q.node = none) ↔ ∃ q ∈ ps, q.node = none := by
  induction ps with
  | nil => exact Iff.rfl
  | cons p ps ih =>
    rw [kept, List.exists_mem_cons_iff, ← ih]
    by_cases hplace : p.place ps = none
    · rw [if_pos hplace]
      have hall : p.node = none → ¬ ∀ q ∈ ps, q.node ≠ none := fun hnode hall =>
        Option.some_ne_none _ ((Push.place_of_first hnode hall).symm.trans hplace)
      rw [or_iff_right_of_imp fun hnode => ?_]
      have hex := hall hnode
      push Not at hex
      exact ih.mpr hex
    · rw [if_neg hplace, List.exists_mem_cons_iff]

/-- **The warning** that the trace may be incomplete is shown, in a run in which memory is used
rightly, if and only if there was no memory for the node of a call: so it is when a call was
dropped. -/
theorem incomplete_mem_iff (hrun : Run Step start as s) (hone : OneWithoutText as)
    (hlib : ∀ size text n t, 0 < size → (syserrmsgtype size text n t).length < size)
    (hlength : (history as).period.length ≤ 2 ^ 31) :
    ∃ lines, ec_print s syserrmsgtype = some lines ∧
      (incomplete ∈ lines ↔ ∃ q ∈ (history as).period, q.node = none) := by
  refine ⟨_, ec_print_kept hrun hone hlib hlength, ?_⟩
  rw [incomplete_mem_shownLines, ← exists_mem_kept_iff]
  simp only [List.mem_map, exists_exists_and_eq_and]

theorem incomplete_mem_iff_sample : ∃ s, Run Step start sample s ∧
    ∃ lines, ec_print s sampleText = some lines ∧
      (incomplete ∈ lines ↔ ∃ q ∈ (history sample).period, q.node = none) := by
  obtain ⟨s, hrun, hone⟩ := exists_sample
  exact ⟨s, hrun, incomplete_mem_iff hrun hone length_sampleText (by decide)⟩

end Run

end UnixStudy.Ec
