import UnixStudy.Ec.Release

/-!
# The memory of the trace

If there is no block for a text, the text is written to an array, and if the array is taken, to the
literal `"?"`, which a program must not write to, and which `ec_reinit` then passes to `free`. This
does not happen if and only if there is no second such text before the next call of `ec_reinit`.

A call that is dropped has a text, and if this is in a block, no node points to it. `ec_reinit`
frees everything else, and in every run it comes to the end of the list.

## Main definitions

* `UsesMemoryRightly` : `free` is called for blocks, and once, and the literal is not written to.
* `OneWithoutText` : the runs in which there is no second text without a block.
* `Lost` : a block that no node points to.

## Main results

* `usesMemoryRightly_iff` : when memory is used rightly.
* `reinit_leaves` : what is in use after a call of `ec_reinit`.

## References

* `src/common/ec.c`, lines 79–97 and 131–147.
-/

namespace UnixStudy.Ec

variable {s s' : State} {h : History} {as : List Label} {ps : List Push}

/-! ### The literal -/

/-- If there is no block for the text, the array is free. -/
def Fits (h : History) : Label → Prop
  | .push p => p.text = none → ∀ q ∈ h.period, q.text ≠ none
  | _ => True

/-- At most one text since the last call of `ec_reinit` has no block, at any time. -/
def OneWithoutText (as : List Label) : Prop :=
  ∀ as₁ l as₂, as = as₁ ++ l :: as₂ → Fits (history as₁) l

/-- Writing the text of a call may write to the literal. -/
theorem Holds.literalWritten_setContext (hh : Holds s h) {p : Push} {c : ℕ}
    (hs : s.setContext p.error p.text = some (c, s')) :
    s'.literalWritten = false ↔ s.literalWritten = false ∧ Fits h (.push p) := by
  rw [Fits, ← hh.text]
  cases htext : p.text with
  | some a =>
    rw [htext] at hs
    obtain ⟨s₁, hcalloc, heq⟩ := Option.map_eq_some_iff.mp hs
    obtain ⟨-, rfl⟩ := Prod.mk.inj heq
    rw [(calloc_eq_some hcalloc).2.2.2]
    simp
  | none =>
    rw [htext, State.setContext] at hs
    split_ifs at hs with hempty
    · obtain ⟨-, rfl⟩ := Prod.mk.inj (Option.some.inj hs)
      simp [hempty]
    · obtain ⟨-, rfl⟩ := Prod.mk.inj (Option.some.inj hs)
      simp [hempty]

/-- Adding the node does not. -/
theorem literalWritten_addNode {e : Error} {c : ℕ} {r : Option ℕ}
    (hs : s.addNode e c r = some s') : s'.literalWritten = s.literalWritten := by
  cases r with
  | some b =>
    obtain ⟨s₁, hcalloc, rfl⟩ := Option.map_eq_some_iff.mp hs
    rw [(calloc_eq_some hcalloc).2.2.2]
  | none =>
    rw [State.addNode] at hs
    split_ifs at hs
    · exact Option.some.inj hs ▸ rfl
    · exact Option.some.inj hs ▸ rfl

/-- When a step writes to the literal. -/
theorem Holds.literalWritten_step (hh : Holds s h) {l : Label} (hs : Step s l s') :
    s'.literalWritten = false ↔ s.literalWritten = false ∧ Fits h l := by
  cases l with
  | push p =>
    obtain ⟨⟨c, s₁⟩, hcontext, hs⟩ := Option.bind_eq_some_iff.mp hs
    obtain ⟨s₂, hadd, hs⟩ := Option.bind_eq_some_iff.mp hs
    obtain rfl := Option.some.inj hs
    dsimp only
    rw [literalWritten_addNode hadd, hh.literalWritten_setContext hcontext]
  | print =>
    obtain ⟨_, -, rfl⟩ := Option.map_eq_some_iff.mp hs
    exact (and_iff_left trivial).symm
  | reinit =>
    obtain ⟨s₁, hs₁, -, -, hstatic⟩ := hh.reinit
    obtain rfl := Option.some.inj (hs.symm.trans hs₁)
    rw [hstatic]
    exact (and_iff_left trivial).symm

theorem oneWithoutText_append {l : Label} :
    OneWithoutText (as ++ [l]) ↔ OneWithoutText as ∧ Fits (history as) l := by
  rw [OneWithoutText, forall_split_append_singleton]
  rfl

/-- The literal is not written to if and only if at most one text has no block. -/
theorem literalWritten_iff (hrun : Run Step start as s) :
    s.literalWritten = false ↔ OneWithoutText as := by
  induction hrun with
  | refl => exact iff_of_true rfl fun as₁ l as₂ heq => absurd heq nil_ne_append_cons
  | tail hrun hs ih => rw [oneWithoutText_append, ← ih, (holds_run hrun).literalWritten_step hs]

/-! ### What is freed -/

/-- A text of the list is where the literal is. -/
def FreesLiteral : List Push → Prop
  | [] => False
  | p :: older =>
    (p.text = none ∧ ¬ (∀ q ∈ older, q.text ≠ none) ∧ p.place older ≠ none) ∨ FreesLiteral older

theorem question_mem_context {older : List Push} {p : Push}
    (habove : ∀ b ∈ p.text.toList, question < b) :
    some question ∈ (if p.contextAt older = emergencyText then [] else [some (p.contextAt older)]) ↔
      p.text = none ∧ ¬ ∀ q ∈ older, q.text ≠ none := by
  cases htext : p.text with
  | some b =>
    have hb : question < b := habove b (by rw [htext]; exact List.mem_cons_self)
    rw [Push.contextAt_of_some htext, if_neg (ne_static hb).2.1, List.mem_singleton]
    exact iff_of_false (fun heq => (ne_static hb).2.2 (Option.some.inj heq).symm)
      fun h => Option.some_ne_none b h.1
  | none =>
    by_cases hall : ∀ q ∈ older, q.text ≠ none
    · rw [Push.contextAt_of_first htext hall, if_pos rfl]
      exact iff_of_false List.not_mem_nil fun h => h.2 hall
    · rw [Push.contextAt_of_not_first htext hall, if_neg (by decide)]
      exact iff_of_true List.mem_cons_self ⟨rfl, hall⟩

theorem question_not_mem_node {older : List Push} {p : Push} {a : ℕ}
    (hplace : p.place older = some a) (habove : ∀ b ∈ p.node.toList, question < b) :
    some question ∉ (if a = emergencyNode then [] else [some a]) := by
  rcases Push.node_of_place hplace with hnode | ⟨-, rfl⟩
  · have ha : question < a := habove a (by rw [hnode]; exact List.mem_cons_self)
    rw [if_neg (ne_static ha).1, List.mem_singleton]
    exact fun heq => (ne_static ha).2.2 (Option.some.inj heq).symm
  · rw [if_pos rfl]
    exact List.not_mem_nil

/-- When `ec_reinit` passes the literal to `free`. -/
theorem question_mem_frees (habove : ∀ b ∈ owned ps, question < b) :
    some question ∈ frees ps ↔ FreesLiteral ps := by
  induction ps with
  | nil => exact iff_of_false List.not_mem_nil id
  | cons p ps ih =>
    rw [owned] at habove
    rw [frees, FreesLiteral]
    cases hplace : p.place ps with
    | none =>
      rw [if_pos hplace] at habove
      simp [ih habove]
    | some a =>
      rw [if_neg (hplace ▸ Option.some_ne_none a)] at habove
      have hblocks := fun b hb => habove b (List.mem_append_left _ hb)
      rw [List.mem_append, List.mem_append, or_iff_left (question_not_mem_node hplace fun b hb =>
        hblocks b (List.mem_append_right _ hb)), question_mem_context fun b hb =>
        hblocks b (List.mem_append_left _ hb), ih fun b hb => habove b (List.mem_append_right _ hb)]
      simp only [ne_eq, Option.some_ne_none, not_false_eq_true, and_true]

/-- **A step makes right calls** unless it is a call of `ec_reinit` that frees the literal. -/
theorem Holds.frees_step (hh : Holds s h) {l : Label} (hs : Step s l s') :
    FreesReturned s'.calls ∧ FreesOnce s'.calls ↔
      (FreesReturned s.calls ∧ FreesOnce s.calls) ∧ (l = .reinit → ¬ FreesLiteral h.period) := by
  cases l with
  | push p =>
    rw [(hh.push hs).2.calls, frees_mallocs_iff]
    exact (and_iff_left fun heq => Label.noConfusion heq).symm
  | print =>
    obtain ⟨_, -, rfl⟩ := Option.map_eq_some_iff.mp hs
    exact (and_iff_left fun heq => Label.noConfusion heq).symm
  | reinit =>
    obtain ⟨s₁, hs₁, -, hcalls, -⟩ := hh.reinit
    obtain rfl := Option.some.inj (hs.symm.trans hs₁)
    have hin : ∀ b ∈ owned h.period, s.mem.cell b ≠ none := fun b hb =>
      (hh.inUse b).mpr (List.mem_append_left _ hb)
    have habove := fun b hb => hh.above b (hin b hb)
    rw [hcalls, frees_frees_iff, forall_prop_of_true rfl, ← question_mem_frees habove]
    refine and_congr_right fun _ => ⟨fun ⟨_, huse⟩ hmem => ?_, fun hmem => ?_⟩
    · obtain ⟨a, ha, hcalled⟩ := huse _ hmem
      obtain rfl := Option.some.inj ha
      exact Nat.lt_irrefl _ (hh.above _ ((hh.called _).mpr hcalled))
    · have hne : ∀ q ∈ frees h.period, q ≠ some question := fun q hq heq => hmem (heq ▸ hq)
      have heq : frees h.period = (owned h.period).map some := by
        rw [← filter_frees habove, List.filter_eq_self.mpr fun q hq => decide_eq_true (hne q hq)]
      rw [heq, List.nodup_map_iff (Option.some_injective ℕ)]
      refine ⟨(List.nodup_append.mp hh.nodup).1, fun q hq => ?_⟩
      obtain ⟨a, ha, rfl⟩ := List.mem_map.mp hq
      exact ⟨a, rfl, (hh.called a).mp (hin a ha)⟩

/-- While the literal is not written to, it is not on the list. -/
theorem OneWithoutText.not_freesLiteral (hone : OneWithoutText as) :
    ¬ FreesLiteral (history as).period := by
  induction as using List.reverseRecOn with
  | nil => exact id
  | append_singleton as l ih =>
    obtain ⟨hbefore, hfits⟩ := oneWithoutText_append.mp hone
    rw [history_append]
    cases l with
    | push p => exact fun h => h.elim (fun h => h.2.1 (hfits h.1)) (ih hbefore)
    | print => exact ih hbefore
    | reinit => exact id

/-- `free` is called for what `malloc` has returned, and once, and the literal is not written
to. -/
structure UsesMemoryRightly (s : State) : Prop where
  returned : FreesReturned s.calls
  once : FreesOnce s.calls
  literal : s.literalWritten = false

/-- Where there is a block for the texts of all calls but one, memory is used rightly. -/
theorem OneWithoutText.usesMemoryRightly (hone : OneWithoutText as) (hrun : Run Step start as s) :
    UsesMemoryRightly s := by
  have hfrees : FreesReturned s.calls ∧ FreesOnce s.calls := by
    induction hrun with
    | refl => exact ⟨freesReturned_nil, freesOnce_nil⟩
    | tail hrun hs ih =>
      have hbefore := (oneWithoutText_append.mp hone).1
      exact ((holds_run hrun).frees_step hs).mpr ⟨ih hbefore, fun _ => hbefore.not_freesLiteral⟩
  exact ⟨hfrees.1, hfrees.2, (literalWritten_iff hrun).mpr hone⟩

/-- **Memory is used rightly** in a run if and only if, between any two calls of `ec_reinit`, there
is memory for the texts of all calls of `ec_push` but one. -/
theorem usesMemoryRightly_iff (hrun : Run Step start as s) :
    UsesMemoryRightly s ↔ OneWithoutText as :=
  ⟨fun h => (literalWritten_iff hrun).mp h.literal, fun hone => hone.usesMemoryRightly hrun⟩

/-- An error in `main`. -/
def sampleError : Error :=
  ⟨⟨[109, 97, 105, 110], by decide⟩, ⟨[97, 46, 99], by decide⟩, 7, none, 2, .EC_ERRNO⟩

/-- There is memory for the first call, none at all for the second one, and none for the node of the
third one, which is dropped. -/
def sample : List Label :=
  [.push ⟨sampleError, some 8, some 9⟩, .push ⟨sampleError, none, none⟩,
    .push ⟨sampleError, some 16, none⟩, .print]

theorem run_sample : (sample.foldlM step start).map (fun s => (s.calls, s.literalWritten)) =
    some ([.malloc 8, .malloc 9, .malloc 16], false) := rfl

theorem exists_sample : ∃ s, Run Step start sample s ∧ OneWithoutText sample := by
  obtain ⟨s, hs, hshows⟩ := Option.map_eq_some_iff.mp run_sample
  have hrun : Run Step start sample s := .of_foldlM hs
  exact ⟨s, hrun, (literalWritten_iff hrun).mp (Prod.mk.inj hshows).2⟩

theorem usesMemoryRightly_iff_sample : ∃ s, Run Step start sample s ∧
    (UsesMemoryRightly s ↔ OneWithoutText sample) := by
  obtain ⟨s, hrun, -⟩ := exists_sample
  exact ⟨s, hrun, usesMemoryRightly_iff hrun⟩

/-! ### What is not freed -/

/-- A call is dropped, whose text is in a block. -/
def Loses (h : History) (l : Label) (a : ℕ) : Prop :=
  match l with
  | .push p => p.text = some a ∧ p.node = none ∧ ∃ q ∈ h.period, q.node = none
  | _ => False

/-- The block has the text of a call that was dropped. -/
def Lost (as : List Label) (a : ℕ) : Prop :=
  ∃ as₁ l as₂, as = as₁ ++ l :: as₂ ∧ Loses (history as₁) l a

theorem loses_push {p : Push} {a : ℕ} :
    Loses h (.push p) a ↔ a ∈ (if p.place h.period = none then p.blocks else []) := by
  rw [Loses]
  cases hnode : p.node with
  | some b =>
    rw [Push.place_of_some hnode, if_neg (Option.some_ne_none b)]
    exact iff_of_false (fun h => Option.some_ne_none b h.2.1) List.not_mem_nil
  | none =>
    by_cases hall : ∀ q ∈ h.period, q.node ≠ none
    · rw [Push.place_of_first hnode hall, if_neg (Option.some_ne_none _)]
      exact iff_of_false (fun ⟨_, _, q, hq, hnone⟩ => hall q hq hnone) List.not_mem_nil
    · rw [Push.place_of_not_first hnode hall, if_pos rfl, Push.blocks, hnode, Option.toList_none,
        List.append_nil, Option.mem_toList]
      push Not at hall
      exact and_iff_left ⟨rfl, hall⟩

/-- What is leaked is what the dropped calls have lost. -/
theorem mem_leaked {a : ℕ} : a ∈ (history as).leaked ↔ Lost as a := by
  induction as using List.reverseRecOn with
  | nil => exact iff_of_false List.not_mem_nil fun ⟨_, _, _, heq, _⟩ => nil_ne_append_cons heq
  | append_singleton as l ih =>
    rw [Lost, exists_split_append_singleton, history_append, or_comm]
    have hbefore : Lost as a ↔ a ∈ (history as).leaked := ih.symm
    rw [← Lost, hbefore]
    cases l with
    | push p =>
      rw [loses_push, History.next]
      split_ifs <;> simp
    | print | reinit => exact (or_iff_right id).symm

/-- **What `ec_reinit` leaves.** In every run in which memory is used rightly, `ec_reinit` comes to
the end of the list, frees only what is in use, and leaves everything as it was in the beginning,
apart from the blocks that are lost: those it cannot free, and it frees all others. -/
theorem reinit_leaves (hrun : Run Step start as s) (hone : OneWithoutText as) :
    ∃ s', step s .reinit = some s' ∧ UsesMemoryRightly s' ∧
      s'.ec_head = none ∧ s'.ec_node_emergency = .zero ∧ s'.ec_s_emergency = [] ∧
        ∀ a, s'.mem.cell a ≠ none ↔ Lost as a := by
  obtain ⟨s', hs', hh', -, hstatic⟩ := (holds_run hrun).reinit
  have hright : UsesMemoryRightly s' :=
    (oneWithoutText_append.mpr ⟨hone, trivial⟩ : OneWithoutText (as ++ [.reinit])).usesMemoryRightly
      (hrun.tail hs')
  refine ⟨s', hs', hright, by rw [hstatic], by rw [hstatic], by rw [hstatic], fun a => ?_⟩
  rw [hh'.inUse, ← mem_leaked]
  rfl

theorem reinit_leaves_sample : ∃ s, Run Step start sample s ∧ ∃ s', step s .reinit = some s' ∧
    UsesMemoryRightly s' ∧
      s'.ec_head = none ∧ s'.ec_node_emergency = .zero ∧ s'.ec_s_emergency = [] ∧
        ∀ a, s'.mem.cell a ≠ none ↔ Lost sample a := by
  obtain ⟨s, hrun, hone⟩ := exists_sample
  exact ⟨s, hrun, reinit_leaves hrun hone⟩

end UnixStudy.Ec
