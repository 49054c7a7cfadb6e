import UnixStudy.Ec.Kept
import UnixStudy.Ec.Threads

/-!
# Parts of sections

A thread that has the mutex has done a part of what a whole call does. Where it is in the section,
and what is in its variables, says which part: the list that is left to be shown or to be freed, or
the node that is to be linked.

## Main definitions

* `Place.At` : what a part of a section has done.

## Main results

* `Place.At.inside` : what a statement does.
* `Place.At.exists_inside` : the thread can go on.

## References

* `src/common/ec.c`, lines 65–108, 110–129 and 131–147.
-/

namespace UnixStudy.Ec

open Smi (Bytes)

variable {s s' t t₁ : State} {a : ℕ}

/-! ### Blocks of zeros -/

/-- Whether `calloc` can return an address does not depend on what is written there. -/
theorem exists_calloc {zeros : Block} (h : t.calloc a zeros = some s) (b : Block) :
    ∃ s', t.calloc a b = some s' := by
  obtain ⟨ha, hfree, -⟩ := calloc_eq_some h
  obtain ⟨mem, hmem⟩ := Allocations.exists_malloc hfree b
  exact ⟨_, (if_pos ha).trans (Option.map_eq_some_iff.mpr ⟨mem, hmem, rfl⟩)⟩

/-- A text is written to a block. -/
theorem setText_of_calloc {text : Bytes} (h : t.calloc a (.text []) = some s) :
    s.setText a text = t.calloc a (.text text) := by
  have ha := (calloc_eq_some h).1
  obtain ⟨-, harray, hquestion⟩ := ne_static ha
  rw [State.calloc, if_pos ha] at h ⊢
  obtain ⟨mem, hmem, rfl⟩ := Option.map_eq_some_iff.mp h
  rw [State.setText, if_neg harray, if_neg hquestion, Allocations.store_of_malloc hmem]

/-- A text is written to the array, or to the literal. -/
theorem setContext_none {e : Error}
    (h : t.setText (if t.ec_s_emergency = [] then emergencyText else question)
      (snprintf 100 e.context).2 = some s) :
    t.setContext e none =
      some (if t.ec_s_emergency = [] then emergencyText else question, s) := by
  rw [State.setContext]
  split_ifs at h ⊢ with hempty
  · rw [State.setText, if_pos rfl] at h
    obtain rfl := Option.some.inj h
    rfl
  · rw [State.setText, if_neg (by decide), if_pos rfl] at h
    obtain rfl := Option.some.inj h
    rfl

/-- A node is written to a block, when the block is the head of the list. -/
theorem addNode_of_calloc {e : Error} {context : ℕ} (h : t.calloc a (.node .zero) = some s) :
    State.setNode { s with ec_head := some a } a
        ⟨t.ec_head, e.errno_arg, e.type, some context⟩ =
      t.addNode e context (some a) := by
  have ha := (calloc_eq_some h).1
  rw [State.calloc, if_pos ha] at h
  obtain ⟨mem, hmem, rfl⟩ := Option.map_eq_some_iff.mp h
  rw [State.setNode, if_neg (ne_static ha).1, Allocations.store_of_malloc hmem, State.addNode,
    State.calloc, if_pos ha, Option.map_map]
  rfl

/-! ### Parts of sections -/

/-- The node of a call of `ec_push` has been allocated; memory was `t₁` before that. -/
def Placed (t t₁ : State) (p : Push) (context : ℕ) (s : State) : Prop :=
  t.setContext p.error p.text = some (context, t₁) ∧ t₁.callCalloc (.node .zero) p.node = some s

/-- Where the node of a call of `ec_push` is put. -/
def placeIn (t₁ : State) (p : Push) : Option ℕ :=
  if p.node = none ∧ t₁.ec_node_emergency.ec_context = none then some emergencyNode else p.node

/-- What the section of a thread that is at a place has made of the state `t`. -/
def Place.At (syserrmsgtype : ℕ → Bytes → ℤ → ErrType → Bytes) (t s : State) : Place → Prop
  | .idle | .lock _ | .atexit _ => False
  | .callocText _ | .printInit | .reinitInit => s = t
  | .testText _ text => t.callCalloc (.text []) text = some s
  | .snprintf e text len context =>
    t.callCalloc (.text []) text = some s ∧
      match text with
      | some a => len = e.len ∧ context = a
      | none => len = 100 ∧ context = if t.ec_s_emergency = [] then emergencyText else question
  | .callocNode e text context => t.setContext e text = some (context, s)
  | .testNode p context => ∃ t₁, Placed t t₁ p context s
  | .setNext p context place => ∃ t₁, Placed t t₁ p context s ∧ place = placeIn t₁ p
  | .setHead p context place ec_next =>
    ∃ t₁, Placed t t₁ p context s ∧ some place = placeIn t₁ p ∧ ec_next = t₁.ec_head
  | .setNode p context place ec_next =>
    ∃ t₁ s₁, Placed t t₁ p context s₁ ∧ some place = placeIn t₁ p ∧ ec_next = t₁.ec_head ∧
      s = { s₁ with ec_head := some place }
  | .testAtexit p =>
    ∃ context t₁, t.setContext p.error p.text = some (context, t₁) ∧
      t₁.addNode p.error context p.node = some s
  | .unlockPush p _ => ec_push t p = some s
  | .printLoop e level shown =>
    s = t ∧ ∃ fuel, ((traverse t fuel e).bind (lines t syserrmsgtype level)).map (shown ++ ·) =
      ec_print t syserrmsgtype
  | .unlockPrint shown => s = t ∧ ec_print t syserrmsgtype = some shown
  | .reinitLoop e => ∃ fuel, releaseAll fuel s e = releaseAll t.fuel t t.ec_head
  | .freeContext a e_next =>
    ∃ fuel e, s.nodeAt a = some e ∧ e.ec_next = e_next ∧
      releaseAll fuel (release s a e) e_next = releaseAll t.fuel t t.ec_head
  | .freeNode a e_next =>
    ∃ fuel, releaseAll fuel (if a ≠ emergencyNode then s.free (some a) else s) e_next =
      releaseAll t.fuel t t.ec_head
  | .resetHead => releaseAll t.fuel t t.ec_head = some s
  | .resetNode => ∃ s₁, releaseAll t.fuel t t.ec_head = some s₁ ∧ s = { s₁ with ec_head := none }
  | .resetText =>
    ∃ s₁, releaseAll t.fuel t t.ec_head = some s₁ ∧
      s = { s₁ with ec_head := none, ec_node_emergency := .zero }
  | .unlockReinit => ec_reinit t = some s

namespace Place.At

variable {syserrmsgtype : ℕ → Bytes → ℤ → ErrType → Bytes} {c c' : Place} {b : Choice}
  {r : Place × State}

/-- A call of `calloc` leaves the static variables as they are. -/
theorem static_of_callCalloc {zeros : Block} {r : Option ℕ} (h : t.callCalloc zeros r = some s) :
    s.ec_head = t.ec_head ∧ s.ec_node_emergency = t.ec_node_emergency ∧
      s.ec_s_emergency = t.ec_s_emergency ∧ s.attexit_called = t.attexit_called := by
  cases r with
  | none =>
    obtain rfl := Option.some.inj h
    exact ⟨rfl, rfl, rfl, rfl⟩
  | some a =>
    obtain ⟨-, -, -, hs⟩ := calloc_eq_some h
    rw [hs]
    exact ⟨rfl, rfl, rfl, rfl⟩

/-- A statement of `ec_push`. -/
theorem insidePush (h : c.At syserrmsgtype t s) (hs : c.insidePush b s = some r) :
    r.1.At syserrmsgtype t r.2 := by
  cases c with
  | callocText e =>
    obtain rfl := h
    obtain ⟨s', hs', rfl⟩ := Option.map_eq_some_iff.mp hs
    exact hs'
  | testText e text =>
    cases text with
    | some a =>
      obtain rfl := Option.some.inj hs
      exact ⟨h, rfl, rfl⟩
    | none =>
      obtain rfl := Option.some.inj h
      obtain rfl := Option.some.inj hs
      exact ⟨h, rfl, rfl⟩
  | snprintf e text len context =>
    obtain ⟨s', hs', rfl⟩ := Option.map_eq_some_iff.mp hs
    obtain ⟨hcalloc, hcontext⟩ := h
    cases text with
    | some a =>
      obtain ⟨rfl, rfl⟩ := hcontext
      rw [setText_of_calloc hcalloc] at hs'
      exact Option.map_eq_some_iff.mpr ⟨s', hs', rfl⟩
    | none =>
      obtain rfl := Option.some.inj hcalloc
      obtain ⟨rfl, rfl⟩ := hcontext
      exact setContext_none hs'
  | callocNode e text context =>
    obtain ⟨s', hs', rfl⟩ := Option.map_eq_some_iff.mp hs
    exact ⟨s, h, hs'⟩
  | testNode p context =>
    obtain rfl := Option.some.inj hs
    obtain ⟨t₁, hplaced⟩ := h
    exact ⟨t₁, hplaced, by rw [placeIn, (static_of_callCalloc hplaced.2).2.1]⟩
  | setNext p context place =>
    obtain ⟨t₁, hplaced, hplace⟩ := h
    cases place with
    | none =>
      obtain rfl := Option.some.inj hs
      refine ⟨context, t₁, hplaced.1, ?_⟩
      rw [placeIn] at hplace
      split_ifs at hplace with hnode
      have hcalloc := hplaced.2
      rw [← hplace] at hcalloc ⊢
      obtain rfl := Option.some.inj hcalloc
      exact if_neg fun hnone => hnode ⟨hplace.symm, hnone⟩
    | some a =>
      obtain rfl := Option.some.inj hs
      exact ⟨t₁, hplaced, hplace, (static_of_callCalloc hplaced.2).1⟩
  | setHead p context place ec_next =>
    obtain rfl := Option.some.inj hs
    obtain ⟨t₁, hplaced, hplace, hnext⟩ := h
    exact ⟨t₁, s, hplaced, hplace, hnext, rfl⟩
  | setNode p context place ec_next =>
    obtain ⟨s', hs', rfl⟩ := Option.map_eq_some_iff.mp hs
    obtain ⟨t₁, s₁, ⟨hcontext, hcalloc⟩, hplace, rfl, rfl⟩ := h
    refine ⟨context, t₁, hcontext, ?_⟩
    cases hnode : p.node with
    | some a =>
      simp only [placeIn, hnode, reduceCtorEq, false_and, if_false, Option.some.injEq] at hplace
      rw [hnode] at hcalloc
      rw [hplace, addNode_of_calloc hcalloc] at hs'
      exact hs'
    | none =>
      rw [hnode] at hcalloc
      obtain rfl := Option.some.inj hcalloc
      rw [placeIn, hnode] at hplace
      split_ifs at hplace with hnone
      obtain rfl := Option.some.inj hplace
      exact (if_pos hnone.2).trans hs'
  | testAtexit p =>
    obtain rfl := Option.some.inj hs
    obtain ⟨context, t₁, hcontext, hnode⟩ := h
    dsimp only [At]
    rw [ec_push, hcontext, Option.bind_eq_bind, Option.bind_some]
    exact Option.bind_eq_some_iff.mpr ⟨s, hnode, rfl⟩
  | _ => exact absurd hs.symm (Option.some_ne_none r)

/-- A statement of `ec_print`. -/
theorem insidePrint (h : c.At syserrmsgtype t s) (hs : c.insidePrint syserrmsgtype s = some r)
    (hshown : ec_print t syserrmsgtype ≠ none) : r.1.At syserrmsgtype t r.2 := by
  cases c with
  | printInit =>
    obtain rfl := h
    obtain rfl := Option.some.inj hs
    refine ⟨rfl, s.fuel, ?_⟩
    simp [ec_print]
  | printLoop e level shown =>
    obtain ⟨rfl, fuel, hfuel⟩ := h
    -- The fuel is not used up, since the loop has an end.
    cases fuel with
    | zero => exact absurd hfuel.symm hshown
    | succ fuel =>
      cases e with
      | none =>
        obtain rfl := Option.some.inj hs
        refine ⟨rfl, hfuel.symm.trans ?_⟩
        simp [traverse, lines]
      | some a =>
        obtain ⟨e, he, hs⟩ := Option.bind_eq_some_iff.mp hs
        obtain ⟨context, hcontext, hs⟩ := Option.bind_eq_some_iff.mp hs
        obtain rfl := Option.some.inj hs
        refine ⟨rfl, fuel, ?_⟩
        rw [← hfuel, traverse, he]
        cases hnodes : traverse s fuel e.ec_next with
        | none => simp [hnodes]
        | some nodes =>
          cases hlines : lines s syserrmsgtype (level + 1) nodes with
          | none => simp [hnodes, lines, hcontext, hlines]
          | some rest => simp [hnodes, lines, hcontext, hlines]
  | _ => exact absurd hs.symm (Option.some_ne_none r)

/-- A statement of `ec_reinit`. -/
theorem insideReinit (h : c.At syserrmsgtype t s) (hs : c.insideReinit s = some r)
    (hreleased : releaseAll t.fuel t t.ec_head ≠ none) : r.1.At syserrmsgtype t r.2 := by
  cases c with
  | reinitInit =>
    obtain rfl := h
    obtain rfl := Option.some.inj hs
    exact ⟨s.fuel, rfl⟩
  | reinitLoop e =>
    obtain ⟨fuel, hfuel⟩ := h
    cases fuel with
    | zero => exact absurd hfuel.symm hreleased
    | succ fuel =>
      cases e with
      | none =>
        obtain rfl := Option.some.inj hs
        exact hfuel.symm
      | some a =>
        obtain ⟨e, he, hs⟩ := Option.bind_eq_some_iff.mp hs
        obtain rfl := Option.some.inj hs
        refine ⟨fuel, e, he, rfl, ?_⟩
        rw [← hfuel, releaseAll, he]
        rfl
  | freeContext a e_next =>
    obtain ⟨fuel, e, he, rfl, hfuel⟩ := h
    obtain ⟨e', he', hs⟩ := Option.bind_eq_some_iff.mp hs
    obtain rfl := Option.some.inj hs
    obtain rfl := Option.some.inj (he.symm.trans he')
    exact ⟨fuel, hfuel⟩
  | freeNode a e_next =>
    obtain ⟨fuel, hfuel⟩ := h
    obtain rfl := Option.some.inj hs
    exact ⟨fuel, hfuel⟩
  | resetHead =>
    obtain rfl := Option.some.inj hs
    exact ⟨s, h, rfl⟩
  | resetNode =>
    obtain rfl := Option.some.inj hs
    obtain ⟨s₁, hs₁, rfl⟩ := h
    exact ⟨s₁, hs₁, rfl⟩
  | resetText =>
    obtain rfl := Option.some.inj hs
    obtain ⟨s₁, hs₁, rfl⟩ := h
    exact Option.bind_eq_some_iff.mpr ⟨s₁, hs₁, rfl⟩
  | _ => exact absurd hs.symm (Option.some_ne_none r)

/-- A statement of a section. -/
theorem inside (h : c.At syserrmsgtype t s) (hs : c.inside syserrmsgtype b s = some r)
    (hshown : ec_print t syserrmsgtype ≠ none) (hreleased : releaseAll t.fuel t t.ec_head ≠ none) :
    r.1.At syserrmsgtype t r.2 := by
  cases c with
  | printInit | printLoop => exact h.insidePrint hs hshown
  | reinitInit | reinitLoop | freeContext | freeNode | resetHead | resetNode | resetText =>
    exact h.insideReinit hs hreleased
  | _ => exact h.insidePush (b := b) hs

/-- A section has come to its end, or can go on. -/
theorem exists_inside (h : c.At syserrmsgtype t s) (hshown : ec_print t syserrmsgtype ≠ none)
    (hreleased : releaseAll t.fuel t t.ec_head ≠ none) :
    c.leave ≠ none ∨ ∃ b r, c.inside syserrmsgtype b s = some r := by
  cases c with
  | idle | lock | atexit => exact h.elim
  | unlockPush | unlockPrint | unlockReinit => exact Or.inl (Option.some_ne_none _)
  | callocText | callocNode => exact Or.inr ⟨.calloc none, _, rfl⟩
  | testText e text => cases text <;> exact Or.inr ⟨.go, _, rfl⟩
  | setNext p context place => cases place <;> exact Or.inr ⟨.go, _, rfl⟩
  | testNode | setHead | testAtexit | printInit | reinitInit | freeNode | resetHead | resetNode
  | resetText => exact Or.inr ⟨.go, _, rfl⟩
  | snprintf e text len context =>
    obtain ⟨hcalloc, hcontext⟩ := h
    refine Or.inr ⟨.go, ?_⟩
    obtain ⟨s', hs'⟩ : ∃ s', s.setText context (UnixStudy.snprintf len e.context).2 = some s' := by
      cases text with
      | some a =>
        obtain ⟨rfl, rfl⟩ := hcontext
        rw [setText_of_calloc hcalloc]
        exact exists_calloc hcalloc _
      | none =>
        rw [hcontext.2, State.setText]
        split_ifs <;> simp_all
    exact ⟨_, Option.map_eq_some_iff.mpr ⟨s', hs', rfl⟩⟩
  | setNode p context place ec_next =>
    obtain ⟨t₁, s₁, ⟨-, hcalloc⟩, hplace, rfl, rfl⟩ := h
    refine Or.inr ⟨.go, ?_⟩
    obtain ⟨s', hs'⟩ : ∃ s', State.setNode { s₁ with ec_head := some place } place
        ⟨t₁.ec_head, p.error.errno_arg, p.error.type, some context⟩ = some s' := by
      rw [placeIn] at hplace
      split_ifs at hplace with hnone
      · obtain rfl := Option.some.inj hplace
        exact ⟨_, if_pos rfl⟩
      · rw [← hplace] at hcalloc
        rw [addNode_of_calloc hcalloc]
        obtain ⟨s', hs'⟩ := exists_calloc hcalloc
          (.node ⟨t₁.ec_head, p.error.errno_arg, p.error.type, some context⟩)
        exact ⟨_, Option.map_eq_some_iff.mpr ⟨s', hs', rfl⟩⟩
    exact ⟨_, Option.map_eq_some_iff.mpr ⟨s', hs', rfl⟩⟩
  | printLoop e level shown =>
    obtain ⟨rfl, fuel, hfuel⟩ := h
    cases e with
    | none => exact Or.inr ⟨.go, _, rfl⟩
    | some a =>
      -- Otherwise a call of `ec_print` would not come to its end.
      rw [← hfuel, Option.map_eq_none_iff.ne] at hshown
      cases fuel with
      | zero => exact absurd rfl hshown
      | succ fuel =>
        obtain ⟨ls, hls⟩ := Option.ne_none_iff_exists'.mp hshown
        obtain ⟨nodes, hnodes, hls⟩ := Option.bind_eq_some_iff.mp hls
        obtain ⟨e, he, hnodes⟩ := Option.bind_eq_some_iff.mp hnodes
        obtain ⟨rest, -, hnodes⟩ := Option.bind_eq_some_iff.mp hnodes
        obtain rfl := Option.some.inj hnodes
        obtain ⟨context, hcontext, -⟩ := Option.bind_eq_some_iff.mp hls
        exact Or.inr ⟨.go, _, Option.bind_eq_some_iff.mpr ⟨e, he,
          Option.bind_eq_some_iff.mpr ⟨context, hcontext, rfl⟩⟩⟩
  | reinitLoop e =>
    obtain ⟨fuel, hfuel⟩ := h
    cases e with
    | none => exact Or.inr ⟨.go, _, rfl⟩
    | some a =>
      rw [← hfuel] at hreleased
      cases fuel with
      | zero => exact absurd rfl hreleased
      | succ fuel =>
        obtain ⟨s', hs'⟩ := Option.ne_none_iff_exists'.mp hreleased
        obtain ⟨e, he, -⟩ := Option.bind_eq_some_iff.mp hs'
        exact Or.inr ⟨.go, _, Option.bind_eq_some_iff.mpr ⟨e, he, rfl⟩⟩
  | freeContext a e_next =>
    obtain ⟨fuel, e, he, -⟩ := h
    exact Or.inr ⟨.go, _, Option.bind_eq_some_iff.mpr ⟨e, he, rfl⟩⟩

end Place.At

end UnixStudy.Ec
