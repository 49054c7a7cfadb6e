import UnixStudy.Foundations.Runs
import UnixStudy.Ec.Trace

/-!
# What is on the trace

The calls of `ec_push` since the last call of `ec_reinit` say what is on the list: for each call,
newest first, where its node is and what it points to. A call is dropped if there is no block for
its node and an earlier call has taken the static one. The blocks that are in use are those of the
list, and the texts of the calls that were dropped.

## Main definitions

* `History` : the calls since the last call of `ec_reinit`, and the texts that no node points to.
* `Push.place`, `Push.contextAt` : where the node and the text of a call are.
* `entries`, `owned` : the nodes of the list, and the blocks of it.
* `Holds` : what the static variables and memory have to do with the calls.

## Main results

* `Holds.push` : what a call of `ec_push` does.
-/

namespace UnixStudy.Ec

open Smi (Bytes)

/-! ### The calls -/

namespace Push

variable (older : List Push) (p : Push)

/-- The address of the node of a call, if it has one. -/
def place : Option ℕ :=
  match p.node with
  | some b => some b
  | none => if ∀ q ∈ older, q.node ≠ none then some emergencyNode else none

/-- The address of the text of a call. -/
def contextAt : ℕ :=
  match p.text with
  | some a => a
  | none => if ∀ q ∈ older, q.text ≠ none then emergencyText else question

variable {older p} {a b : ℕ}

theorem place_of_some (h : p.node = some b) : p.place older = some b := by rw [place, h]

theorem place_of_first (h : p.node = none) (hall : ∀ q ∈ older, q.node ≠ none) :
    p.place older = some emergencyNode := by simp only [place, h, if_pos hall]

theorem place_of_not_first (h : p.node = none) (hall : ¬ ∀ q ∈ older, q.node ≠ none) :
    p.place older = none := by simp only [place, h, if_neg hall]

/-- The node of a call is a block, or the static one. -/
theorem node_of_place (h : p.place older = some a) :
    p.node = some a ∨ p.node = none ∧ a = emergencyNode := by
  cases hnode : p.node with
  | some b =>
    rw [place_of_some hnode] at h
    exact .inl h
  | none =>
    by_cases hall : ∀ q ∈ older, q.node ≠ none
    · rw [place_of_first hnode hall] at h
      exact .inr ⟨rfl, (Option.some.inj h).symm⟩
    · exact absurd (h.symm.trans (place_of_not_first hnode hall)) (Option.some_ne_none a)

theorem contextAt_of_some (h : p.text = some b) : p.contextAt older = b := by rw [contextAt, h]

theorem contextAt_of_first (h : p.text = none) (hall : ∀ q ∈ older, q.text ≠ none) :
    p.contextAt older = emergencyText := by simp only [contextAt, h, if_pos hall]

theorem contextAt_of_not_first (h : p.text = none) (hall : ¬ ∀ q ∈ older, q.text ≠ none) :
    p.contextAt older = question := by simp only [contextAt, h, if_neg hall]

end Push

/-- The nodes of the list with their addresses, for calls of which the last one is the first. -/
def entries : List Push → List (ℕ × Node)
  | [] => []
  | p :: older =>
    match p.place older with
    | some a =>
      (a, ⟨(entries older).head?.map Prod.fst, p.error.errno_arg, p.error.type,
        some (p.contextAt older)⟩) :: entries older
    | none => entries older

/-- The blocks of a call. -/
def Push.blocks (p : Push) : List ℕ := p.text.toList ++ p.node.toList

/-- The blocks of the calls that are on the list. -/
def owned : List Push → List ℕ
  | [] => []
  | p :: older => if p.place older = none then owned older else p.blocks ++ owned older

/-- The calls of `ec_push` since the last call of `ec_reinit`, the last one first, and the blocks
that no node points to. -/
structure History where
  period : List Push
  leaked : List ℕ

/-- What a section adds. -/
def History.next (h : History) : Label → History
  | .push p =>
    ⟨p :: h.period, if p.place h.period = none then p.blocks ++ h.leaked else h.leaked⟩
  | .print => h
  | .reinit => ⟨[], h.leaked⟩

/-- The history of a run. -/
def history (as : List Label) : History := as.foldl History.next ⟨[], []⟩

theorem history_append (as : List Label) (l : Label) :
    history (as ++ [l]) = (history as).next l := List.foldl_append ..

/-! ### Memory -/

section Memory

variable {s s' : State} {a : ℕ} {b : Block}

/-- What `calloc` does. -/
theorem calloc_eq_some (h : s.calloc a b = some s') : question < a ∧ s.mem.cell a = none ∧
    s'.mem.cell = Function.update s.mem.cell a (some b) ∧
      s' = { s with mem := s'.mem, calls := s.calls ++ [.malloc a] } := by
  unfold State.calloc at h
  split_ifs at h with ha
  obtain ⟨mem, hmem, rfl⟩ := Option.map_eq_some_iff.mp h
  obtain ⟨hnone, hcell⟩ := Allocations.malloc_eq_some hmem
  exact ⟨ha, hnone, hcell, rfl⟩

/-- What `free` does to what is in use. -/
theorem cell_free (ha : s.mem.cell a ≠ none) :
    (s.free (some a)).mem.cell = Function.update s.mem.cell a none := by
  obtain ⟨mem, hmem⟩ := Allocations.exists_free ha
  rw [State.free, Option.bind_some, hmem]
  exact (Allocations.free_eq_some hmem).2

/-- What `free` does to what is not in use: nothing. -/
theorem mem_free (ha : s.mem.cell a = none) : (s.free (some a)).mem = s.mem := by
  rw [State.free, Option.bind_some, Allocations.free, dif_neg (not_not.mpr ha)]
  rfl

theorem ne_static (ha : question < a) : a ≠ emergencyNode ∧ a ≠ emergencyText ∧ a ≠ question :=
  ⟨Nat.ne_of_gt (Nat.lt_trans (by decide) ha), Nat.ne_of_gt (Nat.lt_trans (by decide) ha),
    Nat.ne_of_gt ha⟩

/-- The nodes, when a block is used. -/
theorem nodeAt_update {c : Option Block} (ha : a ≠ emergencyNode)
    (hcell : s'.mem.cell = Function.update s.mem.cell a c)
    (hnode : s'.ec_node_emergency = s.ec_node_emergency) :
    s'.nodeAt = Function.update s.nodeAt a (c.bind Block.node?) := by
  funext b
  by_cases hb : b = a
  · rw [hb, Function.update_self, State.nodeAt, if_neg ha, hcell, Function.update_self]
  · rw [Function.update_of_ne hb, State.nodeAt, State.nodeAt, hcell, Function.update_of_ne hb,
      hnode]

/-- The nodes, when the static one is used. -/
theorem nodeAt_emergency {n : Node} (hcell : s'.mem.cell = s.mem.cell)
    (hnode : s'.ec_node_emergency = n) :
    s'.nodeAt = Function.update s.nodeAt emergencyNode (some n) := by
  funext b
  by_cases hb : b = emergencyNode
  · rw [hb, Function.update_self, State.nodeAt, if_pos rfl, hnode]
  · rw [Function.update_of_ne hb, State.nodeAt, State.nodeAt, if_neg hb, if_neg hb, hcell]

end Memory

/-! ### What is allocated -/

/-- Some blocks were allocated, in order, and nothing else has changed in memory. -/
structure Allocates (s : State) (bs : List ℕ) (s' : State) : Prop where
  nodup : bs.Nodup
  fresh : ∀ a ∈ bs, s.mem.cell a = none
  above : ∀ a ∈ bs, question < a
  cell : ∀ a, s'.mem.cell a ≠ none ↔ a ∈ bs ∨ s.mem.cell a ≠ none
  same : ∀ a, s.mem.cell a ≠ none → s'.mem.cell a = s.mem.cell a
  calls : s'.calls = s.calls ++ bs.map MemoryCall.malloc

namespace Allocates

variable {s s' s'' : State} {a : ℕ} {b : Block} {as bs : List ℕ}

theorem nil (hmem : s'.mem = s.mem) (hcalls : s'.calls = s.calls) : Allocates s [] s' where
  nodup := List.nodup_nil
  fresh _ h := absurd h List.not_mem_nil
  above _ h := absurd h List.not_mem_nil
  cell a := by rw [hmem, or_iff_right List.not_mem_nil]
  same a _ := by rw [hmem]
  calls := by rw [hcalls, List.map_nil, List.append_nil]

theorem of_calloc (h : s.calloc a b = some s') : Allocates s [a] s' := by
  obtain ⟨ha, hnone, hcell, hs'⟩ := calloc_eq_some h
  refine ⟨List.nodup_singleton a, ?_, ?_, fun c => ?_, fun c hc => ?_, by rw [hs']; rfl⟩
  · exact fun c hc => List.mem_singleton.mp hc ▸ hnone
  · exact fun c hc => List.mem_singleton.mp hc ▸ ha
  · rw [hcell, List.mem_singleton]
    by_cases hca : c = a
    · simp [hca]
    · simp [hca]
  · rw [hcell, Function.update_of_ne fun hca => hc ((congrArg _ hca).trans hnone)]

theorem trans (h : Allocates s as s') (h' : Allocates s' bs s'') :
    Allocates s (as ++ bs) s'' where
  nodup := List.nodup_append.mpr ⟨h.nodup, h'.nodup, fun a ha b hb heq =>
    (h.cell a).mpr (.inl ha) (heq ▸ h'.fresh b hb)⟩
  fresh a ha := by
    by_contra hne
    rcases List.mem_append.mp ha with ha | ha
    · exact hne (h.fresh a ha)
    · exact (h.cell a).mpr (.inr hne) (h'.fresh a ha)
  above a ha := (List.mem_append.mp ha).elim (h.above a) (h'.above a)
  cell a := by rw [h'.cell, h.cell, List.mem_append, or_left_comm, or_assoc]
  same a ha := (h'.same a ((h.cell a).mpr (.inr ha))).trans (h.same a ha)
  calls := by rw [h'.calls, h.calls, List.map_append, List.append_assoc]

/-- What is in use then. -/
theorem inUse (h : Allocates s bs s') (hcalled : ∀ a, s.mem.cell a ≠ none ↔ InUse s.calls a)
    (a : ℕ) : s'.mem.cell a ≠ none ↔ InUse s'.calls a := by
  rw [h.cell, h.calls, inUse_mallocs, hcalled]

end Allocates

/-! ### What the calls say -/

/-- What the static variables and memory have to do with the history. -/
structure Holds (s : State) (h : History) : Prop where
  linked : Linked Node.ec_next s.nodeAt s.ec_head (entries h.period)
  node : s.ec_node_emergency.ec_context = none ↔ ∀ q ∈ h.period, q.node ≠ none
  text : s.ec_s_emergency = [] ↔ ∀ q ∈ h.period, q.text ≠ none
  nodup : (owned h.period ++ h.leaked).Nodup
  inUse : ∀ a, s.mem.cell a ≠ none ↔ a ∈ owned h.period ++ h.leaked
  called : ∀ a, s.mem.cell a ≠ none ↔ InUse s.calls a
  above : ∀ a, s.mem.cell a ≠ none → question < a
  count : (owned h.period ++ h.leaked).length ≤ s.calls.length

theorem holds_start : Holds start ⟨[], []⟩ where
  linked := rfl
  node := iff_of_true rfl fun _ h => absurd h List.not_mem_nil
  text := iff_of_true rfl fun _ h => absurd h List.not_mem_nil
  nodup := List.nodup_nil
  inUse _ := iff_of_false (fun h => h rfl) List.not_mem_nil
  called _ := iff_of_false (fun h => h rfl) not_inUse_nil
  above _ h := absurd rfl h
  count := Nat.zero_le _

/-! ### `ec_push` -/

section Push

variable {s s' s'' : State} {h : History} {p : Push} {c : ℕ}

theorem context_ne_nil (e : Error) : (snprintf 100 e.context).2 ≠ [] := fun hnil => by
  rw [snprintf, List.take_eq_nil_iff] at hnil
  have hlength := congrArg List.length (hnil.resolve_left (by decide))
  simp [Error.context, SEP1] at hlength

/-- A block that was not in use holds no node. -/
theorem nodeAt_of_cell (ha : question < c) (hc : s.mem.cell c = none) : s.nodeAt c = none := by
  rw [State.nodeAt, if_neg (ne_static ha).1, hc, Option.bind_none]

/-- The text of a call is written. -/
theorem Holds.setContext (hh : Holds s h) (hs : s.setContext p.error p.text = some (c, s')) :
    Allocates s p.text.toList s' ∧ c = p.contextAt h.period ∧ s'.ec_head = s.ec_head ∧
      s'.ec_node_emergency = s.ec_node_emergency ∧
        Linked Node.ec_next s'.nodeAt s.ec_head (entries h.period) ∧
          (s'.ec_s_emergency = [] ↔ p.text ≠ none ∧ s.ec_s_emergency = []) := by
  cases htext : p.text with
  | some a =>
    rw [htext] at hs
    obtain ⟨s₁, hcalloc, heq⟩ := Option.map_eq_some_iff.mp hs
    obtain ⟨rfl, rfl⟩ := Prod.mk.inj heq
    obtain ⟨ha, hnone, hcell, hs₁⟩ := calloc_eq_some hcalloc
    refine ⟨.of_calloc hcalloc, (Push.contextAt_of_some htext).symm, by rw [hs₁], by rw [hs₁], ?_,
      by rw [hs₁]; simp⟩
    rw [nodeAt_update (ne_static ha).1 hcell (by rw [hs₁])]
    exact hh.linked.update (hh.linked.not_mem (nodeAt_of_cell ha hnone)) _
  | none =>
    rw [htext, State.setContext] at hs
    split_ifs at hs with hempty
    · obtain ⟨rfl, rfl⟩ := Prod.mk.inj (Option.some.inj hs)
      refine ⟨.nil rfl rfl, (Push.contextAt_of_first htext (hh.text.mp hempty)).symm, rfl, rfl,
        hh.linked, ?_⟩
      simp [context_ne_nil]
    · obtain ⟨rfl, rfl⟩ := Prod.mk.inj (Option.some.inj hs)
      refine ⟨.nil rfl rfl, (Push.contextAt_of_not_first htext (hempty ∘ hh.text.mpr)).symm, rfl,
        rfl, hh.linked, ?_⟩
      simp [hempty]

/-- The nodes of a list have contexts. -/
theorem context_of_mem_entries {ps : List Push} {x : ℕ × Node} (hx : x ∈ entries ps) :
    x.2.ec_context ≠ none := by
  induction ps with
  | nil => exact absurd hx List.not_mem_nil
  | cons p ps ih =>
    rw [entries] at hx
    split at hx
    · rcases List.mem_cons.mp hx with rfl | hx
      · exact Option.some_ne_none _
      · exact ih hx
    · exact ih hx

/-- The static node is not on a list while it has no context. -/
theorem emergencyNode_not_mem {ps : List Push}
    (hlinked : Linked Node.ec_next s.nodeAt s.ec_head (entries ps))
    (hnode : s.ec_node_emergency.ec_context = none) :
    emergencyNode ∉ (entries ps).map Prod.fst := fun hmem => by
  obtain ⟨x, hx, hx0⟩ := List.mem_map.mp hmem
  have hat := hx0 ▸ hlinked.mem_of_mem hx
  rw [State.nodeAt, if_pos rfl] at hat
  exact context_of_mem_entries hx (Option.some.inj hat ▸ hnode)

/-- The node of a call is added. -/
theorem addNode_spec {ps : List Push}
    (hlinked : Linked Node.ec_next s.nodeAt s.ec_head (entries ps))
    (hnode : s.ec_node_emergency.ec_context = none ↔ ∀ q ∈ ps, q.node ≠ none)
    (hs : s.addNode p.error (p.contextAt ps) p.node = some s') :
    Allocates s p.node.toList s' ∧ s'.ec_s_emergency = s.ec_s_emergency ∧
      Linked Node.ec_next s'.nodeAt s'.ec_head (entries (p :: ps)) ∧
        (s'.ec_node_emergency.ec_context = none ↔
          p.node ≠ none ∧ s.ec_node_emergency.ec_context = none) := by
  rw [entries]
  cases hp : p.node with
  | some b =>
    rw [hp] at hs
    rw [Push.place_of_some hp]
    obtain ⟨s₁, hcalloc, rfl⟩ := Option.map_eq_some_iff.mp hs
    obtain ⟨hb, hnone, hcell, hs₁⟩ := calloc_eq_some hcalloc
    have halloc := Allocates.of_calloc hcalloc
    refine ⟨⟨halloc.nodup, halloc.fresh, halloc.above, halloc.cell, halloc.same, halloc.calls⟩,
      by rw [hs₁], ?_, by rw [hs₁]; simp⟩
    have hat : State.nodeAt { s₁ with ec_head := some b } = Function.update s.nodeAt b _ :=
      nodeAt_update (ne_static hb).1 hcell (by rw [hs₁])
    rw [hat, ← hlinked.eq_head?]
    exact hlinked.push (hlinked.not_mem (nodeAt_of_cell hb hnone)) rfl
  | none =>
    rw [hp, State.addNode] at hs
    split_ifs at hs with hempty
    · obtain rfl := Option.some.inj hs
      refine ⟨.nil rfl rfl, rfl, ?_, by simp⟩
      set node : Node := ⟨s.ec_head, p.error.errno_arg, p.error.type, some (p.contextAt ps)⟩
      have hat : State.nodeAt
          { s with ec_node_emergency := node, ec_head := some emergencyNode } = _ :=
        nodeAt_emergency (s := s) rfl rfl
      rw [Push.place_of_first hp (hnode.mp hempty), hat, ← hlinked.eq_head?]
      exact hlinked.push (emergencyNode_not_mem hlinked hempty) rfl
    · obtain rfl := Option.some.inj hs
      refine ⟨.nil rfl rfl, rfl, ?_, by simp [hempty]⟩
      rw [Push.place_of_not_first hp (hempty ∘ hnode.mpr)]
      exact hlinked

/-- The blocks of a call are with the others. -/
theorem perm_next_push : (owned (h.next (.push p)).period ++ (h.next (.push p)).leaked).Perm
    (p.blocks ++ (owned h.period ++ h.leaked)) := by
  rw [History.next, owned]
  split_ifs
  · exact List.perm_append_comm_assoc ..
  · rw [List.append_assoc]

/-- **A call of `ec_push`** keeps what the calls say. -/
theorem Holds.push (hh : Holds s h) (hs : Step s (.push p) s') :
    Holds s' (h.next (.push p)) ∧ Allocates s p.blocks s' := by
  obtain ⟨⟨c, s₁⟩, hcontext, hs⟩ := Option.bind_eq_some_iff.mp hs
  obtain ⟨s₂, hadd, hs⟩ := Option.bind_eq_some_iff.mp hs
  obtain rfl := Option.some.inj hs
  obtain ⟨halloc, rfl, hhead, hnode, hlinked, htext⟩ := hh.setContext hcontext
  obtain ⟨halloc', htext', hlinked', hnode'⟩ :=
    addNode_spec (hhead ▸ hlinked) (hnode ▸ hh.node) hadd
  have hblocks := halloc.trans halloc'
  have hall : Allocates s p.blocks { s₂ with attexit_called := true } :=
    ⟨hblocks.nodup, hblocks.fresh, hblocks.above, hblocks.cell, hblocks.same, hblocks.calls⟩
  refine ⟨⟨hlinked', ?_, ?_, ?_, fun a => ?_, fun a => ?_, fun a ha => ?_, ?_⟩, hall⟩
  · rw [hnode', hnode, hh.node, History.next, List.forall_mem_cons]
  · rw [htext', htext, hh.text, History.next, List.forall_mem_cons]
  · rw [perm_next_push.nodup_iff, List.nodup_append]
    refine ⟨hall.nodup, hh.nodup, fun a ha b hb heq => ?_⟩
    exact (hh.inUse b).mpr hb (heq ▸ hall.fresh a ha)
  · rw [hall.cell, perm_next_push.mem_iff, List.mem_append, hh.inUse]
  · exact hall.inUse hh.called a
  · rcases (hall.cell a).mp ha with ha | ha
    · exact hall.above a ha
    · exact hh.above a ha
  · have hlength := congrArg List.length hall.calls
    have hcount := hh.count
    rw [List.length_append, List.length_map] at hlength
    rw [perm_next_push.length_eq, List.length_append]
    omega

end Push

end UnixStudy.Ec
