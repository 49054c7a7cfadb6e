import UnixStudy.Foundations.Allocations
import UnixStudy.Foundations.LinkedList
import UnixStudy.Foundations.Stacks
import Mathlib.Data.Multiset.AddSub

/-!
# A list shared by two threads

The main thread makes nodes and adds them to a list; another thread removes them, and waits while
there are none. All they do to the list they do in sections under a mutex, so a section is a step,
and the sections come in any order. A wait may return early; the thread then looks again whether
there is a node. The thread may be cancelled, once the main thread has added all of its nodes: a run
ends at the latest when this takes effect.

The list is a stack, whose history is what has been added and what has been printed.

## Main definitions

* `Node` : `struct node`.
* `State`, `step` : the two threads.
* `Refines` : the list as a stack.
* `OneAtATime` : the runs in which the list has one node at most when the thread removes one.

## Main results

* `Refines.step` : what a section does to the stack.
* `sections_end` : no section makes use of what is not in use.
* `nothing_lost` : what is on the list, in any run.
* `inOrder_iff` : when the numbers come in the order in which they were added.

## References

* `src/process/mut.c`, lines 7–13 and 20–55.
-/

namespace UnixStudy.Mut

/-- `struct node`. -/
structure Node where
  n_number : ℕ
  n_next : Option ℕ

/-- Whether the thread waits for a signal, or has been woken and will look at the list again. -/
inductive Thread
  | running
  | waiting
  | woken
  deriving DecidableEq

/-- `pthread_cond_signal`. -/
def Thread.signal : Thread → Thread
  | .running => .running
  | .waiting | .woken => .woken

/-- Memory, the list, the variables of the main thread, of which `p` is the node that it has made
and not added, the other thread, and what has been added and printed. -/
structure State where
  mem : Allocations Node
  head : Option ℕ
  i : ℕ
  p : Option ℕ
  thread : Thread
  added : List ℕ
  printed : List ℕ

/-- The beginning. -/
def start : State := ⟨.empty, none, 0, none, .running, [], []⟩

/-- The steps of the main thread are a call of `malloc`, which returns some address with some
contents, and its section. The other thread finds no node and waits, or removes a node; or its wait
returns early. -/
inductive Label
  | malloc (a : ℕ) (n_next : Option ℕ)
  | add
  | wait
  | remove
  | wake
  deriving DecidableEq

/-- A step, where the main thread adds `n` nodes. -/
def step (n : ℕ) (s : State) : Label → Option State
  | .malloc a n_next =>
    if s.i < n ∧ s.p = none then do
      let mem ← s.mem.malloc a ⟨s.i, n_next⟩
      some { s with mem := mem, p := some a }
    else none
  | .add => do
    let p ← s.p
    let node ← s.mem.cell p
    let mem ← s.mem.store p { node with n_next := s.head }
    some
      { s with
        mem := mem
        head := some p
        i := s.i + 1
        p := none
        thread := s.thread.signal
        added := s.added ++ [node.n_number] }
  | .wait =>
    if s.thread ≠ .waiting ∧ s.head = none then some { s with thread := .waiting } else none
  | .remove =>
    if s.thread ≠ .waiting then do
      let p ← s.head
      let node ← s.mem.cell p
      let mem ← s.mem.free p
      some
        { s with
          mem := mem
          head := node.n_next
          thread := .running
          printed := s.printed ++ [node.n_number] }
    else none
  | .wake => if s.thread = .waiting then some { s with thread := .woken } else none

/-- A step of one of the two threads. -/
abbrev Step (n : ℕ) (s : State) (l : Label) (s' : State) : Prop := step n s l = some s'

variable {n : ℕ} {s s' : State} {nodes : List (ℕ × Node)} {t : Stack ℕ} {ls : List Label}

/-! ### The list as a stack -/

/-- The nodes of the list, with their addresses. The node of the main thread is none of them, and
the numbers are given in order. -/
structure Holds (s : State) (nodes : List (ℕ × Node)) : Prop where
  linked : Linked Node.n_next s.mem.cell s.head nodes
  apart : ∀ p, s.p = some p → p ∉ nodes.map Prod.fst
  fresh : ∀ p, s.p = some p → ∃ n_next, s.mem.cell p = some ⟨s.i, n_next⟩
  added : s.added = List.range s.i

/-- The numbers of some nodes. -/
def numbers (nodes : List (ℕ × Node)) : List ℕ := nodes.map (·.2.n_number)

/-- The list is a stack of numbers, and what the threads have done is its history. -/
def Refines (s : State) (t : Stack ℕ) : Prop :=
  ∃ nodes, Holds s nodes ∧ t = ⟨numbers nodes, s.added, s.printed⟩

/-- What is done to the stack. -/
def Label.op : Label → Option Stack.Op
  | .add => some .push
  | .remove => some .pop
  | _ => none

theorem refines_start : Refines start .empty :=
  ⟨[], ⟨rfl, fun _ h => absurd h.symm (Option.some_ne_none _),
    fun _ h => absurd h.symm (Option.some_ne_none _), rfl⟩, rfl⟩

/-- Nothing on the list has the address of what is not in use. -/
theorem Holds.not_mem (h : Holds s nodes) {a : ℕ} (ha : s.mem.cell a = none) :
    a ∉ nodes.map Prod.fst := fun hmem => by
  obtain ⟨x, hx, rfl⟩ := List.mem_map.mp hmem
  exact Option.some_ne_none _ ((h.linked.mem_of_mem hx).symm.trans ha)

/-- The main thread makes a node. -/
theorem Holds.malloc (h : Holds s nodes) {a : ℕ} {q : Option ℕ}
    (hs : Step n s (.malloc a q) s') : Holds s' nodes ∧ s'.added = s.added ∧
      s'.printed = s.printed := by
  dsimp only [Step, step] at hs
  split_ifs at hs with hcond
  obtain ⟨mem, hmem, hs⟩ := Option.bind_eq_some_iff.mp hs
  obtain rfl := Option.some.inj hs
  obtain ⟨hfree, hcell⟩ := Allocations.malloc_eq_some hmem
  refine ⟨⟨?_, fun p hp => ?_, fun p hp => ⟨q, ?_⟩, h.added⟩, rfl, rfl⟩
  · exact hcell ▸ h.linked.update (h.not_mem hfree) _
  · exact Option.some.inj hp ▸ h.not_mem hfree
  · obtain rfl := Option.some.inj hp
    exact (congrFun hcell _).trans (Function.update_self ..)

/-- The main thread adds its node. -/
theorem Holds.add (h : Holds s nodes) (hs : Step n s .add s') : ∃ x, Holds s' (x :: nodes) ∧
    s'.added = s.added ++ [x.2.n_number] ∧ s'.printed = s.printed := by
  obtain ⟨p, hp, hs⟩ := Option.bind_eq_some_iff.mp hs
  obtain ⟨node, hnode, hs⟩ := Option.bind_eq_some_iff.mp hs
  obtain ⟨mem, hmem, hs⟩ := Option.bind_eq_some_iff.mp hs
  obtain rfl := Option.some.inj hs
  obtain ⟨q, hq⟩ := h.fresh p hp
  obtain rfl := Option.some.inj (hnode.symm.trans hq)
  obtain ⟨-, hcell⟩ := Allocations.store_eq_some hmem
  refine ⟨(p, ⟨s.i, s.head⟩), ⟨hcell ▸ h.linked.push (h.apart p hp) rfl, ?_, ?_, ?_⟩, rfl, rfl⟩
  · exact fun _ h => absurd h.symm (Option.some_ne_none _)
  · exact fun _ h => absurd h.symm (Option.some_ne_none _)
  · exact (congrArg (· ++ [s.i]) h.added).trans List.range_succ.symm

/-- The other thread removes a node. -/
theorem Holds.remove (h : Holds s nodes) (hs : Step n s .remove s') : ∃ x nodes',
    nodes = x :: nodes' ∧ Holds s' nodes' ∧ s'.added = s.added ∧
      s'.printed = s.printed ++ [x.2.n_number] := by
  dsimp only [Step, step] at hs
  split_ifs at hs with hcond
  obtain ⟨p, hp, hs⟩ := Option.bind_eq_some_iff.mp hs
  obtain ⟨node, hnode, hs⟩ := Option.bind_eq_some_iff.mp hs
  obtain ⟨mem, hmem, hs⟩ := Option.bind_eq_some_iff.mp hs
  obtain rfl := Option.some.inj hs
  obtain ⟨-, hcell⟩ := Allocations.free_eq_some hmem
  obtain ⟨nodes', rfl, hlinked⟩ := (hp ▸ h.linked).pop hnode
  refine ⟨(p, node), nodes', rfl, ⟨hcell ▸ hlinked, fun a ha => ?_, fun a ha => ?_, h.added⟩, rfl,
    rfl⟩
  · exact fun hmem => h.apart a ha (List.mem_cons_of_mem _ hmem)
  · obtain ⟨q, hq⟩ := h.fresh a ha
    have hne : a ≠ p := fun heq => h.apart a ha (heq ▸ List.mem_cons_self)
    exact ⟨q, (congrFun hcell a).trans ((Function.update_of_ne hne ..).trans hq)⟩

/-- The other thread waits, or its wait returns early. -/
theorem Holds.idle (h : Holds s nodes) {l : Label} (hl : l = .wait ∨ l = .wake)
    (hs : Step n s l s') : Holds s' nodes ∧ s'.added = s.added ∧ s'.printed = s.printed := by
  rcases hl with rfl | rfl
  all_goals
    dsimp only [Step, step] at hs
    split_ifs at hs
    obtain rfl := Option.some.inj hs
    exact ⟨⟨h.linked, h.apart, h.fresh, h.added⟩, rfl, rfl⟩

/-- A step does to the stack what its label says. -/
theorem Refines.step {l : Label} (h : Refines s t) (hs : Step n s l s') :
    ∃ t', Stack.StepOf Label.op t l t' ∧ Refines s' t' := by
  obtain ⟨nodes, h, rfl⟩ := h
  cases l with
  | malloc a q =>
    obtain ⟨h', hadded, hprinted⟩ := h.malloc hs
    exact ⟨_, .idle _, nodes, h', by rw [hadded, hprinted]⟩
  | add =>
    obtain ⟨x, h', hadded, hprinted⟩ := h.add hs
    exact ⟨_, .push x.2.n_number .., x :: nodes, h', by rw [hadded, hprinted]; rfl⟩
  | wait =>
    obtain ⟨h', hadded, hprinted⟩ := h.idle (.inl rfl) hs
    exact ⟨_, .idle _, nodes, h', by rw [hadded, hprinted]⟩
  | remove =>
    obtain ⟨x, nodes', rfl, h', hadded, hprinted⟩ := h.remove hs
    exact ⟨_, .pop .., nodes', h', by rw [hadded, hprinted]; rfl⟩
  | wake =>
    obtain ⟨h', hadded, hprinted⟩ := h.idle (.inr rfl) hs
    exact ⟨_, .idle _, nodes, h', by rw [hadded, hprinted]⟩

/-- A run of the threads is a run of a stack. -/
theorem refines_run (hrun : Run (Step n) start ls s) :
    ∃ t, Run (Stack.StepOf Label.op) .empty ls t ∧ Refines s t :=
  hrun.simulate refines_start fun _ _ _ _ h hs => h.step hs

/-! ### What is on the list -/

/-- No section makes use of what is not in use: the main thread can add its node, and the other
thread can remove a node if there is one. -/
theorem sections_end (hrun : Run (Step n) start ls s) :
    (s.p ≠ none → step n s .add ≠ none) ∧
      (s.head ≠ none → s.thread ≠ .waiting → step n s .remove ≠ none) := by
  obtain ⟨t, -, nodes, h, -⟩ := refines_run hrun
  refine ⟨fun hp => ?_, fun hhead hthread => ?_⟩
  · obtain ⟨p, hp⟩ := Option.ne_none_iff_exists'.mp hp
    obtain ⟨q, hq⟩ := h.fresh p hp
    obtain ⟨mem, hmem⟩ := Allocations.exists_store (hq ▸ Option.some_ne_none _) ⟨s.i, s.head⟩
    simp [step, hp, hq, hmem]
  · obtain ⟨p, hp⟩ := Option.ne_none_iff_exists'.mp hhead
    have hlinked := hp ▸ h.linked
    cases nodes with
    | nil => exact absurd hlinked (Option.some_ne_none p)
    | cons x nodes =>
      obtain rfl := Option.some.inj hlinked.1
      obtain ⟨mem, hmem⟩ := Allocations.exists_free (hlinked.2.1 ▸ Option.some_ne_none _)
      simp [step, hp, hthread, hlinked.2.1, hmem]

/-- **Nothing is lost or taken twice.** In every run, what has been added is what has been printed
together with what is on the list, whose nodes are at distinct addresses, are in use, and have not
been freed. -/
theorem nothing_lost (hrun : Run (Step n) start ls s) : ∃ nodes : List (ℕ × Node),
    Linked Node.n_next s.mem.cell s.head nodes ∧ (nodes.map Prod.fst).Nodup ∧
      (∀ x ∈ nodes, s.mem.cell x.1 = some x.2 ∧ s.mem.call x.1 ∉ s.mem.freed) ∧
        (s.added : Multiset ℕ) = s.printed + numbers nodes := by
  obtain ⟨t, ht, nodes, h, rfl⟩ := refines_run hrun
  refine ⟨nodes, h.linked, h.linked.nodup, fun x hx => ?_, ?_⟩
  · have hcell := h.linked.mem_of_mem hx
    exact ⟨hcell, s.mem.not_freed x.1 (hcell ▸ Option.some_ne_none _)⟩
  · rw [Multiset.coe_add, Multiset.coe_eq_coe]
    exact Stack.perm ht

/-- The thread waits, and returns early. Of the first two numbers it prints the second one, and the
address of its node is then returned by `malloc` again. -/
def sample : List Label :=
  [.wait, .malloc 8 none, .wake, .add, .malloc 16 (some 4), .add, .remove, .malloc 16 none]

theorem exists_sample : ∃ s, Run (Step 10) start sample s ∧ s.added = [0, 1] ∧ s.printed = [1] := by
  have hrun : (sample.foldlM (step 10) start).map (fun s => (s.added, s.printed)) =
      some ([0, 1], [1]) := rfl
  obtain ⟨s, hs, hshows⟩ := Option.map_eq_some_iff.mp hrun
  exact ⟨s, .of_foldlM hs, Prod.mk.inj hshows⟩

theorem nothing_lost_sample : ∃ s, Run (Step 10) start sample s ∧ s.added = [0, 1] ∧
    s.printed = [1] ∧ ∃ nodes : List (ℕ × Node),
      Linked Node.n_next s.mem.cell s.head nodes ∧ (nodes.map Prod.fst).Nodup ∧
        (∀ x ∈ nodes, s.mem.cell x.1 = some x.2 ∧ s.mem.call x.1 ∉ s.mem.freed) ∧
          (s.added : Multiset ℕ) = s.printed + numbers nodes := by
  obtain ⟨s, hrun, hadded, hprinted⟩ := exists_sample
  exact ⟨s, hrun, hadded, hprinted, nothing_lost hrun⟩

/-! ### The order of the numbers -/

/-- Whenever the thread removes a node, the main thread has added one node more than it has removed:
there is one node. -/
def OneAtATime (ls : List Label) : Prop :=
  ∀ as bs, ls = as ++ .remove :: bs → as.count .add = as.count .remove + 1

theorem countP_op (ls : List Label) :
    ls.countP (·.op = some .push) = ls.count .add ∧
      ls.countP (·.op = some .pop) = ls.count .remove := by
  refine ⟨List.countP_congr fun l _ => ?_, List.countP_congr fun l _ => ?_⟩
  · cases l <;> simp [Label.op]
  · cases l <;> simp [Label.op]

theorem oneAtATime_iff : Stack.OneAtATime Label.op ls ↔ OneAtATime ls := by
  refine ⟨fun h as bs heq => ?_, fun h as l bs heq hl => ?_⟩
  · rw [← (countP_op as).1, ← (countP_op as).2]
    exact h as .remove bs heq rfl
  · rw [(countP_op as).1, (countP_op as).2]
    cases l with
    | remove => exact h as bs heq
    | malloc | add | wait | wake => simp [Label.op] at hl

/-- **The numbers come in the order in which they were added** if and only if the list never has two
nodes when the thread removes one. A node is added in front of the list, where the next one is
removed. -/
theorem inOrder_iff (hrun : Run (Step n) start ls s) :
    s.printed <+: s.added ↔ OneAtATime ls := by
  obtain ⟨t, ht, nodes, h, rfl⟩ := refines_run hrun
  have hnodup : s.added.Nodup := h.added ▸ List.nodup_range
  exact (Stack.prefix_iff ht hnodup).trans oneAtATime_iff

/-- Two nodes are added, and the second one is removed. -/
theorem not_inOrder : ∃ s, Run (Step 10) start sample s ∧ s.added = [0, 1] ∧ s.printed = [1] ∧
    ¬ s.printed <+: s.added := by
  obtain ⟨s, hrun, hadded, hprinted⟩ := exists_sample
  refine ⟨s, hrun, hadded, hprinted, ?_⟩
  rw [hadded, hprinted]
  decide

theorem inOrder_iff_sample : ∃ s, Run (Step 10) start sample s ∧
    (s.printed <+: s.added ↔ OneAtATime sample) := by
  obtain ⟨s, hrun, -⟩ := exists_sample
  exact ⟨s, hrun, inOrder_iff hrun⟩

end UnixStudy.Mut
