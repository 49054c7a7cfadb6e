import UnixStudy.Foundations.Pipes
import UnixStudy.Mut.Cancel

/-!
# The program ends

The loop of the other thread is endless, and so the main thread cancels it before it joins it. The
cancellation takes effect where the thread waits or prints, which it does again and again. Each node
is taken from the list once, and where there is none the thread waits; so the number of statements
is bounded, apart from waits that return for no reason, and as long as the main thread has not
exited one of the threads can go on.

The program comes to its end unless the handler passes a pointer to `free` that is not one to free.

## Main definitions

* `Choice.isWake` : the steps at which a wait returns for no reason.
* `Program.measure` : how much is left to be done.
* `Program.Counts` : what the main thread knows of its loop.
* `Program.Frees` : what `p` happened to hold is one to free.

## Main results

* `Program.measure_step` : a statement leaves less to be done.
* `Program.exists_step` : before the main thread has exited, a thread can go on.
* `Program.crashed_iff` : when no wrong pointer has been passed to `free`.
* `Program.program_ends` : the bound, where a run is stuck, and that it can be completed.

## References

* `src/process/mut.c`, lines 20–62.
-/

namespace UnixStudy.Mut

/-- The wait returns for no reason. -/
def Choice.isWake : Choice → Bool
  | .wake => true
  | _ => false

/-- The main thread is in a turn of its loop. -/
def MainPc.inTurn : MainPc → Bool
  | .loop | .cancel | .join | .exited => false
  | _ => true

/-- How many statements the main thread has before it up to its loop, or to its end. The signal
counts for the statements of the thread that it wakes. -/
def MainPc.rank : MainPc → ℕ
  | .loop => 11
  | .malloc => 10
  | .number => 9
  | .lock => 8
  | .next => 7
  | .head => 6
  | .signal => 5
  | .cancel => 2
  | .unlock | .join => 1
  | .sleep | .exited => 0

/-- How many statements the thread has before it up to its wait, or until it takes a node, and one
for its end. -/
def ThreadPc.rank : ThreadPc → ℕ
  | .print => 7
  | .free => 6
  | .unlock => 5
  | .lock | .woken => 4
  | .test => 3
  | .wait | .take => 2
  | .blocked | .next => 1
  | .ended => 0

namespace Program

/-- How many nodes the thread has taken from the list. -/
def taken (s : Program) : ℕ := s.printed.length + if s.thread = .print then 1 else 0

/-- How much is left to be done, where the main thread adds `n` nodes. -/
def measure (n : ℕ) (s : Program) : ℕ :=
  s.main.rank + 12 * (n - s.i) + s.thread.rank +
    if s.thread = .ended then 0 else 7 * (n - s.taken)

variable {n : ℕ} {p : Option ℕ} {s s' : Program} {ls : List Choice} {l : Choice}

/-! ### The loop of the main thread -/

/-- There is a node to be added in a turn of the loop, and none after the loop. The main thread
joins a thread that it has cancelled, and exits when that has ended. While it has a node, it has the
address of it. -/
structure Counts (n : ℕ) (s : Program) : Prop where
  node : s.main.hasNode → s.mainP ≠ none
  lt : s.main.inTurn → s.i < n
  loop : s.main = .loop → s.i ≤ n
  done : s.main = .cancel ∨ s.main = .join ∨ s.main = .exited → s.i = n
  join : s.main = .join → s.cancelled
  exited : s.main = .exited → s.thread = .ended

namespace Counts

theorem start (p : Option ℕ) : (Program.start p).Counts n := by
  constructor <;> simp [Program.start, MainPc.hasNode, MainPc.inTurn]

/-- The main thread goes on in its turn. -/
theorem advance (h : s.Counts n) (hold : s.main.inTurn) (hnew : s'.main.inTurn) (hi : s'.i = s.i)
    (hnode : s'.main.hasNode → s'.mainP ≠ none) : s'.Counts n where
  node := hnode
  lt _ := hi ▸ h.lt hold
  loop hpc := by rw [hpc] at hnew; exact Bool.noConfusion hnew
  done hpc := by
    rcases hpc with hpc | hpc | hpc <;> rw [hpc] at hnew <;> exact Bool.noConfusion hnew
  join hpc := by rw [hpc] at hnew; exact Bool.noConfusion hnew
  exited hpc := by rw [hpc] at hnew; exact Bool.noConfusion hnew

/-- **A statement of the main thread.** -/
theorem mainStep (h : s.Counts n) (hs : s.mainStep n = some s') : s'.Counts n := by
  cases mainSteps hs with
  | again hpc hlt => constructor <;> simp [MainPc.hasNode, MainPc.inTurn, hlt]
  | done hpc hlt =>
    have hi : s.i = n := le_antisymm (h.loop hpc) (not_lt.mp hlt)
    constructor <;> simp [MainPc.hasNode, MainPc.inTurn, hi]
  | number hpc | lock hpc | next hpc | head hpc | wakes hpc | signals hpc | unlock hpc =>
    refine h.advance (by rw [hpc]; rfl) rfl rfl fun hnode => ?_
    first
      | exact h.node (by rw [hpc]; rfl)
      | exact Bool.noConfusion hnode
  | sleep hpc =>
    have hlt : s.i < n := h.lt (by rw [hpc]; rfl)
    constructor <;> simp [MainPc.hasNode, MainPc.inTurn, Nat.succ_le_of_lt hlt]
  | cancel hpc =>
    have hi : s.i = n := h.done (.inl hpc)
    constructor <;> simp [MainPc.hasNode, MainPc.inTurn, hi]
  | join hpc hended =>
    have hi : s.i = n := h.done (.inr (.inl hpc))
    constructor <;> simp [MainPc.hasNode, MainPc.inTurn, hi, hended]

/-- **Every step keeps it.** -/
theorem step (h : s.Counts n) (hs : Step n s l s') : s'.Counts n := by
  cases l with
  | malloc a node =>
    obtain ⟨hpc, mem, -, rfl⟩ := of_malloc hs
    exact h.advance (by rw [hpc]; rfl) rfl rfl fun _ => Option.some_ne_none a
  | main => exact h.mainStep (of_step hs).2
  | thread_func =>
    obtain ⟨hold, -⟩ := of_threadStep (of_step hs).2
    cases threadSteps (of_step hs).2 with
    | lock | empty | found | wait | take | next | print | free | unlock =>
      exact { h with exited := fun hpc => absurd (h.exited hpc) hold }
  | wake =>
    obtain ⟨hblocked, rfl⟩ := of_wake hs
    refine { h with exited := fun hpc => ?_ }
    exact ThreadPc.noConfusion (hblocked.symm.trans (h.exited hpc))
  | cancel =>
    obtain ⟨-, ⟨-, -, rfl⟩ | ⟨-, rfl⟩⟩ := of_cancel (of_step hs).2
    · exact { h with exited := fun _ => rfl }
    · exact { h with exited := fun _ => rfl }

end Counts

theorem counts (hrun : Run (Step n) (start p) ls s) : s.Counts n :=
  hrun.invariant (Counts.start p) fun _ _ _ h hs => h.step hs

/-! ### What is left to be done -/

/-- Where the main thread has added the node of this turn, it is in a turn. -/
theorem inTurn_of_hasAdded {pc : MainPc} (h : pc.hasAdded) : pc.inTurn := by
  cases pc <;> first | rfl | exact Bool.noConfusion h

/-- No more than `n` nodes are added. -/
theorem Counts.le (h : s.Counts n) : s.i ≤ n := by
  cases hpc : s.main with
  | loop => exact h.loop hpc
  | cancel | join | exited => exact (h.done (by simp [hpc])).le
  | malloc | number | lock | next | head | signal | unlock | sleep =>
    exact (h.lt (by rw [hpc]; rfl)).le

theorem Atomic.le {t : State} (h : s.Atomic n t) (hcounts : s.Counts n) : t.i ≤ n := by
  rw [h.i]
  split_ifs with hadded
  · exact Nat.succ_le_of_lt (hcounts.lt (inTurn_of_hasAdded hadded))
  · exact hcounts.le

/-- The thread has taken fewer nodes than there will be, where it is about to take one. -/
theorem taken_lt (hrun : Run (Step n) (start p) ls s) (hpc : s.thread = .next) : s.taken < n := by
  obtain ⟨ls', t, nodes, hrun', h, -⟩ := exists_atomic hrun (by simp [hpc])
  obtain ⟨t', hstack, nodes', ht', rfl⟩ := refines_run hrun'
  have hhead : t.head ≠ none := by
    rw [h.head, hpc]
    exact ((locked hrun).next hpc).1
  have hpos : 0 < (numbers nodes').length := by
    rw [numbers, List.length_map]
    refine List.length_pos_iff.mpr ?_
    rintro rfl
    exact hhead ht'.linked
  -- What has been printed and what is on the list is what has been added.
  have hlength : t.added.length = (t.printed ++ numbers nodes').length :=
    (Stack.perm hstack).length_eq
  rw [ht'.added, List.length_range, List.length_append] at hlength
  rw [taken, hpc, if_neg (by decide), h.printed (by rw [hpc]; rfl)]
  have hle : t.i ≤ n := h.le (counts hrun)
  omega

/-- A statement of the main thread leaves less to be done. -/
theorem measure_mainStep (hcounts : s.Counts n) (hs : s.mainStep n = some s') :
    measure n s' < measure n s := by
  cases mainSteps hs with
  | again hpc | done hpc | number hpc | lock hpc | next hpc | head hpc | signals hpc | unlock hpc
  | cancel hpc | join hpc =>
    simp [measure, taken, hpc, MainPc.rank]
  | wakes hpc hthread => simp [measure, taken, hpc, hthread, MainPc.rank, ThreadPc.rank]; omega
  | sleep hpc =>
    have hlt : s.i < n := hcounts.lt (by rw [hpc]; rfl)
    simp [measure, taken, hpc, MainPc.rank]
    omega

/-- A statement of the other thread leaves less to be done. -/
theorem measure_threadStep (hlt : s.thread = .next → s.taken < n) (hs : s.threadStep = some s') :
    measure n s' < measure n s := by
  cases threadSteps hs with
  | lock hpc =>
    rcases hpc with hpc | hpc
    · simp [measure, taken, hpc, ThreadPc.rank]
    · simp [measure, taken, hpc, ThreadPc.rank]
  | empty hpc | found hpc | wait hpc | take hpc | print hpc | free hpc | unlock hpc =>
    simp [measure, taken, hpc, ThreadPc.rank, callFree]
  | next hpc =>
    have hlt := hlt hpc
    simp [taken, hpc] at hlt
    simp [measure, taken, hpc, ThreadPc.rank]
    omega

/-- A cancellation that takes effect leaves less to be done. -/
theorem measure_cancel (hs : s.cancel = some s') : measure n s' < measure n s := by
  obtain ⟨-, ⟨hpc, -, rfl⟩ | ⟨hpc, rfl⟩⟩ := of_cancel hs
  · rcases hpc with hpc | hpc
    · simp [measure, hpc, ThreadPc.rank, cleanupHandler, callFree]
      omega
    · simp [measure, hpc, ThreadPc.rank, cleanupHandler, callFree]
      omega
  · simp [measure, hpc, ThreadPc.rank, cleanupHandler, callFree]
    omega

/-- **A step leaves less to be done**, unless a wait returns for no reason. -/
theorem measure_step (hrun : Run (Step n) (start p) ls s) (hs : Step n s l s')
    (hl : l.isWake = false) : measure n s' < measure n s := by
  cases l with
  | malloc a node =>
    obtain ⟨hpc, mem, -, rfl⟩ := of_malloc hs
    simp [measure, taken, hpc, MainPc.rank]
  | main => exact measure_mainStep (counts hrun) (of_step hs).2
  | thread_func => exact measure_threadStep (taken_lt hrun) (of_step hs).2
  | wake => exact Bool.noConfusion hl
  | cancel => exact measure_cancel (of_step hs).2

/-- A wait that returns for no reason adds three statements to what is to be done. -/
theorem measure_wake (hs : Step n s .wake s') : measure n s' = measure n s + 3 := by
  obtain ⟨hpc, rfl⟩ := of_wake hs
  simp [measure, taken, hpc, ThreadPc.rank]
  omega

/-! ### Where a thread can go on -/

/-- Where the main thread writes to its node or reads it, the node is in use. -/
theorem exists_mainNode (hrun : Run (Step n) (start p) ls s)
    (hmain : s.main = .number ∨ s.main = .next ∨ s.main = .head) :
    ∃ a node, s.mainP = some a ∧ s.mem.cell a = some node := by
  have hended : s.thread ≠ .ended := fun hended => by
    have hjoin := (locked hrun).cancelled ((locked hrun).ended hended)
    rcases hmain with hpc | hpc | hpc <;> simp [hpc] at hjoin
  obtain ⟨ls', t, nodes, -, h, ht⟩ := exists_atomic hrun hended
  rcases hmain with hpc | hpc | hpc
  · obtain ⟨a, x, q, ha, -, hcell⟩ := h.number hpc
    exact ⟨a, _, ha, by rw [hcell, Function.update_self]⟩
  · obtain ⟨a, ha⟩ := Option.ne_none_iff_exists'.mp ((counts hrun).node (by rw [hpc]; rfl))
    have hp : t.p = some a := by rw [h.p, hpc, ← ha]; rfl
    obtain ⟨q, hq⟩ := ht.fresh a hp
    exact ⟨a, _, ha, by rw [h.cell (by simp [hpc]) (by simp [hpc]), hq]⟩
  · obtain ⟨a, ha, hcell⟩ := h.next hpc
    exact ⟨a, _, ha, by rw [hcell, Function.update_self]⟩

/-- Where the other thread follows the link of the first node, this is in use. -/
theorem exists_headNode (hrun : Run (Step n) (start p) ls s) (hpc : s.thread = .next) :
    ∃ a node, s.head = some a ∧ s.mem.cell a = some node := by
  obtain ⟨ls', t, nodes, -, h, ht⟩ := exists_atomic hrun (by simp [hpc])
  obtain ⟨a, ha⟩ := Option.ne_none_iff_exists'.mp ((locked hrun).next hpc).1
  have hhead : t.head = some a := by rw [h.head, hpc]; exact ha
  have hlinked := hhead ▸ ht.linked
  cases nodes with
  | nil => exact absurd hlinked (Option.some_ne_none a)
  | cons x nodes =>
    obtain rfl := Option.some.inj hlinked.1
    exact ⟨x.1, x.2, ha, h.cell_of_mem ht List.mem_cons_self⟩

/-- The main thread goes on, unless it has to wait for the mutex or for the other thread, and calls
`malloc` in a step of its own. -/
theorem exists_mainStep (hrun : Run (Step n) (start p) ls s) (hmalloc : s.main ≠ .malloc)
    (hlock : s.main = .lock → s.mtx = none) (hjoin : s.main = .join → s.thread = .ended)
    (hexited : s.main ≠ .exited) : ∃ s', s.mainStep n = some s' := by
  rw [mainStep]
  cases hpc : s.main with
  | loop | signal | unlock | sleep | cancel => exact ⟨_, rfl⟩
  | malloc => exact absurd hpc hmalloc
  | number =>
    obtain ⟨a, node, ha, hnode⟩ := exists_mainNode hrun (by simp [hpc])
    obtain ⟨mem, hmem⟩ := Allocations.exists_store
      (hnode ▸ Option.some_ne_none node : s.mem.cell a ≠ none) { node with n_number := s.i }
    exact ⟨_, by simp [ha, hnode, hmem]; rfl⟩
  | next =>
    obtain ⟨a, node, ha, hnode⟩ := exists_mainNode hrun (by simp [hpc])
    obtain ⟨mem, hmem⟩ := Allocations.exists_store
      (hnode ▸ Option.some_ne_none node : s.mem.cell a ≠ none) { node with n_next := s.head }
    exact ⟨_, by simp [ha, hnode, hmem]; rfl⟩
  | lock => exact ⟨_, if_pos (hlock hpc)⟩
  | head =>
    obtain ⟨a, node, ha, hnode⟩ := exists_mainNode hrun (by simp [hpc])
    exact ⟨_, by simp [ha, hnode]; rfl⟩
  | join => exact ⟨_, if_pos (hjoin hpc)⟩
  | exited => exact absurd hpc hexited

/-- The other thread goes on in its section. -/
theorem exists_threadStep (hrun : Run (Step n) (start p) ls s) (hin : s.thread.inSection) :
    ∃ s', s.threadStep = some s' := by
  rw [threadStep]
  cases hpc : s.thread with
  | lock | woken | blocked | ended =>
    rw [hpc] at hin
    exact Bool.noConfusion hin
  | test | wait | take | free | unlock => exact ⟨_, rfl⟩
  | next =>
    obtain ⟨a, node, ha, hnode⟩ := exists_headNode hrun hpc
    exact ⟨_, by simp [ha, hnode]; rfl⟩
  | print =>
    obtain ⟨ls', t, nodes, -, h, ht⟩ := exists_atomic hrun (by simp [hpc])
    obtain ⟨a, node, -, -, ha, hnode, -⟩ := h.exists_unlinked ht (by rw [hpc]; rfl)
    exact ⟨_, by simp [ha, hnode]; rfl⟩

/-- **Before the main thread has exited, a thread can go on**, and not only in that a wait returns
for no reason. -/
theorem exists_step (hrun : Run (Step n) (start p) ls s) (hcrashed : s.crashed = false)
    (hexited : s.main ≠ .exited) : ∃ l s', Step n s l s' ∧ l.isWake = false := by
  have hgo {l : Choice} {s' : Program} (hs : s.perform n l = some s') : Step n s l s' :=
    (if_neg (Bool.eq_false_iff.mp hcrashed)).trans hs
  by_cases hin : s.thread.inSection
  · obtain ⟨s', hs⟩ := exists_threadStep hrun hin
    exact ⟨.thread_func, s', hgo hs, rfl⟩
  -- Only the main thread may have the mutex now.
  have hmtx (hmain : s.main.inSection = false) : s.mtx = none := by
    cases hmtx : s.mtx with
    | none => rfl
    | some party =>
      cases party with
      | main => exact absurd ((locked hrun).main.mp hmtx) (Bool.eq_false_iff.mp hmain)
      | thread_func => exact absurd ((locked hrun).thread.mp hmtx) hin
  by_cases hmalloc : s.main = .malloc
  · obtain ⟨a, ha⟩ := s.mem.exists_cell_eq_none
    obtain ⟨mem, hmem⟩ := Allocations.exists_malloc ha (⟨0, none⟩ : Node)
    exact ⟨.malloc a ⟨0, none⟩, _, hgo (by simp [perform, hmalloc, hmem]; rfl), rfl⟩
  by_cases hjoin : s.main = .join → s.thread = .ended
  · have hlock : s.main = .lock → s.mtx = none := fun hpc => hmtx (by rw [hpc]; rfl)
    obtain ⟨s', hs⟩ := exists_mainStep hrun hmalloc hlock hjoin hexited
    exact ⟨.main, s', hgo hs, rfl⟩
  · -- The thread was cancelled, and is outside its section.
    push Not at hjoin
    obtain ⟨hpc, hended⟩ := hjoin
    have hmtx : s.mtx = none := hmtx (by rw [hpc]; rfl)
    have hcancelled : s.cancelled := (counts hrun).join hpc
    cases hthread : s.thread with
    | lock | woken =>
      exact ⟨.thread_func, _, hgo (by simp [perform, threadStep, hthread, hmtx]; rfl), rfl⟩
    | blocked =>
      exact ⟨.cancel, _, hgo (by simp [perform, cancel, hthread, hmtx, hcancelled]; rfl), rfl⟩
    | test | wait | take | next | print | free | unlock =>
      rw [hthread] at hin
      exact absurd rfl hin
    | ended => exact absurd hthread hended

/-- Nothing can go on when the main thread has exited. -/
theorem not_step (hcounts : s.Counts n) (hexited : s.main = .exited) : ¬ Step n s l s' := by
  have hended : s.thread = .ended := hcounts.exited hexited
  intro hs
  replace hs := (of_step hs).2
  cases l <;> simp [perform, mainStep, threadStep, cancel, hexited, hended] at hs

/-! ### The calls of `free` -/

/-- What `p` happened to hold is the null pointer, or the address of a node that is in use. -/
def Frees (p : Option ℕ) (s : Program) : Prop := ∀ a, p = some a → s.mem.cell a ≠ none

theorem crashed_callFree : (s.callFree p).crashed = false ↔ s.Frees p := by
  cases p with
  | none => exact iff_of_true rfl fun _ h => absurd h.symm (Option.some_ne_none _)
  | some a =>
    simp only [callFree, Frees, Option.isSome_some, Bool.true_and, Option.bind_some,
      Option.isNone_eq_false_iff, Option.some_inj, forall_eq']
    constructor
    · intro hsome
      obtain ⟨mem, hmem⟩ := Option.isSome_iff_exists.mp hsome
      exact (Allocations.free_eq_some hmem).1
    · intro hcell
      obtain ⟨mem, hmem⟩ := Allocations.exists_free hcell
      exact hmem ▸ rfl

/-- The main thread calls no `free`. -/
theorem crashed_mainStep (hs : s.mainStep n = some s') : s'.crashed = s.crashed := by
  cases mainSteps hs with
  | again | done | number | lock | next | head | wakes | signals | unlock | sleep | cancel | join =>
    rfl

/-- The thread frees what it has unlinked, which is in use. -/
theorem crashed_threadStep (hrun : Run (Step n) (start p) ls s) (hs : s.threadStep = some s')
    (hcrashed : s.crashed = false) : s'.crashed = false := by
  cases threadSteps hs with
  | lock | empty | found | wait | take | next | print | unlock => exact hcrashed
  | free hpc =>
    refine crashed_callFree.mpr fun b hb => ?_
    obtain ⟨a, ha, huse⟩ := exists_inUse hrun (by rw [hpc]; rfl)
    obtain rfl := Option.some.inj (ha.symm.trans hb)
    exact ((owns hrun).inUse a).mpr huse

/-- A step makes a wrong call of `free` only if it is the cancellation. -/
theorem crashed_step (hrun : Run (Step n) (start p) ls s) (hs : Step n s l s') :
    s'.crashed = false ↔ (l = .cancel → s.Frees p) := by
  obtain ⟨hcrashed, hgo⟩ := of_step hs
  cases l with
  | malloc a node =>
    obtain ⟨-, mem, -, rfl⟩ := of_malloc hs
    exact iff_of_true hcrashed fun h => Choice.noConfusion h
  | main =>
    exact iff_of_true ((crashed_mainStep hgo).trans hcrashed) fun h => Choice.noConfusion h
  | thread_func =>
    exact iff_of_true (crashed_threadStep hrun hgo hcrashed) fun h => Choice.noConfusion h
  | wake =>
    obtain ⟨-, rfl⟩ := of_wake hs
    exact iff_of_true hcrashed fun h => Choice.noConfusion h
  | cancel =>
    rw [forall_prop_of_true rfl, ← (owns hrun).arg]
    obtain ⟨-, ⟨-, -, rfl⟩ | ⟨-, rfl⟩⟩ := of_cancel hgo
    · exact crashed_callFree
    · exact crashed_callFree

/-- **No wrong pointer is passed to `free`** if and only if the cancellation takes effect where what
`p` happened to hold is one to free, if it takes effect at all. -/
theorem crashed_iff (hrun : Run (Step n) (start p) ls s) : s.crashed = false ↔
    ∀ as₁ l as₂, ls = as₁ ++ l :: as₂ → ∀ s₁, Run (Step n) (start p) as₁ s₁ →
      l = .cancel → s₁.Frees p := by
  refine hrun.iff_forall (fun s => ∃ ls, Run (Step n) (start p) ls s) (·.crashed = false)
    (fun s l => l = .cancel → s.Frees p) ⟨[], .refl⟩ rfl ?_ ?_
  · exact fun s l s' ⟨ls, hrun⟩ hs => ⟨ls ++ [l], hrun.tail hs⟩
  · rintro s l s' ⟨ls, hrun⟩ hs
    rw [and_iff_right (of_step hs).1]
    exact crashed_step hrun hs

/-! ### The end -/

/-- The main thread adds nothing after its loop. -/
theorem added_mainStep (hs : s.mainStep n = some s')
    (hpc : s.main = .cancel ∨ s.main = .join ∨ s.main = .exited) : s'.added = s.added := by
  cases mainSteps hs with
  | head hhead => simp [hhead] at hpc
  | again | done | number | lock | next | wakes | signals | unlock | sleep | cancel | join => rfl

/-- When the main thread has cancelled the other one, it has added all the nodes. -/
theorem added_eq (hrun : Run (Step n) (start p) ls s) (hpc : s.main = .join ∨ s.main = .exited) :
    s.added = List.range n := by
  induction hrun with
  | refl => simp [start] at hpc
  | @tail as l s s' hrun hs ih =>
    cases l with
    | malloc a node =>
      obtain ⟨-, mem, -, rfl⟩ := of_malloc hs
      simp at hpc
    | main =>
      have hcounts : s.Counts n := counts hrun
      have hgo : s.mainStep n = some s' := (of_step hs).2
      by_cases hcancel : s.main = .cancel
      · -- The thread has not ended, since it is not cancelled yet.
        have hended : s.thread ≠ .ended := fun hended => by
          have hjoin := (locked hrun).cancelled ((locked hrun).ended hended)
          simp [hcancel] at hjoin
        obtain ⟨ls', t, nodes, -, h, ht⟩ := exists_atomic hrun hended
        rw [added_mainStep hgo (.inl hcancel), h.added, ht.added, h.i, hcancel]
        exact congrArg List.range (hcounts.done (.inl hcancel))
      · have hjoin : s.main = .join ∨ s.main = .exited := by
          cases mainSteps hgo with
          | cancel hmain => exact absurd hmain hcancel
          | join hmain => exact .inl hmain
          | again | done | number | lock | next | head | wakes | signals | unlock | sleep =>
            simp at hpc
        rw [added_mainStep hgo (.inr hjoin), ih hjoin]
    | thread_func =>
      cases threadSteps (of_step hs).2 with
      | lock | empty | found | wait | take | next | print | free | unlock => exact ih hpc
    | wake =>
      obtain ⟨-, rfl⟩ := of_wake hs
      exact ih hpc
    | cancel =>
      obtain ⟨-, ⟨-, -, rfl⟩ | ⟨-, rfl⟩⟩ := of_cancel (of_step hs).2
      · exact ih hpc
      · exact ih hpc

/-- At the end the mutex is free. -/
theorem mtx_eq_none (h : s.Locked) (hexited : s.main = .exited) (hended : s.thread = .ended) :
    s.mtx = none := by
  cases hmtx : s.mtx with
  | none => rfl
  | some party =>
    cases party with
    | main =>
      have hin := h.main.mp hmtx
      rw [hexited] at hin
      exact Bool.noConfusion hin
    | thread_func =>
      have hin := h.thread.mp hmtx
      rw [hended] at hin
      exact Bool.noConfusion hin

/-- There is a run to the state. -/
def Reached (n : ℕ) (p : Option ℕ) (s : Program) : Prop := ∃ ls, Run (Step n) (start p) ls s

theorem Reached.step (h : Reached n p s) (hs : Step n s l s') : Reached n p s' := by
  obtain ⟨ls, hrun⟩ := h
  exact ⟨ls ++ [l], hrun.tail hs⟩

/-- The number of statements in a run, without the waits that return for no reason. -/
theorem countP_le (hrun : Run (Step n) (start p) ls s) :
    ls.countP (!·.isWake) ≤ 19 * n + 15 + 3 * ls.countP Choice.isWake := by
  have hmeasure : ∀ s l s', Reached n p s → Step n s l s' →
      measure n s' + (!l.isWake).toNat ≤ measure n s + 3 * (!!l.isWake).toNat := by
    rintro s l s' ⟨ls, hrun⟩ hs
    cases hl : l.isWake with
    | true =>
      cases l with
      | wake => exact (measure_wake hs).le
      | malloc | main | thread_func | cancel => exact Bool.noConfusion hl
    | false => exact Nat.succ_le_of_lt (measure_step hrun hs hl)
  have hle := hrun.countP_add_le_mul (!·.isWake) 3 ⟨[], .refl⟩ (fun _ _ _ => Reached.step) hmeasure
  have hwake : ls.countP (fun l => !!l.isWake) = ls.countP Choice.isWake := by
    simp only [Bool.not_not]
  have hstart : measure n (start p) = 11 + 12 * n + 4 + 7 * n := rfl
  rw [hwake, hstart] at hle
  omega

/-- A step, but not that a wait returns for no reason. -/
def Goes (n : ℕ) (s : Program) (l : Choice) (s' : Program) : Prop :=
  Step n s l s' ∧ l.isWake = false

/-- From every state the main thread can come to its end, or the handler makes a wrong call. -/
theorem exists_end (hrun : Run (Step n) (start p) ls s) :
    ∃ ls' s', Run (Goes n) s ls' s' ∧ (s'.main = .exited ∨ s'.crashed) := by
  have hmeasure : ∀ s l s', Reached n p s → Goes n s l s' → measure n s' < measure n s := by
    rintro s l s' ⟨ls, hrun⟩ hs
    exact measure_step hrun hs.1 hs.2
  refine Run.exists_completion ⟨ls, hrun⟩ (fun _ _ _ h hs => Reached.step h hs.1) hmeasure ?_
  rintro s ⟨ls, hrun⟩ hend
  rw [not_or, Bool.not_eq_true] at hend
  obtain ⟨l, s', hs, hl⟩ := exists_step hrun hend.2 hend.1
  exact ⟨l, s', hs, hl⟩

/-- **The program ends.** In a run there is a bounded number of statements, for the waits in it that
return for no reason. It is stuck when the main thread has exited, or a wrong pointer has been
passed to `free`, and only then; and until then it can be completed without a wait that returns for
no reason. No wrong pointer has been passed to `free` if and only if what `p` happened to hold was
null or the address of a node where the cancellation took effect. When the main thread has exited,
the other one has ended, the mutex is free, and all the nodes have been added. -/
theorem program_ends (hrun : Run (Step n) (start p) ls s) :
    ls.countP (!·.isWake) ≤ 19 * n + 15 + 3 * ls.countP Choice.isWake ∧
      (s.main = .exited ∨ s.crashed ↔ ∀ l s', Step n s l s' → l.isWake) ∧
      (∃ ls' s', Run (Goes n) s ls' s' ∧ (s'.main = .exited ∨ s'.crashed)) ∧
      (s.crashed = false ↔ ∀ as₁ l as₂, ls = as₁ ++ l :: as₂ → ∀ s₁,
        Run (Step n) (start p) as₁ s₁ → l = .cancel → s₁.Frees p) ∧
      (s.main = .exited → s.thread = .ended ∧ s.mtx = none ∧ s.added = List.range n) := by
  refine ⟨countP_le hrun, ⟨fun hend l s' hs => ?_, fun hstuck => ?_⟩, exists_end hrun,
    crashed_iff hrun, fun hexited => ?_⟩
  · rcases hend with hexited | hcrashed
    · exact absurd hs (not_step (counts hrun) hexited)
    · exact Bool.noConfusion ((of_step hs).1.symm.trans hcrashed)
  · by_contra hend
    rw [not_or, Bool.not_eq_true] at hend
    obtain ⟨l, s', hs, hl⟩ := exists_step hrun hend.2 hend.1
    rw [hstuck l s' hs] at hl
    exact Bool.noConfusion hl
  · have hended : s.thread = .ended := (counts hrun).exited hexited
    exact ⟨hended, mtx_eq_none (locked hrun) hexited hended, added_eq hrun (.inr hexited)⟩

/-- The thread is cancelled at `printf`, and the main thread exits. -/
def untilExit : List Choice := atPrintf ++ [.main]

set_option maxRecDepth 4000 in
/-- What `p` happened to hold is the address of the last node, which the thread has unlinked when it
is cancelled. -/
theorem program_ends_sample : ∃ s, Run (Step 10) (start (some 72)) untilExit s ∧
    s.main = .exited ∧ s.crashed = false ∧ s.thread = .ended ∧ s.mtx = none ∧
      s.added = List.range 10 := by
  have hrun : (untilExit.foldlM (step 10) (start (some 72))).map
      (fun s => (s.main, s.crashed)) = some (.exited, false) := rfl
  obtain ⟨s, hs, hshows⟩ := Option.map_eq_some_iff.mp hrun
  obtain ⟨hexited, hcrashed⟩ := Prod.mk.inj hshows
  have hrun : Run (Step 10) (start (some 72)) untilExit s := .of_foldlM hs
  exact ⟨s, hrun, hexited, hcrashed, (program_ends hrun).2.2.2.2 hexited⟩

end Program

end UnixStudy.Mut
