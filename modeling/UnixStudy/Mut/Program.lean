import UnixStudy.Foundations.Frees
import UnixStudy.Mut.Queue

/-!
# The statements of the two threads

Here each statement of the two threads is a step of its own, also in the sections under the mutex,
and the steps of the threads come in any order. To wait is to unlock the mutex and to be blocked, in
one step; a blocked thread is woken by a signal, or for no reason, and has then to lock the mutex
again. A signal while the thread is not blocked has no effect.

The main thread cancels the other one in the end. That takes effect when it would return from
`pthread_cond_wait`, with the mutex locked again, or at `printf`; instead of going on the thread
runs its cleanup handler. What is passed to the handler was fixed when the handler was pushed,
before the loop: it is what the variable `p` of the thread, which has no value yet, happens to hold.
The handler passes it to `free`, and C does not say what happens then if it is not the address of a
block in use: the program goes no further here.

There is always memory for a node.

## Main definitions

* `Program` : the state of the two threads.
* `Program.mainStep`, `Program.threadStep`, `Program.step` : the statements.
* `Program.Locked` : what the threads know at each statement.

## Main results

* `Program.of_malloc`, `Program.mainSteps`, `Program.threadSteps`, `Program.of_wake`,
  `Program.of_cancel` : what each step does.
* `Program.Locked.step` : the statements keep it.
* `Program.no_lost_wakeup` : while the thread is blocked and the main thread is not in its section,
  there is no node.

## References

* `src/process/mut.c`.
-/

namespace UnixStudy.Mut

/-- The next statement of `main`. -/
inductive MainPc
  | loop | malloc | number | lock | next | head | signal | unlock | sleep | cancel | join | exited
  deriving DecidableEq, Repr

/-- The main thread is in its section. -/
def MainPc.inSection : MainPc → Bool
  | .next | .head | .signal | .unlock => true
  | _ => false

/-- The next statement of `thread_func`, or that the thread is blocked in `pthread_cond_wait`, or
that it has been woken there. -/
inductive ThreadPc
  | lock | test | wait | blocked | woken | take | next | print | free | unlock | ended
  deriving DecidableEq, Repr

/-- The thread is in its section. -/
def ThreadPc.inSection : ThreadPc → Bool
  | .test | .wait | .take | .next | .print | .free | .unlock => true
  | _ => false

/-- A thread. -/
inductive Party
  | main
  | thread_func
  deriving DecidableEq, Repr

/-- Memory, with the calls of `malloc` and `free`; the list and the mutex; the main thread, with its
variables; the other thread, with its variable `p` and what was passed to `pthread_cleanup_push`;
whether it was cancelled; what has been added and printed; the node that the thread has unlinked and
not freed; for the call of the handler, if there was one, whether the thread had the mutex when it
was unlocked; and whether a pointer was passed to `free` that is not one to free. -/
structure Program where
  mem : Allocations Node
  calls : List MemoryCall
  head : Option ℕ
  mtx : Option Party
  main : MainPc
  i : ℕ
  mainP : Option ℕ
  thread : ThreadPc
  p : Option ℕ
  arg : Option ℕ
  cancelled : Bool
  added : List ℕ
  printed : List ℕ
  unlinked : Option ℕ
  handled : Option Bool
  crashed : Bool

namespace Program

/-- The beginning, where `p` holds what it happens to hold. -/
def start (p : Option ℕ) : Program :=
  ⟨.empty, [], none, none, .loop, 0, none, .lock, p, p, false, [], [], none, none, false⟩

variable (s : Program)

/-- The calls of `free`. Nothing is done for the null pointer. -/
def callFree (p : Option ℕ) : Program :=
  { s with
    mem := (p.bind s.mem.free).getD s.mem
    calls := s.calls ++ [.free p]
    unlinked := if p = s.unlinked then none else s.unlinked
    crashed := p.isSome && (p.bind s.mem.free).isNone }

/-- `cleanup_handler`, after which the thread ends. -/
def cleanupHandler : Program :=
  { s.callFree s.arg with
    mtx := none
    thread := .ended
    handled := some (s.mtx = some .thread_func) }

/-- The next statement of `main`, where `n` nodes are added. Its call of `malloc` is in `perform`.
-/
def mainStep (n : ℕ) : Option Program :=
  match s.main with
  | .loop => some { s with main := if s.i < n then .malloc else .cancel }
  | .malloc => none
  | .number => do
    let a ← s.mainP
    let node ← s.mem.cell a
    let mem ← s.mem.store a { node with n_number := s.i }
    some { s with mem := mem, main := .lock }
  | .lock => if s.mtx = none then some { s with mtx := some .main, main := .next } else none
  | .next => do
    let a ← s.mainP
    let node ← s.mem.cell a
    let mem ← s.mem.store a { node with n_next := s.head }
    some { s with mem := mem, main := .head }
  | .head => do
    let a ← s.mainP
    let node ← s.mem.cell a
    some { s with head := some a, main := .signal, added := s.added ++ [node.n_number] }
  | .signal =>
    some { s with thread := if s.thread = .blocked then .woken else s.thread, main := .unlock }
  | .unlock => some { s with mtx := none, main := .sleep }
  | .sleep => some { s with i := s.i + 1, main := .loop }
  | .cancel => some { s with cancelled := true, main := .join }
  | .join => if s.thread = .ended then some { s with main := .exited } else none
  | .exited => none

/-- The next statement of `thread_func`. -/
def threadStep : Option Program :=
  match s.thread with
  | .lock | .woken =>
    if s.mtx = none then some { s with mtx := some .thread_func, thread := .test } else none
  | .test => some { s with thread := if s.head = none then .wait else .take }
  | .wait => some { s with mtx := none, thread := .blocked }
  | .blocked => none
  | .take => some { s with p := s.head, thread := .next }
  | .next => do
    let a ← s.head
    let node ← s.mem.cell a
    some { s with head := node.n_next, unlinked := s.p, thread := .print }
  | .print => do
    let a ← s.p
    let node ← s.mem.cell a
    some { s with thread := .free, printed := s.printed ++ [node.n_number] }
  | .free => some { s.callFree s.p with thread := .unlock }
  | .unlock => some { s with mtx := none, thread := .lock }
  | .ended => none

/-- The cancellation takes effect. -/
def cancel : Option Program :=
  if s.cancelled then
    match s.thread with
    | .blocked | .woken =>
      if s.mtx = none then some { s with mtx := some .thread_func }.cleanupHandler else none
    | .print => some s.cleanupHandler
    | _ => none
  else none

end Program

/-- What happens next: `malloc` returns an address, with some contents, to the main thread; another
statement of one of the threads; a wait that ends for no reason; or that the cancellation takes
effect. -/
inductive Choice
  | malloc (a : ℕ) (node : Node)
  | main
  | thread_func
  | wake
  | cancel

namespace Program

/-- What happens next, where the main thread adds `n` nodes. -/
def perform (n : ℕ) (s : Program) : Choice → Option Program
  | .malloc a node =>
    if s.main = .malloc then do
      let mem ← s.mem.malloc a node
      some { s with mem := mem, calls := s.calls ++ [.malloc a], mainP := some a, main := .number }
    else none
  | .main => s.mainStep n
  | .thread_func => s.threadStep
  | .wake => if s.thread = .blocked then some { s with thread := .woken } else none
  | .cancel => s.cancel

/-- A step. There is none behind a wrong call of `free`. -/
def step (n : ℕ) (s : Program) (l : Choice) : Option Program :=
  if s.crashed then none else s.perform n l

/-- A step of the two threads. -/
abbrev Step (n : ℕ) (s : Program) (l : Choice) (s' : Program) : Prop := step n s l = some s'

/-! ### What the steps can do -/

section Steps

variable {n : ℕ} {s s' : Program}

/-- The program has not crashed where there is a step. -/
theorem of_step {l : Choice} (hs : Step n s l s') :
    s.crashed = false ∧ s.perform n l = some s' := by
  dsimp only [Step, step] at hs
  split_ifs at hs with hcrashed
  exact ⟨Bool.eq_false_iff.mpr hcrashed, hs⟩

/-- What a call of `malloc` does. -/
theorem of_malloc {a : ℕ} {node : Node} (hs : Step n s (.malloc a node) s') : s.main = .malloc ∧
    ∃ mem, s.mem.malloc a node = some mem ∧ s' = { s with
      mem := mem, calls := s.calls ++ [.malloc a], mainP := some a, main := .number } := by
  replace hs := (of_step hs).2
  dsimp only [perform] at hs
  split_ifs at hs with hpc
  obtain ⟨mem, hmem, hs⟩ := Option.bind_eq_some_iff.mp hs
  exact ⟨hpc, mem, hmem, (Option.some.inj hs).symm⟩

/-- When a wait ends for no reason. -/
theorem of_wake (hs : Step n s .wake s') :
    s.thread = .blocked ∧ s' = { s with thread := .woken } := by
  replace hs := (of_step hs).2
  dsimp only [perform] at hs
  split_ifs at hs with hpc
  exact ⟨hpc, (Option.some.inj hs).symm⟩

/-- Where and how a cancellation takes effect. -/
theorem of_cancel (hs : s.cancel = some s') : s.cancelled ∧
    ((s.thread = .blocked ∨ s.thread = .woken) ∧ s.mtx = none ∧
        s' = { s with mtx := some .thread_func }.cleanupHandler ∨
      s.thread = .print ∧ s' = s.cleanupHandler) := by
  rw [cancel] at hs
  by_cases hc : s.cancelled
  swap
  · rw [if_neg hc] at hs
    exact absurd hs.symm (Option.some_ne_none s')
  rw [if_pos hc] at hs
  refine ⟨hc, ?_⟩
  cases hpc : s.thread with
  | blocked | woken =>
    rw [hpc] at hs
    dsimp only at hs
    split_ifs at hs with hmtx
    exact .inl ⟨by simp, hmtx, (Option.some.inj hs).symm⟩
  | print =>
    rw [hpc] at hs
    exact .inr ⟨rfl, (Option.some.inj hs).symm⟩
  | lock | test | wait | take | next | free | unlock | ended =>
    rw [hpc] at hs
    exact absurd hs.symm (Option.some_ne_none s')

/-- The thread ends when the cancellation takes effect. -/
theorem thread_of_cancel (hs : s.cancel = some s') : s'.thread = .ended := by
  obtain ⟨-, ⟨-, -, rfl⟩ | ⟨-, rfl⟩⟩ := of_cancel hs
  · rfl
  · rfl

/-- What a statement of the main thread does. -/
inductive MainSteps (n : ℕ) (s : Program) : Program → Prop
  | again (hpc : s.main = .loop) (hlt : s.i < n) : MainSteps n s { s with main := .malloc }
  | done (hpc : s.main = .loop) (hlt : ¬ s.i < n) : MainSteps n s { s with main := .cancel }
  | number {a : ℕ} {node : Node} {mem : Allocations Node} (hpc : s.main = .number)
      (ha : s.mainP = some a) (hnode : s.mem.cell a = some node)
      (hmem : s.mem.store a { node with n_number := s.i } = some mem) :
      MainSteps n s { s with mem := mem, main := .lock }
  | lock (hpc : s.main = .lock) (hmtx : s.mtx = none) :
      MainSteps n s { s with mtx := some .main, main := .next }
  | next {a : ℕ} {node : Node} {mem : Allocations Node} (hpc : s.main = .next)
      (ha : s.mainP = some a) (hnode : s.mem.cell a = some node)
      (hmem : s.mem.store a { node with n_next := s.head } = some mem) :
      MainSteps n s { s with mem := mem, main := .head }
  | head {a : ℕ} {node : Node} (hpc : s.main = .head) (ha : s.mainP = some a)
      (hnode : s.mem.cell a = some node) :
      MainSteps n s
        { s with head := some a, main := .signal, added := s.added ++ [node.n_number] }
  | wakes (hpc : s.main = .signal) (hthread : s.thread = .blocked) :
      MainSteps n s { s with thread := .woken, main := .unlock }
  | signals (hpc : s.main = .signal) (hthread : s.thread ≠ .blocked) :
      MainSteps n s { s with main := .unlock }
  | unlock (hpc : s.main = .unlock) : MainSteps n s { s with mtx := none, main := .sleep }
  | sleep (hpc : s.main = .sleep) : MainSteps n s { s with i := s.i + 1, main := .loop }
  | cancel (hpc : s.main = .cancel) : MainSteps n s { s with cancelled := true, main := .join }
  | join (hpc : s.main = .join) (hended : s.thread = .ended) :
      MainSteps n s { s with main := .exited }

theorem mainSteps (hs : s.mainStep n = some s') : MainSteps n s s' := by
  rw [mainStep] at hs
  cases hpc : s.main with
  | loop =>
    rw [hpc] at hs
    obtain rfl := Option.some.inj hs
    by_cases hlt : s.i < n
    · rw [if_pos hlt]
      exact .again hpc hlt
    · rw [if_neg hlt]
      exact .done hpc hlt
  | malloc | exited =>
    rw [hpc] at hs
    exact absurd hs.symm (Option.some_ne_none s')
  | number =>
    rw [hpc] at hs
    obtain ⟨a, ha, hs⟩ := Option.bind_eq_some_iff.mp hs
    obtain ⟨node, hnode, hs⟩ := Option.bind_eq_some_iff.mp hs
    obtain ⟨mem, hmem, hs⟩ := Option.bind_eq_some_iff.mp hs
    obtain rfl := Option.some.inj hs
    exact .number hpc ha hnode hmem
  | lock =>
    rw [hpc] at hs
    dsimp only at hs
    split_ifs at hs with hmtx
    obtain rfl := Option.some.inj hs
    exact .lock hpc hmtx
  | next =>
    rw [hpc] at hs
    obtain ⟨a, ha, hs⟩ := Option.bind_eq_some_iff.mp hs
    obtain ⟨node, hnode, hs⟩ := Option.bind_eq_some_iff.mp hs
    obtain ⟨mem, hmem, hs⟩ := Option.bind_eq_some_iff.mp hs
    obtain rfl := Option.some.inj hs
    exact .next hpc ha hnode hmem
  | head =>
    rw [hpc] at hs
    obtain ⟨a, ha, hs⟩ := Option.bind_eq_some_iff.mp hs
    obtain ⟨node, hnode, hs⟩ := Option.bind_eq_some_iff.mp hs
    obtain rfl := Option.some.inj hs
    exact .head hpc ha hnode
  | signal =>
    rw [hpc] at hs
    obtain rfl := Option.some.inj hs
    by_cases hthread : s.thread = .blocked
    · rw [if_pos hthread]
      exact .wakes hpc hthread
    · rw [if_neg hthread]
      exact .signals hpc hthread
  | unlock =>
    rw [hpc] at hs
    exact Option.some.inj hs ▸ .unlock hpc
  | sleep =>
    rw [hpc] at hs
    exact Option.some.inj hs ▸ .sleep hpc
  | cancel =>
    rw [hpc] at hs
    exact Option.some.inj hs ▸ .cancel hpc
  | join =>
    rw [hpc] at hs
    dsimp only at hs
    split_ifs at hs with hended
    exact Option.some.inj hs ▸ .join hpc hended

/-- What a statement of the other thread does. -/
inductive ThreadSteps (s : Program) : Program → Prop
  | lock (hpc : s.thread = .lock ∨ s.thread = .woken) (hmtx : s.mtx = none) :
      ThreadSteps s { s with mtx := some .thread_func, thread := .test }
  | empty (hpc : s.thread = .test) (hhead : s.head = none) :
      ThreadSteps s { s with thread := .wait }
  | found (hpc : s.thread = .test) (hhead : s.head ≠ none) :
      ThreadSteps s { s with thread := .take }
  | wait (hpc : s.thread = .wait) : ThreadSteps s { s with mtx := none, thread := .blocked }
  | take (hpc : s.thread = .take) : ThreadSteps s { s with p := s.head, thread := .next }
  | next {a : ℕ} {node : Node} (hpc : s.thread = .next) (ha : s.head = some a)
      (hnode : s.mem.cell a = some node) :
      ThreadSteps s { s with head := node.n_next, unlinked := s.p, thread := .print }
  | print {a : ℕ} {node : Node} (hpc : s.thread = .print) (ha : s.p = some a)
      (hnode : s.mem.cell a = some node) :
      ThreadSteps s { s with thread := .free, printed := s.printed ++ [node.n_number] }
  | free (hpc : s.thread = .free) : ThreadSteps s { s.callFree s.p with thread := .unlock }
  | unlock (hpc : s.thread = .unlock) : ThreadSteps s { s with mtx := none, thread := .lock }

theorem threadSteps (hs : s.threadStep = some s') : ThreadSteps s s' := by
  rw [threadStep] at hs
  cases hpc : s.thread with
  | lock | woken =>
    rw [hpc] at hs
    dsimp only at hs
    split_ifs at hs with hmtx
    obtain rfl := Option.some.inj hs
    exact .lock (by simp [hpc]) hmtx
  | test =>
    rw [hpc] at hs
    obtain rfl := Option.some.inj hs
    by_cases hhead : s.head = none
    · rw [if_pos hhead]
      exact .empty hpc hhead
    · rw [if_neg hhead]
      exact .found hpc hhead
  | wait =>
    rw [hpc] at hs
    exact Option.some.inj hs ▸ .wait hpc
  | blocked | ended =>
    rw [hpc] at hs
    exact absurd hs.symm (Option.some_ne_none s')
  | take =>
    rw [hpc] at hs
    exact Option.some.inj hs ▸ .take hpc
  | next =>
    rw [hpc] at hs
    obtain ⟨a, ha, hs⟩ := Option.bind_eq_some_iff.mp hs
    obtain ⟨node, hnode, hs⟩ := Option.bind_eq_some_iff.mp hs
    exact Option.some.inj hs ▸ .next hpc ha hnode
  | print =>
    rw [hpc] at hs
    obtain ⟨a, ha, hs⟩ := Option.bind_eq_some_iff.mp hs
    obtain ⟨node, hnode, hs⟩ := Option.bind_eq_some_iff.mp hs
    exact Option.some.inj hs ▸ .print hpc ha hnode
  | free =>
    rw [hpc] at hs
    exact Option.some.inj hs ▸ .free hpc
  | unlock =>
    rw [hpc] at hs
    exact Option.some.inj hs ▸ .unlock hpc

/-- What a step of the main thread leaves to the other one; at most it ends its wait. -/
structure Leaves (s s' : Program) : Prop where
  thread : s'.thread = s.thread ∨ s.thread = .blocked ∧ s'.thread = .woken
  p : s'.p = s.p
  arg : s'.arg = s.arg
  unlinked : s'.unlinked = s.unlinked
  handled : s'.handled = s.handled

theorem Leaves.refl (s : Program) : Leaves s s := ⟨.inl rfl, rfl, rfl, rfl, rfl⟩

/-- The main thread leaves the other one as it is, does not call `free`, and calls `malloc` in a
step of its own. -/
theorem of_mainStep (hs : s.mainStep n = some s') : Leaves s s' ∧ s'.calls = s.calls ∧
    ∀ a, s'.mem.cell a ≠ none ↔ s.mem.cell a ≠ none := by
  cases mainSteps hs with
  | number hpc ha hnode hmem | next hpc ha hnode hmem =>
    exact ⟨{ Leaves.refl s with }, rfl, Allocations.store_cell_ne_none hmem⟩
  | wakes hpc hthread =>
    exact ⟨{ Leaves.refl s with thread := .inr ⟨hthread, rfl⟩ }, rfl, fun _ => Iff.rfl⟩
  | again | done | lock | head | signals | unlock | sleep | cancel | join =>
    exact ⟨{ Leaves.refl s with }, rfl, fun _ => Iff.rfl⟩

/-- With a statement the other thread does not end. -/
theorem of_threadStep (hs : s.threadStep = some s') : s.thread ≠ .ended ∧ s'.thread ≠ .ended := by
  cases threadSteps hs with
  | lock hpc hmtx => exact ⟨by rcases hpc with hpc | hpc <;> simp [hpc], ThreadPc.noConfusion⟩
  | empty hpc | found hpc | wait hpc | take hpc | next hpc | print hpc | free hpc | unlock hpc =>
    exact ⟨by simp [hpc], ThreadPc.noConfusion⟩

/-- The thread calls `free` in one place. -/
theorem calls_of_threadStep (hs : s.threadStep = some s') :
    s'.calls = s.calls ∨ s.thread = .free ∧ s'.calls = s.calls ++ [.free s.p] := by
  cases threadSteps hs with
  | free hpc => exact .inr ⟨hpc, rfl⟩
  | lock | empty | found | wait | take | next | print | unlock => exact .inl rfl

theorem Leaves.thread_eq_ended_iff (h : Leaves s s') : s'.thread = .ended ↔ s.thread = .ended := by
  rcases h.thread with hthread | ⟨hblocked, hwoken⟩
  · rw [hthread]
  · rw [hblocked, hwoken]
    exact iff_of_false ThreadPc.noConfusion ThreadPc.noConfusion

/-- The thread ends only when the cancellation takes effect. -/
theorem thread_eq_ended_iff {l : Choice} (hs : Step n s l s') (hl : l ≠ .cancel) :
    s'.thread = .ended ↔ s.thread = .ended := by
  cases l with
  | malloc a node =>
    obtain ⟨-, mem, -, rfl⟩ := of_malloc hs
    rfl
  | main => exact (of_mainStep (of_step hs).2).1.thread_eq_ended_iff
  | thread_func =>
    obtain ⟨hold, hnew⟩ := of_threadStep (of_step hs).2
    exact iff_of_false hnew hold
  | wake =>
    obtain ⟨hpc, rfl⟩ := of_wake hs
    rw [hpc]
    exact iff_of_false ThreadPc.noConfusion ThreadPc.noConfusion
  | cancel => exact absurd rfl hl

/-- The thread ends once. -/
theorem thread_ne_ended {l : Choice} (hs : Step n s l s') (hended : s'.thread ≠ .ended) :
    s.thread ≠ .ended := by
  by_cases hl : l = .cancel
  · subst hl
    exact absurd (thread_of_cancel (of_step hs).2) hended
  · exact fun h => hended ((thread_eq_ended_iff hs hl).mpr h)

end Steps

/-! ### What the threads know -/

/-- The mutex is locked by the thread that is in its section; while the other thread is blocked, and
the main thread is not about to signal, there is no node, and there is one where it takes it. -/
structure Locked (s : Program) : Prop where
  main : s.mtx = some .main ↔ s.main.inSection
  thread : s.mtx = some .thread_func ↔ s.thread.inSection
  blocked : s.thread = .blocked → s.main ≠ .signal → s.head = none
  wait : s.thread = .wait → s.head = none
  take : s.thread = .take → s.head ≠ none
  next : s.thread = .next → s.head ≠ none ∧ s.p = s.head
  cancelled : s.cancelled → s.main = .join ∨ s.main = .exited
  ended : s.thread = .ended → s.cancelled

namespace Locked

variable {s s' : Program} {n : ℕ}

theorem start (p : Option ℕ) : (Program.start p).Locked := by
  constructor <;> simp [Program.start, MainPc.inSection, ThreadPc.inSection]

/-- The threads are not in their sections at once. -/
theorem not_inSection (h : s.Locked) (hmain : s.main.inSection) : s.thread.inSection = false := by
  have hmtx := h.main.mpr hmain
  refine Bool.eq_false_iff.mpr fun hthread => ?_
  exact Party.noConfusion (Option.some.inj (hmtx.symm.trans (h.thread.mpr hthread)))

/-- Where the mutex is free, nobody is in a section. -/
theorem of_mtx_eq_none (h : s.Locked) (hmtx : s.mtx = none) :
    s.main.inSection = false ∧ s.thread.inSection = false := by
  refine ⟨Bool.eq_false_iff.mpr fun hmain => ?_, Bool.eq_false_iff.mpr fun hthread => ?_⟩
  · exact Option.some_ne_none _ ((h.main.mpr hmain).symm.trans hmtx)
  · exact Option.some_ne_none _ ((h.thread.mpr hthread).symm.trans hmtx)

/-! #### The main thread -/

/-- The main thread is not cancelled, and goes on, in its section or outside. -/
theorem advance (h : s.Locked) {pc : MainPc} (hpc : pc.inSection = s.main.inSection)
    (hsignal : s.main ≠ .signal) (hcancelled : s.main ≠ .join ∧ s.main ≠ .exited) :
    Locked { s with main := pc } :=
  { h with
    main := hpc ▸ h.main
    blocked := fun hblocked _ => h.blocked hblocked hsignal
    cancelled := fun hc => absurd (h.cancelled hc) (not_or.mpr hcancelled) }

/-- The main thread locks the mutex. -/
theorem mainLocks (h : s.Locked) (hpc : s.main = .lock) (hmtx : s.mtx = none) :
    Locked { s with mtx := some .main, main := .next } :=
  { h with
    main := iff_of_true rfl rfl
    thread := iff_of_false (Party.noConfusion <| Option.some.inj ·)
      (Bool.eq_false_iff.mp (h.of_mtx_eq_none hmtx).2)
    blocked := fun hblocked _ => h.blocked hblocked (by simp [hpc])
    cancelled := fun hc => absurd (h.cancelled hc) (by simp [hpc]) }

/-- There is a node now, which the main thread will signal. The other thread is not in its section,
where it might have seen that there was none. -/
theorem mainAdds (h : s.Locked) (hpc : s.main = .head) (head : Option ℕ) :
    Locked { s with head := head, main := .signal } := by
  have hthread := h.not_inSection (by rw [hpc]; rfl)
  have hout {pc : ThreadPc} (hin : pc.inSection = true) : s.thread ≠ pc := fun heq =>
    absurd (heq ▸ hthread) (by rw [hin]; decide)
  exact
    { h with
      main := iff_of_true (h.main.mpr (by rw [hpc]; rfl)) rfl
      blocked := fun _ hsignal => absurd rfl hsignal
      wait := fun hwait => absurd hwait (hout rfl)
      take := fun htake => absurd htake (hout rfl)
      next := fun hnext => absurd hnext (hout rfl)
      cancelled := fun hc => absurd (h.cancelled hc) (by simp [hpc]) }

/-- After the signal nobody is blocked. -/
theorem mainSignals (h : s.Locked) (hpc : s.main = .signal) {pc : ThreadPc}
    (hthread : pc = s.thread ∧ s.thread ≠ .blocked ∨ pc = .woken ∧ s.thread = .blocked) :
    Locked { s with thread := pc, main := .unlock } := by
  have hmain : s.mtx = some .main := h.main.mpr (by rw [hpc]; rfl)
  have hcancelled : s.cancelled = false := Bool.eq_false_iff.mpr fun hc =>
    absurd (h.cancelled hc) (by simp [hpc])
  obtain ⟨rfl, hblocked⟩ | ⟨rfl, -⟩ := hthread
  · exact
      { h with
        main := iff_of_true hmain rfl
        blocked := fun hb => absurd hb hblocked
        cancelled := fun hc => absurd hc (Bool.eq_false_iff.mp hcancelled) }
  · constructor <;> simp [hmain, hcancelled, MainPc.inSection, ThreadPc.inSection]

/-- The main thread unlocks the mutex. -/
theorem mainUnlocks (h : s.Locked) (hpc : s.main = .unlock) :
    Locked { s with mtx := none, main := .sleep } :=
  { h with
    main := iff_of_false (Option.some_ne_none _).symm Bool.false_ne_true
    thread := iff_of_false (Option.some_ne_none _).symm
      (Bool.eq_false_iff.mp (h.not_inSection (by rw [hpc]; rfl)))
    blocked := fun hblocked _ => h.blocked hblocked (by simp [hpc])
    cancelled := fun hc => absurd (h.cancelled hc) (by simp [hpc]) }

/-- **A statement of the main thread.** -/
theorem mainStep (h : s.Locked) (hs : s.mainStep n = some s') : s'.Locked := by
  cases mainSteps hs with
  | again hpc | done hpc | number hpc | next hpc | sleep hpc =>
    exact { h.advance (by rw [hpc]; rfl) (by simp [hpc]) (by simp [hpc]) with }
  | lock hpc hmtx => exact h.mainLocks hpc hmtx
  | head hpc => exact { h.mainAdds hpc _ with }
  | wakes hpc hthread => exact h.mainSignals hpc (.inr ⟨rfl, hthread⟩)
  | signals hpc hthread => exact h.mainSignals hpc (.inl ⟨rfl, hthread⟩)
  | unlock hpc => exact h.mainUnlocks hpc
  | cancel hpc =>
    exact
      { h with
        main := (hpc ▸ h.main :)
        blocked := fun hblocked _ => h.blocked hblocked (by simp [hpc])
        cancelled := fun _ => .inl rfl
        ended := fun _ => rfl }
  | join hpc =>
    exact
      { h with
        main := (hpc ▸ h.main :)
        blocked := fun hblocked _ => h.blocked hblocked (by simp [hpc])
        cancelled := fun _ => .inr rfl }

/-! #### The other thread -/

/-- Where the thread is in its section, the main thread is not in its own. -/
theorem main_inSection (h : s.Locked) (hthread : s.thread.inSection) : s.main.inSection = false :=
  Bool.eq_false_iff.mpr fun hmain => absurd hthread (Bool.eq_false_iff.mp (h.not_inSection hmain))

/-- The thread is in its section, where it knows whether there is a node. -/
theorem threadInside (h : s.Locked) (hmain : s.main.inSection = false) {pc : ThreadPc}
    (hin : pc.inSection) {mtx : Option Party} (hmtx : mtx = some .thread_func) {head p : Option ℕ}
    (hwait : pc = .wait → head = none) (htake : pc = .take → head ≠ none)
    (hnext : pc = .next → head ≠ none ∧ p = head) :
    Locked { s with head := head, mtx := mtx, thread := pc, p := p } := by
  have hinside {pc' : ThreadPc} (hout : pc'.inSection = false) : pc ≠ pc' := fun heq =>
    absurd (heq ▸ hin) (Bool.eq_false_iff.mp hout)
  exact
    { h with
      main := iff_of_false (fun heq => Party.noConfusion (Option.some.inj (hmtx.symm.trans heq)))
        (Bool.eq_false_iff.mp hmain)
      thread := iff_of_true hmtx hin
      blocked := fun hblocked => absurd hblocked (hinside rfl)
      wait := hwait
      take := htake
      next := hnext
      ended := fun hended => absurd hended (hinside rfl) }

/-- The thread locks the mutex. -/
theorem threadLocks (h : s.Locked) (hmtx : s.mtx = none) :
    Locked { s with mtx := some .thread_func, thread := .test } :=
  { h.threadInside (h.of_mtx_eq_none hmtx).1 rfl rfl ThreadPc.noConfusion ThreadPc.noConfusion
      ThreadPc.noConfusion with }

/-- The thread goes on in its section. -/
theorem threadAdvances (h : s.Locked) (hold : s.thread.inSection) {pc : ThreadPc}
    (hnew : pc.inSection) {head p : Option ℕ} (hwait : pc = .wait → head = none)
    (htake : pc = .take → head ≠ none) (hnext : pc = .next → head ≠ none ∧ p = head) :
    Locked { s with head := head, thread := pc, p := p } :=
  { h.threadInside (h.main_inSection hold) hnew (h.thread.mpr hold) hwait htake hnext with }

/-- The thread unlocks the mutex, and waits, starts again, or ends. -/
theorem threadUnlocks (h : s.Locked) (hin : s.thread.inSection) (pc : ThreadPc)
    (hpc : pc.inSection = false) (hblocked : pc = .blocked → s.head = none)
    (hended : pc = .ended → s.cancelled) : Locked { s with mtx := none, thread := pc } := by
  have hout {pc' : ThreadPc} (hin : pc'.inSection = true) : pc ≠ pc' := fun heq =>
    absurd (heq ▸ hpc) (by rw [hin]; decide)
  exact
    { h with
      main := iff_of_false (Option.some_ne_none _).symm
        (Bool.eq_false_iff.mp (h.main_inSection hin))
      thread := iff_of_false (Option.some_ne_none _).symm (Bool.eq_false_iff.mp hpc)
      blocked := fun hb _ => hblocked hb
      wait := fun hwait => absurd hwait (hout rfl)
      take := fun htake => absurd htake (hout rfl)
      next := fun hnext => absurd hnext (hout rfl)
      ended := hended }

/-- **A statement of the other thread.** -/
theorem threadStep (h : s.Locked) (hs : s.threadStep = some s') : s'.Locked := by
  cases threadSteps hs with
  | lock hpc hmtx => exact h.threadLocks hmtx
  | empty hpc hhead =>
    exact h.threadAdvances (by rw [hpc]; rfl) rfl (fun _ => hhead) ThreadPc.noConfusion
      ThreadPc.noConfusion
  | found hpc hhead =>
    exact h.threadAdvances (by rw [hpc]; rfl) rfl ThreadPc.noConfusion (fun _ => hhead)
      ThreadPc.noConfusion
  | take hpc =>
    exact h.threadAdvances (by rw [hpc]; rfl) rfl ThreadPc.noConfusion ThreadPc.noConfusion
      fun _ => ⟨h.take hpc, rfl⟩
  | next hpc | print hpc | free hpc =>
    exact { h.threadAdvances (by rw [hpc]; rfl) rfl ThreadPc.noConfusion ThreadPc.noConfusion
      ThreadPc.noConfusion with }
  | wait hpc =>
    exact h.threadUnlocks (by rw [hpc]; rfl) .blocked rfl (fun _ => h.wait hpc)
      ThreadPc.noConfusion
  | unlock hpc =>
    exact h.threadUnlocks (by rw [hpc]; rfl) .lock rfl ThreadPc.noConfusion ThreadPc.noConfusion

/-! #### The cancellation, and every step -/

/-- The handler runs, with the mutex locked, and the thread ends. -/
theorem cleanupHandler (h : s.Locked) (hin : s.thread.inSection) (hc : s.cancelled) :
    s.cleanupHandler.Locked :=
  { h.threadUnlocks hin .ended rfl (fun hblocked => ThreadPc.noConfusion hblocked)
      fun _ => hc with }

/-- **The cancellation takes effect.** -/
theorem cancel (h : s.Locked) (hs : s.cancel = some s') : s'.Locked := by
  obtain ⟨hc, ⟨-, hmtx, rfl⟩ | ⟨hpc, rfl⟩⟩ := of_cancel hs
  · exact (h.threadLocks hmtx).cleanupHandler rfl hc
  · exact h.cleanupHandler (by rw [hpc]; rfl) hc

/-- **Every step keeps what the threads know.** -/
theorem step (h : s.Locked) {l : Choice} (hs : Step n s l s') : s'.Locked := by
  cases l with
  | malloc a node =>
    obtain ⟨hpc, mem, -, rfl⟩ := of_malloc hs
    have hgo : Locked { s with main := .number } :=
      h.advance (by rw [hpc]; rfl) (by simp [hpc]) (by simp [hpc])
    exact { hgo with }
  | main => exact h.mainStep (of_step hs).2
  | thread_func => exact h.threadStep (of_step hs).2
  | wake =>
    obtain ⟨hpc, rfl⟩ := of_wake hs
    exact
      { h with
        thread := iff_of_false (fun hmtx => absurd (h.thread.mp hmtx) (by rw [hpc]; decide))
          Bool.false_ne_true
        blocked := fun hblocked => ThreadPc.noConfusion hblocked
        wait := fun hwait => ThreadPc.noConfusion hwait
        take := fun htake => ThreadPc.noConfusion htake
        next := fun hnext => ThreadPc.noConfusion hnext
        ended := fun hended => ThreadPc.noConfusion hended }
  | cancel => exact h.cancel (of_step hs).2

end Locked

/-! ### Wakeups -/

/-- **No wakeup is lost.** In every run, while the thread is blocked with no wakeup and the main
thread is not in its section, there is no node; and where the thread follows the link of the first
node, there is one. -/
theorem no_lost_wakeup {n : ℕ} {p : Option ℕ} {ls : List Choice} {s : Program}
    (hrun : Run (Step n) (start p) ls s) :
    (s.thread = .blocked → s.main.inSection = false → s.head = none) ∧
      (s.thread = .next → s.head ≠ none) := by
  have h : s.Locked := hrun.invariant (Locked.start p) fun _ _ _ h hs => h.step hs
  refine ⟨fun hblocked hmain => h.blocked hblocked fun hsignal => ?_, fun hnext => (h.next hnext).1⟩
  rw [hsignal] at hmain
  exact absurd hmain (by decide)

/-- The main thread adds a node at the address `a`. -/
def turn (a : ℕ) : List Choice :=
  [.main, .malloc a ⟨0, none⟩, .main, .main, .main, .main, .main, .main, .main]

/-- Nobody waits for the first signal; the thread removes the node, and waits for the next one. -/
def waiting : List Choice := turn 8 ++ List.replicate 10 .thread_func

theorem no_lost_wakeup_waiting : ∃ s, Run (Step 10) (start none) waiting s ∧ s.printed = [0] ∧
    s.thread = .blocked ∧ s.main.inSection = false ∧ s.head = none := by
  have hrun : (waiting.foldlM (step 10) (start none)).map
      (fun s => (s.printed, s.thread, s.main.inSection)) = some ([0], .blocked, false) := rfl
  obtain ⟨s, hs, hshows⟩ := Option.map_eq_some_iff.mp hrun
  simp only [Prod.mk.injEq] at hshows
  obtain ⟨hprinted, hblocked, hmain⟩ := hshows
  have hrun : Run (Step 10) (start none) waiting s := .of_foldlM hs
  exact ⟨s, hrun, hprinted, hblocked, hmain, (no_lost_wakeup hrun).1 hblocked hmain⟩

end Program

end UnixStudy.Mut
