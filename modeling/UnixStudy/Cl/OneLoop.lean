import UnixStudy.Cl.Getargs
import UnixStudy.Foundations.Runs
import Mathlib.Data.List.Nodup

/-!
# Who runs the loop of the command-line application

`execute3` forks a child for a command. If its `execvp` succeeds, the child is no longer the
application; if it fails, the child says so and returns, as its parent will, to the loop of `main`.
There it reads lines of its own: it has a copy of what its parent had buffered, and the rest of the
input is shared between them. The parent waits meanwhile, and then reads its own copy of the same
lines.

A process waits for the child that it has forked last, so at any time one process runs, and the
others wait for each other in a row (`State.waiting`). Every byte of the input carries its position,
so that a byte that is read twice can be told from two bytes.

## Main definitions

* `Process`, `State` : the processes that run the application, and what they share.
* `Choice`, `Step` : what the environment decides, and the step that follows.
* `OneLoop` : only the original process runs the loop, and no line is taken twice.

## Main results

* `Sole.step` : what holds as long as no `execvp` fails.
* `oneLoop_iff` : the runs in which there is one loop.

## References

* `src/process/cl.c`, lines 50–96, 121–139 and 162–184.
-/

namespace UnixStudy.Cl

open Shell (Byte Bytes equals argv0 setName)

/-- A byte of the input with its position. -/
abbrev Item := Byte × ℕ

/-- A process that runs the application: its number, with `0` for the original one, what it has
buffered of the input, and its environment. -/
structure Process where
  id : ℕ
  buffer : List Item
  env : Env
  deriving DecidableEq, Repr

/-- Where the running process is: in front of `getargs`, in front of `fork`, behind it in the child,
in a program that it has executed, or in the loop of `getargs` that does not end; or the original
process has exited. -/
inductive Mode
  | loop
  | forking (argv : List Bytes)
  | child (argv : List Bytes)
  | program
  | stuck
  | over
  deriving DecidableEq, Repr

/-- What happens in a run: a process comes to the top of the loop of `main`, or takes a line there,
or prints. -/
inductive Event
  | enters (who : ℕ)
  | line (who : ℕ) (items : List Item) (args : Args)
  | prints (who : ℕ) (os : List Output)
  deriving DecidableEq, Repr

/-- The bytes of a line that was taken. -/
def Event.taken : Event → List Item
  | .line _ items _ => items
  | _ => []

/-- The process that an event shows in the loop of `main`. -/
def Event.runner : Event → Option ℕ
  | .enters who | .line who _ _ => some who
  | .prints _ _ => none

/-- The state of a run: the process that runs, those that wait, each for the one in front of it,
what none of them has buffered yet, the number of forked children, and the record. -/
structure State where
  running : Process
  mode : Mode
  waiting : List Process
  file : List Item
  forked : ℕ
  trace : List Event
  deriving DecidableEq, Repr

/-- What the environment decides: how many bytes a process reads ahead when it fills its buffer,
whether `fork` and `execvp` fail, and what an executed program reads and when it exits. -/
inductive Choice
  | turn (ahead : ℕ)
  | forks
  | forkFails
  | execs
  | execFails
  | reads (n : ℕ)
  | exits
  deriving DecidableEq, Repr

namespace State

variable (s : State)

/-- Record events. -/
def log (es : List Event) : State := { s with trace := s.trace ++ es }

/-- The running process comes to the top of the loop. -/
def enter : State := { s.log [.enters s.running.id] with mode := .loop }

/-- The running process exits: the call of `waitpid` of its parent returns. -/
def leave : State :=
  match s.waiting with
  | [] => { s with mode := .over }
  | p :: ps => enter { s with running := p, waiting := ps }

/-- What is buffered, and what is not, when `n` bytes were taken. -/
def left (ahead n : ℕ) : List Item × List Item :=
  if n ≤ s.running.buffer.length then (s.running.buffer.drop n, s.file)
  else
    let rest := s.file.drop (n - s.running.buffer.length)
    (rest.take ahead, rest.drop ahead)

/-- A command of the loop of `main`. -/
def dispatch (argv : List Bytes) : State :=
  if (argv0 argv).contains equals then
    let r := asg argv s.running.env
    enter ({ s with running := { s.running with env := r.1 } }.log [.prints s.running.id r.2])
  else if argv0 argv == setName then
    enter (s.log [.prints s.running.id (set argv s.running.env)])
  else { s with mode := .forking argv }

/-- The running process has taken `n` bytes. -/
def take (ahead n : ℕ) (args : Args) : State :=
  { s with
    running := { s.running with buffer := (s.left ahead n).1 }
    file := (s.left ahead n).2 }.log
      [.line s.running.id ((s.running.buffer ++ s.file).take n) args]

/-- One turn of the loop of `main`, up to `fork`. -/
def turn (ahead : ℕ) : State :=
  let r := getargs ((s.running.buffer ++ s.file).map Prod.fst)
  let s := s.take ahead r.1 r.2
  match r.2 with
  | .eof => s.leave
  | .stuck => { s with mode := .stuck }
  | .ignored o => (s.log [.prints s.running.id [o]]).enter
  | .args [] => s.enter
  | .args argv => s.dispatch argv

/-- `fork` in the running process, which waits from now on for the child that runs in its place. -/
def fork (argv : List Bytes) : State :=
  { s with
    running := { s.running with id := s.forked + 1 }
    mode := .child argv
    waiting := s.running :: s.waiting
    forked := s.forked + 1 }

/-- The running process goes on behind a failed call, of which it prints a message. -/
def fail (o : Output) : State := (s.log [.prints s.running.id [o]]).enter

/-- The start of the application. -/
def start (input : Bytes) (env : Env) : State where
  running := ⟨0, [], env⟩
  mode := .loop
  waiting := []
  file := input.zipIdx
  forked := 0
  trace := [.enters 0]

/-- The bytes that were taken, in order. -/
def taken : List Item := s.trace.flatMap Event.taken

end State

/-- The steps of the application. -/
inductive Step (s : State) : Choice → State → Prop
  | turn (ahead : ℕ) (h : s.mode = .loop) : Step s (.turn ahead) (s.turn ahead)
  | forks {argv : List Bytes} (h : s.mode = .forking argv) : Step s .forks (s.fork argv)
  | forkFails {argv : List Bytes} (h : s.mode = .forking argv) :
      Step s .forkFails (s.fail .parentError)
  | execs {argv : List Bytes} (h : s.mode = .child argv) : Step s .execs { s with mode := .program }
  | execFails {argv : List Bytes} (h : s.mode = .child argv) :
      Step s .execFails (s.fail .shouldNotReachHere)
  | reads (n : ℕ) (h : s.mode = .program) : Step s (.reads n) { s with file := s.file.drop n }
  | exits (h : s.mode = .program) : Step s .exits s.leave

/-- Only the original process has come to the top of the loop and taken lines there, and no byte of
the input was taken twice. -/
structure OneLoop (s : State) : Prop where
  original : ∀ e ∈ s.trace, ∀ who, e.runner = some who → who = 0
  once : s.taken.Nodup

namespace State

variable (s : State)

theorem taken_log (es : List Event) : (s.log es).taken = s.taken ++ es.flatMap Event.taken :=
  List.flatMap_append

/-- What is left behind the bytes that were taken. -/
theorem left_append (ahead n : ℕ) :
    (s.left ahead n).1 ++ (s.left ahead n).2 = (s.running.buffer ++ s.file).drop n := by
  rw [left]
  split_ifs with hn
  · rw [List.drop_append_of_le_length hn]
  · rw [List.take_append_drop, List.drop_append, List.drop_eq_nil_of_le (Nat.le_of_not_le hn),
      List.nil_append]

end State

/-- The process is in a child, or in the program that the child has become. -/
def Mode.isChild : Mode → Bool
  | .child _ | .program => true
  | _ => false

theorem isChild_leave (s : State) : s.leave.mode.isChild = false := by
  rcases s with ⟨running, mode, _ | ⟨p, ps⟩, file, forked, trace⟩ <;> rfl

theorem isChild_dispatch (s : State) (argv : List Bytes) :
    (s.dispatch argv).mode.isChild = false := by
  rw [State.dispatch]
  split_ifs <;> rfl

/-- A turn of the loop ends in front of `fork` at the latest. -/
theorem isChild_turn (s : State) (ahead : ℕ) : (s.turn ahead).mode.isChild = false := by
  rw [State.turn]
  rcases getargs ((s.running.buffer ++ s.file).map Prod.fst) with ⟨n, ⟨_ | _⟩ | o | _ | _⟩
  · rfl
  · exact isChild_dispatch _ _
  · rfl
  · exact isChild_leave _
  · rfl

/-! ### Runs in which every `execvp` succeeds -/

section Sole

variable {items : List Item} {s : State}

/-- The original process runs, alone; what was taken, what it has buffered and what is left are
pieces of the input, in order. -/
structure Alone (items : List Item) (s : State) : Prop where
  id : s.running.id = 0
  waiting : s.waiting = []
  pieces : (s.taken ++ (s.running.buffer ++ s.file)).Sublist items
  original : ∀ e ∈ s.trace, ∀ who, e.runner = some who → who = 0

namespace Alone

theorem log (h : Alone items s) {es : List Event} (hes : ∀ e ∈ es, e.taken = [])
    (hwho : ∀ e ∈ es, ∀ who, e.runner = some who → who = 0) : Alone items (s.log es) where
  id := h.id
  waiting := h.waiting
  pieces := by
    rw [State.taken_log, List.flatMap_eq_nil_iff.mpr hes, List.append_nil]
    exact h.pieces
  original e he := (List.mem_append.mp he).elim (h.original e) (hwho e)

theorem mode (h : Alone items s) (m : Mode) : Alone items { s with mode := m } :=
  ⟨h.id, h.waiting, h.pieces, h.original⟩

theorem env (h : Alone items s) (env : Env) :
    Alone items { s with running := { s.running with env := env } } :=
  ⟨h.id, h.waiting, h.pieces, h.original⟩

theorem prints (h : Alone items s) (who : ℕ) (os : List Output) :
    Alone items (s.log [.prints who os]) :=
  h.log (List.forall_mem_singleton.mpr rfl) <| List.forall_mem_singleton.mpr fun _ hwho =>
    absurd hwho.symm (Option.some_ne_none _)

theorem enter (h : Alone items s) : Alone items s.enter := by
  refine (h.log (List.forall_mem_singleton.mpr rfl) ?_).mode .loop
  refine List.forall_mem_singleton.mpr fun who hwho => ?_
  rw [← Option.some.inj hwho, h.id]

theorem leave (h : Alone items s) : Alone items s.leave := by
  obtain ⟨running, mode, waiting, file, forked, trace⟩ := s
  obtain rfl : waiting = [] := h.waiting
  exact h.mode .over

/-- The bytes that are taken move from what is left to what was taken. -/
theorem take (h : Alone items s) (ahead n : ℕ) (args : Args) :
    Alone items (s.take ahead n args) where
  id := h.id
  waiting := h.waiting
  pieces := by
    have htaken : (s.take ahead n args).taken =
        s.taken ++ (s.running.buffer ++ s.file).take n := by
      rw [State.take, State.taken_log, List.flatMap_singleton]
      rfl
    have hleft : (s.take ahead n args).running.buffer ++ (s.take ahead n args).file =
        (s.running.buffer ++ s.file).drop n := s.left_append ahead n
    rw [htaken, hleft, List.append_assoc, List.take_append_drop]
    exact h.pieces
  original e he who hwho := by
    rcases List.mem_append.mp he with he | he
    · exact h.original e he who hwho
    · obtain rfl := List.mem_singleton.mp he
      rw [← Option.some.inj hwho, h.id]

theorem dispatch (h : Alone items s) (argv : List Bytes) : Alone items (s.dispatch argv) := by
  rw [State.dispatch]
  split_ifs
  · exact ((h.env _).prints _ _).enter
  · exact (h.prints _ _).enter
  · exact h.mode _

/-- A turn of the loop. -/
theorem turn (h : Alone items s) (ahead : ℕ) : Alone items (s.turn ahead) := by
  rw [State.turn]
  generalize getargs ((s.running.buffer ++ s.file).map Prod.fst) = r
  have htake := h.take ahead r.1 r.2
  rcases r with ⟨n, ⟨_ | _⟩ | o | _ | _⟩
  · exact htake.enter
  · exact htake.dispatch _
  · exact (htake.prints _ _).enter
  · exact htake.leave
  · exact htake.mode .stuck

end Alone

/-- The original process waits for its only child. -/
structure Waits (items : List Item) (p : Process) (s : State) : Prop where
  id : p.id = 0
  waiting : s.waiting = [p]
  pieces : (s.taken ++ (p.buffer ++ s.file)).Sublist items
  original : ∀ e ∈ s.trace, ∀ who, e.runner = some who → who = 0

/-- What holds as long as no `execvp` fails: the original process runs, or waits for a child that
does not come back. -/
def Sole (items : List Item) (s : State) : Prop :=
  s.mode.isChild = false ∧ Alone items s ∨ s.mode.isChild = true ∧ ∃ p, Waits items p s

/-- The child exits, and the original process goes on. -/
theorem Waits.leave {p : Process} (h : Waits items p s) : Alone items s.leave := by
  obtain ⟨running, mode, waiting, file, forked, trace⟩ := s
  obtain rfl : waiting = [p] := h.waiting
  exact Alone.enter ⟨h.id, rfl, h.pieces, h.original⟩

namespace Sole

/-- In front of `fork` and in the loop the original process runs. -/
theorem alone (h : Sole items s) (hmode : s.mode.isChild = false) : Alone items s := by
  rcases h with ⟨-, h⟩ | ⟨hchild, -⟩
  · exact h
  · exact absurd (hchild.symm.trans hmode) (by decide)

/-- In a child the original process waits. -/
theorem exists_waits (h : Sole items s) (hmode : s.mode.isChild = true) :
    ∃ p, Waits items p s := by
  rcases h with ⟨hchild, -⟩ | ⟨-, h⟩
  · exact absurd (hchild.symm.trans hmode) (by decide)
  · exact h

/-- **What every step keeps** unless it is a failed `execvp`. -/
theorem step (h : Sole items s) {a : Choice} {s' : State} (ha : a ≠ .execFails)
    (hstep : Step s a s') : Sole items s' := by
  cases hstep with
  | turn ahead hmode =>
    exact Or.inl ⟨isChild_turn s ahead, (h.alone (by rw [hmode]; rfl)).turn ahead⟩
  | forks hmode =>
    have halone := h.alone (by rw [hmode]; rfl)
    exact Or.inr ⟨rfl, s.running, halone.id, congrArg (s.running :: ·) halone.waiting,
      halone.pieces, halone.original⟩
  | forkFails hmode =>
    exact Or.inl ⟨rfl, ((h.alone (by rw [hmode]; rfl)).prints _ _).enter⟩
  | execs hmode =>
    obtain ⟨p, hp⟩ := h.exists_waits (by rw [hmode]; rfl)
    exact Or.inr ⟨rfl, p, hp.id, hp.waiting, hp.pieces, hp.original⟩
  | execFails => exact absurd rfl ha
  | reads n hmode =>
    obtain ⟨p, hp⟩ := h.exists_waits (by rw [hmode]; rfl)
    refine Or.inr ⟨by rw [hmode]; rfl, p, hp.id, hp.waiting, ?_, hp.original⟩
    exact (((List.drop_sublist n s.file).append_left _).append_left _).trans hp.pieces
  | exits hmode =>
    obtain ⟨p, hp⟩ := h.exists_waits (by rw [hmode]; rfl)
    exact Or.inl ⟨isChild_leave s, hp.leave⟩

/-- The start of the application. -/
theorem start (input : Bytes) (env : Env) : Sole input.zipIdx (.start input env) := by
  refine Or.inl ⟨rfl, rfl, rfl, List.Sublist.refl _, List.forall_mem_singleton.mpr ?_⟩
  exact fun who hwho => (Option.some.inj hwho).symm

/-- There is one loop: what was taken is a piece of the input, whose bytes are all different. -/
theorem oneLoop {input : Bytes} (h : Sole input.zipIdx s) : OneLoop s := by
  have hnodup : input.zipIdx.Nodup := by
    refine List.Nodup.of_map Prod.snd ?_
    rw [List.zipIdx_map_snd]
    exact List.nodup_range'
  rcases h with ⟨-, h⟩ | ⟨-, p, h⟩
  · exact ⟨h.original, ((List.sublist_append_left _ _).trans h.pieces).nodup hnodup⟩
  · exact ⟨h.original, ((List.sublist_append_left _ _).trans h.pieces).nodup hnodup⟩

end Sole

end Sole

/-! ### Runs in which an `execvp` fails -/

/-- A child that has been forked is not the original process. -/
def Numbered (s : State) : Prop := ∀ argv, s.mode = .child argv → s.running.id ≠ 0

theorem numbered_of_isChild_eq_false {s : State} (h : s.mode.isChild = false) : Numbered s := by
  intro argv hmode
  rw [hmode] at h
  exact Bool.noConfusion h

theorem Numbered.step {s s' : State} {a : Choice} (h : Step s a s') : Numbered s' := by
  cases h with
  | turn ahead => exact numbered_of_isChild_eq_false (isChild_turn s ahead)
  | forks => exact fun _ _ => Nat.succ_ne_zero _
  | forkFails | execFails => exact numbered_of_isChild_eq_false rfl
  | execs => exact fun _ hmode => Mode.noConfusion hmode
  | reads n hmode =>
    intro argv hmode'
    exact Mode.noConfusion (hmode.symm.trans hmode')
  | exits => exact numbered_of_isChild_eq_false (isChild_leave s)

/-- A process that is not the original one has come to the loop. -/
def Returned (s : State) : Prop := ∃ who, who ≠ 0 ∧ .enters who ∈ s.trace

/-- The record only grows when a process exits. -/
theorem State.trace_leave (s : State) : s.trace <+: s.leave.trace := by
  obtain ⟨running, mode, _ | ⟨p, ps⟩, file, forked, trace⟩ := s
  · exact List.prefix_rfl
  · exact List.prefix_append _ _

/-- The record only grows in a command of the application itself. -/
theorem State.trace_dispatch (s : State) (argv : List Bytes) :
    s.trace <+: (s.dispatch argv).trace := by
  rw [State.dispatch]
  split_ifs
  · exact (List.prefix_append _ _).trans (List.prefix_append _ _)
  · exact (List.prefix_append _ _).trans (List.prefix_append _ _)
  · exact List.prefix_rfl

/-- The record only grows in a turn of the loop. -/
theorem State.trace_turn (s : State) (ahead : ℕ) : s.trace <+: (s.turn ahead).trace := by
  rw [State.turn]
  generalize getargs ((s.running.buffer ++ s.file).map Prod.fst) = r
  have htake : s.trace <+: (s.take ahead r.1 r.2).trace := List.prefix_append _ _
  rcases r with ⟨n, ⟨_ | _⟩ | o | _ | _⟩
  · exact htake.trans (List.prefix_append _ _)
  · exact htake.trans (State.trace_dispatch _ _)
  · exact htake.trans ((List.prefix_append _ _).trans (List.prefix_append _ _))
  · exact htake.trans (State.trace_leave _)
  · exact htake

/-- The record only grows. -/
theorem trace_step {s s' : State} {a : Choice} (h : Step s a s') : s.trace <+: s'.trace := by
  cases h with
  | turn ahead => exact s.trace_turn ahead
  | forkFails | execFails => exact (List.prefix_append _ _).trans (List.prefix_append _ _)
  | forks | execs | reads => exact List.prefix_rfl
  | exits => exact s.trace_leave

/-- A failed `execvp` brings the child back to the loop. -/
theorem Numbered.returned {s s' : State} (h : Numbered s) (hstep : Step s .execFails s') :
    Returned s' := by
  cases hstep with
  | execFails hmode =>
    exact ⟨s.running.id, h _ hmode, List.mem_append_right _ List.mem_cons_self⟩

theorem Returned.step {s s' : State} {a : Choice} (h : Returned s) (hstep : Step s a s') :
    Returned s' := by
  obtain ⟨who, hwho, hmem⟩ := h
  exact ⟨who, hwho, (trace_step hstep).subset hmem⟩

/-- A process that has come back runs a second loop. -/
theorem Returned.not_oneLoop {s : State} (h : Returned s) : ¬ OneLoop s := by
  obtain ⟨who, hwho, hmem⟩ := h
  exact fun hone => hwho (hone.original _ hmem who rfl)

/-- **The runs with one loop.** In every run: only the original process has run the loop, and no
byte of a line was taken twice, if and only if no `execvp` has failed. -/
theorem oneLoop_iff {input : Bytes} {env : Env} {as : List Choice} {s : State}
    (hrun : Run Step (.start input env) as s) : OneLoop s ↔ ∀ a ∈ as, a ≠ .execFails := by
  constructor
  · intro hone
    by_contra hbad
    refine Returned.not_oneLoop ?_ hone
    refine hrun.of_exists (· ≠ .execFails) Numbered ?_ ?_ ?_ ?_ ?_
    · simpa only [not_forall, exists_prop] using hbad
    · exact numbered_of_isChild_eq_false rfl
    · exact fun _ _ _ _ hstep => Numbered.step hstep
    · intro s a s' hs ha hstep
      obtain rfl := not_not.mp ha
      exact hs.returned hstep
    · exact fun _ _ _ hs hstep => hs.step hstep
  · intro hgood
    have hsole : Sole input.zipIdx s :=
      hrun.of_forall hgood (Sole.start input env) fun _ _ _ hs ha hstep => hs.step ha hstep
    exact hsole.oneLoop

/-- The command `x`, which does not exist, in front of the command `ls`: the child runs the loop,
and both it and its parent take the second line and execute it. -/
theorem not_oneLoop_unknown :
    ∃ s, Run Step (.start [120, 10, 108, 115, 10] [])
        [.turn 3, .forks, .execFails, .turn 0, .forks, .execs, .exits, .turn 0, .turn 0] s ∧
      s.mode = .forking [[108, 115]] ∧ ¬ OneLoop s ∧ ¬ s.taken.Nodup := by
  have unknown : Run Step (.start [120, 10, 108, 115, 10] []) [.turn 3, .forks, .execFails] _ :=
    ((Run.refl.tail (.turn 3 rfl)).tail (@Step.forks _ [[120]] rfl)).tail (.execFails rfl)
  have child := ((unknown.tail (.turn 0 rfl)).tail (.forks rfl)).tail (.execs rfl)
  have parent := ((child.tail (.exits rfl)).tail (.turn 0 rfl)).tail (.turn 0 rfl)
  refine ⟨_, parent, by decide, fun h => ?_, by decide⟩
  exact absurd (h.original (.enters 1) (by decide) 1 rfl) (by decide)

/-- The input `ls` and a newline: the child becomes the program, and the loop goes on. -/
theorem oneLoop_iff_ls :
    ∃ s, Run Step (.start [108, 115, 10] []) [.turn 0, .forks, .execs, .exits] s ∧ OneLoop s := by
  have child : Run Step (.start [108, 115, 10] []) [.turn 0, .forks, .execs] _ :=
    ((Run.refl.tail (.turn 0 rfl)).tail (@Step.forks _ [[108, 115]] rfl)).tail (.execs rfl)
  have parent := child.tail (.exits rfl)
  exact ⟨_, parent, (oneLoop_iff parent).mpr (by decide)⟩

end UnixStudy.Cl
