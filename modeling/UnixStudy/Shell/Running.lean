import UnixStudy.Shell.Reading

/-!
# The stages of a pipeline are run from the last one to the first

What `finish` and `runStages` do to each part of the state, and what they record. A stage whose
pipe end `*pipefdp` names is run after the stage that reads from it, so a property of a whole
pipeline is proved from the last stage to the first.

## Main definitions

* `pipeEnds`, `afterPipe`, `finishArgs` : what `finish` passes to `invoke`.
* `Request`, `Stage.request` : the part of an invocation that says what was typed.
* `Stage.Runs`, `AnyRuns` : a stage is run in a child or by the shell itself.

## Main results

* `exists_finishRecord` : the record of one stage.
* `runStages_requests` : every stage is invoked once, the last one first.
* `runStages_isRun`, `runStages_rejection` : what is run, and what is reported.
-/

namespace UnixStudy.Shell

/-! ### One stage -/

section Finish

variable (sys : System) (makepipe : Bool) (token term : Token) (l : Locals) (s : State)

/-- The ends of the pipe in front of a stage, `-1` twice where there is none. -/
def pipeEnds : ℤ × ℤ := if makepipe then (s.pipe sys).1 else (-1, -1)

/-- The state in which a stage is invoked. -/
def afterPipe : State := if makepipe then (s.pipe sys).2 else s

/-- The arguments with which a stage is invoked. -/
def finishArgs : Invocation :=
  stageArgs sys s.stdin.unread.length term l
    (if makepipe then (pipeEnds sys makepipe s).1 else l.srcfd) (pipeEnds sys makepipe s).2

@[simp] theorem afterPipe_stdin : (afterPipe sys makepipe s).stdin = s.stdin := by
  cases makepipe <;> rfl

@[simp] theorem afterPipe_pid : (afterPipe sys makepipe s).pid = s.pid := by
  cases makepipe <;> rfl

@[simp] theorem afterPipe_children : (afterPipe sys makepipe s).children = s.children := by
  cases makepipe <;> rfl

@[simp] theorem afterPipe_stages : (afterPipe sys makepipe s).stages = s.stages := by
  cases makepipe <;> rfl

theorem afterPipe_trace : (afterPipe sys makepipe s).trace =
    s.trace ++ if makepipe then [.pipe (afterPipe sys makepipe s).fds] else [] := by
  cases makepipe
  · exact (List.append_nil _).symm
  · rfl

/-- The message about an empty stage. -/
def missingEvents : List Event :=
  if isMissing l.argv token (finishArgs sys makepipe term l s).srcfd then [.diag .missingCommand]
  else []

theorem finish_fst : (finish sys makepipe token term l s).1 =
    if makepipe then some (pipeEnds sys makepipe s).2 else none := by
  cases makepipe <;> rfl

/-- The state after a stage, through the call of `invoke`: the last stage of a pipeline sets the
variable behind `wpid`, and no other does. -/
theorem finish_snd : (finish sys makepipe token term l s).2 =
    let r := invoke sys (finishArgs sys makepipe term l s) (afterPipe sys makepipe s)
    { r.2 with
      pid := if token ≠ .bar then r.1 else s.pid
      trace := r.2.trace ++ missingEvents sys makepipe token term l s } := by
  have hpid : s.pid =
      (invoke sys (finishArgs sys makepipe term l s) (afterPipe sys makepipe s)).2.pid := by simp
  have heq : (finish sys makepipe token term l s).2 =
      let r := invoke sys (finishArgs sys makepipe term l s) (afterPipe sys makepipe s)
      let s' := if token ≠ .bar then { r.2 with pid := r.1 } else r.2
      if isMissing l.argv token (finishArgs sys makepipe term l s).srcfd then
        s'.diag .missingCommand
      else s' := by
    cases makepipe <;> rfl
  rw [heq, missingEvents, hpid]
  dsimp only
  split_ifs <;> first | rfl | simp only [List.append_nil]

@[simp] theorem finish_stdin : (finish sys makepipe token term l s).2.stdin = s.stdin := by
  simp [finish_snd]

@[simp] theorem finish_stages :
    (finish sys makepipe token term l s).2.stages = s.stages + 1 := by
  simp [finish_snd]

theorem finish_fds : (finish sys makepipe token term l s).2.fds =
    (invoke sys (finishArgs sys makepipe term l s) (afterPipe sys makepipe s)).2.fds := by
  simp [finish_snd]

theorem finish_pid : (finish sys makepipe token term l s).2.pid =
    if token ≠ .bar then
      (invoke sys (finishArgs sys makepipe term l s) (afterPipe sys makepipe s)).1
    else s.pid := by
  simp [finish_snd]

theorem finish_children : (finish sys makepipe token term l s).2.children =
    s.children ++ (((finishArgs sys makepipe term l s).forks (sys.calls s.stages)).map
      (nextChild sys (finishArgs sys makepipe term l s) (afterPipe sys makepipe s))).toList := by
  simp [finish_snd, invoke_children]

theorem exists_finishRecord : ∃ es,
    InvokeRecord sys (finishArgs sys makepipe term l s) (afterPipe sys makepipe s) es ∧
      (finish sys makepipe token term l s).2.trace = s.trace ++
        ((if makepipe then [.pipe (afterPipe sys makepipe s).fds] else []) ++
          .invoke (finishArgs sys makepipe term l s) :: es ++
          missingEvents sys makepipe token term l s) := by
  obtain ⟨es, hes⟩ := exists_invokeRecord sys (finishArgs sys makepipe term l s)
    (afterPipe sys makepipe s)
  refine ⟨es, hes, ?_⟩
  rw [finish_snd]
  dsimp only
  rw [hes.trace, afterPipe_trace, List.append_assoc, List.append_assoc, List.append_assoc]

theorem trace_prefix_finish : s.trace <+: (finish sys makepipe token term l s).2.trace := by
  obtain ⟨es, -, htrace⟩ := exists_finishRecord sys makepipe token term l s
  exact ⟨_, htrace.symm⟩

theorem finish_requests :
    (s.since (finish sys makepipe token term l s).2).filterMap Event.toInvocation =
      [finishArgs sys makepipe term l s] := by
  obtain ⟨es, hes, htrace⟩ := exists_finishRecord sys makepipe token term l s
  have hnone : es.filterMap Event.toInvocation = [] :=
    List.filterMap_eq_nil_iff.mpr hes.invocation
  rw [State.since_eq htrace, missingEvents]
  split_ifs <;> simp [List.filterMap_cons, Event.toInvocation, hnone]

/-- The only message about the command line that a stage writes is the one about an empty stage. -/
theorem finish_rejection {p : Event → Bool} (hp : ∀ e, p e → e.isRejection)
    (hmissing : p (.diag .missingCommand)) :
    (∃ e ∈ s.since (finish sys makepipe token term l s).2, p e) ↔
      isMissing l.argv token (finishArgs sys makepipe term l s).srcfd := by
  obtain ⟨es, hes, htrace⟩ := exists_finishRecord sys makepipe token term l s
  rw [State.since_eq htrace, missingEvents]
  constructor
  · rintro ⟨e, he, hrej⟩
    by_contra hempty
    rw [if_neg hempty] at he
    replace hrej := hp e hrej
    simp only [List.append_nil, List.mem_append, List.mem_cons] at he
    rcases he with he | rfl | he
    · split_ifs at he
      · simp [List.mem_singleton.mp he, Event.isRejection] at hrej
      · exact absurd he List.not_mem_nil
    · simp [Event.isRejection] at hrej
    · simp [hes.rejection e he] at hrej
  · intro hempty
    rw [if_pos hempty]
    exact ⟨.diag .missingCommand, by simp, hmissing⟩

theorem finish_isRun :
    (∃ e ∈ s.since (finish sys makepipe token term l s).2, e.isRun) ↔
      (l.argv ≠ [] ∧ isBuiltin (argv0 l.argv)) ∨
        ((finishArgs sys makepipe term l s).forks (sys.calls s.stages)).isSome := by
  obtain ⟨es, hes, htrace⟩ := exists_finishRecord sys makepipe token term l s
  have hrun := hes.run
  rw [afterPipe_stages] at hrun
  rw [State.since_eq htrace, missingEvents]
  refine Iff.trans ?_ hrun
  split_ifs <;> simp [Event.isRun]

end Finish

/-! ### What a stage asks for -/

/-- The part of an invocation that says what was typed, as opposed to the descriptors the shell
has arranged for it. -/
structure Request where
  argv : List Bytes
  srcfile : Bytes
  dstfile : Bytes
  append : Option Bool
  bckgrnd : Bool
  deriving DecidableEq, Repr

/-- What is asked for by a call of `invoke`. -/
def Invocation.request (a : Invocation) : Request :=
  ⟨a.argv, a.srcfile, a.dstfile, a.append, a.bckgrnd⟩

namespace Stage

variable (st : Stage)

/-- What is asked for by a stage, read when `n` bytes of the input were unread behind it. -/
def request (sys : System) (n : ℕ) (term : Terminator) : Request where
  argv := st.locals.argv
  srcfile := cString MAXFNAME st.locals.srcfile (sys.beyond .srcfile n)
  dstfile := cString MAXFNAME st.locals.dstfile (sys.beyond .dstfile n)
  append := st.locals.append
  bckgrnd := term.token == .amp

/-- The stage has a word and is no builtin. -/
def IsExternal : Prop := st.locals.argv ≠ [] ∧ isBuiltin (argv0 st.locals.argv) = false

instance : Decidable st.IsExternal := inferInstanceAs (Decidable (_ ∧ _))

/-- The pid of the child that the stage is run in, if there is one. -/
def forks (calls : Calls) : Option ℕ+ := if st.IsExternal then calls.fork else none

/-- The stage is run, by the shell or in a child. -/
def Runs (calls : Calls) : Prop :=
  (st.locals.argv ≠ [] ∧ isBuiltin (argv0 st.locals.argv)) ∨ (st.forks calls).isSome

instance (calls : Calls) : Decidable (st.Runs calls) := inferInstanceAs (Decidable (_ ∨ _))

end Stage

/-! ### A whole pipeline -/

section RunStages

variable (sys : System) (term : Terminator)

/-- The local variables with which the first of several stages is run. -/
def runLocals (st : Stage) (sts : List Stage) (s : State) : Locals :=
  { st.locals with dstfd := (runStages sys term true sts s).1.getD st.locals.dstfd }

theorem runLocals_dstfd (st : Stage) (sts : List Stage) (s : State) :
    (runLocals sys term st sts s).dstfd =
      (runStages sys term true sts s).1.getD st.locals.dstfd := rfl

theorem runStages_cons (makepipe : Bool) (st : Stage) (sts : List Stage) (s : State) :
    runStages sys term makepipe (st :: sts) s =
      finish sys makepipe st.token term.token (runLocals sys term st sts s)
        (runStages sys term true sts s).2 := rfl

variable (makepipe : Bool) (sts : List Stage) (s : State)

@[simp] theorem runStages_stdin : (runStages sys term makepipe sts s).2.stdin = s.stdin := by
  induction sts generalizing makepipe with
  | nil => rfl
  | cons st sts ih => rw [runStages_cons, finish_stdin, ih]

@[simp] theorem runStages_stages :
    (runStages sys term makepipe sts s).2.stages = s.stages + sts.length := by
  induction sts generalizing makepipe with
  | nil => rfl
  | cons st sts ih => rw [runStages_cons, finish_stages, ih, List.length_cons, Nat.add_assoc]

theorem trace_prefix_runStages : s.trace <+: (runStages sys term makepipe sts s).2.trace := by
  induction sts generalizing makepipe with
  | nil => exact List.prefix_rfl
  | cons st sts ih => exact (ih true).trans (trace_prefix_finish ..)

/-- What is recorded for the stages behind comes first. -/
theorem since_runStages_cons (st : Stage) :
    s.since (runStages sys term makepipe (st :: sts) s).2 =
      s.since (runStages sys term true sts s).2 ++
        (runStages sys term true sts s).2.since
          (runStages sys term makepipe (st :: sts) s).2 :=
  State.since_trans (trace_prefix_runStages ..) (trace_prefix_finish ..)

/-- Every stage is invoked exactly once, the last one first, with what was typed for it. -/
theorem runStages_requests :
    ((s.since (runStages sys term makepipe sts s).2).filterMap Event.toInvocation).map
        Invocation.request =
      (sts.map fun st => st.request sys s.stdin.unread.length term).reverse := by
  induction sts generalizing makepipe with
  | nil => simp [runStages]
  | cons st sts ih =>
    rw [since_runStages_cons, List.filterMap_append, List.map_append, ih, runStages_cons,
      finish_requests, List.map_cons, List.map_nil, List.map_cons, List.reverse_cons]
    simp [finishArgs, stageArgs, Invocation.request, Stage.request, runLocals]

theorem finishArgs_forks (st : Stage) (s' : State) (calls : Calls) :
    (finishArgs sys makepipe term.token (runLocals sys term st sts s) s').forks calls =
      st.forks calls := rfl

theorem Stage.forks_eq {st : Stage} {a : Invocation} (h : a.argv = st.locals.argv)
    (calls : Calls) : a.forks calls = st.forks calls :=
  if_congr (by simp only [Invocation.IsExternal, Stage.IsExternal, h]) rfl rfl

/-- Some stage is run, by the shell or in a child, when the stages run so far are `k`. -/
def AnyRuns (sys : System) (k : ℕ) : List Stage → Prop
  | [] => False
  | st :: sts => AnyRuns sys k sts ∨ st.Runs (sys.calls (k + sts.length))

theorem runStages_isRun : (∃ e ∈ s.since (runStages sys term makepipe sts s).2, e.isRun) ↔
    AnyRuns sys s.stages sts := by
  induction sts generalizing makepipe with
  | nil => simp [runStages, AnyRuns]
  | cons st sts ih =>
    have hrun := finish_isRun sys makepipe st.token term.token (runLocals sys term st sts s)
      (runStages sys term true sts s).2
    rw [finishArgs_forks, runStages_stages] at hrun
    simp only [since_runStages_cons, List.mem_append, or_and_right, exists_or, ih, AnyRuns]
    exact or_congr_right hrun

/-- The stages are ended by `|`, and the last one by the token of the pipeline. -/
def EndsWith (term : Terminator) : List Stage → Prop
  | [] => False
  | [st] => st.token = term.token
  | st :: st' :: sts => st.token = .bar ∧ EndsWith term (st' :: sts)

/-- The source of the last stage of a pipeline, which is run first. -/
def lastSrcfd (sys : System) (makepipe : Bool) (sts : List Stage) (s : State) : ℤ :=
  match makepipe, sts with
  | false, [st] => st.locals.srcfd
  | _, _ => (s.pipe sys).1.1

variable {sys term makepipe sts s}

/-- The only messages about the command line that running a pipeline writes are those about empty
stages. -/
theorem runStages_rejection (hends : EndsWith term sts) {p : Event → Bool}
    (hp : ∀ e, p e → e.isRejection) (hmissing : p (.diag .missingCommand)) :
    (∃ e ∈ s.since (runStages sys term makepipe sts s).2, p e) ↔
      ∃ st ∈ sts, isMissing st.locals.argv st.token (lastSrcfd sys makepipe sts s) := by
  induction sts generalizing makepipe with
  | nil => exact hends.elim
  | cons st sts ih =>
    have hfinish := finish_rejection sys makepipe st.token term.token (runLocals sys term st sts s)
      (runStages sys term true sts s).2 hp hmissing
    simp only [since_runStages_cons, List.mem_append, or_and_right, exists_or, List.mem_cons,
      exists_eq_left]
    rw [or_comm (a := isMissing _ _ _ = true)]
    cases sts with
    | nil =>
      refine or_congr (by simp [runStages]) (hfinish.trans ?_)
      cases makepipe <;> rfl
    | cons st' sts =>
      have hlast : lastSrcfd sys makepipe (st :: st' :: sts) s =
          lastSrcfd sys true (st' :: sts) s := by
        cases makepipe <;> rfl
      rw [hlast]
      refine or_congr (ih hends.2) (hfinish.trans ?_)
      simp [isMissing, hends.1, runLocals]

/-- The last stage is invoked first, and the variable behind `wpid` holds the pid of its child,
or `0`. -/
theorem runStages_pid (hends : EndsWith term sts) : ∃ st a as, sts.getLast? = some st ∧
    (s.since (runStages sys term makepipe sts s).2).filterMap Event.toInvocation = a :: as ∧
    a.argv = st.locals.argv ∧ (runStages sys term makepipe sts s).2.pid =
      (st.forks (sys.calls s.stages)).elim 0 fun pid => ((pid : ℕ) : ℤ) := by
  induction sts generalizing makepipe with
  | nil => exact hends.elim
  | cons st sts ih =>
    rw [since_runStages_cons, List.filterMap_append, runStages_cons, finish_requests, finish_pid]
    cases sts with
    | nil =>
      refine ⟨st, _, [], rfl, by rw [runStages, State.since_self]; rfl, rfl, ?_⟩
      rw [if_pos (by rw [show st.token = _ from hends]; exact term.token_ne_bar), invoke_fst,
        finishArgs_forks, afterPipe_stages, runStages]
    | cons st' sts =>
      obtain ⟨last, a, as, hlast, hinv, hargv, hpid⟩ := @ih true hends.2
      exact ⟨last, a, _, by simpa using hlast, by rw [hinv]; rfl, hargv,
        by rw [if_neg (by simp [hends.1]), hpid]⟩

end RunStages

/-! ### The outermost call -/

section Outermost

variable {sys : System} {s s₁ : State} {sts : List Stage} {t : Terminator}

/-- The first stage of a pipeline has no pipe in front of it. -/
theorem runStages_fst_false (sys : System) (t : Terminator) (sts : List Stage) (s : State) :
    (runStages sys t false sts s).1 = none := by
  cases sts with
  | nil => rfl
  | cons st sts => rw [runStages_cons, finish_fst, if_neg Bool.false_ne_true]

/-- A pipeline that was read is run, and its terminator is returned. -/
theorem command_of_reading (h : reading sys false {} s = (.stages sts t, s₁)) :
    command sys false s = (.returned t.token none, (runStages sys t false sts s₁).2) := by
  rw [command_eq, h, afterReading, returnTerm, runStages_fst_false]

theorem onlyReads_of_reading {makepipe : Bool} {l : Locals}
    (h : reading sys makepipe l s = (.stages sts t, s₁)) : OnlyReads s s₁ := by
  have hread := onlyReads_reading sys makepipe l s
  rwa [h] at hread

theorem OnlyReads.trace_le {s s' : State} (h : OnlyReads s s') : s.trace <+: s'.trace := by
  obtain ⟨es, hes, -⟩ := h.trace
  exact ⟨es, hes.symm⟩

/-- What is recorded while a pipeline is run comes after what is recorded while it is read. -/
theorem since_command (h : reading sys false {} s = (.stages sts t, s₁)) :
    s.since (command sys false s).2 =
      s.since s₁ ++ s₁.since (runStages sys t false sts s₁).2 := by
  rw [command_of_reading h]
  exact State.since_trans (onlyReads_of_reading h).trace_le (trace_prefix_runStages ..)

theorem OnlyReads.isReading {s s' : State} (h : OnlyReads s s') :
    ∀ e ∈ s.since s', e.isReading := by
  obtain ⟨es, hes, hread⟩ := h.trace
  rw [State.since_eq hes]
  exact hread

theorem OnlyReads.toInvocation {s s' : State} (h : OnlyReads s s') :
    (s.since s').filterMap Event.toInvocation = [] := by
  refine List.filterMap_eq_nil_iff.mpr fun e he => ?_
  have hread := h.isReading e he
  cases e <;> simp_all [Event.isReading, Event.toInvocation]

theorem OnlyReads.toChild {s s' : State} (h : OnlyReads s s') :
    (s.since s').filterMap Event.toChild = [] := by
  refine List.filterMap_eq_nil_iff.mpr fun e he => ?_
  have hread := h.isReading e he
  cases e <;> simp_all [Event.isReading, Event.toChild]

theorem OnlyReads.not_isRun {s s' : State} (h : OnlyReads s s') : ¬ ∃ e ∈ s.since s', e.isRun := by
  rintro ⟨e, he, hrun⟩
  have hread := h.isReading e he
  cases e <;> simp_all [Event.isReading, Event.isRun]

/-- The messages of a reading are found in its record. -/
theorem OnlyReads.exists_message {s s' : State} (h : OnlyReads s s') {ds : List Diag}
    (hds : s'.messages = s.messages ++ ds) {p : Event → Bool} (hp : ∀ e, p e → e.isRejection) :
    (∃ e ∈ s.since s', p e) ↔ ∃ d ∈ ds, p (.diag d) := by
  obtain ⟨es, hes, -⟩ := h.trace
  rw [State.messages, hes, List.filterMap_append] at hds
  rw [State.since_eq hes, ← List.append_cancel_left hds]
  simp only [List.mem_filterMap]
  constructor
  · rintro ⟨e, he, hpe⟩
    have hrej := hp e hpe
    cases e with
    | diag d => exact ⟨d, ⟨_, he, rfl⟩, hpe⟩
    | _ => simp [Event.isRejection] at hrej
  · rintro ⟨d, ⟨e, he, hd⟩, hpd⟩
    cases e with
    | diag d' => cases hd; exact ⟨_, he, hpd⟩
    | _ => simp [Event.toDiag] at hd

end Outermost

end UnixStudy.Shell
