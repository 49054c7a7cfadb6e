import UnixStudy.Shell.Machine

/-!
# Running one stage of a pipeline

`invoke` of `shell.c` runs one stage: nothing for an empty one, in the shell itself for a builtin,
and otherwise in a child whose descriptors `redirect` arranges before `execvp`. The child is a
process of its own, so its run from `fork` to `execvp` is a function of what it inherits
(`runChild`). The parent closes the pipe ends the child has taken over, unless it returns early.

## Main definitions

* `asg`, `set`, `cd`, `builtin` : the commands that the shell runs itself.
* `fdCheck`, `redirect`, `runChild` : the child.
* `invoke` : one stage.
* `Invocation.forks` : the pid of the child that the stage is run in, if there is one.

## Main results

* `builtin_fst`, `builtin_frame` : which commands are builtins, and what they leave unchanged.
* `invoke_cases` : the four ways out of `invoke`, each with the state it leaves.

## References

* `src/communication/shell.c`, lines 34–107 and 199–275.
-/

namespace UnixStudy.Shell

/-! ### Builtins -/

/-- `set`, as the first word of a command. -/
def setName : Bytes := [115, 101, 116]

/-- `cd`, as the first word of a command. -/
def cdName : Bytes := [99, 100]

/-- The name of the variable `HOME`. -/
def homeName : Bytes := [72, 79, 77, 69]

/-- The path `.`. -/
def dot : Bytes := [46]

/-- The path `/dev/null`. -/
def devNull : Bytes := [47, 100, 101, 118, 47, 110, 117, 108, 108]

/-- `argv[0]`; it is only looked at where there is one. -/
def argv0 (argv : List Bytes) : Bytes := argv.headD []

/-- `setenv` with the flag to overwrite: the first variable with the name gets the value. -/
def setenv : List (Bytes × Bytes) → Bytes → Bytes → List (Bytes × Bytes)
  | [], name, val => [(name, val)]
  | e :: env, name, val =>
    if e.1 == name then (name, val) :: env else e :: setenv env name val

/-- `getenv`. -/
def getenv (env : List (Bytes × Bytes)) (name : Bytes) : Option Bytes :=
  (env.find? (·.1 == name)).map Prod.snd

/-- The first call of `strtok` on a string with the one delimiter `=`: the first run of other
characters, and what is left behind the delimiter that ends it. -/
def strtokEquals (w : Bytes) : Option (Bytes × Bytes) :=
  let v := w.dropWhile (· == equals)
  if v = [] then none else some (v.takeWhile (· != equals), (v.dropWhile (· != equals)).drop 1)

/-- A further call of `strtok` with no delimiter: the rest of the string, unless it is empty. -/
def strtokRest (rest : Bytes) : Option Bytes := if rest = [] then none else some rest

/-- `asg`. -/
def asg (argv : List Bytes) (s : State) : State :=
  if argv.length ≠ 1 then s.diag .extraArgs
  else
    match strtokEquals (argv0 argv) with
    | none => s.diag .badAssignment
    | some (name, rest) =>
      match strtokRest rest with
      | none => s.diag .badAssignment
      | some val => { s with env := setenv s.env name val }

/-- `set`: print the environment. -/
def set (argv : List Bytes) (s : State) : State :=
  if argv.length ≠ 1 then s.diag .extraArgs
  else { s with trace := s.trace ++ s.env.map fun e => .print (e.1 ++ equals :: e.2) }

/-- The branch of `builtin` for `cd`. -/
def cd (sys : System) (argv : List Bytes) (s : State) : State :=
  let path := argv[1]?.getD ((getenv s.env homeName).getD dot)
  match sys.chdir s.cwd path with
  | some cwd => { s with cwd := cwd }
  | none => s.diag (.badDirectory path)

/-- The first word of a command names a builtin. -/
def isBuiltin (w : Bytes) : Bool := w.contains equals || w == setName || w == cdName

/-- The end of `builtin`: a builtin takes no redirection and no pipe. -/
def checkPlain (srcfd dstfd : ℤ) (s : State) : State :=
  if srcfd ≠ 0 ∨ dstfd ≠ 1 then s.diag .illegalRedirection else s

/-- `builtin`: whether the command was one, after it was run. -/
def builtin (sys : System) (argv : List Bytes) (srcfd dstfd : ℤ) (s : State) : Bool × State :=
  let w := argv0 argv
  if w.contains equals then (true, checkPlain srcfd dstfd (asg argv (s.log (.builtin argv))))
  else if w == setName then (true, checkPlain srcfd dstfd (set argv (s.log (.builtin argv))))
  else if w == cdName then (true, checkPlain srcfd dstfd (cd sys argv (s.log (.builtin argv))))
  else (false, s)

/-! ### The child -/

/-- `fd_check` finds none of the descriptors it looks at open. -/
def fdCheck (t : FdTable Obj) : Bool := (List.range' 3 17).all fun fd => !decide (t.IsOpen fd)

/-- `redirect` up to its call of `fd_check`. -/
def redirect (calls : Calls) (a : Invocation) (t : FdTable Obj) : FdTable Obj :=
  let toNull := a.srcfd = 0 ∧ a.bckgrnd = true
  let srcfile := if toNull then devNull else a.srcfile
  let srcfd := if toNull then -1 else a.srcfd
  let src := if srcfile ≠ [] then t.sysOpen calls.openSrc (.source srcfile) else (srcfd, t)
  let t := src.2.sysDup2 calls.dupSrc src.1 0
  let t := if src.1 ≠ 0 then t.sysClose src.1 else t
  let dst :=
    if a.dstfile ≠ [] then t.sysOpen calls.openDst (.sink a.dstfile (a.append == some true))
    else (a.dstfd, t)
  let t := dst.2.sysDup2 calls.dupDst dst.1 1
  if dst.1 ≠ 1 then t.sysClose dst.1 else t

/-- The name a program is given in its `argv[0]`. -/
def cmdname (w : Bytes) : Bytes :=
  if w.contains slash then (w.dropWhile (· != slash)).drop 1 else w

/-- The child of `invoke` for stage number `k`, from `fork` to `execvp`, when the shell's table is
`t`. -/
def runChild (calls : Calls) (a : Invocation) (pid : ℕ+) (k : ℕ) (t : FdTable Obj) : Child :=
  let t' := if a.closefd ≠ -1 then t.sysClose a.closefd else t
  let t' := redirect calls a t'
  { stage := k
    pid := pid
    inherited := t
    fds := t'
    stopped := !fdCheck t'
    entrySig := !a.bckgrnd
    path := argv0 a.argv
    argv := cmdname (argv0 a.argv) :: a.argv.tail }

/-! ### One stage -/

/-- The next call of `invoke` is for the next stage. -/
def State.nextStage (s : State) : State := { s with stages := s.stages + 1 }

/-- `invoke`. -/
def invoke (sys : System) (a : Invocation) (s : State) : ℤ × State :=
  let s := s.log (.invoke a)
  if a.argv.length = 0 then (0, s.nextStage)
  else
    let b := builtin sys a.argv a.srcfd a.dstfd s
    if b.1 then (0, b.2.nextStage)
    else
      match (sys.calls s.stages).fork with
      | none => (0, (s.diag .cannotFork).nextStage)
      | some pid =>
        let c := runChild (sys.calls s.stages) a pid s.stages s.fds
        let s := { s with children := s.children ++ [c] }.log (.fork c)
        let s := if a.srcfd > 1 then s.close a.srcfd else s
        let s := if a.dstfd > 1 then s.close a.dstfd else s
        let s := if a.bckgrnd then s.log (.job pid) else s
        (((pid : ℕ) : ℤ), s.nextStage)

/-! ### What builtins do -/

theorem builtin_fst (sys : System) (argv : List Bytes) (srcfd dstfd : ℤ) (s : State) :
    (builtin sys argv srcfd dstfd s).1 = isBuiltin (argv0 argv) := by
  simp only [builtin, isBuiltin]
  split_ifs <;> simp_all

theorem builtin_of_not_isBuiltin {argv : List Bytes} (h : isBuiltin (argv0 argv) = false)
    (sys : System) (srcfd dstfd : ℤ) (s : State) : builtin sys argv srcfd dstfd s = (false, s) := by
  obtain ⟨⟨h₁, h₂⟩, h₃⟩ : (_ ∧ _) ∧ _ := by
    simpa only [isBuiltin, Bool.or_eq_false_iff] using h
  simp only [builtin, h₁, h₂, h₃, Bool.false_eq_true, ↓reduceIte]

/-- The second state differs from the first in the environment, the working directory and the
record only, and what was recorded since was printed by a builtin. -/
structure OnlyTalks (s s' : State) : Prop where
  stdin : s'.stdin = s.stdin
  fds : s'.fds = s.fds
  pid : s'.pid = s.pid
  children : s'.children = s.children
  mallocs : s'.mallocs = s.mallocs
  stages : s'.stages = s.stages
  trace : ∃ es, s'.trace = s.trace ++ es ∧ ∀ e ∈ es, e.isTalk

namespace OnlyTalks

theorem refl (s : State) : OnlyTalks s s :=
  ⟨rfl, rfl, rfl, rfl, rfl, rfl, [], by simp⟩

theorem trans {s s' s'' : State} (h : OnlyTalks s s') (h' : OnlyTalks s' s'') :
    OnlyTalks s s'' := by
  obtain ⟨es, hes, htalk⟩ := h.trace
  obtain ⟨es', hes', htalk'⟩ := h'.trace
  refine ⟨h'.stdin.trans h.stdin, h'.fds.trans h.fds, h'.pid.trans h.pid,
    h'.children.trans h.children, h'.mallocs.trans h.mallocs, h'.stages.trans h.stages,
    es ++ es', ?_, ?_⟩
  · rw [hes', hes, List.append_assoc]
  · intro e he
    exact (List.mem_append.mp he).elim (htalk e) (htalk' e)

theorem diag (s : State) {d : Diag} (hd : d.isRejection = false) : OnlyTalks s (s.diag d) :=
  ⟨rfl, rfl, rfl, rfl, rfl, rfl, [.diag d], rfl, by simp [Event.isTalk, hd]⟩

theorem env (s : State) (env : List (Bytes × Bytes)) : OnlyTalks s { s with env := env } :=
  ⟨rfl, rfl, rfl, rfl, rfl, rfl, [], by simp⟩

theorem cwd (s : State) (cwd : Bytes) : OnlyTalks s { s with cwd := cwd } :=
  ⟨rfl, rfl, rfl, rfl, rfl, rfl, [], by simp⟩

theorem asg (argv : List Bytes) (s : State) : OnlyTalks s (asg argv s) := by
  simp only [Shell.asg]
  split
  · exact diag s rfl
  · split
    · exact diag s rfl
    · split
      · exact diag s rfl
      · exact env s _

theorem set (argv : List Bytes) (s : State) : OnlyTalks s (set argv s) := by
  simp only [Shell.set]
  split
  · exact diag s rfl
  · refine ⟨rfl, rfl, rfl, rfl, rfl, rfl, _, rfl, fun e he => ?_⟩
    obtain ⟨v, -, rfl⟩ := List.mem_map.mp he
    rfl

theorem cd (sys : System) (argv : List Bytes) (s : State) : OnlyTalks s (cd sys argv s) := by
  simp only [Shell.cd]
  split
  · exact cwd s _
  · exact diag s rfl

theorem checkPlain (srcfd dstfd : ℤ) (s : State) : OnlyTalks s (checkPlain srcfd dstfd s) := by
  simp only [Shell.checkPlain]
  split
  · exact diag s rfl
  · exact refl s

end OnlyTalks

/-- A builtin is run in the shell itself: it may change the environment and the working directory,
and write, but nothing else. -/
theorem builtin_frame {argv : List Bytes} (h : isBuiltin (argv0 argv) = true) (sys : System)
    (srcfd dstfd : ℤ) (s : State) :
    OnlyTalks (s.log (.builtin argv)) (builtin sys argv srcfd dstfd s).2 := by
  simp only [builtin]
  split_ifs with h₁ h₂ h₃
  · exact (OnlyTalks.asg ..).trans (OnlyTalks.checkPlain ..)
  · exact (OnlyTalks.set ..).trans (OnlyTalks.checkPlain ..)
  · exact (OnlyTalks.cd ..).trans (OnlyTalks.checkPlain ..)
  · simp_all [isBuiltin]

/-! ### What `invoke` does -/

namespace Invocation

variable (a : Invocation)

/-- The stage is run in a child: it has a word and is no builtin. -/
def IsExternal : Prop := a.argv ≠ [] ∧ isBuiltin (argv0 a.argv) = false

instance : Decidable a.IsExternal := inferInstanceAs (Decidable (_ ∧ _))

/-- The pid of the child that the stage is run in, if there is one. -/
def forks (calls : Calls) : Option ℕ+ := if a.IsExternal then calls.fork else none

/-- The table of the shell after the two `close` calls that follow a `fork`. -/
def closeEnds (t : FdTable Obj) : FdTable Obj :=
  let t := if a.srcfd > 1 then t.sysClose a.srcfd else t
  if a.dstfd > 1 then t.sysClose a.dstfd else t

/-- What the shell records from a successful `fork` to the end of `invoke`. -/
def forkEvents (c : Child) (t : FdTable Obj) : List Event :=
  let t' := if a.srcfd > 1 then t.sysClose a.srcfd else t
  .fork c :: ((if a.srcfd > 1 then [.close t'] else []) ++
    (if a.dstfd > 1 then [.close (t'.sysClose a.dstfd)] else []) ++
    (if a.bckgrnd then [.job c.pid] else []))

end Invocation

variable (sys : System) (a : Invocation) (s : State)

/-- An empty stage is done at once. -/
theorem invoke_of_nil (h : a.argv = []) : invoke sys a s = (0, (s.log (.invoke a)).nextStage) := by
  simp [invoke, h]

/-- A builtin is run by the shell, which returns before its two `close` calls. -/
theorem invoke_of_isBuiltin (hne : a.argv ≠ []) (h : isBuiltin (argv0 a.argv) = true) :
    invoke sys a s =
      (0, (builtin sys a.argv a.srcfd a.dstfd (s.log (.invoke a))).2.nextStage) := by
  simp [invoke, hne, builtin_fst, h]

/-- So does a stage whose `fork` fails. -/
theorem invoke_of_fork_fails (h : a.IsExternal) (hfork : (sys.calls s.stages).fork = none) :
    invoke sys a s = (0, ((s.log (.invoke a)).diag .cannotFork).nextStage) := by
  simp [invoke, h.1, builtin_of_not_isBuiltin h.2, hfork]

/-- The child that the next stage is run in. -/
def nextChild (pid : ℕ+) : Child := runChild (sys.calls s.stages) a pid s.stages s.fds

@[simp] theorem nextChild_stage (pid : ℕ+) : (nextChild sys a s pid).stage = s.stages := rfl

/-- The state after a stage that was forked. -/
def afterFork (pid : ℕ+) : State :=
  { s with
    fds := a.closeEnds s.fds
    children := s.children ++ [nextChild sys a s pid]
    stages := s.stages + 1
    trace := s.trace ++ .invoke a :: a.forkEvents (nextChild sys a s pid) s.fds }

theorem invoke_of_forks {pid : ℕ+} (h : a.forks (sys.calls s.stages) = some pid) :
    invoke sys a s = (((pid : ℕ) : ℤ), afterFork sys a s pid) := by
  have hext : a.IsExternal := by
    by_contra hext
    simp [Invocation.forks, hext] at h
  have hfork : (sys.calls s.stages).fork = some pid := by
    simpa [Invocation.forks, hext] using h
  simp only [invoke, List.length_eq_zero_iff, hext.1, ↓reduceIte,
    builtin_of_not_isBuiltin hext.2, Bool.false_eq_true, State.log_stages, hfork]
  simp only [afterFork, nextChild, Invocation.closeEnds, Invocation.forkEvents]
  by_cases h₁ : a.srcfd > 1 <;> by_cases h₂ : a.dstfd > 1 <;> by_cases h₃ : a.bckgrnd <;>
    simp [h₁, h₂, h₃, State.close, State.log, State.nextStage, runChild]

/-- The three ways `invoke` returns early, and the one way it forks. -/
theorem invoke_cases (sys : System) (a : Invocation) (s : State) :
    (a.argv = [] ∧ invoke sys a s = (0, (s.log (.invoke a)).nextStage)) ∨
    (a.argv ≠ [] ∧ isBuiltin (argv0 a.argv) = true ∧ invoke sys a s =
      (0, (builtin sys a.argv a.srcfd a.dstfd (s.log (.invoke a))).2.nextStage)) ∨
    (a.IsExternal ∧ (sys.calls s.stages).fork = none ∧
      invoke sys a s = (0, ((s.log (.invoke a)).diag .cannotFork).nextStage)) ∨
    ∃ pid, a.forks (sys.calls s.stages) = some pid ∧
      invoke sys a s = (((pid : ℕ) : ℤ), afterFork sys a s pid) := by
  by_cases hne : a.argv = []
  · exact Or.inl ⟨hne, invoke_of_nil sys a s hne⟩
  refine Or.inr ?_
  cases hb : isBuiltin (argv0 a.argv) with
  | true => exact Or.inl ⟨hne, rfl, invoke_of_isBuiltin sys a s hne hb⟩
  | false =>
    refine Or.inr ?_
    cases hf : (sys.calls s.stages).fork with
    | none => exact Or.inl ⟨⟨hne, hb⟩, rfl, invoke_of_fork_fails sys a s ⟨hne, hb⟩ hf⟩
    | some pid =>
      have hforks : a.forks (sys.calls s.stages) = some pid := by
        simp [Invocation.forks, Invocation.IsExternal, hne, hb, hf]
      exact Or.inr ⟨pid, hforks, invoke_of_forks sys a s hforks⟩

/-! ### The fields after `invoke` -/

section Fields

variable (sys : System) (a : Invocation) (s : State)

theorem Invocation.forks_of_nil {a : Invocation} (h : a.argv = []) (calls : Calls) :
    a.forks calls = none := by
  simp [Invocation.forks, Invocation.IsExternal, h]

theorem Invocation.forks_of_isBuiltin {a : Invocation} (h : isBuiltin (argv0 a.argv) = true)
    (calls : Calls) : a.forks calls = none := by
  simp [Invocation.forks, Invocation.IsExternal, h]

/-- `invoke` seen through one function of the result: it is determined by the child, if there is
one, and by what the early returns leave. -/
theorem invoke_ind {P : ℤ × State → Prop} {a : Invocation} {s : State}
    (early : a.forks (sys.calls s.stages) = none →
      ∀ s' : State, s'.stdin = s.stdin → s'.fds = s.fds → s'.pid = s.pid →
        s'.children = s.children → s'.mallocs = s.mallocs → s'.stages = s.stages + 1 →
        P (0, s'))
    (forked : ∀ pid, a.forks (sys.calls s.stages) = some pid →
      P (((pid : ℕ) : ℤ), afterFork sys a s pid)) :
    P (invoke sys a s) := by
  rcases invoke_cases sys a s with ⟨h, hi⟩ | ⟨-, h, hi⟩ | ⟨h, hf, hi⟩ | ⟨pid, h, hi⟩ <;> rw [hi]
  · exact early (Invocation.forks_of_nil h _) _ rfl rfl rfl rfl rfl rfl
  · have hframe := builtin_frame h sys a.srcfd a.dstfd (s.log (.invoke a))
    exact early (Invocation.forks_of_isBuiltin h _) _ hframe.stdin hframe.fds hframe.pid
      hframe.children hframe.mallocs (congrArg (· + 1) hframe.stages)
  · exact early (by simp [Invocation.forks, h, hf]) _ rfl rfl rfl rfl rfl rfl
  · exact forked pid h

theorem invoke_fst : (invoke sys a s).1 =
    ((a.forks (sys.calls s.stages)).elim 0 fun pid => ((pid : ℕ) : ℤ)) :=
  invoke_ind sys (P := fun r => r.1 = _) (fun h _ _ _ _ _ _ _ => by rw [h]; rfl)
    fun _ h => by rw [h]; rfl

@[simp] theorem invoke_stdin : (invoke sys a s).2.stdin = s.stdin :=
  invoke_ind sys (P := fun r => r.2.stdin = s.stdin) (fun _ _ h _ _ _ _ _ => h) fun _ _ => rfl

@[simp] theorem invoke_pid : (invoke sys a s).2.pid = s.pid :=
  invoke_ind sys (P := fun r => r.2.pid = s.pid) (fun _ _ _ _ h _ _ _ => h) fun _ _ => rfl

@[simp] theorem invoke_stages : (invoke sys a s).2.stages = s.stages + 1 :=
  invoke_ind sys (P := fun r => r.2.stages = s.stages + 1) (fun _ _ _ _ _ _ _ h => h)
    fun _ _ => rfl

theorem invoke_fds : (invoke sys a s).2.fds =
    if (a.forks (sys.calls s.stages)).isSome then a.closeEnds s.fds else s.fds :=
  invoke_ind sys (P := fun r => r.2.fds = _) (fun h _ _ hfds _ _ _ _ => by rw [h]; exact hfds)
    fun _ h => by rw [h]; rfl

theorem invoke_children : (invoke sys a s).2.children =
    s.children ++ ((a.forks (sys.calls s.stages)).map (nextChild sys a s)).toList :=
  invoke_ind sys (P := fun r => r.2.children = _)
    (fun h _ _ _ _ hc _ _ => by rw [h]; simpa using hc) fun _ h => by rw [h]; rfl

end Fields

/-! ### The record of `invoke` -/

section Record

variable (sys : System) (a : Invocation) (s : State)

/-- The record of one call of `invoke`: the call, and then events of the following kinds. -/
structure InvokeRecord (sys : System) (a : Invocation) (s : State) (es : List Event) : Prop where
  trace : (invoke sys a s).2.trace = s.trace ++ .invoke a :: es
  invocation : ∀ e ∈ es, e.toInvocation = none
  rejection : ∀ e ∈ es, e.isRejection = false
  children : es.filterMap Event.toChild =
    ((a.forks (sys.calls s.stages)).map (nextChild sys a s)).toList
  run : (∃ e ∈ es, e.isRun) ↔
    (a.argv ≠ [] ∧ isBuiltin (argv0 a.argv) = true) ∨ (a.forks (sys.calls s.stages)).isSome
  table : ∀ e ∈ es, ∀ t, e.toTable = some t →
    t = s.fds.sysClose a.srcfd ∨ t = a.closeEnds s.fds

theorem Event.isTalk.plain {e : Event} (h : e.isTalk) : e.toInvocation = none ∧
    e.toChild = none ∧ e.toTable = none ∧ e.isRun = false ∧ e.isRejection = false := by
  cases e <;> simp_all [Event.isTalk, Event.toInvocation, Event.toChild, Event.toTable,
    Event.isRun, Event.isRejection]

theorem invokeRecord_of_forks {pid : ℕ+} (h : a.forks (sys.calls s.stages) = some pid) :
    InvokeRecord sys a s (a.forkEvents (nextChild sys a s pid) s.fds) where
  trace := by rw [invoke_of_forks sys a s h]; rfl
  invocation := by
    simp only [Invocation.forkEvents]
    split_ifs <;> simp [Event.toInvocation]
  rejection := by
    simp only [Invocation.forkEvents]
    split_ifs <;> simp [Event.isRejection]
  children := by
    rw [h]
    simp only [Invocation.forkEvents]
    split_ifs <;> simp [Event.toChild]
  run := by simp [h, Invocation.forkEvents, Event.isRun]
  table := by
    simp only [Invocation.forkEvents, Invocation.closeEnds]
    split_ifs <;> simp [Event.toTable]

theorem exists_invokeRecord : ∃ es, InvokeRecord sys a s es := by
  rcases invoke_cases sys a s with ⟨h, hi⟩ | ⟨hne, h, hi⟩ | ⟨h, hf, hi⟩ | ⟨pid, h, -⟩
  · refine ⟨[], by rw [hi]; rfl, by simp, by simp, ?_, ?_, by simp⟩
    · rw [Invocation.forks_of_nil h]
      rfl
    · simp [Invocation.forks_of_nil h, h]
  · obtain ⟨es, hes, htalk⟩ := (builtin_frame h sys a.srcfd a.dstfd (s.log (.invoke a))).trace
    have hplain := fun e he => Event.isTalk.plain (htalk e he)
    have hforks := Invocation.forks_of_isBuiltin h (sys.calls s.stages)
    refine ⟨.builtin a.argv :: es, ?_, ?_, ?_, ?_, ?_, ?_⟩
    · rw [hi]
      change (builtin sys a.argv a.srcfd a.dstfd (s.log (.invoke a))).2.trace = _
      rw [hes]
      simp
    · intro e he
      rcases List.mem_cons.mp he with rfl | he
      · rfl
      · exact (hplain e he).1
    · intro e he
      rcases List.mem_cons.mp he with rfl | he
      · rfl
      · exact (hplain e he).2.2.2.2
    · have hnone : es.filterMap Event.toChild = [] :=
        List.filterMap_eq_nil_iff.mpr fun e he => (hplain e he).2.1
      rw [hforks, List.filterMap_cons_none rfl, hnone]
      rfl
    · simp [Event.isRun, hne, h]
    · intro e he
      rcases List.mem_cons.mp he with rfl | he
      · exact nofun
      · rw [(hplain e he).2.2.1]
        exact nofun
  · have hforks : a.forks (sys.calls s.stages) = none := by simp [Invocation.forks, h, hf]
    refine ⟨[.diag .cannotFork], by rw [hi]; simp [State.diag, State.nextStage], ?_, ?_, ?_, ?_, ?_⟩
    · simp [Event.toInvocation]
    · simp [Event.isRejection, Diag.isRejection]
    · rw [hforks]
      rfl
    · simp [hforks, Event.isRun, h.2]
    · simp [Event.toTable]
  · exact ⟨_, invokeRecord_of_forks sys a s h⟩

end Record

end UnixStudy.Shell
