import UnixStudy.Foundations.Descriptors
import UnixStudy.Shell.Lexer
import Mathlib.Data.PNat.Notation

/-!
# The machine the shell runs on

What a run of the shell reads and changes: its input, its descriptor table, its environment and
working directory, the children it has not waited for, and a record of everything it did
(`State.trace`). How the system answers the calls of the shell and of its children is a parameter
(`System`), so that a statement for every system is a statement for every outcome of every call.

The calls made for one stage of a pipeline are a `pipe`, a `fork`, and in the child two `open` and
two `dup2`; their outcomes are indexed by the number of the stage in the whole run. A pipe is known
by the stage it was created for, so a pipe has the same number as the stage that reads it.

## Main definitions

* `Obj` : what a descriptor of the shell or of a child can name.
* `Calls`, `System` : the outcomes of the system calls.
* `Invocation`, `Child`, `Event`, `State` : arguments of `invoke`, forked children, the record of a
  run, and its state.
* `State.gettoken`, `State.pipe`, `State.close` : the calls of the shell on its state.

## References

* `src/communication/shell.c`, lines 15–22 and 233–280.
-/

namespace UnixStudy.Shell

/-- `MAXARG`. -/
abbrev MAXARG : ℕ := 50

/-- `MAXFNAME`. -/
abbrev MAXFNAME : ℕ := 500

/-- `MAXWORD`. -/
abbrev MAXWORD : ℕ := 500

/-- An open file, as a descriptor names it: the three that the shell starts with, the ends of the
pipe made for a stage, and files opened for a redirection. -/
inductive Obj
  | stdin | stdout | stderr
  | pipeRead (k : ℕ)
  | pipeWrite (k : ℕ)
  | source (name : Bytes)
  | sink (name : Bytes) (append : Bool)
  deriving DecidableEq, Repr

/-- The outcomes of the calls made for one stage: the `pipe` in front of it, its `fork` with the
pid of the child, and in the child `open` and `dup2` for the source and for the destination. -/
structure Calls where
  pipe : Bool
  fork : Option ℕ+
  openSrc : Bool
  dupSrc : Bool
  openDst : Bool
  dupDst : Bool

/-- The buffers a token is read into. -/
inductive Buffer
  | word | srcfile | dstfile
  deriving DecidableEq, Repr

/-- How the system behaves towards the shell. `beyond b n` is what the string functions of C find
in memory past the end of the buffer `b` while `n` bytes of the input are unread. -/
structure System where
  malloc : ℕ → Bool
  calls : ℕ → Calls
  chdir : Bytes → Bytes → Option Bytes
  beyond : Buffer → ℕ → Bytes

/-- The string a C function reads from a buffer of `size` bytes whose first bytes are given: up to
the first `NUL`, past the end of the buffer if it holds none. The bytes after the given ones are
`NUL`. -/
def cString (size : ℕ) (contents beyond : Bytes) : Bytes :=
  (if contents.length < size then contents else contents ++ beyond).takeWhile (· != nul)

theorem cString_nil {size : ℕ} (h : 0 < size) (b : Bytes) : cString size [] b = [] := by
  simp [cString, h]

/-- The arguments of a call of `invoke`. `append` is `none` where the source passes the variable
before it was ever assigned. -/
structure Invocation where
  argv : List Bytes
  srcfd : ℤ
  srcfile : Bytes
  dstfd : ℤ
  dstfile : Bytes
  append : Option Bool
  bckgrnd : Bool
  closefd : ℤ
  deriving DecidableEq, Repr

/-- A forked child: the stage it runs, its pid, the table it inherited, the table that `redirect`
left it with, whether `fd_check` ended it, whether `entry_sig` restored its signals, and the
arguments of its `execvp` otherwise. -/
structure Child where
  stage : ℕ
  pid : ℕ+
  inherited : FdTable Obj
  fds : FdTable Obj
  stopped : Bool
  entrySig : Bool
  path : Bytes
  argv : List Bytes
  deriving DecidableEq

/-- What the shell does, in order. Calls that change the descriptor table carry the new one. -/
inductive Event
  | token (t : Lexed)
  | diag (d : Diag)
  | print (line : Bytes)
  | pipe (fds : FdTable Obj)
  | invoke (a : Invocation)
  | builtin (argv : List Bytes)
  | fork (child : Child)
  | close (fds : FdTable Obj)
  | job (pid : ℕ+)
  deriving DecidableEq

/-- The messages about the command line as it was typed, which the shell writes while it reads
it. -/
def Diag.isRejection : Diag → Bool
  | .wordTooLong | .tooManyArgs | .outOfArgMemory | .extraLt | .illegalLt | .extraGt
  | .illegalGt | .conflictsBar | .missingCommand => true
  | _ => false

/-- Those of them that are about the tokens and not about the space they take. -/
def Diag.isSyntax : Diag → Bool
  | .tooManyArgs | .extraLt | .illegalLt | .extraGt | .illegalGt | .conflictsBar
  | .missingCommand => true
  | _ => false

theorem Diag.isRejection_of_isSyntax {d : Diag} (h : d.isSyntax) : d.isRejection := by
  cases d <;> first | rfl | simp [Diag.isSyntax] at h

/-- A message about the command line was written. -/
def Event.isRejection : Event → Bool
  | .diag d => d.isRejection
  | _ => false

/-- A message about the tokens of the command line was written. -/
def Event.isSyntax : Event → Bool
  | .diag d => d.isSyntax
  | _ => false

theorem Event.isRejection_of_isSyntax {e : Event} (h : e.isSyntax) : e.isRejection := by
  cases e with
  | diag d => exact Diag.isRejection_of_isSyntax h
  | _ => simp [Event.isSyntax] at h

/-- What a builtin writes: lines of output, and messages about itself. -/
def Event.isTalk : Event → Bool
  | .print _ => true
  | .diag d => !d.isRejection
  | _ => false

/-- What the shell records while it reads: tokens and messages. -/
def Event.isReading : Event → Bool
  | .token _ | .diag _ => true
  | _ => false

/-- A child was forked or a builtin run. -/
def Event.isRun : Event → Bool
  | .fork _ | .builtin _ => true
  | _ => false

/-- The call of `invoke` that an event records. -/
def Event.toInvocation : Event → Option Invocation
  | .invoke a => some a
  | _ => none

/-- The child that an event records the `fork` of. -/
def Event.toChild : Event → Option Child
  | .fork c => some c
  | _ => none

/-- The descriptor table after a call that changed it. -/
def Event.toTable : Event → Option (FdTable Obj)
  | .pipe t | .close t => some t
  | _ => none

/-- The message that an event records. -/
def Event.toDiag : Event → Option Diag
  | .diag d => some d
  | _ => none

/-- The state of the shell. `pid` is the variable of `start_shell` that `wpid` points to, `mallocs`
counts the calls of `malloc`, and `stages` those of `invoke`. -/
structure State where
  stdin : Stdin
  fds : FdTable Obj
  env : List (Bytes × Bytes)
  cwd : Bytes
  pid : ℤ
  children : List Child
  mallocs : ℕ := 0
  stages : ℕ := 0
  trace : List Event := []

/-- A system in which every call succeeds. -/
def System.obliging : System where
  malloc _ := true
  calls k := ⟨true, some ⟨k + 1, Nat.succ_pos k⟩, true, true, true, true⟩
  chdir _ path := some path
  beyond _ _ := []

namespace State

/-- A shell that is about to read the given input, with the three standard descriptors open. -/
def start (input : Bytes) : State where
  stdin := ⟨input, false⟩
  fds := ⟨[some .stdin, some .stdout, some .stderr]⟩
  env := []
  cwd := []
  pid := 0
  children := []

/-- Record an event. -/
def log (s : State) (e : Event) : State := { s with trace := s.trace ++ [e] }

/-- Write a message. -/
def diag (s : State) (d : Diag) : State := s.log (.diag d)

/-- A call of `gettoken` on the standard input. -/
def gettoken (maxword : ℕ) (s : State) : Lexed × State :=
  let r := Shell.gettoken maxword s.stdin
  (r.1, { s with stdin := r.2, trace := s.trace ++ .token r.1 :: r.1.diags.map Event.diag })

/-- `pipe` for the stage that `invoke` is about to be called for. -/
def pipe (sys : System) (s : State) : (ℤ × ℤ) × State :=
  let r := s.fds.sysPipe (sys.calls s.stages).pipe (.pipeRead s.stages) (.pipeWrite s.stages)
  (r.1, { s with fds := r.2 }.log (.pipe r.2))

/-- The messages written so far. -/
def messages (s : State) : List Diag := s.trace.filterMap Event.toDiag

@[simp] theorem messages_diag (s : State) (d : Diag) :
    (s.diag d).messages = s.messages ++ [d] := by
  simp [messages, diag, log, Event.toDiag]

@[simp] theorem messages_gettoken (maxword : ℕ) (s : State) :
    (s.gettoken maxword).2.messages = s.messages ++ (s.gettoken maxword).1.diags := by
  simp only [messages, gettoken, List.filterMap_append, List.filterMap_cons, Event.toDiag,
    List.filterMap_map]
  congr 1
  exact List.filterMap_some

@[simp] theorem log_fds (s : State) (e : Event) : (s.log e).fds = s.fds := rfl

@[simp] theorem log_stages (s : State) (e : Event) : (s.log e).stages = s.stages := rfl

@[simp] theorem log_trace (s : State) (e : Event) : (s.log e).trace = s.trace ++ [e] := rfl

/-- What happened between two states of a run. -/
def since (s s' : State) : List Event := s'.trace.drop s.trace.length

theorem since_eq {s s' : State} {es : List Event} (h : s'.trace = s.trace ++ es) :
    s.since s' = es := by
  rw [since, h, List.drop_left]

theorem trace_eq {s s' : State} (h : s.trace <+: s'.trace) :
    s'.trace = s.trace ++ s.since s' := by
  obtain ⟨es, hes⟩ := h
  rw [since_eq hes.symm, hes]

theorem since_trans {s s' s'' : State} (h : s.trace <+: s'.trace) (h' : s'.trace <+: s''.trace) :
    s.since s'' = s.since s' ++ s'.since s'' :=
  since_eq (by rw [trace_eq h', trace_eq h, List.append_assoc])

@[simp] theorem since_self (s : State) : s.since s = [] := since_eq (List.append_nil _).symm

/-- `close`. -/
def close (fd : ℤ) (s : State) : State :=
  { s with fds := s.fds.sysClose fd }.log (.close (s.fds.sysClose fd))

end State

end UnixStudy.Shell
