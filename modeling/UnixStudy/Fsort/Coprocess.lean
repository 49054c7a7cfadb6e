import UnixStudy.Foundations.Fifos
import UnixStudy.Foundations.Pipes

/-!
# `fsort` and the program `sort`

`fsort` writes a file to a child, which runs the program `sort`, through one pipe, and reads what
the child writes through another one. Each of the two might wait for the other for ever: the child
reads until no process has the end for writing of the first pipe open, and pipes hold only so much.
Each process closes the ends that it does not use, and the parent reads nothing before it has
written all and closed its end; since `sort` writes nothing before it has read all, neither pipe is
left full.

If there is no child, since `fork` has failed, nobody can read what the parent writes. If the file
cannot be opened, `read` returns `-1`, which `fsort` does not take for the end of the file.

The steps are the system calls, or parts of them: a call of `write` puts what it is given into a
pipe in several steps, if there is not enough room. The calls of `pipe` and `execlp` succeed, and so
do those of `read` and `write` for open descriptors, but `SIGPIPE` kills a process that writes to a
pipe that nobody can read.

## Main definitions

* `Pipe`, `Object` : the pipes, and what descriptors are open on.
* `ParentPc`, `ChildPc` : the statements of the two processes.
* `Env` : what does not change: the descriptors of the pipes, whether the file can be opened, what
  `sort` makes of its input, and how much the pipes hold.
* `System`, `Env.step` : the state of the two processes, and a step of one of them.

## References

* `src/communication/fsort.c`.
-/

namespace UnixStudy.Fsort

/-! ### Descriptors -/

/-- The pipe to the child, and the one from it. -/
inductive Pipe
  | pfdout
  | pfdin
  deriving DecidableEq

/-- What a descriptor is open on: an end of a pipe, the file, or something else. -/
inductive Object
  | pipe (p : Pipe) (e : FifoEnd)
  | datafile
  | other (n : ℕ)
  deriving DecidableEq

/-- The next statement of the parent, with what a call of `write` has still to write. -/
inductive ParentPc
  | closeOut0 | closeIn1 | openFile | readFile
  | writePipe (buf : List UInt8)
  | closeFile | closeOut1 | readPipe
  | writeStdout (buf : List UInt8)
  | closeIn0 | waitpid | returned | killed

/-- The next statement of the child, or what the program `sort` has read, and what it has still to
write. -/
inductive ChildPc
  | absent
  | dupIn | closeOut0 | closeOut1 | dupOut | closeIn0 | closeIn1 | execlp
  | reading (input : List UInt8)
  | writing (output : List UInt8)
  | exited

/-- What does not change: the descriptors that the two calls of `pipe` have returned, which are not
those of the standard input and output, and the table of descriptors then; whether the file can be
opened; what `sort` writes for its input; and how much a pipe holds. -/
structure Env where
  fd : Pipe → FifoEnd → ℕ
  table : FdTable Object
  opens : Bool
  sort : List UInt8 → List UInt8
  capacity : Pipe → ℕ
  fd_inj : ∀ p e p' e', fd p e = fd p' e' → p = p' ∧ e = e'
  two_le : ∀ p e, 2 ≤ fd p e
  named : ∀ p e, table.named (.pipe p e) = {fd p e}
  capacity_pos : ∀ p, 0 < capacity p

namespace Env

variable (env : Env)

/-- The parent has closed the ends that it does not use. -/
def parentEnds : FdTable Object :=
  (env.table.sysClose (env.fd .pfdout .reading)).sysClose (env.fd .pfdin .writing)

/-- The parent has opened the file, if it can be opened. -/
def parentOpened : ℤ × FdTable Object := env.parentEnds.sysOpen env.opens .datafile

/-- The parent has closed the file. -/
def parentClosed : FdTable Object := env.parentOpened.2.sysClose env.parentOpened.1

/-- The parent has closed the end that it writes to. -/
def parentWritten : FdTable Object := env.parentClosed.sysClose (env.fd .pfdout .writing)

/-- The descriptors of the parent in front of a statement. -/
def parentTable : ParentPc → FdTable Object
  | .closeOut0 => env.table
  | .closeIn1 => env.table.sysClose (env.fd .pfdout .reading)
  | .openFile => env.parentEnds
  | .readFile | .writePipe _ | .closeFile => env.parentOpened.2
  | .closeOut1 => env.parentClosed
  | .readPipe | .writeStdout _ | .closeIn0 => env.parentWritten
  | .waitpid | .returned => env.parentWritten.sysClose (env.fd .pfdin .reading)
  | .killed => ⟨[]⟩

/-- The child has its standard input. -/
def childStdin : FdTable Object := env.table.sysDup2 true (env.fd .pfdout .reading) 0

/-- The child has closed the first pipe. -/
def childOut : FdTable Object :=
  (env.childStdin.sysClose (env.fd .pfdout .reading)).sysClose (env.fd .pfdout .writing)

/-- The child has its standard output. -/
def childStdout : FdTable Object := env.childOut.sysDup2 true (env.fd .pfdin .writing) 1

/-- The child has closed the second pipe. -/
def childEnds : FdTable Object :=
  (env.childStdout.sysClose (env.fd .pfdin .reading)).sysClose (env.fd .pfdin .writing)

/-- The descriptors of the child in front of a statement. -/
def childTable : ChildPc → FdTable Object
  | .absent | .exited => ⟨[]⟩
  | .dupIn => env.table
  | .closeOut0 => env.childStdin
  | .closeOut1 => env.childStdin.sysClose (env.fd .pfdout .reading)
  | .dupOut => env.childOut
  | .closeIn0 => env.childStdout
  | .closeIn1 => env.childStdout.sysClose (env.fd .pfdin .reading)
  | .execlp | .reading _ | .writing _ => env.childEnds

end Env

/-! ### Steps -/

/-- The two processes; what is in the pipes; what was not yet read from the file, and what was
written to the standard output. -/
structure System where
  parent : ParentPc
  child : ChildPc
  queue : Pipe → List UInt8
  unread : List UInt8
  stdout : List UInt8

/-- The processes after a call of `fork`, which may fail. -/
def System.start (forked : Bool) (datafile : List UInt8) : System :=
  ⟨.closeOut0, if forked then .dupIn else .absent, fun _ => [], datafile, []⟩

/-- A step of a process. It gets a number of bytes if it reads or writes. -/
inductive Label
  | parent (k : ℕ)
  | child (k : ℕ)

namespace Env

variable (env : Env) (s : System)

/-- An end of a pipe is open in a process. -/
def HasOpen (p : Pipe) (e : FifoEnd) : Prop :=
  (env.parentTable s.parent).Names (.pipe p e) ∨ (env.childTable s.child).Names (.pipe p e)

instance (p : Pipe) (e : FifoEnd) : Decidable (env.HasOpen s p e) :=
  inferInstanceAs (Decidable (_ ∨ _))

/-- A call of `read` for a descriptor that is open on a pipe: what it returns, and what the pipes
hold then. -/
def sysReadPipe (t : FdTable Object) (fd k : ℕ) :
    Option (List UInt8 × (Pipe → List UInt8)) := do
  let .pipe p .reading ← t.slot fd | none
  let (taken, rest) ← pipeRead (env.HasOpen s p .writing) (s.queue p) k
  some (taken, Function.update s.queue p rest)

/-- A part of a call of `write` for a descriptor that is open on a pipe: what the pipes hold then,
and what is still to be written; or the process is killed, since nobody can read. -/
def sysWritePipe (t : FdTable Object) (fd : ℕ) (buf : List UInt8) (k : ℕ) :
    Option (Option ((Pipe → List UInt8) × List UInt8)) := do
  let .pipe p .writing ← t.slot fd | none
  if env.HasOpen s p .reading then do
    let (queue, rest) ← pipeWrite (env.capacity p) (s.queue p) buf k
    some (some (Function.update s.queue p queue, rest))
  else some none

/-- A step of the parent. -/
def parentStep (k : ℕ) : Option System :=
  match s.parent with
  | .closeOut0 => some { s with parent := .closeIn1 }
  | .closeIn1 => some { s with parent := .openFile }
  | .openFile => some { s with parent := .readFile }
  | .readFile =>
    -- Without the file `read` returns `-1`, and so does `write`, for `2 ^ 64 - 1` bytes.
    if env.opens = false then some s
    else if s.unread = [] then some { s with parent := .closeFile }
    else if k = 0 ∨ 512 < k then none
    else some { s with parent := .writePipe (s.unread.take k), unread := s.unread.drop k }
  | .writePipe buf =>
    if buf = [] then some { s with parent := .readFile }
    else do
      match ← env.sysWritePipe s (env.parentTable s.parent) (env.fd .pfdout .writing) buf k with
      | some (queue, rest) => some { s with parent := .writePipe rest, queue := queue }
      | none => some { s with parent := .killed }
  | .closeFile => some { s with parent := .closeOut1 }
  | .closeOut1 => some { s with parent := .readPipe }
  | .readPipe =>
    if 512 < k then none
    else do
      let (buf, queue) ←
        env.sysReadPipe s (env.parentTable s.parent) (env.fd .pfdin .reading) k
      if buf = [] then some { s with parent := .closeIn0, queue := queue }
      else some { s with parent := .writeStdout buf, queue := queue }
  | .writeStdout buf => some { s with parent := .readPipe, stdout := s.stdout ++ buf }
  | .closeIn0 => some { s with parent := .waitpid }
  | .waitpid =>
    -- Without a child `waitpid` fails at once.
    match s.child with
    | .absent | .exited => some { s with parent := .returned }
    | _ => none
  | .returned | .killed => none

/-- A step of the child. The program `sort` reads the standard input to its end, and then writes. -/
def childStep (k : ℕ) : Option System :=
  match s.child with
  | .absent | .exited => none
  | .dupIn => some { s with child := .closeOut0 }
  | .closeOut0 => some { s with child := .closeOut1 }
  | .closeOut1 => some { s with child := .dupOut }
  | .dupOut => some { s with child := .closeIn0 }
  | .closeIn0 => some { s with child := .closeIn1 }
  | .closeIn1 => some { s with child := .execlp }
  | .execlp => some { s with child := .reading [] }
  | .reading input => do
    let (taken, queue) ← env.sysReadPipe s (env.childTable s.child) 0 k
    if taken = [] then some { s with child := .writing (env.sort input), queue := queue }
    else some { s with child := .reading (input ++ taken), queue := queue }
  | .writing output =>
    if output = [] then some { s with child := .exited }
    else do
      match ← env.sysWritePipe s (env.childTable s.child) 1 output k with
      | some (queue, rest) => some { s with child := .writing rest, queue := queue }
      | none => some { s with child := .exited }

/-- A step. -/
def step : Label → Option System
  | .parent k => env.parentStep s k
  | .child k => env.childStep s k

/-- A step of one of the processes. -/
abbrev Step (l : Label) (s' : System) : Prop := env.step s l = some s'

end Env

end UnixStudy.Fsort
