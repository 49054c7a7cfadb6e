import UnixStudy.Shell.Invoke

/-!
# Reading a command line in words

`getargs` of the command-line application reads a line into a buffer of 200 bytes and splits it into
words. What is longer than the buffer is skipped up to the next newline; the loop that does this
goes on for ever when the input ends before it. A `NUL` byte hides the newline behind it, so such a
line counts as too long, and the line behind it is skipped in its place.

## Main definitions

* `fgets`, `strtoks` : the library functions, as `getargs` calls them.
* `Args`, `getargs` : what `getargs` makes of the input.
* `asg`, `set` : the commands that the application runs itself.

## References

* `src/process/cl.c`, lines 15–96.
-/

namespace UnixStudy.Cl

open Shell (Byte Bytes nul newline space tab equals)

/-- `MAXLINE`. -/
abbrev MAXLINE : ℕ := 200

/-- `MAXARG`. -/
abbrev MAXARG : ℕ := 20

/-- The environment of a process. -/
abbrev Env := List (Bytes × Bytes)

/-- What is written on the standard output, apart from the prompt. -/
inductive Output
  | extraArgs -- `Extra args`
  | badCommand -- `bad command`
  | lineTooLong -- `Line too long -- command ignored`
  | tooManyArgs -- `Too many args -- command ignored`
  | parentError -- `Parent error`
  | shouldNotReachHere -- `Should not reach here`
  | setting (name val : Bytes) -- `%s`
  deriving DecidableEq, Repr

/-! ### `getargs` -/

/-- The bytes that `fgets` stores, without the terminator, when there is room for `n`. -/
def fgets : ℕ → Bytes → Bytes
  | 0, _ => []
  | _, [] => []
  | n + 1, c :: cs => if c = newline then [c] else c :: fgets n cs

/-- The delimiters that `strtok` is called with. -/
def isDelimiter (c : Byte) : Bool := c == space || c == tab || c == newline

/-- The words that repeated calls of `strtok` return, when the current one begins with `word`. -/
def strtoksLoop : Bytes → Bytes → List Bytes
  | word, [] => if word = [] then [] else [word]
  | word, c :: cs =>
    if isDelimiter c then
      if word = [] then strtoksLoop [] cs else word :: strtoksLoop [] cs
    else strtoksLoop (word ++ [c]) cs

/-- The words that repeated calls of `strtok` return. -/
def strtoks (cmd : Bytes) : List Bytes := strtoksLoop [] cmd

/-- What a call of `getargs` gives: the words of a line, a line that is ignored, or the end of the
input; or the call does not return. -/
inductive Args
  | args (argv : List Bytes)
  | ignored (o : Output)
  | eof
  | stuck
  deriving DecidableEq, Repr

/-- The words of a line, unless there are too many of them. -/
def lineArgs (cmd : Bytes) : Args :=
  if (strtoks cmd).length ≥ MAXARG then .ignored .tooManyArgs else .args (strtoks cmd)

/-- `getargs` on the input: how many bytes it takes, and its result. -/
def getargs (cs : Bytes) : ℕ × Args :=
  let line := fgets (MAXLINE - 1) cs
  if line = [] then (0, .eof)
  else
    let cmd := line.takeWhile (· != nul)
    if newline ∉ cmd then
      -- The rest of the line is eaten up.
      match (cs.drop line.length).findIdx? (· == newline) with
      | some i => (line.length + (i + 1), .ignored .lineTooLong)
      | none => (cs.length, .stuck)
    else (line.length, lineArgs cmd)

/-! ### Commands that the application runs itself -/

/-- `asg`: the environment it leaves, and what it prints. -/
def asg (argv : List Bytes) (env : Env) : Env × List Output :=
  if argv.length ≠ 1 then (env, [.extraArgs])
  else
    match Shell.strtokEquals (Shell.argv0 argv) with
    | none => (env, [.badCommand])
    | some (name, rest) =>
      match Shell.strtokRest rest with
      | none => (env, [.badCommand])
      | some val => (Shell.setenv env name val, [])

/-- `set`: what it prints. -/
def set (argv : List Bytes) (env : Env) : List Output :=
  if argv.length ≠ 1 then [.extraArgs] else env.map fun e => .setting e.1 e.2

end UnixStudy.Cl
