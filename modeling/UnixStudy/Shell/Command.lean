import UnixStudy.Shell.Invoke

/-!
# Reading and running a command line

`command` of `shell.c` reads the tokens of one stage; at a `|` it calls itself for the rest of the
pipeline before it makes the pipe and runs its own stage, so the stages are read from left to right
and run from right to left. A syntax error only leaves the `switch`: the loop goes on with the next
token.

The loop and the recursion both read on, so one fuel argument bounds them together; every round
removes a byte of the input or ends the call (`command_ne_starved`), and `command` gives the loop
the fuel it needs.

## Main definitions

* `Locals` : the local variables of `command`.
* `Outcome` : how a call of `command` ends.
* `finish` : the end of a stage, from the creation of its pipe on.
* `commandLoop`, `command` : the function.

## References

* `src/communication/shell.c`, lines 277–362.
-/

namespace UnixStudy.Shell

/-- The local variables of `command`. The arrays `srcfile` and `dstfile` hold the given bytes
followed by `NUL`s; `append` is `none` until it is assigned. -/
structure Locals where
  argv : List Bytes := []
  srcfd : ℤ := 0
  dstfd : ℤ := 1
  srcfile : Bytes := []
  dstfile : Bytes := []
  append : Option Bool := none
  deriving DecidableEq, Repr

/-- Write the given bytes over the start of an array. -/
def overlay (new old : Bytes) : Bytes := new ++ old.drop new.length

/-- How a call of `command` ends: with a token and, if it was written, the value of `*pipefdp`; by
ending the shell; or, in the model only, for want of fuel. -/
inductive Outcome
  | returned (term : Token) (pipefd : Option ℤ)
  | exited
  | starved
  deriving DecidableEq, Repr

/-- The source's test for a stage without a word. -/
def isMissing (argv : List Bytes) (token : Token) (srcfd : ℤ) : Bool :=
  argv.length = 0 && (token != .nl || srcfd > 1)

/-- The arguments that `command` passes to `invoke` while `n` bytes of the input are unread. -/
def stageArgs (sys : System) (n : ℕ) (term : Token) (l : Locals) (srcfd closefd : ℤ) :
    Invocation where
  argv := l.argv
  srcfd := srcfd
  srcfile := cString MAXFNAME l.srcfile (sys.beyond .srcfile n)
  dstfd := l.dstfd
  dstfile := cString MAXFNAME l.dstfile (sys.beyond .dstfile n)
  append := l.append
  bckgrnd := term == .amp
  closefd := closefd

/-- The end of a stage: make its pipe unless it is the first one, run it, report an empty one. The
result is the value of `*pipefdp`, if it is written, and the state. -/
def finish (sys : System) (makepipe : Bool) (token term : Token) (l : Locals) (s : State) :
    Option ℤ × State :=
  let p := if makepipe then s.pipe sys else ((-1, -1), s)
  let srcfd := if makepipe then p.1.1 else l.srcfd
  let r := invoke sys (stageArgs sys p.2.stdin.unread.length term l srcfd p.1.2) p.2
  let s := if token ≠ .bar then { r.2 with pid := r.1 } else r.2
  let s := if isMissing l.argv token srcfd then s.diag .missingCommand else s
  (if makepipe then some p.1.2 else none, s)

/-- `return term` at the end of a stage. -/
def returnTerm (term : Token) (r : Option ℤ × State) : Outcome × State :=
  (.returned term r.1, r.2)

/-- The loop of `command`, with the local variables it has set so far. -/
def commandLoop (sys : System) : ℕ → Bool → Locals → State → Outcome × State
  | 0, _, _, s => (.starved, s)
  | fuel + 1, makepipe, l, s =>
    let t := s.gettoken MAXWORD
    match t.1.token with
    | .word =>
      if l.argv.length ≥ MAXARG - 1 then
        commandLoop sys fuel makepipe l (t.2.diag .tooManyArgs)
      else
        let s := { t.2 with mallocs := t.2.mallocs + 1 }
        if sys.malloc t.2.mallocs then
          let word := cString MAXWORD t.1.word (sys.beyond .word s.stdin.unread.length)
          commandLoop sys fuel makepipe { l with argv := l.argv ++ [word] } s
        else commandLoop sys fuel makepipe l (s.diag .outOfArgMemory)
    | .lt =>
      if makepipe then commandLoop sys fuel makepipe l (t.2.diag .extraLt)
      else
        let f := t.2.gettoken MAXFNAME
        let l := { l with srcfile := overlay f.1.word l.srcfile }
        if f.1.token ≠ .word then commandLoop sys fuel makepipe l (f.2.diag .illegalLt)
        else commandLoop sys fuel makepipe { l with srcfd := -1 } f.2
    | .gt | .gtgt =>
      if l.dstfd ≠ 1 then commandLoop sys fuel makepipe l (t.2.diag .extraGt)
      else
        let f := t.2.gettoken MAXFNAME
        let l := { l with dstfile := overlay f.1.word l.dstfile }
        if f.1.token ≠ .word then commandLoop sys fuel makepipe l (f.2.diag .illegalGt)
        else
          commandLoop sys fuel makepipe
            { l with dstfd := -1, append := some (t.1.token == .gtgt) } f.2
    | .bar =>
      if l.dstfd ≠ 1 then commandLoop sys fuel makepipe l (t.2.diag .conflictsBar)
      else
        match commandLoop sys fuel true {} t.2 with
        | (.returned .error _, s) => (.returned .error none, s)
        | (.returned term pipefd, s) =>
          returnTerm term
            (finish sys makepipe .bar term { l with dstfd := pipefd.getD l.dstfd } s)
        | (.exited, s) => (.exited, s)
        | (.starved, s) => (.starved, s)
    | .amp => returnTerm .amp (finish sys makepipe .amp .amp l t.2)
    | .semi => returnTerm .semi (finish sys makepipe .semi .semi l t.2)
    | .nl => returnTerm .nl (finish sys makepipe .nl .nl l t.2)
    | .eof => (.exited, t.2)
    | .error => (.returned .error none, t.2)

/-- `command`, called with `makepipe`; the outermost call is the one with `false`. -/
def command (sys : System) (makepipe : Bool) (s : State) : Outcome × State :=
  commandLoop sys (s.stdin.unread.length + 1) makepipe {} s

end UnixStudy.Shell
