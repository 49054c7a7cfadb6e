import UnixStudy.Shell.Reading
import Mathlib.Logic.Relation

/-!
# A command line that cannot be read to its end runs nothing

A call of `command` that returns `T_ERROR`, or that ends the shell, has only read. This holds at
every level of the recursion, and the failure of one level is the failure of all levels above it:
where the call for the rest of a pipeline fails, so does the call that made it, and the stages in
front are not run either.

A level of the recursion, together with the turns its loop has made, is a `Call`; one call leads to
another (`Call.Step`) by a turn of the loop or by the recursion at `|`.

## Main definitions

* `Outcome.Aborts` : the call failed.
* `NothingRun` : two states with the same descriptors, variables, directory and children.
* `Call`, `Call.run`, `Call.Step` : the levels of the recursion.

## Main results

* `Call.Step.aborts` : a failure at one level is a failure at the level above.
* `Call.aborts_nothingRun` : all or nothing.

## References

* `src/communication/shell.c`, lines 277–362.
-/

namespace UnixStudy.Shell

/-- The call returned `T_ERROR` or ended the shell. -/
def Outcome.Aborts : Outcome → Prop
  | .returned .error _ => True
  | .exited => True
  | _ => False

/-- The value that was written through `pipefdp`, if there is one. -/
def Outcome.pipefd : Outcome → Option ℤ
  | .returned _ p => p
  | _ => none

/-- Between the two states no pipe and no process was created, no builtin was run, and the variable
behind `wpid` was not written. -/
structure NothingRun (s s' : State) : Prop where
  fds : s'.fds = s.fds
  env : s'.env = s.env
  cwd : s'.cwd = s.cwd
  children : s'.children = s.children
  pid : s'.pid = s.pid
  record : ∀ e ∈ s.since s', e.isReading

theorem OnlyReads.nothingRun {s s' : State} (h : OnlyReads s s') : NothingRun s s' := by
  obtain ⟨es, hes, hread⟩ := h.trace
  refine ⟨h.fds, h.env, h.cwd, h.children, h.pid, ?_⟩
  rw [State.since_eq hes]
  exact hread

theorem afterReading_aborts {sys : System} {makepipe : Bool} {r : Reading × State}
    (h : (afterReading sys makepipe r).1.Aborts) :
    (afterReading sys makepipe r).2 = r.2 ∧ (afterReading sys makepipe r).1.pipefd = none := by
  rcases r with ⟨⟨sts, t⟩ | _ | _ | _, s⟩
  · cases t <;> exact h.elim
  all_goals exact ⟨rfl, rfl⟩

/-- A call of `command`: its argument, its local variables and the state after some turns. -/
structure Call where
  fuel : ℕ
  makepipe : Bool
  locals : Locals
  state : State

namespace Call

variable {sys : System}

/-- The rest of the call. -/
def run (sys : System) (c : Call) : Outcome × State :=
  commandLoop sys c.fuel c.makepipe c.locals c.state

/-- The outermost call of `command`. -/
def outermost (s : State) : Call := ⟨s.stdin.unread.length + 1, false, {}, s⟩

/-- One call leads to another: by a turn of its loop, or by the recursion for what stands behind
a `|`. -/
inductive Step (sys : System) : Call → Call → Prop
  | turn {fuel : ℕ} {makepipe : Bool} {l l' : Locals} {s s' : State}
      (h : round sys makepipe l s = (.go l', s')) :
      Step sys ⟨fuel + 1, makepipe, l, s⟩ ⟨fuel, makepipe, l', s'⟩
  | bar {fuel : ℕ} {makepipe : Bool} {l : Locals} {s s' : State}
      (h : round sys makepipe l s = (.bar, s')) :
      Step sys ⟨fuel + 1, makepipe, l, s⟩ ⟨fuel, true, {}, s'⟩

/-- Where the next level fails, so does this one. -/
theorem Step.aborts {c c' : Call} (h : Step sys c c') (ha : (c'.run sys).1.Aborts) :
    (c.run sys).1.Aborts := by
  cases h with
  | turn h => simpa only [run, commandLoop_succ, h] using ha
  | @bar fuel _ _ _ s' h =>
    simp only [run, commandLoop_succ, h] at ha ⊢
    generalize commandLoop sys fuel true {} s' = r at ha ⊢
    rcases r with ⟨⟨t, p⟩ | _ | _, s''⟩
    · cases t <;> exact ha
    · exact ha
    · exact ha

theorem Steps.aborts {c c' : Call} (h : Relation.ReflTransGen (Step sys) c c')
    (ha : (c'.run sys).1.Aborts) : (c.run sys).1.Aborts := by
  induction h using Relation.ReflTransGen.head_induction_on with
  | refl => exact ha
  | head hstep _ ih => exact hstep.aborts ih

theorem nothingRun_of_aborts {c : Call} (ha : (c.run sys).1.Aborts) :
    (c.run sys).1.pipefd = none ∧ NothingRun c.state (c.run sys).2 := by
  have hread := onlyReads_readLoop sys c.fuel c.makepipe c.locals c.state
  rw [run, commandLoop_eq] at ha ⊢
  obtain ⟨hstate, hpipefd⟩ := afterReading_aborts ha
  rw [hstate]
  exact ⟨hpipefd, hread.nothingRun⟩

/-- **All or nothing.** If a call of `command` fails at some level of the recursion, then it and
every call on the way to it fail, write neither of their results, and run nothing. -/
theorem aborts_nothingRun {c c' : Call} (h : Relation.ReflTransGen (Step sys) c c')
    (ha : (c'.run sys).1.Aborts) :
    (c.run sys).1.Aborts ∧ (c.run sys).1.pipefd = none ∧ NothingRun c.state (c.run sys).2 :=
  have ha := Steps.aborts h ha
  ⟨ha, nothingRun_of_aborts ha⟩

/-- In `ls|cat` the input ends before the second stage does, so the first one is not run either. -/
theorem aborts_nothingRun_bar :
    ((outermost (.start [108, 115, 124, 99, 97, 116])).run .obliging).1.Aborts ∧
      NothingRun (.start [108, 115, 124, 99, 97, 116])
        ((outermost (.start [108, 115, 124, 99, 97, 116])).run .obliging).2 :=
  have hturn : Step .obliging (outermost (.start [108, 115, 124, 99, 97, 116]))
      ⟨6, false, { argv := [[108, 115]] }, _⟩ := .turn rfl
  have h := aborts_nothingRun (.tail (.single hturn) (.bar rfl)) trivial
  ⟨h.1, h.2.2⟩

end Call

end UnixStudy.Shell
