import UnixStudy.Shell.Turns

/-!
# The main loop of the shell

`start_shell` calls `command` until the input ends. A call of `command` that meets `T_EOF` ends the
shell; one that returns `T_ERROR` is reported, and ends the loop; and `fd_check` ends the shell
after a command that has left a descriptor open. Every other round takes a byte off the input.

Which children are left when `wait_and_display` returns is a parameter: nothing else of the state
depends on it.

## Main definitions

* `Ending`, `startShell` : the main loop, and how it ends.

## Main results

* `startShellLoop_induction` : to prove something of every run, follow its rounds.
* `startShell_ne_starved` : the main loop ends.

## References

* `src/communication/shell.c`, lines 34–47, 74–84 and 364–387.
-/

namespace UnixStudy.Shell

/-! ### The main loop -/

/-- How the main loop ends: by `exit` at `T_EOF`, with the report of a bad command at `T_ERROR`, by
`_exit` in `fd_check`, or, in the model only, for want of fuel. -/
inductive Ending
  | exited | badCommand | fdCheck | starved
  deriving DecidableEq, Repr

/-- `PROMPT`. -/
def PROMPT : Bytes := [62]

/-- The prompt, which is printed in front of a command that begins a line. -/
def prompt (term : Token) (s : State) : State := if term = .nl then s.log (.print PROMPT) else s

/-- The end of a round of the main loop, up to `fd_check`: the shell waits for the child of a
command in the foreground, and `left` says which children it has not reaped then. -/
def afterRound (left : State → List Child) (term : Token) (s : State) : State :=
  if term ≠ .amp ∧ s.pid > 0 then { s with children := left s } else s

/-- The loop of `start_shell`, with its variable `term`. -/
def startShellLoop (sys : System) (left : State → List Child) :
    ℕ → Token → State → Ending × State
  | 0, _, s => (.starved, s)
  | fuel + 1, term, s =>
    match command sys false (prompt term s) with
    | (.returned .error _, s) => (.badCommand, s.diag .badCommand)
    | (.returned term _, s) =>
      let s := afterRound left term s
      if fdCheck s.fds then startShellLoop sys left fuel term s else (.fdCheck, s)
    | (.exited, s) => (.exited, s)
    | (.starved, s) => (.starved, s)

/-- `start_shell`. -/
def startShell (sys : System) (left : State → List Child) (s : State) : Ending × State :=
  startShellLoop sys left (s.stdin.unread.length + 1) .nl s

section Loop

variable {sys : System} {left : State → List Child} {s s' : State}

@[simp] theorem prompt_stdin (term : Token) (s : State) : (prompt term s).stdin = s.stdin := by
  rw [prompt]
  split_ifs <;> rfl

@[simp] theorem prompt_tokens (term : Token) (s : State) : (prompt term s).tokens = s.tokens := by
  rw [prompt]
  split_ifs
  · exact State.tokens_of_forall rfl (List.forall_mem_singleton.mpr rfl)
  · rfl

@[simp] theorem afterRound_stdin (term : Token) (s : State) :
    (afterRound left term s).stdin = s.stdin := by
  rw [afterRound]
  split_ifs <;> rfl

@[simp] theorem afterRound_tokens (term : Token) (s : State) :
    (afterRound left term s).tokens = s.tokens := by
  rw [afterRound]
  split_ifs <;> rfl

/-- A pipeline takes at least one byte of the input. -/
theorem reading_length_lt {makepipe : Bool} {l : Locals} {sts : List Stage} {t : Terminator}
    (h : reading sys makepipe l s = (.stages sts t, s')) :
    s'.stdin.unread.length < s.stdin.unread.length := by
  refine reading_induction sys (P := fun _ _ s r => ∀ sts t s', r = (.stages sts t, s') →
    s'.stdin.unread.length < s.stdin.unread.length) ?_ ?_ ?_ ?_ ?_ makepipe l s sts t s' h
  · intro _ _ _ _ _ hround ih sts t s' hr
    exact (ih sts t s' hr).trans (round_length_lt hround rfl)
  · intro _ _ _ s₁ hround ih sts t s' hr
    rcases hrest : reading sys true {} s₁ with ⟨⟨sts', t'⟩ | _ | _ | _, s''⟩ <;>
      rw [hrest] at hr <;> simp only [Reading.cons] at hr <;> cases hr
    exact (ih _ _ _ hrest).trans (round_length_lt hround rfl)
  · intro _ _ _ _ _ hround _ _ _ hr
    cases hr
    exact round_length_lt hround rfl
  · intro _ _ _ _ _ _ _ _ hr
    cases hr
  · intro _ _ _ _ _ _ _ _ hr
    cases hr

/-- To prove something of every run of the main loop, follow its rounds. -/
theorem startShellLoop_induction {P : Token → State → Ending × State → Prop}
    (next : ∀ term s sts t s₁ r, reading sys false {} (prompt term s) = (.stages sts t, s₁) →
      P t.token (afterRound left t.token (runStages sys t false sts s₁).2) r → P term s r)
    (leak : ∀ term s sts t s₁, reading sys false {} (prompt term s) = (.stages sts t, s₁) →
      P term s (.fdCheck, afterRound left t.token (runStages sys t false sts s₁).2))
    (exited : ∀ term s s₁, reading sys false {} (prompt term s) = (.exited, s₁) →
      P term s (.exited, s₁))
    (badCommand : ∀ term s s₁, reading sys false {} (prompt term s) = (.error, s₁) →
      P term s (.badCommand, s₁.diag .badCommand))
    {fuel : ℕ} (term : Token) (s : State) (hfuel : s.stdin.unread.length < fuel) :
    P term s (startShellLoop sys left fuel term s) := by
  induction fuel generalizing term s with
  | zero => exact absurd hfuel (Nat.not_lt_zero _)
  | succ fuel ih =>
    rw [startShellLoop]
    rcases command_cases sys (prompt term s) with ⟨sts, t, s₁, hr, hc⟩ | ⟨s₁, hr, hc⟩ | ⟨s₁, hr, hc⟩
    · have hlt := reading_length_lt hr
      rw [prompt_stdin] at hlt
      have hround : startShellLoop sys left (fuel + 1) term s =
          let s' := afterRound left t.token (runStages sys t false sts s₁).2
          if fdCheck s'.fds then startShellLoop sys left fuel t.token s' else (.fdCheck, s') := by
        rw [startShellLoop, hc]
        cases t <;> rfl
      rw [← startShellLoop, hround]
      dsimp only
      split_ifs
      · refine next _ _ _ _ _ _ hr (ih _ _ ?_)
        rw [afterRound_stdin, runStages_stdin]
        omega
      · exact leak _ _ _ _ _ hr
    · rw [hc]
      exact exited _ _ _ hr
    · rw [hc]
      exact badCommand _ _ _ hr

/-- The main loop ends. -/
theorem startShell_ne_starved (sys : System) (left : State → List Child) (s : State) :
    (startShell sys left s).1 ≠ .starved := by
  refine startShellLoop_induction (P := fun _ _ r => r.1 ≠ .starved) ?_ ?_ ?_ ?_ .nl s
    (Nat.lt_succ_self _)
  · intro _ _ _ _ _ _ _ h
    exact h
  all_goals exact fun _ _ _ _ => nofun

end Loop

end UnixStudy.Shell
