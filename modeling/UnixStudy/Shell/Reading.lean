import UnixStudy.Shell.Command

/-!
# A command line is read first and run afterwards

`command` mixes reading and running: the end of a stage runs it, but only after the recursion has
read, and run, everything behind it. Separating the two gives the abstract view of the function. A
pipeline is first *read*, from the first stage to the last (`reading`), which consumes input and
writes messages and does nothing else; if that ends with a terminator, the stages are then *run*
from the last one to the first (`runStages`). `command_eq` says that `command` is this.

What one turn of the loop does with the next token is a function of its own (`round`), so that an
argument about all tokens is made once.

## Main definitions

* `Terminator`, `Stage`, `Round`, `Reading` : how a pipeline ends, what was read of a stage, what a
  turn of the loop decides, what a whole reading gives.
* `round`, `readLoop`, `reading` : reading a pipeline.
* `runStages` : running the stages that were read.
* `OnlyReads` : the frame of reading.

## Main results

* `commandLoop_eq`, `command_eq` : `command` reads, then runs.
* `reading_eq` : the recursion equation of `reading`, without fuel.
* `onlyReads_reading` : reading has no effect but on the input and the record.
* `command_ne_starved` : a call of `command` ends.
-/

namespace UnixStudy.Shell

/-- The tokens that end a pipeline. -/
inductive Terminator
  | amp | semi | nl
  deriving DecidableEq, Repr

/-- The token of a terminator. -/
def Terminator.token : Terminator → Token
  | amp => .amp
  | semi => .semi
  | nl => .nl

theorem Terminator.token_ne_bar (t : Terminator) : t.token ≠ .bar := by cases t <;> decide

/-- What `command` has read of a stage when it meets the token that ends it. -/
structure Stage where
  locals : Locals
  token : Token
  deriving DecidableEq, Repr

/-- What the loop does after a turn: go on with new local variables, read the rest of a pipeline,
run the last stage of one, end the shell, or return `T_ERROR`. -/
inductive Round
  | go (l : Locals)
  | bar
  | term (t : Terminator)
  | exited
  | error
  deriving DecidableEq, Repr

/-- What reading a pipeline gives. -/
inductive Reading
  | stages (sts : List Stage) (term : Terminator)
  | exited
  | error
  | starved
  deriving DecidableEq, Repr

/-- One turn of the loop of `command`, up to the point where it calls itself or runs a stage. -/
def round (sys : System) (makepipe : Bool) (l : Locals) (s : State) : Round × State :=
  let t := s.gettoken MAXWORD
  match t.1.token with
  | .word =>
    if l.argv.length ≥ MAXARG - 1 then (.go l, t.2.diag .tooManyArgs)
    else
      let s' := { t.2 with mallocs := t.2.mallocs + 1 }
      if sys.malloc t.2.mallocs then
        let word := cString MAXWORD t.1.word (sys.beyond .word s'.stdin.unread.length)
        (.go { l with argv := l.argv ++ [word] }, s')
      else (.go l, s'.diag .outOfArgMemory)
  | .lt =>
    if makepipe then (.go l, t.2.diag .extraLt)
    else
      let f := t.2.gettoken MAXFNAME
      let l := { l with srcfile := overlay f.1.word l.srcfile }
      if f.1.token ≠ .word then (.go l, f.2.diag .illegalLt) else (.go { l with srcfd := -1 }, f.2)
  | .gt | .gtgt =>
    if l.dstfd ≠ 1 then (.go l, t.2.diag .extraGt)
    else
      let f := t.2.gettoken MAXFNAME
      let l := { l with dstfile := overlay f.1.word l.dstfile }
      if f.1.token ≠ .word then (.go l, f.2.diag .illegalGt)
      else (.go { l with dstfd := -1, append := some (t.1.token == .gtgt) }, f.2)
  | .bar => if l.dstfd ≠ 1 then (.go l, t.2.diag .conflictsBar) else (.bar, t.2)
  | .amp => (.term .amp, t.2)
  | .semi => (.term .semi, t.2)
  | .nl => (.term .nl, t.2)
  | .eof => (.exited, t.2)
  | .error => (.error, t.2)

/-- The loop of `command` in terms of its turns. -/
theorem commandLoop_succ (sys : System) (fuel : ℕ) (makepipe : Bool) (l : Locals) (s : State) :
    commandLoop sys (fuel + 1) makepipe l s =
      match round sys makepipe l s with
      | (.go l', s') => commandLoop sys fuel makepipe l' s'
      | (.bar, s') =>
        match commandLoop sys fuel true {} s' with
        | (.returned .error _, s) => (.returned .error none, s)
        | (.returned term pipefd, s) =>
          returnTerm term
            (finish sys makepipe .bar term { l with dstfd := pipefd.getD l.dstfd } s)
        | (.exited, s) => (.exited, s)
        | (.starved, s) => (.starved, s)
      | (.term t, s') => returnTerm t.token (finish sys makepipe t.token t.token l s')
      | (.exited, s') => (.exited, s')
      | (.error, s') => (.returned .error none, s') := by
  rw [commandLoop]
  simp only [round]
  cases (s.gettoken MAXWORD).1.token with
  | word | lt | gt | gtgt | bar => dsimp only; split_ifs <;> rfl
  | amp | semi | nl | eof | error => rfl

/-- Read a pipeline, without running any of it. -/
def readLoop (sys : System) : ℕ → Bool → Locals → State → Reading × State
  | 0, _, _, s => (.starved, s)
  | fuel + 1, makepipe, l, s =>
    match round sys makepipe l s with
    | (.go l', s') => readLoop sys fuel makepipe l' s'
    | (.bar, s') =>
      match readLoop sys fuel true {} s' with
      | (.stages sts t, s'') => (.stages (⟨l, .bar⟩ :: sts) t, s'')
      | r => r
    | (.term t, s') => (.stages [⟨l, t.token⟩] t, s')
    | (.exited, s') => (.exited, s')
    | (.error, s') => (.error, s')

/-- What a call of `command` reads. -/
def reading (sys : System) (makepipe : Bool) (l : Locals) (s : State) : Reading × State :=
  readLoop sys (s.stdin.unread.length + 1) makepipe l s

/-- Run the stages of a pipeline, from the last one to the first, each with the write end of the
pipe to the stage behind it. -/
def runStages (sys : System) (term : Terminator) :
    Bool → List Stage → State → Option ℤ × State
  | _, [], s => (none, s)
  | makepipe, st :: sts, s =>
    let r := runStages sys term true sts s
    finish sys makepipe st.token term.token
      { st.locals with dstfd := r.1.getD st.locals.dstfd } r.2

/-- How `command` ends after a reading. -/
def afterReading (sys : System) (makepipe : Bool) : Reading × State → Outcome × State
  | (.stages sts t, s) => returnTerm t.token (runStages sys t makepipe sts s)
  | (.exited, s) => (.exited, s)
  | (.error, s) => (.returned .error none, s)
  | (.starved, s) => (.starved, s)

/-- **Reading before running.** The loop of `command` reads the pipeline, and then runs what it has
read. -/
theorem commandLoop_eq (sys : System) (fuel : ℕ) (makepipe : Bool) (l : Locals) (s : State) :
    commandLoop sys fuel makepipe l s =
      afterReading sys makepipe (readLoop sys fuel makepipe l s) := by
  induction fuel generalizing makepipe l s with
  | zero => rfl
  | succ fuel ih =>
    rw [commandLoop_succ, readLoop]
    rcases round sys makepipe l s with ⟨_ | _ | t | _ | _, s'⟩
    · exact ih _ _ _
    · dsimp only
      rw [ih]
      rcases readLoop sys fuel true {} s' with ⟨⟨sts, t⟩ | _ | _ | _, s''⟩
      · cases t <;> rfl
      all_goals rfl
    all_goals rfl

theorem command_eq (sys : System) (makepipe : Bool) (s : State) :
    command sys makepipe s = afterReading sys makepipe (reading sys makepipe {} s) :=
  commandLoop_eq sys _ makepipe {} s

/-! ### Reading has no effect -/

/-- The second state differs from the first in the input, the count of `malloc` calls and the
record only, and what was recorded since are tokens and messages. -/
structure OnlyReads (s s' : State) : Prop where
  fds : s'.fds = s.fds
  env : s'.env = s.env
  cwd : s'.cwd = s.cwd
  pid : s'.pid = s.pid
  children : s'.children = s.children
  stages : s'.stages = s.stages
  trace : ∃ es, s'.trace = s.trace ++ es ∧ ∀ e ∈ es, e.isReading

namespace OnlyReads

theorem refl (s : State) : OnlyReads s s := ⟨rfl, rfl, rfl, rfl, rfl, rfl, [], by simp⟩

theorem trans {s s' s'' : State} (h : OnlyReads s s') (h' : OnlyReads s' s'') :
    OnlyReads s s'' := by
  obtain ⟨es, hes, hread⟩ := h.trace
  obtain ⟨es', hes', hread'⟩ := h'.trace
  refine ⟨h'.fds.trans h.fds, h'.env.trans h.env, h'.cwd.trans h.cwd, h'.pid.trans h.pid,
    h'.children.trans h.children, h'.stages.trans h.stages, es ++ es', ?_, ?_⟩
  · rw [hes', hes, List.append_assoc]
  · intro e he
    exact (List.mem_append.mp he).elim (hread e) (hread' e)

theorem diag (s : State) (d : Diag) : OnlyReads s (s.diag d) :=
  ⟨rfl, rfl, rfl, rfl, rfl, rfl, [.diag d], rfl, by simp [Event.isReading]⟩

theorem malloc (s : State) (n : ℕ) : OnlyReads s { s with mallocs := n } :=
  ⟨rfl, rfl, rfl, rfl, rfl, rfl, [], by simp⟩

theorem gettoken (maxword : ℕ) (s : State) : OnlyReads s (s.gettoken maxword).2 := by
  refine ⟨rfl, rfl, rfl, rfl, rfl, rfl, _, rfl, fun e he => ?_⟩
  rcases List.mem_cons.mp he with rfl | he
  · rfl
  · obtain ⟨d, -, rfl⟩ := List.mem_map.mp he
    rfl

end OnlyReads

theorem onlyReads_round (sys : System) (makepipe : Bool) (l : Locals) (s : State) :
    OnlyReads s (round sys makepipe l s).2 := by
  have ht := OnlyReads.gettoken MAXWORD s
  have hm := ht.trans (OnlyReads.malloc _ ((s.gettoken MAXWORD).2.mallocs + 1))
  have hf := ht.trans (OnlyReads.gettoken MAXFNAME (s.gettoken MAXWORD).2)
  simp only [round]
  cases (s.gettoken MAXWORD).1.token with
  | word =>
    dsimp only
    split_ifs
    · exact ht.trans (.diag _ _)
    · exact hm
    · exact hm.trans (.diag _ _)
  | lt | gt | gtgt =>
    dsimp only
    split_ifs
    · exact ht.trans (.diag _ _)
    · exact hf.trans (.diag _ _)
    · exact hf
  | bar =>
    dsimp only
    split_ifs
    · exact ht.trans (.diag _ _)
    · exact ht
  | amp | semi | nl | eof | error => exact ht

theorem onlyReads_readLoop (sys : System) (fuel : ℕ) (makepipe : Bool) (l : Locals) (s : State) :
    OnlyReads s (readLoop sys fuel makepipe l s).2 := by
  induction fuel generalizing makepipe l s with
  | zero => exact .refl s
  | succ fuel ih =>
    have hround := onlyReads_round sys makepipe l s
    rw [readLoop]
    rcases hr : round sys makepipe l s with ⟨_ | _ | t | _ | _, s'⟩ <;> rw [hr] at hround
    · exact hround.trans (ih _ _ _)
    · have hrest := hround.trans (ih true {} s')
      rcases hread : readLoop sys fuel true {} s' with ⟨⟨sts, t⟩ | _ | _ | _, s''⟩ <;>
        rw [hread] at hrest <;> simpa only [hread] using hrest
    all_goals exact hround

/-- Reading a pipeline creates no pipe and no process, runs no builtin and writes no variable of
the caller. -/
theorem onlyReads_reading (sys : System) (makepipe : Bool) (l : Locals) (s : State) :
    OnlyReads s (reading sys makepipe l s).2 :=
  onlyReads_readLoop sys _ makepipe l s

/-! ### Every turn removes a byte -/

/-- The call of `command` ends with this turn. -/
def Round.isLast : Round → Bool
  | exited | error => true
  | _ => false

theorem State.gettoken_stdin (maxword : ℕ) (s : State) :
    (s.gettoken maxword).2.stdin = (Shell.gettoken maxword s.stdin).2 := rfl

theorem round_length_lt {sys : System} {makepipe : Bool} {l : Locals} {s s' : State} {r : Round}
    (hr : round sys makepipe l s = (r, s')) (h : r.isLast = false) :
    s'.stdin.unread.length < s.stdin.unread.length := by
  obtain ⟨rfl, rfl⟩ : (round sys makepipe l s).1 = r ∧ (round sys makepipe l s).2 = s' := by
    simp [hr]
  have hlt : (s.gettoken MAXWORD).1.token ≠ .eof → (s.gettoken MAXWORD).1.token ≠ .error →
      (s.gettoken MAXWORD).2.stdin.unread.length < s.stdin.unread.length := gettoken_length_lt
  have hle := gettoken_length_le MAXFNAME (s.gettoken MAXWORD).2.stdin
  rw [← State.gettoken_stdin] at hle
  simp only [round] at h ⊢
  cases htok : (s.gettoken MAXWORD).1.token with
  | eof | error => simp [htok, Round.isLast] at h
  | amp | semi | nl => exact hlt (by rw [htok]; decide) (by rw [htok]; decide)
  | word | bar =>
    have hlt := hlt (by rw [htok]; decide) (by rw [htok]; decide)
    dsimp only
    split_ifs <;> exact hlt
  | lt | gt | gtgt =>
    have hlt := hlt (by rw [htok]; decide) (by rw [htok]; decide)
    dsimp only
    split_ifs
    · exact hlt
    all_goals exact Nat.lt_of_le_of_lt hle hlt

/-! ### Reading without fuel -/

section Fuel

variable (sys : System)

/-- With more fuel than there are bytes, the fuel makes no difference. -/
theorem readLoop_fuel {n m : ℕ} {makepipe : Bool} {l : Locals} {s : State}
    (hn : s.stdin.unread.length < n) (hm : s.stdin.unread.length < m) :
    readLoop sys n makepipe l s = readLoop sys m makepipe l s := by
  induction n generalizing m makepipe l s with
  | zero => exact absurd hn (Nat.not_lt_zero _)
  | succ n ih =>
    obtain ⟨m, rfl⟩ := Nat.exists_eq_succ_of_ne_zero (Nat.ne_zero_of_lt hm)
    rw [readLoop, readLoop]
    rcases hr : round sys makepipe l s with ⟨_ | _ | t | _ | _, s'⟩
    · have hlt := round_length_lt hr rfl
      exact ih (by omega) (by omega)
    · have hlt := round_length_lt hr rfl
      dsimp only
      rw [ih (m := m) (by omega) (by omega)]
    all_goals rfl

/-- The recursion of reading, without fuel. -/
theorem reading_eq (makepipe : Bool) (l : Locals) (s : State) :
    reading sys makepipe l s =
      match round sys makepipe l s with
      | (.go l', s') => reading sys makepipe l' s'
      | (.bar, s') =>
        match reading sys true {} s' with
        | (.stages sts t, s'') => (.stages (⟨l, .bar⟩ :: sts) t, s'')
        | r => r
      | (.term t, s') => (.stages [⟨l, t.token⟩] t, s')
      | (.exited, s') => (.exited, s')
      | (.error, s') => (.error, s') := by
  rw [reading, readLoop]
  rcases hr : round sys makepipe l s with ⟨_ | _ | t | _ | _, s'⟩
  · exact readLoop_fuel sys (round_length_lt hr rfl) (Nat.lt_succ_self _)
  · dsimp only
    rw [readLoop_fuel sys (round_length_lt hr rfl) (Nat.lt_succ_self _), ← reading]
  all_goals rfl

/-- Put a stage that was ended by `|` in front of a reading. -/
def Reading.cons (st : Stage) : Reading × State → Reading × State
  | (.stages sts t, s) => (.stages (st :: sts) t, s)
  | r => r

theorem reading_of_go {makepipe : Bool} {l l' : Locals} {s s' : State}
    (h : round sys makepipe l s = (.go l', s')) :
    reading sys makepipe l s = reading sys makepipe l' s' := by
  rw [reading_eq, h]

theorem reading_of_bar {makepipe : Bool} {l : Locals} {s s' : State}
    (h : round sys makepipe l s = (.bar, s')) :
    reading sys makepipe l s = Reading.cons ⟨l, .bar⟩ (reading sys true {} s') := by
  rw [reading_eq, h]
  rfl

theorem reading_of_term {makepipe : Bool} {l : Locals} {s s' : State} {t : Terminator}
    (h : round sys makepipe l s = (.term t, s')) :
    reading sys makepipe l s = (.stages [⟨l, t.token⟩] t, s') := by
  rw [reading_eq, h]

/-- To prove something of every reading, follow its turns. -/
theorem reading_induction {P : Bool → Locals → State → Reading × State → Prop}
    (go : ∀ makepipe l s l' s', round sys makepipe l s = (.go l', s') →
      P makepipe l' s' (reading sys makepipe l' s') →
      P makepipe l s (reading sys makepipe l' s'))
    (bar : ∀ makepipe l s s', round sys makepipe l s = (.bar, s') →
      P true {} s' (reading sys true {} s') →
      P makepipe l s (Reading.cons ⟨l, .bar⟩ (reading sys true {} s')))
    (term : ∀ makepipe l s t s', round sys makepipe l s = (.term t, s') →
      P makepipe l s (.stages [⟨l, t.token⟩] t, s'))
    (exited : ∀ makepipe l s s', round sys makepipe l s = (.exited, s') →
      P makepipe l s (.exited, s'))
    (error : ∀ makepipe l s s', round sys makepipe l s = (.error, s') →
      P makepipe l s (.error, s'))
    (makepipe : Bool) (l : Locals) (s : State) : P makepipe l s (reading sys makepipe l s) := by
  induction hlen : s.stdin.unread.length using Nat.strong_induction_on generalizing makepipe l s
    with
  | _ n ih =>
    rcases hr : round sys makepipe l s with ⟨l' | _ | t | _ | _, s'⟩
    · rw [reading_of_go sys hr]
      exact go _ _ _ _ _ hr (ih _ (hlen ▸ round_length_lt hr rfl) _ _ _ rfl)
    · rw [reading_of_bar sys hr]
      exact bar _ _ _ _ hr (ih _ (hlen ▸ round_length_lt hr rfl) _ _ _ rfl)
    · rw [reading_of_term sys hr]
      exact term _ _ _ _ _ hr
    · rw [reading_eq, hr]
      exact exited _ _ _ _ hr
    · rw [reading_eq, hr]
      exact error _ _ _ _ hr

theorem reading_ne_starved (makepipe : Bool) (l : Locals) (s : State) :
    (reading sys makepipe l s).1 ≠ .starved := by
  refine reading_induction sys (P := fun _ _ _ r => r.1 ≠ .starved) ?_ ?_ ?_ ?_ ?_ makepipe l s
  · intro _ _ _ _ _ _ h
    exact h
  · intro _ _ _ s' _ h
    rcases hr : reading sys true {} s' with ⟨⟨sts, t⟩ | _ | _ | _, s''⟩ <;>
      simp_all [Reading.cons]
  all_goals exact fun _ _ _ _ => nofun

/-- A call of `command` ends. -/
theorem command_ne_starved (makepipe : Bool) (s : State) :
    (command sys makepipe s).1 ≠ .starved := by
  have h := reading_ne_starved sys makepipe {} s
  rw [command_eq]
  rcases hr : reading sys makepipe {} s with ⟨⟨sts, t⟩ | _ | _ | _, s'⟩
  · exact nofun
  · exact nofun
  · exact nofun
  · exact absurd (congrArg Prod.fst hr) h

end Fuel

end UnixStudy.Shell
