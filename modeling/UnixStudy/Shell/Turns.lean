import UnixStudy.Shell.Running

/-!
# The tokens of a command

Every token that `command` takes off the input comes from one of three calls of `gettoken`: that of
its loop, and those for the names behind the two kinds of redirections. What a turn of the loop
takes, and what it makes of it, depends on two things only: whether the stage stands behind a `|`,
and whether its output is redirected (`Turn`). All that is recorded of the tokens is that they were
read, in order (`State.tokens`); running the stages reads nothing.

## Main definitions

* `State.tokens` : what the calls of `gettoken` have returned so far.
* `Turn` : the tokens of a turn of the loop, and what the loop does behind them.

## Main results

* `runStages_tokens` : running a pipeline reads nothing.
* `round_turn` : every turn of the loop is a `Turn`.
* `exists_reads_reading` : the tokens of a reading.

## References

* `src/communication/shell.c`, lines 277–362.
-/

namespace UnixStudy.Shell

/-! ### The tokens that were read -/

/-- The result of a call of `gettoken` that an event records. -/
def Event.toLexed : Event → Option Lexed
  | .token t => some t
  | _ => none

namespace State

/-- What the calls of `gettoken` have returned so far. -/
def tokens (s : State) : List Lexed := s.trace.filterMap Event.toLexed

theorem tokens_of_trace {s s' : State} {es : List Event} (h : s'.trace = s.trace ++ es) :
    s'.tokens = s.tokens ++ es.filterMap Event.toLexed := by
  rw [tokens, h, List.filterMap_append, tokens]

theorem tokens_of_forall {s s' : State} {es : List Event} (h : s'.trace = s.trace ++ es)
    (hes : ∀ e ∈ es, e.toLexed = none) : s'.tokens = s.tokens := by
  rw [tokens_of_trace h, List.filterMap_eq_nil_iff.mpr hes, List.append_nil]

@[simp] theorem tokens_gettoken (maxword : ℕ) (s : State) :
    (s.gettoken maxword).2.tokens = s.tokens ++ [(s.gettoken maxword).1] := by
  have htrace : (s.gettoken maxword).2.trace = s.trace ++
      .token (s.gettoken maxword).1 :: (s.gettoken maxword).1.diags.map Event.diag := rfl
  rw [tokens_of_trace htrace]
  simp [Event.toLexed, Function.comp_def]

@[simp] theorem tokens_diag (s : State) (d : Diag) : (s.diag d).tokens = s.tokens :=
  tokens_of_forall rfl (List.forall_mem_singleton.mpr rfl)

end State

/-- Running a stage reads nothing. -/
theorem invoke_tokens (sys : System) (a : Invocation) (s : State) :
    (invoke sys a s).2.tokens = s.tokens := by
  rcases invoke_cases sys a s with ⟨-, h⟩ | ⟨-, hb, h⟩ | ⟨-, -, h⟩ | ⟨pid, -, h⟩ <;> rw [h]
  · exact State.tokens_of_forall rfl (List.forall_mem_singleton.mpr rfl)
  · obtain ⟨es, hes, htalk⟩ := (builtin_frame hb sys a.srcfd a.dstfd (s.log (.invoke a))).trace
    have htrace : (builtin sys a.argv a.srcfd a.dstfd (s.log (.invoke a))).2.trace =
        s.trace ++ (.invoke a :: .builtin a.argv :: es) := by
      rw [hes]
      simp
    refine State.tokens_of_forall htrace fun e he => ?_
    rcases List.mem_cons.mp he with rfl | he
    · rfl
    rcases List.mem_cons.mp he with rfl | he
    · rfl
    · have := htalk e he
      cases e <;> simp_all [Event.isTalk, Event.toLexed]
  · have htrace : (((s.log (.invoke a)).nextStage).diag .cannotFork).trace =
        s.trace ++ [.invoke a, .diag .cannotFork] := by simp [State.diag, State.nextStage]
    exact State.tokens_of_forall htrace (by simp [Event.toLexed])
  · refine State.tokens_of_forall rfl (List.forall_mem_cons.mpr ⟨rfl, ?_⟩)
    simp only [Invocation.forkEvents]
    split_ifs <;> simp [Event.toLexed]

theorem finish_tokens (sys : System) (makepipe : Bool) (token term : Token) (l : Locals)
    (s : State) : (finish sys makepipe token term l s).2.tokens = s.tokens := by
  have hpipe : (afterPipe sys makepipe s).tokens = s.tokens := by
    refine State.tokens_of_forall (afterPipe_trace sys makepipe s) fun e he => ?_
    split_ifs at he
    · obtain rfl := List.mem_singleton.mp he
      rfl
    · exact absurd he List.not_mem_nil
  have hinvoke := invoke_tokens sys (finishArgs sys makepipe term l s) (afterPipe sys makepipe s)
  rw [hpipe] at hinvoke
  rw [finish_snd, ← hinvoke]
  refine State.tokens_of_forall rfl fun e (he : e ∈ missingEvents sys makepipe token term l s) => ?_
  rw [missingEvents] at he
  split_ifs at he
  · obtain rfl := List.mem_singleton.mp he
    rfl
  · exact absurd he List.not_mem_nil

/-- **Running a pipeline reads nothing.** -/
theorem runStages_tokens (sys : System) (term : Terminator) (makepipe : Bool) (sts : List Stage)
    (s : State) : (runStages sys term makepipe sts s).2.tokens = s.tokens := by
  induction sts generalizing makepipe with
  | nil => rfl
  | cons st sts ih => rw [runStages_cons, finish_tokens, ih]

/-! ### One turn of the loop -/

/-- The token of a redirection of the output. -/
def Token.IsGt (t : Token) : Prop := t = .gt ∨ t = .gtgt

instance (t : Token) : Decidable t.IsGt := inferInstanceAs (Decidable (_ ∨ _))

/-- The token says that the input has ended. -/
def Token.IsEof (t : Token) : Prop := t = .eof ∨ t = .error

instance (t : Token) : Decidable t.IsEof := inferInstanceAs (Decidable (_ ∨ _))

/-- The tokens that a turn of the loop of `command` takes, and what the loop does then. -/
inductive Turn (makepipe : Bool) (l : Locals) : List Token → Round → Prop
  | word {l' : Locals} (hdst : l'.dstfd = l.dstfd) : Turn makepipe l [.word] (.go l')
  | extraSource (hpipe : makepipe = true) : Turn makepipe l [.lt] (.go l)
  | source {t : Token} {l' : Locals} (hpipe : makepipe = false) (hdst : l'.dstfd = l.dstfd) :
      Turn makepipe l [.lt, t] (.go l')
  | extraDest {g : Token} (hgt : g.IsGt) (hdst : l.dstfd ≠ 1) : Turn makepipe l [g] (.go l)
  | dest {g t : Token} {l' : Locals} (hgt : g.IsGt) (hdst : l.dstfd = 1)
      (hdst' : l'.dstfd = if t = .word then -1 else 1) : Turn makepipe l [g, t] (.go l')
  | conflict (hdst : l.dstfd ≠ 1) : Turn makepipe l [.bar] (.go l)
  | bar (hdst : l.dstfd = 1) : Turn makepipe l [.bar] .bar
  | term (t : Terminator) : Turn makepipe l [t.token] (.term t)
  | exited : Turn makepipe l [.eof] .exited
  | error : Turn makepipe l [.error] .error

section Round

variable {makepipe : Bool} {l : Locals} {s : State}

/-- A turn with one call of `gettoken`. -/
theorem exists_turn_of_one {r : Round} {s' : State}
    (hstdin : s'.stdin = (s.gettoken MAXWORD).2.stdin)
    (htokens : s'.tokens = (s.gettoken MAXWORD).2.tokens)
    (hturn : Turn makepipe l [(s.gettoken MAXWORD).1.token] r) :
    ∃ ts, Reads (Shell.gettoken MAXWORD) s.stdin ts s'.stdin ∧ s'.tokens = s.tokens ++ ts ∧
      Turn makepipe l (ts.map Lexed.token) r :=
  ⟨[(s.gettoken MAXWORD).1], hstdin ▸ .singleton rfl,
    htokens.trans (State.tokens_gettoken MAXWORD s), hturn⟩

/-- A turn that also calls it for a name. -/
theorem exists_turn_of_two {r : Round} {s' : State}
    (hstdin : s'.stdin = ((s.gettoken MAXWORD).2.gettoken MAXFNAME).2.stdin)
    (htokens : s'.tokens = ((s.gettoken MAXWORD).2.gettoken MAXFNAME).2.tokens)
    (hturn : Turn makepipe l [(s.gettoken MAXWORD).1.token,
      ((s.gettoken MAXWORD).2.gettoken MAXFNAME).1.token] r) :
    ∃ ts, Reads (Shell.gettoken MAXWORD) s.stdin ts s'.stdin ∧ s'.tokens = s.tokens ++ ts ∧
      Turn makepipe l (ts.map Lexed.token) r := by
  refine ⟨[(s.gettoken MAXWORD).1, ((s.gettoken MAXWORD).2.gettoken MAXFNAME).1],
    hstdin ▸ .cons rfl (.singleton rfl), ?_, hturn⟩
  rw [htokens, State.tokens_gettoken, State.tokens_gettoken, List.append_assoc,
    List.singleton_append]

/-- **The turns of the loop.** A turn reads one token or two, and they say what the loop does. -/
theorem round_turn (sys : System) (makepipe : Bool) (l : Locals) (s : State) :
    ∃ ts, Reads (Shell.gettoken MAXWORD) s.stdin ts (round sys makepipe l s).2.stdin ∧
      (round sys makepipe l s).2.tokens = s.tokens ++ ts ∧
      Turn makepipe l (ts.map Lexed.token) (round sys makepipe l s).1 := by
  simp only [round]
  cases htok : (s.gettoken MAXWORD).1.token with
  | word =>
    dsimp only
    split_ifs
    · exact exists_turn_of_one rfl (State.tokens_diag ..) (htok ▸ .word rfl)
    · exact exists_turn_of_one rfl rfl (htok ▸ .word rfl)
    · exact exists_turn_of_one rfl (State.tokens_diag ..) (htok ▸ .word rfl)
  | lt =>
    dsimp only
    split_ifs with hpipe hword
    · exact exists_turn_of_one rfl (State.tokens_diag ..) (htok ▸ .extraSource hpipe)
    · exact exists_turn_of_two rfl (State.tokens_diag ..)
        (htok ▸ .source (Bool.eq_false_of_not_eq_true hpipe) rfl)
    · exact exists_turn_of_two rfl rfl
        (htok ▸ .source (Bool.eq_false_of_not_eq_true hpipe) rfl)
  | gt | gtgt =>
    have hgt : (s.gettoken MAXWORD).1.token.IsGt := by
      rw [htok]
      decide
    dsimp only
    split_ifs with hdst hword
    · exact exists_turn_of_one rfl (State.tokens_diag ..) (.extraDest hgt hdst)
    · refine exists_turn_of_two rfl (State.tokens_diag ..) (.dest hgt (not_not.mp hdst) ?_)
      rw [if_neg hword]
      exact not_not.mp hdst
    · refine exists_turn_of_two rfl rfl (.dest hgt (not_not.mp hdst) ?_)
      rw [if_pos (not_not.mp hword)]
  | bar =>
    dsimp only
    split_ifs with hdst
    · exact exists_turn_of_one rfl (State.tokens_diag ..) (htok ▸ .conflict hdst)
    · exact exists_turn_of_one rfl rfl (htok ▸ .bar (not_not.mp hdst))
  | amp => exact exists_turn_of_one rfl rfl (by rw [htok]; exact .term .amp)
  | semi => exact exists_turn_of_one rfl rfl (by rw [htok]; exact .term .semi)
  | nl => exact exists_turn_of_one rfl rfl (by rw [htok]; exact .term .nl)
  | eof => exact exists_turn_of_one rfl rfl (by rw [htok]; exact .exited)
  | error => exact exists_turn_of_one rfl rfl (by rw [htok]; exact .error)

end Round

/-! ### The tokens of a reading -/

section Reading

variable {sys : System}

/-- A stage in front changes no reading but that of a pipeline. -/
theorem Reading.cons_cases (st : Stage) (r : Reading × State) :
    (∃ sts t, r.1 = .stages sts t ∧ Reading.cons st r = (.stages (st :: sts) t, r.2)) ∨
      Reading.cons st r = r := by
  rcases r with ⟨⟨sts, t⟩ | _ | _ | _, s⟩
  · exact Or.inl ⟨sts, t, rfl, rfl⟩
  all_goals exact Or.inr rfl

theorem Reading.cons_snd (st : Stage) (r : Reading × State) : (Reading.cons st r).2 = r.2 := by
  rcases Reading.cons_cases st r with ⟨sts, t, -, h⟩ | h <;> rw [h]

/-- A turn that was made, with its tokens. -/
theorem exists_turn {makepipe : Bool} {l : Locals} {s s' : State} {r : Round}
    (h : round sys makepipe l s = (r, s')) :
    ∃ ts, Reads (Shell.gettoken MAXWORD) s.stdin ts s'.stdin ∧ s'.tokens = s.tokens ++ ts ∧
      Turn makepipe l (ts.map Lexed.token) r := by
  have hturn := round_turn sys makepipe l s
  rwa [h] at hturn

/-- **A reading reads tokens.** The tokens recorded while a pipeline is read are those that the
input was read by. -/
theorem exists_reads_reading (sys : System) (makepipe : Bool) (l : Locals) (s : State) :
    ∃ ts, Reads (Shell.gettoken MAXWORD) s.stdin ts (reading sys makepipe l s).2.stdin ∧
      (reading sys makepipe l s).2.tokens = s.tokens ++ ts := by
  refine reading_induction sys (P := fun _ _ s r => ∃ ts, Reads (Shell.gettoken MAXWORD) s.stdin ts
    r.2.stdin ∧ r.2.tokens = s.tokens ++ ts) ?_ ?_ ?_ ?_ ?_ makepipe l s
  · rintro makepipe l s l' s' hround ⟨us, hus, htokens⟩
    obtain ⟨ts, hts, htokens', -⟩ := exists_turn hround
    exact ⟨ts ++ us, hts.append hus, by rw [htokens, htokens', List.append_assoc]⟩
  · rintro makepipe l s s' hround ⟨us, hus, htokens⟩
    obtain ⟨ts, hts, htokens', -⟩ := exists_turn hround
    rw [Reading.cons_snd]
    exact ⟨ts ++ us, hts.append hus, by rw [htokens, htokens', List.append_assoc]⟩
  · intro makepipe l s t s' hround
    obtain ⟨ts, hts, htokens, -⟩ := exists_turn hround
    exact ⟨ts, hts, htokens⟩
  · intro makepipe l s s' hround
    obtain ⟨ts, hts, htokens, -⟩ := exists_turn hround
    exact ⟨ts, hts, htokens⟩
  · intro makepipe l s s' hround
    obtain ⟨ts, hts, htokens, -⟩ := exists_turn hround
    exact ⟨ts, hts, htokens⟩

/-- The ways a call of `command` ends: it has read a pipeline and run it, or it has met the end of
the input while it read. -/
theorem command_cases (sys : System) (s : State) :
    (∃ sts t s₁, reading sys false {} s = (.stages sts t, s₁) ∧
      command sys false s = (.returned t.token none, (runStages sys t false sts s₁).2)) ∨
    (∃ s₁, reading sys false {} s = (.exited, s₁) ∧ command sys false s = (.exited, s₁)) ∨
    ∃ s₁, reading sys false {} s = (.error, s₁) ∧
      command sys false s = (.returned .error none, s₁) := by
  have hstarved := reading_ne_starved sys false {} s
  rcases hr : reading sys false {} s with ⟨⟨sts, t⟩ | _ | _ | _, s₁⟩
  · exact Or.inl ⟨sts, t, s₁, rfl, command_of_reading hr⟩
  · exact Or.inr (Or.inl ⟨s₁, rfl, by rw [command_eq, hr]; rfl⟩)
  · exact Or.inr (Or.inr ⟨s₁, rfl, by rw [command_eq, hr]; rfl⟩)
  · exact absurd (congrArg Prod.fst hr) hstarved

end Reading

end UnixStudy.Shell
