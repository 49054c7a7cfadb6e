import UnixStudy.Shell.StartShell

/-!
# The end of the input is taken for an error

At `EOF` the lexer asks `ferror` whether the input has failed, and returns `T_ERROR` if it has not.
So the two ends of the input are exchanged: a run of the shell on an input that simply ends is
closed by the report "Bad command", and a run that a read error ends is closed by `exit` without a
report. In between, `fd_check` can end a run early.

## Main definitions

* `EndsRightly` : the ends of a run as they are meant.

## Main results

* `readError_of_reads` : which of the two tokens of the end is returned.
* `not_endsRightly` : no run ends as it is meant to.

## References

* `src/communication/shell.c`, lines 189–197, 336–360 and 369–386.
-/

namespace UnixStudy.Shell

/-! ### The token of the end -/

/-- The two tokens of the end of the input, each where the other one is meant. -/
theorem gettokenLoop_readError {maxword : ℕ} {readError : Bool} {st : LexState} {b : WordBuffer}
    {cs : Bytes} :
    ((gettokenLoop maxword readError st b cs).1.token = .error → readError = false) ∧
      ((gettokenLoop maxword readError st b cs).1.token = .eof → readError = true) := by
  refine gettokenLoop_induction (P := fun _ _ _ r => (r.1.token = .error → readError = false) ∧
    (r.1.token = .eof → readError = true)) ?_ ?_ ?_ ?_ ?_ st b cs
  · intro _ b
    cases readError <;> simp [endOfInput, WordBuffer.lexed]
  · intro _ _ _ _ _ _ ht _
    refine ⟨?_, ?_⟩ <;> rintro rfl <;> exact absurd ht (by decide)
  · exact fun _ _ _ _ _ => ⟨Token.noConfusion, Token.noConfusion⟩
  · exact fun _ _ _ _ _ ih => ih
  · exact fun _ _ _ _ _ _ _ _ _ ih => ih

theorem readError_of_reads {maxword : ℕ} {s s' : Stdin} {ts : List Lexed}
    (h : Reads (gettoken maxword) s ts s') : s'.readError = s.readError ∧ ∀ t ∈ ts,
      (t.token = .error → s.readError = false) ∧ (t.token = .eof → s.readError = true) := by
  induction h with
  | nil s => exact ⟨rfl, nofun⟩
  | @cons s _ _ t ts hnext _ ih =>
    obtain ⟨rfl, rfl⟩ := Prod.mk.inj hnext
    exact ⟨ih.1, List.forall_mem_cons.mpr ⟨gettokenLoop_readError, ih.2⟩⟩

/-- A reading that meets the end of the input has met it in this way. -/
theorem readError_of_reading (sys : System) (makepipe : Bool) (l : Locals) (s : State) :
    ((reading sys makepipe l s).1 = .error → s.stdin.readError = false) ∧
      ((reading sys makepipe l s).1 = .exited → s.stdin.readError = true) := by
  have hend {makepipe : Bool} {l : Locals} {s s' : State} {r : Round} {t : Token}
      (hround : round sys makepipe l s = (r, s'))
      (ht : ∀ us, Turn makepipe l us r → us = [t]) :
      (t = .error → s.stdin.readError = false) ∧ (t = .eof → s.stdin.readError = true) := by
    obtain ⟨ts, hreads, -, hturn⟩ := exists_turn hround
    obtain ⟨u, hu, rfl⟩ := List.map_eq_singleton_iff.mp (ht _ hturn)
    exact (readError_of_reads hreads).2 u (hu ▸ List.mem_cons_self)
  have hkeep {makepipe : Bool} {l : Locals} {s s' : State} {r : Round}
      (hround : round sys makepipe l s = (r, s')) : s'.stdin.readError = s.stdin.readError := by
    obtain ⟨ts, hreads, -⟩ := exists_turn hround
    exact (readError_of_reads hreads).1
  refine reading_induction sys (P := fun _ _ s r => (r.1 = .error → s.stdin.readError = false) ∧
    (r.1 = .exited → s.stdin.readError = true)) ?_ ?_ ?_ ?_ ?_ makepipe l s
  · intro _ _ _ _ _ hround ih
    rwa [hkeep hround] at ih
  · intro _ l _ s' hround ih
    rw [hkeep hround] at ih
    rcases Reading.cons_cases ⟨l, .bar⟩ (reading sys true {} s') with ⟨sts, t, -, h⟩ | h <;> rw [h]
    · exact ⟨nofun, nofun⟩
    · exact ih
  · intro _ _ _ _ _ _
    exact ⟨nofun, nofun⟩
  · intro _ _ _ _ hround
    refine ⟨nofun, fun _ => (hend hround ?_).2 rfl⟩
    intro us hus
    cases hus
    rfl
  · intro _ _ _ _ hround
    refine ⟨fun _ => (hend hround ?_).1 rfl, nofun⟩
    intro us hus
    cases hus
    rfl

/-! ### The ends of a run -/

section Run

variable (sys : System) (left : State → List Child) (s : State)

/-- The ends of a run as they are meant: if the input does not fail, then no token is `T_ERROR`, and
the run is ended by `exit`, without a report, when all of the input was read, so that every command
was run which a terminator has completed; if it fails, then the run ends with the report. -/
structure EndsRightly : Prop where
  eof : s.stdin.readError = false →
    (∀ t ∈ (s.since (startShell sys left s).2).filterMap Event.toLexed, t.token ≠ .error) ∧
      (startShell sys left s).1 = .exited ∧
      .diag .badCommand ∉ s.since (startShell sys left s).2 ∧
      (startShell sys left s).2.stdin.unread = []
  failed : s.stdin.readError = true → (startShell sys left s).1 = .badCommand ∧
    .diag .badCommand ∈ s.since (startShell sys left s).2

variable {sys left s}

/-- A pipeline that is read and run leaves the end of the input as it is. -/
theorem readError_afterRound {term : Token} {sts : List Stage} {t : Terminator} {s₁ : State}
    (h : reading sys false {} (prompt term s) = (.stages sts t, s₁)) :
    (afterRound left t.token (runStages sys t false sts s₁).2).stdin.readError =
      s.stdin.readError := by
  obtain ⟨ts, hreads, -⟩ := exists_reads_reading sys false {} (prompt term s)
  rw [h, prompt_stdin] at hreads
  rw [afterRound_stdin, runStages_stdin]
  exact (readError_of_reads hreads).1

/-- The ends of a run are exchanged. -/
theorem startShell_fst (sys : System) (left : State → List Child) (s : State) :
    (startShell sys left s).1 = .fdCheck ∨
    (startShell sys left s).1 = if s.stdin.readError then .exited else .badCommand := by
  refine startShellLoop_induction (P := fun _ s r => r.1 = .fdCheck ∨
    r.1 = if s.stdin.readError then .exited else .badCommand) ?_ ?_ ?_ ?_ .nl s
    (Nat.lt_succ_self _)
  · intro term s sts t s₁ r hread ih
    rwa [readError_afterRound hread] at ih
  · intro _ _ _ _ _ _
    exact Or.inl rfl
  · intro term s s₁ hread
    have herr := readError_of_reading sys false {} (prompt term s)
    rw [hread, prompt_stdin] at herr
    exact Or.inr (if_pos (herr.2 rfl)).symm
  · intro term s s₁ hread
    have herr := readError_of_reading sys false {} (prompt term s)
    rw [hread, prompt_stdin] at herr
    exact Or.inr (if_neg (by rw [herr.1 rfl]; exact Bool.false_ne_true)).symm

/-- **The end of the input is taken for an error**, and an error for the end of the input: unless
`fd_check` ends the run before, an input that does not fail is closed by the report of a bad
command, and one that fails is closed without it; so no run ends as it is meant to. -/
theorem not_endsRightly (sys : System) (left : State → List Child) (s : State) :
    ¬ EndsRightly sys left s ∧ ((startShell sys left s).1 = .fdCheck ∨
      (startShell sys left s).1 = if s.stdin.readError then .exited else .badCommand) := by
  refine ⟨fun h => ?_, startShell_fst sys left s⟩
  cases herr : s.stdin.readError with
  | false =>
    have hend := (h.eof herr).2.1
    rcases startShell_fst sys left s with hfst | hfst <;> rw [hend] at hfst
    · cases hfst
    · rw [herr] at hfst
      cases hfst
  | true =>
    have hend := (h.failed herr).1
    rcases startShell_fst sys left s with hfst | hfst <;> rw [hend] at hfst
    · cases hfst
    · rw [herr] at hfst
      cases hfst

/-- On the empty input the shell reports a bad command. -/
theorem not_endsRightly_nil : ¬ EndsRightly .obliging State.children (.start []) := by
  intro h
  have hend := (h.eof rfl).2.1
  revert hend
  decide

end Run

end UnixStudy.Shell
