import UnixStudy.Shell.StartShell
import UnixStudy.Shell.Stream

/-!
# The reader of the shell makes progress

A call of `gettoken` that returns a token proper takes a byte off the input. So a call of `command`
ends, however many syntax errors it goes on behind, and the main loop ends. The calls that return
the end of the input are few: the loop of `command` makes no further call behind one of its own, and
one more behind a call for a name. This bounds the calls of a whole run by the bytes of its input
(`reader_progress`).

## Main definitions

* `callBound` : the calls that are made while so many bytes are unread.

## Main results

* `tokens_reading` : the calls of a reading.
* `tokens_startShell` : the calls of a run.
* `reader_progress` : progress of the calls, of `command` and of the main loop.

## References

* `src/communication/shell.c`, lines 119–197, 277–362 and 364–387.
-/

namespace UnixStudy.Shell

variable {sys : System} {left : State → List Child}

/-- The number of calls of `gettoken` that are made at most while `n` bytes are unread, when the
next call is one of the loop of `command`. -/
def callBound (n : ℕ) : ℕ := if n = 0 then 1 else n + 2

theorem callBound_le (n : ℕ) : callBound n ≤ n + 2 := by
  rw [callBound]
  split_ifs <;> omega

theorem lt_callBound (n : ℕ) : n < callBound n := by
  rw [callBound]
  split_ifs <;> omega

/-- Calls that return tokens proper take a byte each; a call behind them takes one more, or meets
the end of the input. -/
theorem length_reads {maxword : ℕ} {s s' : Stdin} {ts : List Lexed} {u : Lexed}
    (h : Reads (gettoken maxword) s (ts ++ [u]) s') (hts : ∀ t ∈ ts, ¬ t.token.IsEof) :
    ts.length + 1 + s'.unread.length ≤ s.unread.length ∨
      s'.unread = [] ∧ ts.length ≤ s.unread.length ∧ u.token.IsEof := by
  induction ts generalizing s with
  | nil =>
    obtain ⟨s₁, hnext, hnil⟩ := Reads.cons_iff.mp h
    obtain rfl := Reads.nil_iff.mp hnil
    obtain rfl : (gettoken maxword s).1 = u := congrArg Prod.fst hnext
    obtain rfl : (gettoken maxword s).2 = s' := congrArg Prod.snd hnext
    by_cases hend : (gettoken maxword s).1.token.IsEof
    · exact Or.inr ⟨gettoken_eq_nil hend, Nat.zero_le _, hend⟩
    · have hlt := gettoken_length_lt (not_or.mp hend).1 (not_or.mp hend).2
      rw [List.length_nil]
      omega
  | cons t ts ih =>
    obtain ⟨s₁, hnext, hreads⟩ := Reads.cons_iff.mp h
    obtain rfl : (gettoken maxword s).1 = t := congrArg Prod.fst hnext
    obtain rfl : (gettoken maxword s).2 = s₁ := congrArg Prod.snd hnext
    obtain ⟨ht, hts⟩ := List.forall_mem_cons.mp hts
    have hlt := gettoken_length_lt (not_or.mp ht).1 (not_or.mp ht).2
    rw [List.length_cons]
    rcases ih hreads hts with hle | ⟨hnil, hle, hu⟩
    · exact Or.inl (by omega)
    · exact Or.inr ⟨hnil, by omega, hu⟩

/-- A turn of the loop makes one call, or one for a redirection and one for a name; only a name can
meet the end of the input in a turn that goes on. -/
theorem Turn.exists_tokens {makepipe : Bool} {l : Locals} {r : Round} {ts : List Lexed}
    (h : Turn makepipe l (ts.map Lexed.token) r) :
    ∃ us u, ts = us ++ [u] ∧ (∀ t ∈ us, ¬ t.token.IsEof) ∧
      (u.token.IsEof → us = [] ∧ r.isLast = true ∨ us.length = 1 ∧ ∃ l', r = .go l') := by
  have hone {t : Token} (hts : ts.map Lexed.token = [t]) (hlast : t.IsEof → r.isLast = true) :
      ∃ us u, ts = us ++ [u] ∧ (∀ t ∈ us, ¬ t.token.IsEof) ∧
        (u.token.IsEof → us = [] ∧ r.isLast = true ∨ us.length = 1 ∧ ∃ l', r = .go l') := by
    obtain ⟨u, rfl, rfl⟩ := List.map_eq_singleton_iff.mp hts
    exact ⟨[], u, rfl, nofun, fun hu => Or.inl ⟨rfl, hlast hu⟩⟩
  have htwo {g t : Token} {l' : Locals} (hts : ts.map Lexed.token = [g, t]) (hg : ¬ g.IsEof)
      (hr : r = .go l') : ∃ us u, ts = us ++ [u] ∧ (∀ t ∈ us, ¬ t.token.IsEof) ∧
        (u.token.IsEof → us = [] ∧ r.isLast = true ∨ us.length = 1 ∧ ∃ l', r = .go l') := by
    obtain ⟨a, _, rfl, rfl, hrest⟩ := List.map_eq_cons_iff.mp hts
    obtain ⟨u, rfl, rfl⟩ := List.map_eq_singleton_iff.mp hrest
    exact ⟨[a], u, rfl, List.forall_mem_singleton.mpr hg, fun _ => Or.inr ⟨rfl, l', hr⟩⟩
  generalize hus : ts.map Lexed.token = us at h
  cases h with
  | word | extraSource | conflict | bar => exact hone hus fun h => absurd h (by decide)
  | extraDest hgt =>
    refine hone hus fun h => ?_
    rcases hgt with rfl | rfl <;> exact absurd h (by decide)
  | source => exact htwo hus (by decide) rfl
  | dest hgt => exact htwo hus (by rcases hgt with rfl | rfl <;> decide) rfl
  | term t => exact hone hus fun h => absurd h (by cases t <;> decide)
  | exited | error => exact hone hus fun _ => rfl

/-- The calls of a turn of the loop: it is the last one and made one call; or a byte was taken for
every call; or it goes on at the end of the input, and made one call more. -/
theorem tokens_round {makepipe : Bool} {l : Locals} {s s' : State} {r : Round}
    (h : round sys makepipe l s = (r, s')) :
    r.isLast = true ∧ s'.tokens.length = s.tokens.length + 1 ∨
      s'.tokens.length + s'.stdin.unread.length ≤ s.tokens.length + s.stdin.unread.length ∨
      (∃ l', r = .go l') ∧ s'.stdin.unread = [] ∧
        s'.tokens.length ≤ s.tokens.length + s.stdin.unread.length + 1 := by
  obtain ⟨ts, hreads, htokens, hturn⟩ := exists_turn h
  obtain ⟨us, u, rfl, hus, hu⟩ := hturn.exists_tokens
  have hlen := congrArg List.length htokens
  rw [List.length_append, List.length_append, List.length_singleton] at hlen
  rcases length_reads hreads hus with hle | ⟨hnil, hle, hend⟩
  · omega
  · rcases hu hend with ⟨rfl, hlast⟩ | ⟨hone, hgo⟩
    · exact Or.inl ⟨hlast, hlen⟩
    · exact Or.inr (Or.inr ⟨hgo, hnil, by omega⟩)

/-- **The calls of a reading.** -/
theorem tokens_reading (sys : System) (makepipe : Bool) (l : Locals) (s : State) :
    (reading sys makepipe l s).2.tokens.length ≤
        s.tokens.length + callBound s.stdin.unread.length ∧
      ∀ sts t, (reading sys makepipe l s).1 = .stages sts t →
        (reading sys makepipe l s).2.tokens.length +
            (reading sys makepipe l s).2.stdin.unread.length ≤
          s.tokens.length + s.stdin.unread.length := by
  refine reading_induction sys (P := fun _ _ s r =>
    r.2.tokens.length ≤ s.tokens.length + callBound s.stdin.unread.length ∧
      ∀ sts t, r.1 = .stages sts t → r.2.tokens.length + r.2.stdin.unread.length ≤
        s.tokens.length + s.stdin.unread.length) ?_ ?_ ?_ ?_ ?_ makepipe l s
  · intro makepipe l s l' s' hround ⟨hbound, hstages⟩
    rcases tokens_round hround with ⟨hlast, -⟩ | hle | ⟨-, hnil, hle⟩
    · exact absurd hlast Bool.false_ne_true
    · have hlt := round_length_lt hround rfl
      refine ⟨hbound.trans ?_, fun sts t h => (hstages sts t h).trans hle⟩
      simp only [callBound]
      split_ifs <;> omega
    · have hlt := round_length_lt hround rfl
      have hzero : s'.stdin.unread.length = 0 := by rw [hnil, List.length_nil]
      refine ⟨hbound.trans ?_, fun sts t h => ?_⟩
      · simp only [callBound]
        split_ifs <;> omega
      · have hlt' := reading_length_lt (Prod.ext h rfl :
          reading sys makepipe l' s' = (.stages sts t, (reading sys makepipe l' s').2))
        omega
  · intro makepipe l s s' hround ⟨hbound, hstages⟩
    rw [Reading.cons_snd]
    rcases tokens_round hround with ⟨hlast, -⟩ | hle | ⟨⟨l', hgo⟩, -⟩
    · exact absurd hlast Bool.false_ne_true
    · have hlt := round_length_lt hround rfl
      refine ⟨hbound.trans ?_, fun sts t h => ?_⟩
      · simp only [callBound]
        split_ifs <;> omega
      · rcases Reading.cons_cases ⟨l, .bar⟩ (reading sys true {} s') with
          ⟨sts', t', hread, -⟩ | hcons
        · exact (hstages _ _ hread).trans hle
        · rw [hcons] at h
          exact (hstages _ _ h).trans hle
    · cases hgo
  · intro makepipe l s t s' hround
    rcases tokens_round hround with ⟨hlast, -⟩ | hle | ⟨⟨l', hgo⟩, -⟩
    · exact absurd hlast Bool.false_ne_true
    · have hlt := lt_callBound s.stdin.unread.length
      exact ⟨by dsimp only; omega, fun _ _ _ => hle⟩
    · cases hgo
  all_goals
    intro makepipe l s s' hround
    refine ⟨?_, nofun⟩
    have hlt := lt_callBound s.stdin.unread.length
    rcases tokens_round hround with ⟨-, hlen⟩ | hle | ⟨⟨l', hgo⟩, -⟩
    · dsimp only
      omega
    · dsimp only
      omega
    · cases hgo

/-! ### The calls of a run -/

/-- **The calls of a run** are those that the input is read by, and their number is bounded. -/
theorem tokens_startShell (sys : System) (left : State → List Child) (s : State) :
    ∃ ts, Reads (gettoken MAXWORD) s.stdin ts (startShell sys left s).2.stdin ∧
      (startShell sys left s).2.tokens = s.tokens ++ ts ∧
      ts.length ≤ callBound s.stdin.unread.length := by
  refine startShellLoop_induction (P := fun _ s r => ∃ ts, Reads (gettoken MAXWORD) s.stdin ts
    r.2.stdin ∧ r.2.tokens = s.tokens ++ ts ∧ ts.length ≤ callBound s.stdin.unread.length)
    ?_ ?_ ?_ ?_ .nl s (Nat.lt_succ_self _)
  · rintro term s sts t s₁ r hread ⟨us, hus, htokens, hlen⟩
    obtain ⟨ts, hts, htokens'⟩ := exists_reads_reading sys false {} (prompt term s)
    have hbound := (tokens_reading sys false {} (prompt term s)).2 sts t
    have hlt := reading_length_lt hread
    rw [hread] at hts htokens' hbound
    rw [prompt_stdin] at hts hlt
    rw [prompt_tokens] at htokens'
    rw [htokens', prompt_stdin, prompt_tokens, List.length_append] at hbound
    have hle := hbound rfl
    dsimp only at hle
    rw [afterRound_stdin, runStages_stdin] at hus hlen
    rw [afterRound_tokens, runStages_tokens, htokens', List.append_assoc] at htokens
    refine ⟨ts ++ us, hts.append hus, htokens, ?_⟩
    rw [List.length_append]
    simp only [callBound] at hlen ⊢
    split_ifs at hlen ⊢ <;> omega
  · intro term s sts t s₁ hread
    obtain ⟨ts, hts, htokens⟩ := exists_reads_reading sys false {} (prompt term s)
    have hbound := (tokens_reading sys false {} (prompt term s)).1
    rw [hread] at hts htokens hbound
    rw [prompt_stdin] at hts hbound
    rw [prompt_tokens] at htokens hbound
    rw [htokens, List.length_append] at hbound
    refine ⟨ts, ?_, ?_, by omega⟩
    · rwa [afterRound_stdin, runStages_stdin]
    · rwa [afterRound_tokens, runStages_tokens]
  all_goals
    intro term s s₁ hread
    obtain ⟨ts, hts, htokens⟩ := exists_reads_reading sys false {} (prompt term s)
    have hbound := (tokens_reading sys false {} (prompt term s)).1
    rw [hread] at hts htokens hbound
    rw [prompt_stdin] at hts hbound
    rw [prompt_tokens] at htokens hbound
    rw [htokens, List.length_append] at hbound
  · exact ⟨ts, hts, htokens, by omega⟩
  · exact ⟨ts, hts, (State.tokens_diag ..).trans htokens, by omega⟩

/-- **The reader makes progress.** On a stream with at most one byte pushed back, every call of
`gettoken` ends, leaves at most one byte pushed back, and takes a byte off the stream if it returns
a token proper. Every call of `command`, at every level of its recursion, and the main loop end. And
a whole run is a sequence of calls of `gettoken`, none of which leaves more than one byte pushed
back, and their number is at most that of the bytes of the input and two. -/
theorem reader_progress (sys : System) (left : State → List Child) :
    (∀ maxword (f : Stream), f.pushed.length ≤ 1 → ∃ t f', f.gettoken maxword = some (t, f') ∧
      f'.pushed.length ≤ 1 ∧
      (t.token ≠ .eof → t.token ≠ .error → f'.bytes.length < f.bytes.length)) ∧
    (∀ makepipe l s fuel, s.stdin.unread.length < fuel →
      (commandLoop sys fuel makepipe l s).1 ≠ .starved) ∧
    ∀ s : State, (startShell sys left s).1 ≠ .starved ∧
      ∃ ts f', Stream.Calls MAXWORD (.ofStdin s.stdin) ts f' ∧
        f'.stdin = (startShell sys left s).2.stdin ∧
        (startShell sys left s).2.tokens = s.tokens ++ ts ∧
        ts.length ≤ s.stdin.unread.length + 2 := by
  refine ⟨fun maxword f hpushed => ?_, fun makepipe l s fuel hfuel => ?_, fun s => ?_⟩
  · obtain ⟨f', hget, hpushed', hstdin⟩ := Stream.gettoken_eq maxword hpushed
    refine ⟨_, f', hget, hpushed', fun heof herr => ?_⟩
    have hbytes : f'.bytes = (gettoken maxword f.stdin).2.unread := congrArg Stdin.unread hstdin
    rw [hbytes]
    exact gettoken_length_lt heof herr
  · have hne := reading_ne_starved sys makepipe l s
    rw [commandLoop_eq, readLoop_fuel sys hfuel (Nat.lt_succ_self _), ← reading]
    rcases hr : reading sys makepipe l s with ⟨⟨sts, t⟩ | _ | _ | _, s'⟩
    · exact Outcome.noConfusion
    · exact Outcome.noConfusion
    · exact Outcome.noConfusion
    · exact absurd (congrArg Prod.fst hr) hne
  · obtain ⟨ts, hreads, htokens, hlen⟩ := tokens_startShell sys left s
    obtain ⟨f', hcalls, hstdin⟩ :=
      Stream.exists_calls (f := .ofStdin s.stdin) (Nat.zero_le 1) hreads
    exact ⟨startShell_ne_starved sys left s, ts, f', hcalls, hstdin, htokens,
      hlen.trans (callBound_le _)⟩

end UnixStudy.Shell
