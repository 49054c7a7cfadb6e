import UnixStudy.Shell.Lexer

/-!
# The lexer on a stream with pushback

`getchar` and `ungetc` work on a stream that keeps the bytes which were pushed back apart from those
not yet read. On such a stream the loop of `gettoken` is a sequence of turns, each of which begins
with a call of `getchar`. The lexer on lists of bytes is this loop on all bytes of the stream
(`Stream.gettoken_eq`), and no call of it, nor any number of calls, leaves more than one byte pushed
back (`Stream.exists_calls`).

## Main definitions

* `Stream`, `Stream.getchar`, `Stream.ungetc` : streams with pushback.
* `Stream.gettoken` : the lexer on a stream.
* `Stream.Calls` : several calls, each of which leaves at most one byte pushed back.

## Main results

* `Stream.gettoken_eq` : the two lexers agree.
* `Stream.exists_calls` : the calls of a reading.

## References

* `src/communication/shell.c`, lines 119–197.
-/

namespace UnixStudy.Shell

/-- The stream `stdin`: the bytes pushed back, the last one first, and the bytes not yet read. -/
structure Stream where
  pushed : Bytes
  unread : Bytes
  readError : Bool
  deriving DecidableEq, Repr

/-- What a turn of the loop of `gettoken` does: go on, or return. -/
inductive LexTurn
  | loop (st : LexState) (w : WordBuffer) (f : Stream)
  | done (t : Lexed) (f : Stream)

namespace Stream

/-- All bytes that `getchar` will return. -/
def bytes (f : Stream) : Bytes := f.pushed ++ f.unread

/-- The stream as a list of bytes. -/
def stdin (f : Stream) : Stdin := ⟨f.bytes, f.readError⟩

/-- `getchar`; `EOF` is `none`. -/
def getchar (f : Stream) : Option Byte × Stream :=
  match f.pushed with
  | c :: cs => (some c, { f with pushed := cs })
  | [] =>
    match f.unread with
    | c :: cs => (some c, { f with unread := cs })
    | [] => (none, f)

/-- `ungetc`. -/
def ungetc (c : Byte) (f : Stream) : Stream := { f with pushed := c :: f.pushed }

/-- The `switch` in the loop of `gettoken`, for a character that `getchar` has returned. -/
def turn (maxword : ℕ) (st : LexState) (w : WordBuffer) (c : Byte) (f : Stream) : LexTurn :=
  match st with
  | .neutral =>
    if c = semicolon then .done (w.lexed .semi) f
    else if c = ampersand then .done (w.lexed .amp) f
    else if c = bar then .done (w.lexed .bar) f
    else if c = less then .done (w.lexed .lt) f
    else if c = newline then .done (w.lexed .nl) f
    else if c = space ∨ c = tab then .loop .neutral w f
    else if c = greater then .loop .gtgt w f
    else if c = dquote then .loop .inquote w f
    else .loop .inword (storeChar maxword w c).2 f
  | .gtgt => if c = greater then .done (w.lexed .gtgt) f else .done (w.lexed .gt) (f.ungetc c)
  | .inquote =>
    if c = backslash then
      .loop .inquote (storeChar maxword w (f.getchar.1.getD backslash)).2 f.getchar.2
    else if c = dquote then .done ((storeChar maxword w nul).2.lexed .word) f
    else .loop .inquote (storeChar maxword w c).2 f
  | .inword =>
    if isDelimiter c then .done ((storeChar maxword w nul).2.lexed .word) (f.ungetc c)
    else .loop .inword (storeChar maxword w c).2 f

/-- The loop of `gettoken`; `none` only for want of fuel. -/
def loop (maxword : ℕ) : ℕ → LexState → WordBuffer → Stream → Option (Lexed × Stream)
  | 0, _, _, _ => none
  | fuel + 1, st, w, f =>
    match f.getchar with
    | (none, f) => some (endOfInput f.readError w, f)
    | (some c, f) =>
      match turn maxword st w c f with
      | .loop st w f => loop maxword fuel st w f
      | .done t f => some (t, f)

/-- `gettoken`. -/
def gettoken (maxword : ℕ) (f : Stream) : Option (Lexed × Stream) :=
  loop maxword (f.bytes.length + 1) .neutral {} f

/-- A stream with no byte pushed back. -/
def ofStdin (s : Stdin) : Stream := ⟨[], s.unread, s.readError⟩

section Pushback

variable {maxword : ℕ}

theorem getchar_of_nil {f : Stream} (h : f.bytes = []) : f.getchar = (none, f) := by
  obtain ⟨pushed, unread, readError⟩ := f
  obtain ⟨rfl, rfl⟩ := List.append_eq_nil_iff.mp h
  rfl

/-- After `getchar` has returned a character, nothing is pushed back any more. -/
theorem getchar_of_cons {f : Stream} {c : Byte} {cs : Bytes} (hpushed : f.pushed.length ≤ 1)
    (h : f.bytes = c :: cs) : f.getchar = (some c, ⟨[], cs, f.readError⟩) := by
  obtain ⟨pushed, unread, readError⟩ := f
  cases pushed with
  | nil =>
    obtain rfl : unread = c :: cs := h
    rfl
  | cons d ds =>
    obtain rfl : ds = [] :=
      List.length_eq_zero_iff.mp (Nat.le_zero.mp (Nat.le_of_succ_le_succ hpushed))
    obtain ⟨rfl, rfl⟩ := List.cons.inj h
    rfl

/-- The first character of a bare word. -/
theorem turn_neutral_other {w : WordBuffer} {c : Byte} {f : Stream} (hc : isDelimiter c = false)
    (hq : c ≠ dquote) :
    turn maxword .neutral w c f = .loop .inword (storeChar maxword w c).2 f := by
  simp only [isDelimiter, Bool.or_eq_false_iff, beq_eq_false_iff_ne, ne_eq] at hc
  obtain ⟨⟨⟨⟨⟨⟨⟨h₁, h₂⟩, h₃⟩, h₄⟩, h₅⟩, h₆⟩, h₇⟩, h₈⟩ := hc
  rw [turn, if_neg h₁, if_neg h₂, if_neg h₃, if_neg h₄, if_neg h₆, if_neg (not_or.mpr ⟨h₇, h₈⟩),
    if_neg h₅, if_neg hq]

/-- What the loop returns is what the loop on the bytes of the stream does, and at most one byte is
pushed back. -/
def Agrees (maxword : ℕ) (readError : Bool) (st : LexState) (w : WordBuffer) (cs : Bytes)
    (r : Option (Lexed × Stream)) : Prop :=
  ∃ f, r = some ((gettokenLoop maxword readError st w cs).1, f) ∧ f.pushed.length ≤ 1 ∧
    f.bytes = (gettokenLoop maxword readError st w cs).2 ∧ f.readError = readError

theorem loop_agrees (maxword : ℕ) {fuel : ℕ} (st : LexState) (w : WordBuffer) {f : Stream}
    (hpushed : f.pushed.length ≤ 1) (hfuel : f.bytes.length < fuel) :
    Agrees maxword f.readError st w f.bytes (loop maxword fuel st w f) := by
  induction fuel generalizing st w f with
  | zero => exact absurd hfuel (Nat.not_lt_zero _)
  | succ fuel ih =>
    cases hbytes : f.bytes with
    | nil =>
      rw [loop, getchar_of_nil hbytes]
      exact ⟨f, by cases st <;> rfl, hpushed, hbytes.trans (by cases st <;> rfl), rfl⟩
    | cons c cs =>
      rw [hbytes, List.length_cons] at hfuel
      rw [loop, getchar_of_cons hpushed hbytes]
      generalize f.readError = e
      -- the loop goes on with the bytes behind, none of them pushed back
      have hnext (st : LexState) (w : WordBuffer) (ds : Bytes) (hds : ds.length < fuel) :
          Agrees maxword e st w ds (loop maxword fuel st w ⟨[], ds, e⟩) :=
        ih st w (Nat.zero_le 1) hds
      have hdone (t : Lexed) (ds : Bytes) : ∃ f : Stream,
          some (t, (⟨[], ds, e⟩ : Stream)) = some (t, f) ∧ f.pushed.length ≤ 1 ∧ f.bytes = ds ∧
            f.readError = e := ⟨_, rfl, Nat.zero_le 1, rfl, rfl⟩
      have hunget (t : Lexed) : ∃ f : Stream,
          some (t, (⟨[], cs, e⟩ : Stream).ungetc c) = some (t, f) ∧ f.pushed.length ≤ 1 ∧
            f.bytes = c :: cs ∧ f.readError = e := ⟨_, rfl, Nat.le_refl 1, rfl, rfl⟩
      cases st with
      | neutral =>
        by_cases hblank : c = space ∨ c = tab
        · rw [Agrees, gettokenLoop_neutral_blank _ _ hblank]
          rcases hblank with rfl | rfl <;> exact hnext _ _ _ (by omega)
        by_cases hq : c = dquote
        · subst hq
          exact hnext _ _ _ (by omega)
        cases hdelim : isDelimiter c with
        | true =>
          rcases isDelimiter_cases hdelim hblank with rfl | rfl | rfl | rfl | rfl | rfl
          · exact hdone _ _
          · exact hdone _ _
          · exact hdone _ _
          · exact hdone _ _
          · exact hdone _ _
          · exact hnext _ _ _ (by omega)
        | false =>
          rw [Agrees, gettokenLoop_neutral_other _ _ hdelim hq]
          dsimp only
          rw [turn_neutral_other hdelim hq]
          exact hnext _ _ _ (by omega)
      | gtgt =>
        simp only [turn, Agrees, gettokenLoop]
        split_ifs
        · exact hdone _ _
        · exact hunget _
      | inquote =>
        by_cases hc : c = backslash
        · subst hc
          cases cs with
          | nil => exact hnext _ _ _ (Nat.lt_of_succ_lt_succ hfuel)
          | cons d ds => exact hnext _ _ _ (by rw [List.length_cons] at hfuel; omega)
        by_cases hq : c = dquote
        · subst hq
          simp only [turn, Agrees, gettokenLoop_inquote_dquote, if_neg hc, if_pos]
          exact hdone _ _
        · simp only [turn, Agrees, gettokenLoop_inquote_other _ _ hc hq, if_neg hc, if_neg hq]
          exact hnext _ _ _ (by omega)
      | inword =>
        simp only [turn, Agrees, gettokenLoop]
        split_ifs
        · exact hunget _
        · exact hnext _ _ _ (by omega)

/-- **Lexing a stream with pushback** is lexing its bytes, and leaves at most one byte pushed
back. -/
theorem gettoken_eq (maxword : ℕ) {f : Stream} (hpushed : f.pushed.length ≤ 1) :
    ∃ f', f.gettoken maxword = some ((Shell.gettoken maxword f.stdin).1, f') ∧
      f'.pushed.length ≤ 1 ∧ f'.stdin = (Shell.gettoken maxword f.stdin).2 := by
  obtain ⟨f', hloop, hpushed', hbytes, herror⟩ :=
    loop_agrees maxword .neutral {} hpushed (Nat.lt_succ_self _)
  refine ⟨f', hloop, hpushed', ?_⟩
  rw [stdin, hbytes, herror]
  rfl

/-- Several calls of `gettoken` on a stream, none of which leaves more than one byte pushed back. -/
inductive Calls (maxword : ℕ) : Stream → List Lexed → Stream → Prop
  | nil (f : Stream) : Calls maxword f [] f
  | cons {f f' f'' : Stream} {t : Lexed} {ts : List Lexed}
      (h : f.gettoken maxword = some (t, f')) (hpushed : f'.pushed.length ≤ 1)
      (hs : Calls maxword f' ts f'') : Calls maxword f (t :: ts) f''

/-- **The calls of a reading.** -/
theorem exists_calls {f : Stream} {ts : List Lexed} {s : Stdin} (hpushed : f.pushed.length ≤ 1)
    (h : Reads (Shell.gettoken maxword) f.stdin ts s) :
    ∃ f', Calls maxword f ts f' ∧ f'.stdin = s := by
  induction ts generalizing f with
  | nil => exact ⟨f, .nil f, (Reads.nil_iff.mp h).symm⟩
  | cons t ts ih =>
    obtain ⟨s', hnext, hreads⟩ := Reads.cons_iff.mp h
    obtain ⟨f', hget, hpushed', hstdin⟩ := gettoken_eq maxword hpushed
    rw [hnext] at hget hstdin
    dsimp only at hstdin
    rw [← hstdin] at hreads
    obtain ⟨f'', hcalls, hend⟩ := ih hpushed' hreads
    exact ⟨f'', .cons hget hpushed' hcalls, hend⟩

end Pushback

end Stream

end UnixStudy.Shell
