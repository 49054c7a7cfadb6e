import UnixStudy.Foundations.Reader

/-!
# The lexer of the shell

`gettoken` of `shell.c` reads the standard input byte by byte and returns the next token of the
command line. It is a machine with the four states `NEUTRAL`, `GTGT`, `INQUOTE` and `INWORD`; in
two of them it pushes the byte it has read back with `ungetc`, and after a backslash inside quotes
it reads a second byte. Characters of a word go through `store_char`, which refuses to write past
the buffer and reports that; no caller looks at its result.

The standard input is the list of its unread bytes together with how it ends, so `getchar` takes
the head of the list and `ungetc` puts a byte back in front. A stream at its end stays there.

## Main definitions

* `Token`, `Diag`, `Stdin`, `Lexed` : tokens, messages, the input, what one call returns.
* `storeChar`, `gettokenLoop`, `gettoken` : the source's functions.

## Main results

* `gettoken_length_le`, `gettoken_length_lt` : a call that returns a token proper removes a byte.
* `gettoken_word_length_le` : nothing is stored past the buffer.

## References

* `src/communication/shell.c`, lines 22 and 109–197.
-/

namespace UnixStudy.Shell

/-- A byte of the input, as `getchar` returns it. -/
abbrev Byte := UInt8

/-- A C string without its terminator, or any run of bytes. -/
abbrev Bytes := List Byte

/-- The terminator of C strings. -/
abbrev nul : Byte := 0

abbrev tab : Byte := 9

abbrev newline : Byte := 10

abbrev space : Byte := 32

/-- The quote character `"`. -/
abbrev dquote : Byte := 34

/-- The character `&`. -/
abbrev ampersand : Byte := 38

/-- The character `/`. -/
abbrev slash : Byte := 47

/-- The character `;`. -/
abbrev semicolon : Byte := 59

/-- The character `<`. -/
abbrev less : Byte := 60

/-- The character `=`. -/
abbrev equals : Byte := 61

/-- The character `>`. -/
abbrev greater : Byte := 62

abbrev backslash : Byte := 92

/-- The character `|`. -/
abbrev bar : Byte := 124

/-- `TOKEN`. -/
inductive Token
  | word | bar | amp | semi | gt | gtgt | lt | nl | eof | error
  deriving DecidableEq, Repr

/-- The messages the shell writes about a command line or about a system call that failed. -/
inductive Diag
  | stdinError -- `stdin error on <%c:%d>.`
  | wordTooLong -- `Word too long!`
  | tooManyArgs -- `Too many args`
  | outOfArgMemory -- `Out of arg memory`
  | extraLt -- `Extra <`
  | illegalLt -- `Illegal <`
  | extraGt -- `Extra > or >>`
  | illegalGt -- `Illegal > or >>`
  | conflictsBar -- `> or >> conflicts with |`
  | missingCommand -- `Missing command`
  | cannotFork -- `Can't create new process`
  | badCommand -- `Bad command`
  | extraArgs -- `Extra args`
  | badAssignment -- `bad command`
  | illegalRedirection -- `Illegal redirection or pipeline`
  | badDirectory (path : Bytes) -- `%s: bad directory`
  deriving DecidableEq, Repr

/-- The standard input: the bytes not yet read, and whether it ends by a read error, which
`ferror` then reports, or by the end of the file. -/
structure Stdin where
  unread : Bytes
  readError : Bool
  deriving DecidableEq, Repr

/-- The buffer `word` of a call of `gettoken`: the `wordn` bytes stored in it so far, and the
messages written meanwhile. -/
structure WordBuffer where
  bytes : Bytes := []
  diags : List Diag := []
  deriving DecidableEq, Repr

/-- What one call of `gettoken` gives: the token, the bytes it stored from the start of the buffer
on, and the messages it wrote. -/
structure Lexed where
  token : Token
  word : Bytes := []
  diags : List Diag := []
  deriving DecidableEq, Repr

/-- `store_char`: store a byte if there is room for it. -/
def storeChar (maxword : ℕ) (w : WordBuffer) (c : Byte) : Bool × WordBuffer :=
  if w.bytes.length ≥ maxword then (false, { w with diags := w.diags ++ [.wordTooLong] })
  else (true, { w with bytes := w.bytes ++ [c] })

/-- The states of the lexer. -/
inductive LexState
  | neutral | gtgt | inquote | inword
  deriving DecidableEq, Repr

/-- The call returns `t` with what the buffer holds. -/
def WordBuffer.lexed (w : WordBuffer) (t : Token) : Lexed := ⟨t, w.bytes, w.diags⟩

/-- The end of `gettoken`, after `getchar` has returned `EOF`. -/
def endOfInput (readError : Bool) (w : WordBuffer) : Lexed :=
  if !readError then ⟨.error, w.bytes, w.diags ++ [.stdinError]⟩ else w.lexed .eof

/-- The characters that end a bare word, and are left unread. -/
def isDelimiter (c : Byte) : Bool :=
  c == semicolon || c == ampersand || c == bar || c == less || c == greater || c == newline ||
    c == space || c == tab

theorem isDelimiter_cases {c : Byte} (h : isDelimiter c = true) (hblank : ¬ (c = space ∨ c = tab)) :
    c = semicolon ∨ c = ampersand ∨ c = bar ∨ c = less ∨ c = newline ∨ c = greater := by
  rw [not_or] at hblank
  simp only [isDelimiter, Bool.or_eq_true, beq_iff_eq, hblank.1, hblank.2, or_false] at h
  rcases h with ((((rfl | rfl) | rfl) | rfl) | rfl) | rfl <;> decide

/-- The loop of `gettoken` in a given state. -/
def gettokenLoop (maxword : ℕ) (readError : Bool) :
    LexState → WordBuffer → Bytes → Lexed × Bytes
  | _, w, [] => (endOfInput readError w, [])
  | .neutral, w, c :: cs =>
    if c = semicolon then (w.lexed .semi, cs)
    else if c = ampersand then (w.lexed .amp, cs)
    else if c = bar then (w.lexed .bar, cs)
    else if c = less then (w.lexed .lt, cs)
    else if c = newline then (w.lexed .nl, cs)
    else if c = space ∨ c = tab then gettokenLoop maxword readError .neutral w cs
    else if c = greater then gettokenLoop maxword readError .gtgt w cs
    else if c = dquote then gettokenLoop maxword readError .inquote w cs
    else gettokenLoop maxword readError .inword (storeChar maxword w c).2 cs
  | .gtgt, w, c :: cs => if c = greater then (w.lexed .gtgt, cs) else (w.lexed .gt, c :: cs)
  | .inquote, w, c :: cs =>
    if c = backslash then
      match cs with
      | [] => gettokenLoop maxword readError .inquote (storeChar maxword w backslash).2 []
      | d :: ds => gettokenLoop maxword readError .inquote (storeChar maxword w d).2 ds
    else if c = dquote then ((storeChar maxword w nul).2.lexed .word, cs)
    else gettokenLoop maxword readError .inquote (storeChar maxword w c).2 cs
  | .inword, w, c :: cs =>
    if isDelimiter c then ((storeChar maxword w nul).2.lexed .word, c :: cs)
    else gettokenLoop maxword readError .inword (storeChar maxword w c).2 cs

/-- `gettoken`, reading into a buffer of `maxword` bytes. -/
def gettoken (maxword : ℕ) (s : Stdin) : Lexed × Stdin :=
  let r := gettokenLoop maxword s.readError .neutral {} s.unread
  (r.1, { s with unread := r.2 })

/-! ### One step of the loop -/

section Step

variable {maxword : ℕ} {readError : Bool} (b : WordBuffer) (cs : Bytes)

/-- A byte that fits is stored, without a message. -/
theorem storeChar_of_lt {maxword : ℕ} {b : WordBuffer} (c : Byte)
    (h : b.bytes.length < maxword) :
    storeChar maxword b c = (true, { b with bytes := b.bytes ++ [c] }) := by
  rw [storeChar, if_neg (Nat.not_le.mpr h)]

theorem gettokenLoop_neutral_blank {c : Byte} (hc : c = space ∨ c = tab) :
    gettokenLoop maxword readError .neutral b (c :: cs) =
      gettokenLoop maxword readError .neutral b cs := by
  rcases hc with rfl | rfl <;> rfl

theorem gettokenLoop_neutral_dquote : gettokenLoop maxword readError .neutral b (dquote :: cs) =
    gettokenLoop maxword readError .inquote b cs := rfl

/-- The first character of a bare word. -/
theorem gettokenLoop_neutral_other {c : Byte} (hc : isDelimiter c = false) (hq : c ≠ dquote) :
    gettokenLoop maxword readError .neutral b (c :: cs) =
      gettokenLoop maxword readError .inword (storeChar maxword b c).2 cs := by
  simp only [isDelimiter, Bool.or_eq_false_iff, beq_eq_false_iff_ne, ne_eq] at hc
  obtain ⟨⟨⟨⟨⟨⟨⟨h₁, h₂⟩, h₃⟩, h₄⟩, h₅⟩, h₆⟩, h₇⟩, h₈⟩ := hc
  calc gettokenLoop maxword readError .neutral b (c :: cs)
    _ = _ := if_neg h₁
    _ = _ := if_neg h₂
    _ = _ := if_neg h₃
    _ = _ := if_neg h₄
    _ = _ := if_neg h₆
    _ = _ := if_neg (not_or.mpr ⟨h₇, h₈⟩)
    _ = _ := if_neg h₅
    _ = _ := if_neg hq

theorem gettokenLoop_gtgt_of_ne {c : Byte} (hc : c ≠ greater) :
    gettokenLoop maxword readError .gtgt b (c :: cs) = (b.lexed .gt, c :: cs) :=
  if_neg hc

theorem gettokenLoop_inquote_backslash (d : Byte) :
    gettokenLoop maxword readError .inquote b (backslash :: d :: cs) =
      gettokenLoop maxword readError .inquote (storeChar maxword b d).2 cs := rfl

theorem gettokenLoop_inquote_dquote : gettokenLoop maxword readError .inquote b (dquote :: cs) =
    ((storeChar maxword b nul).2.lexed .word, cs) := by
  cases cs <;> rfl

theorem gettokenLoop_inquote_other {c : Byte} (hb : c ≠ backslash) (hq : c ≠ dquote) :
    gettokenLoop maxword readError .inquote b (c :: cs) =
      gettokenLoop maxword readError .inquote (storeChar maxword b c).2 cs := by
  cases cs with
  | nil => exact (if_neg hb).trans (if_neg hq)
  | cons d ds => exact (if_neg hb).trans (if_neg hq)

theorem gettokenLoop_inword_of_isDelimiter {c : Byte} (hc : isDelimiter c = true) :
    gettokenLoop maxword readError .inword b (c :: cs) =
      ((storeChar maxword b nul).2.lexed .word, c :: cs) :=
  if_pos hc

theorem gettokenLoop_inword_other {c : Byte} (hc : isDelimiter c = false) :
    gettokenLoop maxword readError .inword b (c :: cs) =
      gettokenLoop maxword readError .inword (storeChar maxword b c).2 cs :=
  if_neg (Bool.eq_false_iff.mp hc)

end Step

/-- The tokens that `gettoken` returns for a word or at the end of the input. -/
def Token.isTextual (t : Token) : Bool := t == .word || t == .eof || t == .error

/-- To prove something of every call, follow the characters it takes. The loop meets the end of the
input, returns a token of one or two characters, returns a word, passes a character over, or stores
one. -/
theorem gettokenLoop_induction {maxword : ℕ} {readError : Bool}
    {P : LexState → WordBuffer → Bytes → Lexed × Bytes → Prop}
    (eof : ∀ st w, P st w [] (endOfInput readError w, []))
    (punct : ∀ st w cs rest (t : Token), st = .neutral ∨ st = .gtgt → t.isTextual = false →
      rest.length ≤ cs.length → P st w cs (w.lexed t, rest))
    (word : ∀ st w cs rest, rest.length ≤ cs.length →
      P st w cs ((storeChar maxword w nul).2.lexed .word, rest))
    (skip : ∀ st w c cs r, P st w cs r → P .neutral w (c :: cs) r)
    (store : ∀ st st' w c cs rest r, st' = .inquote ∨ st' = .inword → rest.length ≤ cs.length →
      P st' (storeChar maxword w c).2 rest r → P st w cs r)
    (st : LexState) (w : WordBuffer) (cs : Bytes) :
    P st w cs (gettokenLoop maxword readError st w cs) := by
  fun_induction gettokenLoop maxword readError st w cs with
  | case1 => exact eof _ _
  | case2 | case3 | case4 | case5 | case6 =>
    exact punct _ _ _ _ _ (Or.inl rfl) rfl (Nat.le_succ _)
  | case7 | case8 | case9 =>
    rename_i ih
    exact skip _ _ _ _ _ ih
  | case11 => exact punct _ _ _ _ _ (Or.inr rfl) rfl (Nat.le_succ _)
  | case12 => exact punct _ _ _ _ _ (Or.inr rfl) rfl (Nat.le_refl _)
  | case15 => exact word _ _ _ _ (Nat.le_succ _)
  | case17 => exact word _ _ _ _ (Nat.le_refl _)
  | case10 =>
    rename_i ih
    exact store _ _ _ _ _ _ _ (Or.inr rfl) (Nat.le_succ _) ih
  | case13 =>
    rename_i ih
    exact store _ _ _ _ _ _ _ (Or.inl rfl) (Nat.le_succ _) ih
  | case14 =>
    rename_i ih
    exact store _ _ _ _ _ _ _ (Or.inl rfl) (Nat.le_trans (Nat.le_succ _) (Nat.le_succ _)) ih
  | case16 =>
    rename_i ih
    exact store _ _ _ _ _ _ _ (Or.inl rfl) (Nat.le_succ _) ih
  | case18 =>
    rename_i ih
    exact store _ _ _ _ _ _ _ (Or.inr rfl) (Nat.le_succ _) ih

/-! ### What a call leaves unread -/

theorem gettokenLoop_length_le (maxword : ℕ) (readError : Bool) (st : LexState) (w : WordBuffer)
    (cs : Bytes) : (gettokenLoop maxword readError st w cs).2.length ≤ cs.length := by
  refine gettokenLoop_induction (P := fun _ _ cs r => r.2.length ≤ cs.length) ?_ ?_ ?_ ?_ ?_ st w cs
  · exact fun _ _ => Nat.le_refl _
  · exact fun _ _ _ _ _ _ _ hlen => hlen
  · exact fun _ _ _ _ hlen => hlen
  · exact fun _ _ _ _ _ ih => Nat.le_trans ih (Nat.le_succ _)
  · exact fun _ _ _ _ _ _ _ _ hlen ih => Nat.le_trans ih hlen

theorem gettoken_length_le (maxword : ℕ) (s : Stdin) :
    (gettoken maxword s).2.unread.length ≤ s.unread.length :=
  gettokenLoop_length_le maxword s.readError .neutral {} s.unread

/-- A call that ends by `EOF` leaves nothing. -/
theorem gettokenLoop_eq_nil {maxword : ℕ} {readError : Bool} {st : LexState} {w : WordBuffer}
    {cs : Bytes} (h : (gettokenLoop maxword readError st w cs).1.token = .eof ∨
      (gettokenLoop maxword readError st w cs).1.token = .error) :
    (gettokenLoop maxword readError st w cs).2 = [] := by
  refine gettokenLoop_induction (P := fun _ _ _ r =>
    r.1.token = .eof ∨ r.1.token = .error → r.2 = []) ?_ ?_ ?_ ?_ ?_ st w cs h
  · exact fun _ _ _ => rfl
  · rintro _ _ _ _ _ _ ht _ (rfl | rfl)
    · exact absurd ht (by decide)
    · exact absurd ht (by decide)
  · exact fun _ _ _ _ _ h => h.elim Token.noConfusion Token.noConfusion
  · exact fun _ _ _ _ _ ih => ih
  · exact fun _ _ _ _ _ _ _ _ _ ih => ih

theorem gettoken_eq_nil {maxword : ℕ} {s : Stdin} (h : (gettoken maxword s).1.token = .eof ∨
    (gettoken maxword s).1.token = .error) : (gettoken maxword s).2.unread = [] :=
  gettokenLoop_eq_nil h

/-- A call that starts a token and returns one proper removes a byte, pushed back bytes not
counted. -/
theorem gettokenLoop_neutral_length_lt {maxword : ℕ} {readError : Bool} {w : WordBuffer}
    {cs : Bytes} (heof : (gettokenLoop maxword readError .neutral w cs).1.token ≠ .eof)
    (herr : (gettokenLoop maxword readError .neutral w cs).1.token ≠ .error) :
    (gettokenLoop maxword readError .neutral w cs).2.length < cs.length := by
  cases cs with
  | nil =>
    simp only [gettokenLoop, endOfInput] at heof herr
    split_ifs at heof herr <;> simp_all [WordBuffer.lexed]
  | cons c cs =>
    have hle (st : LexState) (w : WordBuffer) :
        (gettokenLoop maxword readError st w cs).2.length < (c :: cs).length :=
      Nat.lt_succ_of_le (gettokenLoop_length_le maxword readError st w cs)
    rw [gettokenLoop]
    split_ifs <;> first | exact hle _ _ | exact Nat.lt_succ_self _

theorem gettoken_length_lt {maxword : ℕ} {s : Stdin} (heof : (gettoken maxword s).1.token ≠ .eof)
    (herr : (gettoken maxword s).1.token ≠ .error) :
    (gettoken maxword s).2.unread.length < s.unread.length :=
  gettokenLoop_neutral_length_lt heof herr

/-- At the end of the input every call returns the token of the end. -/
theorem gettoken_of_unread_nil {maxword : ℕ} {s : Stdin} (h : s.unread = []) :
    gettoken maxword s = (endOfInput s.readError {}, s) := by
  obtain ⟨cs, readError⟩ := s
  obtain rfl : cs = [] := h
  rfl

/-! ### What a call stores -/

theorem storeChar_length_le {maxword : ℕ} {w : WordBuffer} (c : Byte)
    (h : w.bytes.length ≤ maxword) : (storeChar maxword w c).2.bytes.length ≤ maxword := by
  simp only [storeChar]
  split_ifs with hfull
  · exact h
  · simpa using Nat.succ_le_of_lt (Nat.not_le.mp hfull)

theorem gettokenLoop_word_length_le {maxword : ℕ} {readError : Bool} {st : LexState}
    {w : WordBuffer} {cs : Bytes} (h : w.bytes.length ≤ maxword) :
    (gettokenLoop maxword readError st w cs).1.word.length ≤ maxword := by
  refine gettokenLoop_induction (P := fun _ w _ r => w.bytes.length ≤ maxword →
    r.1.word.length ≤ maxword) ?_ ?_ ?_ ?_ ?_ st w cs h
  · intro _ w h
    rw [endOfInput]
    split_ifs <;> exact h
  · exact fun _ _ _ _ _ _ _ _ h => h
  · exact fun _ _ _ _ _ h => storeChar_length_le nul h
  · exact fun _ _ _ _ _ ih => ih
  · exact fun _ _ _ c _ _ _ _ _ ih h => ih (storeChar_length_le c h)

/-- Nothing is stored past the buffer. -/
theorem gettoken_word_length_le (maxword : ℕ) (s : Stdin) :
    (gettoken maxword s).1.word.length ≤ maxword :=
  gettokenLoop_word_length_le (Nat.zero_le maxword)

/-- A token that is no word, and not the end of the input, comes with an empty buffer. -/
theorem gettokenLoop_punct (maxword : ℕ) (readError : Bool) (st : LexState) (w : WordBuffer)
    (cs : Bytes) :
    (gettokenLoop maxword readError st w cs).1.token ∈ [.word, .eof, .error] ∨
      (st = .neutral ∨ st = .gtgt) ∧ (gettokenLoop maxword readError st w cs).1 =
        w.lexed (gettokenLoop maxword readError st w cs).1.token := by
  refine gettokenLoop_induction (P := fun st w _ r => r.1.token ∈ [.word, .eof, .error] ∨
    (st = .neutral ∨ st = .gtgt) ∧ r.1 = w.lexed r.1.token) ?_ ?_ ?_ ?_ ?_ st w cs
  · intro _ w
    rw [endOfInput]
    split_ifs
    · exact Or.inl (by simp)
    · exact Or.inl (by simp [WordBuffer.lexed])
  · exact fun _ _ _ _ _ hst _ _ => Or.inr ⟨hst, rfl⟩
  · exact fun _ _ _ _ _ => Or.inl List.mem_cons_self
  · exact fun _ _ _ _ _ ih => ih.imp_right fun h => ⟨Or.inl rfl, h.2⟩
  · rintro _ _ _ _ _ _ _ (rfl | rfl) _ ih
    · exact ih.imp_right fun h => absurd h.1 (by decide)
    · exact ih.imp_right fun h => absurd h.1 (by decide)

theorem gettoken_punct {maxword : ℕ} {s : Stdin}
    (h : (gettoken maxword s).1.token ∉ [.word, .eof, .error]) :
    (gettoken maxword s).1 = ⟨(gettoken maxword s).1.token, [], []⟩ :=
  ((gettokenLoop_punct maxword s.readError .neutral {} s.unread).resolve_left h).2

theorem storeChar_diags {maxword : ℕ} {w : WordBuffer} (c : Byte)
    (hw : ∀ d ∈ w.diags, d = .wordTooLong) :
    ∀ d ∈ (storeChar maxword w c).2.diags, d = .wordTooLong := by
  simp only [storeChar]
  split_ifs
  · simp only [List.mem_append, List.mem_singleton]
    exact fun d hd => hd.elim (hw d) id
  · exact hw

/-- The messages of a call are about a word that does not fit, unless it ends by `T_ERROR`. -/
theorem gettokenLoop_diags {maxword : ℕ} {readError : Bool} {st : LexState} {w : WordBuffer}
    {cs : Bytes} (herr : (gettokenLoop maxword readError st w cs).1.token ≠ .error)
    (hw : ∀ d ∈ w.diags, d = .wordTooLong) :
    ∀ d ∈ (gettokenLoop maxword readError st w cs).1.diags, d = .wordTooLong := by
  refine gettokenLoop_induction (P := fun _ w _ r => r.1.token ≠ .error →
    (∀ d ∈ w.diags, d = .wordTooLong) → ∀ d ∈ r.1.diags, d = .wordTooLong) ?_ ?_ ?_ ?_ ?_ st w cs
    herr hw
  · intro _ w herr hw
    rw [endOfInput] at herr ⊢
    split_ifs at herr ⊢
    · exact absurd rfl herr
    · exact hw
  · exact fun _ _ _ _ _ _ _ _ _ hw => hw
  · exact fun _ _ _ _ _ _ hw => storeChar_diags nul hw
  · exact fun _ _ _ _ _ ih => ih
  · exact fun _ _ _ c _ _ _ _ _ ih herr hw => ih herr (storeChar_diags c hw)

theorem gettoken_diags {maxword : ℕ} {s : Stdin} (herr : (gettoken maxword s).1.token ≠ .error) :
    ∀ d ∈ (gettoken maxword s).1.diags, d = .wordTooLong :=
  gettokenLoop_diags herr (by simp)

end UnixStudy.Shell
