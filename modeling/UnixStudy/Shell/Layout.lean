import UnixStudy.Shell.Lexer
import Mathlib.Data.List.Infix

/-!
# Lexing undoes printing

A list of tokens can be written down in many ways: every word bare or in double quotes, with
blanks between the tokens wherever the writer likes them and where two tokens would otherwise run
together. Such a text is a `Layout`. Repeated calls of `gettoken` on it return the tokens that were
written, with their words, and leave blanks only (`Layout.lexes`).

One call is described by what stands in front of it: `gettoken_piece` reads one written token,
whatever its spelling, provided the text behind it stops it (`Stops`). That the layout rules put
such a text behind every token is `stops_of_spaced`.

## Main definitions

* `Tok`, `Lexes` : tokens with their words, and repeated calls of `gettoken` that return them.
* `Tok.spell` : the two spellings of a token.
* `Piece`, `Spaced`, `Layout` : written tokens, the blanks they need, and whole texts.

## Main results

* `gettoken_piece` : one call reads one written token.
* `Layout.lexes` : lexing undoes printing.
* `Layout.toks_ofToks` : every list of tokens has a layout.

## References

* `src/communication/shell.c`, lines 109–197 and 389–432.
-/

namespace UnixStudy.Shell

/-- The tokens a command line is written with, words with their text. -/
inductive Tok
  | word (w : Bytes)
  | bar | amp | semi | lt | gt | gtgt | nl
  deriving DecidableEq, Repr

/-- What `gettoken` returns for a token: a word is stored with its terminator. -/
def Tok.lexed : Tok → Lexed
  | word w => ⟨.word, w ++ [nul], []⟩
  | bar => ⟨.bar, [], []⟩
  | amp => ⟨.amp, [], []⟩
  | semi => ⟨.semi, [], []⟩
  | lt => ⟨.lt, [], []⟩
  | gt => ⟨.gt, [], []⟩
  | gtgt => ⟨.gtgt, [], []⟩
  | nl => ⟨.nl, [], []⟩

/-- Repeated calls of `gettoken` return exactly the tokens of the list. -/
def Lexes (maxword : ℕ) (s : Stdin) (ts : List Tok) (s' : Stdin) : Prop :=
  Reads (gettoken maxword) s (ts.map Tok.lexed) s'

/-- Blanks and tabs. -/
def IsBlank (c : Byte) : Prop := c = space ∨ c = tab

instance (c : Byte) : Decidable (IsBlank c) := inferInstanceAs (Decidable (_ ∨ _))

/-- The characters that cannot stand in a bare word. -/
def separators : Bytes := [semicolon, ampersand, bar, less, greater, newline, space, tab]

theorem isDelimiter_iff {c : Byte} : isDelimiter c = true ↔ c ∈ separators := by
  simp [isDelimiter, separators, or_assoc]

theorem IsBlank.mem_separators {c : Byte} (h : IsBlank c) : c ∈ separators := by
  rcases h with rfl | rfl <;> decide

/-- A word that can be written without quotes. -/
def IsBare (w : Bytes) : Prop := w ≠ [] ∧ w.head? ≠ some dquote ∧ ∀ c ∈ w, c ∉ separators

/-- A word as it is written inside double quotes. -/
def escape (w : Bytes) : Bytes :=
  w.flatMap fun c => if c = dquote ∨ c = backslash then [backslash, c] else [c]

/-- The text of a token; a word is written in double quotes or bare. -/
def Tok.spell (quoted : Bool) : Tok → Bytes
  | word w => if quoted then dquote :: (escape w ++ [dquote]) else w
  | bar => [Shell.bar]
  | amp => [ampersand]
  | semi => [semicolon]
  | lt => [less]
  | gt => [greater]
  | gtgt => [greater, greater]
  | nl => [newline]

/-- A written token with the blanks after it. -/
structure Piece where
  tok : Tok
  quoted : Bool
  gap : Bytes
  deriving DecidableEq, Repr

namespace Piece

/-- The token is written bare, as a word. -/
def IsBareWord (p : Piece) : Prop := p.quoted = false ∧ ∃ w, p.tok = .word w

/-- A piece that may stand in a layout: the gap is blank, and a word fits the buffer with its
terminator, has no terminator inside and is written bare only where that is possible. -/
def Valid (maxword : ℕ) (p : Piece) : Prop :=
  (∀ c ∈ p.gap, IsBlank c) ∧
    ∀ w, p.tok = .word w → nul ∉ w ∧ w.length < maxword ∧ (p.quoted = false → IsBare w)

/-- Written next to each other, the two tokens would run together. -/
def NeedsGap (p q : Piece) : Prop :=
  (p.IsBareWord ∧ ∃ w, q.tok = .word w) ∨ (p.tok = .gt ∧ (q.tok = .gt ∨ q.tok = .gtgt))

end Piece

/-- There is a blank wherever one is needed, and the text ends in a newline or a blank. -/
def Spaced : List Piece → Prop
  | [] => True
  | [p] => p.tok = .nl ∨ p.gap ≠ []
  | p :: q :: ps => (p.NeedsGap q → p.gap ≠ []) ∧ Spaced (q :: ps)

/-- The text of a list of pieces. -/
def render (ps : List Piece) : Bytes := ps.flatMap fun p => p.tok.spell p.quoted ++ p.gap

/-- A list of tokens laid out as text, for a buffer of `maxword` bytes. -/
structure Layout (maxword : ℕ) where
  lead : Bytes
  pieces : List Piece
  lead_blank : ∀ c ∈ lead, IsBlank c
  valid : ∀ p ∈ pieces, p.Valid maxword
  spaced : Spaced pieces

namespace Layout

variable {maxword : ℕ} (L : Layout maxword)

/-- The text of the layout. -/
def text : Bytes := L.lead ++ render L.pieces

/-- The tokens that were laid out. -/
def toks : List Tok := L.pieces.map Piece.tok

end Layout

/-! ### The loop of the lexer on runs of characters -/

section Runs

variable {maxword : ℕ} {readError : Bool}

theorem gettokenLoop_blanks {b : WordBuffer} {gap : Bytes} (h : ∀ c ∈ gap, IsBlank c)
    (cs : Bytes) : gettokenLoop maxword readError .neutral b (gap ++ cs) =
      gettokenLoop maxword readError .neutral b cs := by
  induction gap with
  | nil => rfl
  | cons c gap ih =>
    rw [List.cons_append, gettokenLoop_neutral_blank b _ (h c List.mem_cons_self)]
    exact ih fun d hd => h d (List.mem_cons_of_mem c hd)

private theorem room_cons {b : WordBuffer} {c : Byte} {u : Bytes}
    (h : b.bytes.length + (c :: u).length < maxword) :
    b.bytes.length < maxword ∧ (b.bytes ++ [c]).length + u.length < maxword := by
  simp only [List.length_cons, List.length_append, List.length_nil] at h ⊢
  omega

/-- In a bare word the loop stores characters up to the next separator, which stays unread. -/
theorem gettokenLoop_inword {u : Bytes} (hu : ∀ c ∈ u, c ∉ separators) {b : WordBuffer}
    (hfit : b.bytes.length + u.length < maxword) {d : Byte} (hd : d ∈ separators) (cs : Bytes) :
    gettokenLoop maxword readError .inword b (u ++ d :: cs) =
      (⟨.word, b.bytes ++ u ++ [nul], b.diags⟩, d :: cs) := by
  induction u generalizing b with
  | nil =>
    rw [List.nil_append, gettokenLoop_inword_of_isDelimiter b cs (isDelimiter_iff.mpr hd),
      storeChar_of_lt nul hfit, List.append_nil]
    rfl
  | cons c u ih =>
    have hc : isDelimiter c = false :=
      Bool.eq_false_iff.mpr fun h => hu c List.mem_cons_self (isDelimiter_iff.mp h)
    obtain ⟨hroom, hfit⟩ := room_cons hfit
    rw [List.cons_append, gettokenLoop_inword_other b _ hc, storeChar_of_lt c hroom,
      ih (fun d hd => hu d (List.mem_cons_of_mem c hd)) hfit]
    simp only [List.append_assoc, List.cons_append, List.nil_append]

theorem escape_cons (c : Byte) (w : Bytes) : escape (c :: w) =
    (if c = dquote ∨ c = backslash then [backslash, c] else [c]) ++ escape w := rfl

/-- Inside quotes the loop stores the word that was escaped, up to the closing quote. -/
theorem gettokenLoop_inquote (w : Bytes) {b : WordBuffer}
    (hfit : b.bytes.length + w.length < maxword) (cs : Bytes) :
    gettokenLoop maxword readError .inquote b (escape w ++ dquote :: cs) =
      (⟨.word, b.bytes ++ w ++ [nul], b.diags⟩, cs) := by
  induction w generalizing b with
  | nil =>
    rw [escape, List.flatMap_nil, List.nil_append, gettokenLoop_inquote_dquote b cs,
      storeChar_of_lt nul hfit, List.append_nil]
    rfl
  | cons c w ih =>
    obtain ⟨hroom, hfit⟩ := room_cons hfit
    have hrest := ih (b := { b with bytes := b.bytes ++ [c] }) hfit
    rw [escape_cons]
    by_cases hc : c = dquote ∨ c = backslash
    · rw [if_pos hc]
      simp only [List.cons_append, List.nil_append]
      rw [gettokenLoop_inquote_backslash, storeChar_of_lt c hroom, hrest]
      simp only [List.append_assoc, List.cons_append, List.nil_append]
    · obtain ⟨hq, hb⟩ := not_or.mp hc
      rw [if_neg hc]
      simp only [List.cons_append, List.nil_append]
      rw [gettokenLoop_inquote_other b _ hb hq, storeChar_of_lt c hroom, hrest]
      simp only [List.append_assoc, List.cons_append, List.nil_append]

end Runs

/-! ### One call -/

section Call

variable {maxword : ℕ} {readError : Bool}

/-- The text behind a written token ends it: a bare word needs a separator behind it, and `>` a
character other than `>`. -/
def Stops (p : Piece) (tail : Bytes) : Prop :=
  (p.IsBareWord → ∃ d cs, tail = d :: cs ∧ d ∈ separators) ∧
    (p.tok = .gt → ∃ d cs, tail = d :: cs ∧ d ≠ greater)

/-- The loop reads one written token from its first character on. -/
theorem gettokenLoop_spell {p : Piece} (hp : p.Valid maxword) {tail : Bytes}
    (hstop : Stops p tail) :
    gettokenLoop maxword readError .neutral {} (p.tok.spell p.quoted ++ tail) =
      (p.tok.lexed, tail) := by
  obtain ⟨tok, quoted, gap⟩ := p
  cases tok with
  | word w =>
    obtain ⟨-, hfit, hbare⟩ := hp.2 w rfl
    cases quoted with
    | true =>
      have hloop := @gettokenLoop_inquote maxword readError w {}
        (by rwa [List.length_nil, Nat.zero_add]) tail
      simp only [Tok.spell, ↓reduceIte, List.cons_append, List.append_assoc, List.nil_append]
      rw [gettokenLoop_neutral_dquote]
      exact hloop
    | false =>
      obtain ⟨hne, hquote, hsep⟩ := hbare rfl
      obtain ⟨d, cs, rfl, hd⟩ := hstop.1 ⟨rfl, w, rfl⟩
      obtain ⟨c, u, rfl⟩ := List.exists_cons_of_ne_nil hne
      have hc : isDelimiter c = false :=
        Bool.eq_false_iff.mpr fun h => hsep c List.mem_cons_self (isDelimiter_iff.mp h)
      have hcq : c ≠ dquote := fun h => hquote (congrArg some h)
      obtain ⟨hroom, hfit⟩ := room_cons (b := {}) (by rwa [List.length_nil, Nat.zero_add])
      simp only [Tok.spell, Bool.false_eq_true, ↓reduceIte, List.cons_append]
      rw [gettokenLoop_neutral_other _ _ hc hcq, storeChar_of_lt c hroom,
        gettokenLoop_inword (fun d hd => hsep d (List.mem_cons_of_mem c hd)) hfit hd]
      rfl
  | gt =>
    obtain ⟨d, cs, rfl, hd⟩ := hstop.2 rfl
    have hstep : gettokenLoop maxword readError .neutral {} (greater :: d :: cs) =
        gettokenLoop maxword readError .gtgt {} (d :: cs) := rfl
    exact hstep.trans (gettokenLoop_gtgt_of_ne {} cs hd)
  | bar | amp | semi | lt | gtgt | nl => rfl

/-- One call of the lexer reads one written token and the blanks in front of it. -/
theorem gettoken_piece {p : Piece} (hp : p.Valid maxword) {tail : Bytes} (hstop : Stops p tail)
    {gap : Bytes} (hgap : ∀ c ∈ gap, IsBlank c) :
    gettoken maxword ⟨gap ++ (p.tok.spell p.quoted ++ tail), readError⟩ =
      (p.tok.lexed, ⟨tail, readError⟩) := by
  simp only [gettoken, gettokenLoop_blanks hgap, gettokenLoop_spell hp hstop]

end Call

/-! ### Every written token is stopped by what follows it -/

section Spacing

variable {maxword : ℕ}

/-- A gap that is not empty stops every token. -/
theorem stops_of_gap {p : Piece} (hp : p.Valid maxword) (hgap : p.gap ≠ []) (tail : Bytes) :
    Stops p (p.gap ++ tail) := by
  obtain ⟨c, gap, hc⟩ := List.exists_cons_of_ne_nil hgap
  have hblank : IsBlank c := hp.1 c (hc ▸ List.mem_cons_self)
  have hne : c ≠ greater := by rcases hblank with rfl | rfl <;> decide
  rw [hc, List.cons_append]
  exact ⟨fun _ => ⟨c, _, rfl, hblank.mem_separators⟩, fun _ => ⟨c, _, rfl, hne⟩⟩

/-- The text of a token begins with a separator, unless it is a word, and with `>` only if the
token is `>` or `>>`. -/
theorem Piece.Valid.spell_eq_cons {q : Piece} (hq : q.Valid maxword) :
    ∃ d cs, q.tok.spell q.quoted = d :: cs ∧ ((∀ w, q.tok ≠ .word w) → d ∈ separators) ∧
      (q.tok ≠ .gt → q.tok ≠ .gtgt → d ≠ greater) := by
  obtain ⟨tok, quoted, gap⟩ := q
  cases tok with
  | word w =>
    cases quoted with
    | true => exact ⟨dquote, _, rfl, fun h => absurd rfl (h w), fun _ _ => by decide⟩
    | false =>
      obtain ⟨-, -, hbare⟩ := hq.2 w rfl
      obtain ⟨hne, -, hsep⟩ := hbare rfl
      obtain ⟨c, u, rfl⟩ := List.exists_cons_of_ne_nil hne
      have hc : c ≠ greater := fun h => hsep c List.mem_cons_self (h ▸ by decide)
      exact ⟨c, u, rfl, fun h => absurd rfl (h _), fun _ _ => hc⟩
  | gt => exact ⟨greater, _, rfl, fun _ => by decide, fun h => absurd rfl h⟩
  | gtgt => exact ⟨greater, _, rfl, fun _ => by decide, fun _ h => absurd rfl h⟩
  | bar | amp | semi | lt | nl => exact ⟨_, _, rfl, fun _ => by decide, fun _ _ => by decide⟩

/-- Two tokens that need no blank between them: the first is stopped by the second. -/
theorem stops_of_not_needsGap {p q : Piece} (hq : q.Valid maxword) (h : ¬ p.NeedsGap q)
    (tail : Bytes) : Stops p (q.tok.spell q.quoted ++ tail) := by
  obtain ⟨d, cs, hspell, hsep, hne⟩ := hq.spell_eq_cons
  obtain ⟨hword, hgt⟩ := not_or.mp h
  rw [hspell, List.cons_append]
  refine ⟨fun hp => ⟨d, _, rfl, hsep fun w hw => hword ⟨hp, w, hw⟩⟩, fun hp => ⟨d, _, rfl, ?_⟩⟩
  obtain ⟨hgt, hgtgt⟩ := not_or.mp fun h => hgt ⟨hp, h⟩
  exact hne hgt hgtgt

theorem render_cons (p : Piece) (ps : List Piece) :
    render (p :: ps) = p.tok.spell p.quoted ++ (p.gap ++ render ps) := by
  rw [render, List.flatMap_cons, List.append_assoc]
  rfl

/-- In a list of pieces with the blanks it needs, the text behind the first token stops it,
whatever follows the list. -/
theorem stops_of_spaced {p : Piece} {ps : List Piece} (hvalid : ∀ q ∈ p :: ps, q.Valid maxword)
    (hspaced : Spaced (p :: ps)) (more : Bytes) : Stops p (p.gap ++ (render ps ++ more)) := by
  have hp := hvalid p List.mem_cons_self
  by_cases hgap : p.gap = []
  · cases ps with
    | nil =>
      have hnl : p.tok = .nl := hspaced.resolve_right (not_not.mpr hgap)
      refine ⟨fun ⟨_, w, hw⟩ => ?_, fun hgt => ?_⟩
      · exact absurd (hnl.symm.trans hw) nofun
      · exact absurd (hnl.symm.trans hgt) nofun
    | cons q ps =>
      have hq := hvalid q (List.mem_cons_of_mem p List.mem_cons_self)
      rw [hgap, List.nil_append, render_cons, List.append_assoc]
      exact stops_of_not_needsGap hq (fun h => hspaced.1 h hgap) _
  · exact stops_of_gap hp hgap _

theorem Spaced.tail {p : Piece} {ps : List Piece} (h : Spaced (p :: ps)) : Spaced ps := by
  cases ps with
  | nil => trivial
  | cons q ps => exact h.2

end Spacing

/-! ### The law -/

/-- Pieces with the blanks they need are read one after the other, whatever follows them; at most
the blanks after the last one stay unread. -/
theorem lexes_render {maxword : ℕ} {readError : Bool} {ps : List Piece}
    (hvalid : ∀ p ∈ ps, p.Valid maxword) (hspaced : Spaced ps) {lead : Bytes}
    (hlead : ∀ c ∈ lead, IsBlank c) (more : Bytes) :
    ∃ rest, (∀ c ∈ rest, IsBlank c) ∧
      Lexes maxword ⟨lead ++ (render ps ++ more), readError⟩ (ps.map Piece.tok)
        ⟨rest ++ more, readError⟩ := by
  induction ps generalizing lead with
  | nil => exact ⟨lead, hlead, .nil _⟩
  | cons p ps ih =>
    have hp := hvalid p List.mem_cons_self
    obtain ⟨rest, hrest, hread⟩ := ih (fun q hq => hvalid q (List.mem_cons_of_mem p hq))
      hspaced.tail hp.1
    refine ⟨rest, hrest, .cons ?_ hread⟩
    rw [render_cons, List.append_assoc, List.append_assoc]
    exact gettoken_piece hp (stops_of_spaced hvalid hspaced more) hlead

namespace Layout

variable {maxword : ℕ}

/-- **Lexing undoes printing.** Whatever list of tokens is laid out as a text, calling `gettoken`
repeatedly on that text returns exactly these tokens with exactly these words, and leaves nothing
but blanks unread. -/
theorem lexes (L : Layout maxword) (readError : Bool) :
    ∃ rest, (∀ c ∈ rest, IsBlank c) ∧
      Lexes maxword ⟨L.text, readError⟩ L.toks ⟨rest, readError⟩ := by
  obtain ⟨rest, hrest, hread⟩ :=
    @lexes_render maxword readError _ L.valid L.spaced _ L.lead_blank []
  rw [List.append_nil, List.append_nil] at hread
  exact ⟨rest, hrest, hread⟩

/-- Every list of tokens whose words fit the buffer has a layout: all words in quotes, a blank
after every token. -/
def ofToks (ts : List Tok) (h : ∀ w, Tok.word w ∈ ts → nul ∉ w ∧ w.length < maxword) :
    Layout maxword where
  lead := []
  pieces := ts.map fun t => ⟨t, true, [space]⟩
  lead_blank := nofun
  valid p hp := by
    obtain ⟨t, ht, rfl⟩ := List.mem_map.mp hp
    refine ⟨fun c hc => Or.inl (List.mem_singleton.mp hc), ?_⟩
    rintro w rfl
    exact ⟨(h w ht).1, (h w ht).2, nofun⟩
  spaced := by
    clear h
    induction ts with
    | nil => trivial
    | cons t ts ih =>
      cases ts with
      | nil => exact Or.inr nofun
      | cons u ts => exact ⟨fun _ => nofun, ih⟩

theorem toks_ofToks (ts : List Tok)
    (h : ∀ w, Tok.word w ∈ ts → nul ∉ w ∧ w.length < maxword) : (ofToks ts h).toks = ts := by
  simp [ofToks, toks, Function.comp_def]

end Layout

end UnixStudy.Shell
