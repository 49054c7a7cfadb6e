import UnixStudy.Shell.Command
import Mathlib.Data.List.TakeWhile

/-!
# Words that are strings

A caller of `gettoken` takes the buffer of a `T_WORD` for a string: `strlen` and `strcpy` read it,
and so do the calls that take it for a name. It is one if the call has stored a `NUL`. The
terminator goes through `store_char` like every other character, and no caller looks at the result,
so where the characters of the word alone fill the buffer there is none.

What is stored is determined by the text that stands next on the input (`nextWord`): the characters
of the word and a `NUL`, cut off at the end of the buffer (`gettoken_stored`).

## Main definitions

* `quotedText`, `bareText`, `nextWord` : the word that stands next on the input.
* `stringAt` : the string that begins a stretch of memory.
* `IsProperString` : a word that was read is a string of its own.

## Main results

* `gettoken_stored`, `gettoken_quiet_iff` : what one call stores, and when it complains.
* `isProperString_iff` : the words that are strings.

## References

* `src/communication/shell.c`, lines 109–197 and 289–325.
-/

namespace UnixStudy.Shell

/-! ### The word on the input -/

/-- The characters up to the quote that ends a word; `none` if there is no such quote. -/
def quotedText : Bytes → Option Bytes
  | [] => none
  | c :: cs =>
    if c = backslash then
      match cs with
      | [] => none
      | d :: ds => (quotedText ds).map (d :: ·)
    else if c = dquote then some []
    else (quotedText cs).map (c :: ·)

theorem quotedText_dquote (cs : Bytes) : quotedText (dquote :: cs) = some [] := by
  cases cs <;> rfl

theorem quotedText_other {c : Byte} (cs : Bytes) (hb : c ≠ backslash) (hq : c ≠ dquote) :
    quotedText (c :: cs) = (quotedText cs).map (c :: ·) := by
  cases cs with
  | nil => simp [quotedText, hb, hq]
  | cons d ds => rw [quotedText, if_neg hb, if_neg hq]

/-- The characters up to a delimiter; `none` if there is no delimiter. -/
def bareText : Bytes → Option Bytes
  | [] => none
  | c :: cs => if isDelimiter c then some [] else (bareText cs).map (c :: ·)

/-- The word that stands next on the input, if the next token is a word. -/
def nextWord : Bytes → Option Bytes
  | [] => none
  | c :: cs =>
    if c = space ∨ c = tab then nextWord cs
    else if c = dquote then quotedText cs
    else if isDelimiter c then none
    else bareText (c :: cs)

/-! ### What a call stores -/

section Stored

variable {maxword : ℕ} {readError : Bool}

/-- The buffer holds a text as far as it fits, and there is a message if it does not. -/
structure Holds (maxword : ℕ) (b : WordBuffer) (x : Bytes) : Prop where
  bytes : b.bytes = x.take maxword
  diags : b.diags = [] ↔ x.length ≤ maxword

theorem holds_nil (maxword : ℕ) : Holds maxword {} [] :=
  ⟨List.take_nil.symm, iff_of_true rfl (Nat.zero_le _)⟩

theorem Holds.storeChar {b : WordBuffer} {x : Bytes} (h : Holds maxword b x) (c : Byte) :
    Holds maxword (storeChar maxword b c).2 (x ++ [c]) := by
  have hlength : (x ++ [c]).length = x.length + 1 := List.length_append
  rw [Shell.storeChar, h.bytes, List.length_take]
  split_ifs with hfull
  · refine ⟨?_, iff_of_false (List.append_ne_nil_of_right_ne_nil _ (List.cons_ne_nil _ _)) ?_⟩
    · rw [List.take_append_of_le_length (by omega)]
    · omega
  · refine ⟨?_, iff_of_true (h.diags.mpr (by omega)) (by omega)⟩
    dsimp only
    rw [List.take_of_length_le (by omega), List.take_of_length_le (by omega)]

/-- What a call returns when the given word stands next on the input, or none does: the word is cut
off at the end of the buffer, and if its terminator does not fit, there is a message. -/
def Stored (maxword : ℕ) (t : Lexed) : Option Bytes → Prop
  | some w => t.token = .word ∧ t.word = (w ++ [nul]).take maxword ∧
      (t.diags = [] ↔ w.length < maxword)
  | none => t.token ≠ .word

theorem Holds.stored {b : WordBuffer} {x : Bytes} (h : Holds maxword b x) :
    Stored maxword ((Shell.storeChar maxword b nul).2.lexed .word) (some x) := by
  have hstored := h.storeChar nul
  refine ⟨rfl, hstored.bytes, hstored.diags.trans ?_⟩
  rw [List.length_append, List.length_singleton, Nat.add_one_le_iff]

theorem endOfInput_token_ne_word (b : WordBuffer) : (endOfInput readError b).token ≠ .word := by
  simp only [endOfInput]
  split_ifs <;> simp [WordBuffer.lexed]

theorem stored_inquote (maxword : ℕ) (readError : Bool) {b : WordBuffer} {x : Bytes} (cs : Bytes)
    (hb : Holds maxword b x) :
    Stored maxword (gettokenLoop maxword readError .inquote b cs).1
      ((quotedText cs).map (x ++ ·)) := by
  induction hlen : cs.length using Nat.strong_induction_on generalizing cs b x with
  | _ n ih =>
    have hnext (c : Byte) (ds : Bytes) (hds : ds.length < n) :
        Stored maxword (gettokenLoop maxword readError .inquote (storeChar maxword b c).2 ds).1
          (((quotedText ds).map (c :: ·)).map (x ++ ·)) := by
      have h := ih _ hds ds (hb.storeChar c) rfl
      simpa only [Option.map_map, Function.comp_def, List.append_assoc, List.singleton_append]
        using h
    cases cs with
    | nil => exact endOfInput_token_ne_word b
    | cons c cs =>
      rw [List.length_cons] at hlen
      by_cases hc : c = backslash
      · subst hc
        cases cs with
        | nil => exact endOfInput_token_ne_word _
        | cons d ds => exact hnext d ds (by rw [List.length_cons] at hlen; omega)
      by_cases hq : c = dquote
      · subst hq
        rw [gettokenLoop_inquote_dquote, quotedText_dquote, Option.map_some, List.append_nil]
        exact hb.stored
      · rw [gettokenLoop_inquote_other _ _ hc hq, quotedText_other _ hc hq]
        exact hnext c cs (by omega)

theorem stored_inword (maxword : ℕ) (readError : Bool) {b : WordBuffer} {x : Bytes} (cs : Bytes)
    (hb : Holds maxword b x) :
    Stored maxword (gettokenLoop maxword readError .inword b cs).1
      ((bareText cs).map (x ++ ·)) := by
  induction cs generalizing b x with
  | nil => exact endOfInput_token_ne_word b
  | cons c cs ih =>
    cases hc : isDelimiter c with
    | true =>
      rw [gettokenLoop_inword_of_isDelimiter _ _ hc, bareText, if_pos hc, Option.map_some,
        List.append_nil]
      exact hb.stored
    | false =>
      rw [gettokenLoop_inword_other _ _ hc, bareText, if_neg (Bool.eq_false_iff.mp hc)]
      simpa only [Option.map_map, Function.comp_def, List.append_assoc, List.singleton_append]
        using ih (hb.storeChar c)

/-- A delimiter in front of a word is a token of its own, or a blank. -/
theorem token_of_isDelimiter {c : Byte} (hc : isDelimiter c = true)
    (hblank : ¬ (c = space ∨ c = tab))
    (b : WordBuffer) (cs : Bytes) :
    (gettokenLoop maxword readError .neutral b (c :: cs)).1.token ≠ .word := by
  rcases isDelimiter_cases hc hblank with rfl | rfl | rfl | rfl | rfl | rfl
  · exact nofun
  · exact nofun
  · exact nofun
  · exact nofun
  · exact nofun
  · cases cs with
    | nil => exact endOfInput_token_ne_word b
    | cons d ds =>
      by_cases hd : d = greater
      · subst hd
        exact nofun
      · have hloop : gettokenLoop maxword readError .neutral b (greater :: d :: ds) =
            gettokenLoop maxword readError .gtgt b (d :: ds) := rfl
        rw [hloop, gettokenLoop_gtgt_of_ne _ _ hd]
        exact nofun

theorem stored_neutral (cs : Bytes) :
    Stored maxword (gettokenLoop maxword readError .neutral {} cs).1 (nextWord cs) := by
  induction cs with
  | nil => exact endOfInput_token_ne_word _
  | cons c cs ih =>
    rw [nextWord]
    split_ifs with hblank hq hc
    · rw [gettokenLoop_neutral_blank _ _ hblank]
      exact ih
    · subst hq
      have h := stored_inquote maxword readError cs (holds_nil maxword)
      simpa only [List.nil_append, Option.map_id', gettokenLoop_neutral_dquote] using h
    · exact token_of_isDelimiter hc hblank _ _
    · rw [Bool.not_eq_true] at hc
      have h := stored_inword maxword readError cs ((holds_nil maxword).storeChar c)
      rw [gettokenLoop_neutral_other _ _ hc hq, bareText, if_neg (Bool.eq_false_iff.mp hc)]
      simpa only [List.nil_append, List.singleton_append] using h

/-- **What a call stores.** A call returns a word exactly if one stands next on the input, and then
it has stored the characters of the word and a `NUL`, as far as they fit. -/
theorem gettoken_stored (maxword : ℕ) (s : Stdin) :
    Stored maxword (gettoken maxword s).1 (nextWord s.unread) := stored_neutral s.unread

/-- A call that returns a word writes no message exactly if the word that stands next on the input
leaves room for its terminator. -/
theorem gettoken_quiet_iff {s : Stdin} (h : (gettoken maxword s).1.token = .word) :
    (gettoken maxword s).1.diags = [] ↔ ∀ w, nextWord s.unread = some w → w.length < maxword := by
  have hstored := gettoken_stored maxword s
  cases hw : nextWord s.unread with
  | none =>
    rw [hw] at hstored
    exact absurd h hstored
  | some w =>
    rw [hw] at hstored
    rw [hstored.2.2]
    exact ⟨fun hlt w' hw' => Option.some.inj hw' ▸ hlt, fun h => h w rfl⟩

end Stored

/-! ### Strings -/

/-- The string that begins a stretch of memory. -/
def stringAt (mem : Bytes) : Bytes := mem.takeWhile (· != nul)

/-- The string is the same whatever stands behind its terminator. -/
theorem stringAt_append {w : Bytes} (h : nul ∈ w) (tail : Bytes) :
    stringAt (w ++ tail) = stringAt w := by
  induction w with
  | nil => exact absurd h List.not_mem_nil
  | cons c w ih =>
    rw [List.cons_append, stringAt, stringAt, List.takeWhile_cons, List.takeWhile_cons]
    by_cases hc : c = nul
    · rw [hc]
      rfl
    · rw [← stringAt, ← stringAt, ih ((List.mem_cons.mp h).resolve_left (Ne.symm hc))]

theorem length_stringAt_lt_iff {w : Bytes} : (stringAt w).length < w.length ↔ nul ∈ w := by
  induction w with
  | nil => exact iff_of_false (Nat.lt_irrefl 0) List.not_mem_nil
  | cons c w ih =>
    rw [stringAt, List.takeWhile_cons]
    by_cases hc : c = nul
    · rw [hc]
      exact iff_of_true (Nat.succ_pos _) List.mem_cons_self
    · have hne : (c != nul) = true := bne_iff_ne.mpr hc
      rw [if_pos hne, List.length_cons, List.length_cons, Nat.succ_lt_succ_iff, List.mem_cons,
        or_iff_right (Ne.symm hc)]
      exact ih

/-- A call stores nothing outside its buffer of `maxword` bytes, and if it returns a word, then it
has stored a `NUL` in it. The string that is then in the buffer is made of bytes that this call has
stored, whatever the buffer held and whatever is behind it. -/
structure IsProperString (maxword : ℕ) (t : Lexed) : Prop where
  inside : t.word.length ≤ maxword
  terminated : t.token = .word → ∃ j < maxword, t.word[j]? = some nul
  own : t.token = .word → ∀ old beyond, old.length = maxword →
    stringAt (overlay t.word old ++ beyond) = stringAt t.word ∧
      (stringAt t.word).length < t.word.length

theorem isProperString_of_nul_mem {maxword : ℕ} {t : Lexed} (hlen : t.word.length ≤ maxword)
    (h : t.token = .word → nul ∈ t.word) : IsProperString maxword t where
  inside := hlen
  terminated hword := by
    obtain ⟨j, hj, hnul⟩ := List.mem_iff_getElem.mp (h hword)
    exact ⟨j, by omega, by rw [List.getElem?_eq_getElem hj, hnul]⟩
  own hword old beyond _ := by
    refine ⟨?_, length_stringAt_lt_iff.mpr (h hword)⟩
    rw [overlay, List.append_assoc]
    exact stringAt_append (h hword) _

theorem IsProperString.nul_mem {maxword : ℕ} {t : Lexed} (h : IsProperString maxword t)
    (hword : t.token = .word) : nul ∈ t.word := by
  obtain ⟨j, -, hj⟩ := h.terminated hword
  exact List.mem_of_getElem? hj

/-- A terminator that fits is stored, and so is one that was typed. -/
theorem nul_mem_take_iff {maxword : ℕ} {w : Bytes} :
    nul ∈ (w ++ [nul]).take maxword ↔ w.length < maxword ∨ nul ∈ w.take maxword := by
  by_cases hlen : w.length < maxword
  · refine iff_of_true ?_ (Or.inl hlen)
    rw [List.take_of_length_le (by rw [List.length_append, List.length_singleton]; omega)]
    exact List.mem_append_right _ List.mem_cons_self
  · rw [List.take_append_of_le_length (by omega), or_iff_right hlen]

/-- **Words that are strings.** A call of `gettoken` gives a proper string exactly if the word that
stands next on the input, if there is one, leaves room for its terminator, or has a `NUL` among the
characters that fit. -/
theorem isProperString_iff (maxword : ℕ) (s : Stdin) :
    IsProperString maxword (gettoken maxword s).1 ↔
      ∀ w, nextWord s.unread = some w → w.length < maxword ∨ nul ∈ w.take maxword := by
  have hstored := gettoken_stored maxword s
  constructor
  · intro h w hw
    rw [hw] at hstored
    obtain ⟨htoken, hword, -⟩ := hstored
    have hnul := h.nul_mem htoken
    rw [hword] at hnul
    exact nul_mem_take_iff.mp hnul
  · intro h
    refine isProperString_of_nul_mem (gettoken_word_length_le maxword s) fun htoken => ?_
    cases hw : nextWord s.unread with
    | none =>
      rw [hw] at hstored
      exact absurd htoken hstored
    | some w =>
      rw [hw] at hstored
      rw [hstored.2.1]
      exact nul_mem_take_iff.mpr (h w hw)

theorem bareText_replicate (n : ℕ) :
    bareText (List.replicate n 97 ++ [newline]) = some (List.replicate n 97) := by
  induction n with
  | zero => rfl
  | succ n ih =>
    have hletter : isDelimiter 97 = false := rfl
    rw [List.replicate_succ, List.cons_append, bareText, hletter, ih]
    rfl

/-- A word whose characters fill the buffer is no string. -/
theorem not_isProperString_replicate (n : ℕ) (readError : Bool) :
    ¬ IsProperString (n + 1)
      (gettoken (n + 1) ⟨List.replicate (n + 1) 97 ++ [newline], readError⟩).1 := by
  intro h
  have hstored := gettoken_stored (n + 1) ⟨List.replicate (n + 1) 97 ++ [newline], readError⟩
  have hnext : nextWord (List.replicate (n + 1) 97 ++ [newline]) =
      some (List.replicate (n + 1) 97) := bareText_replicate (n + 1)
  rw [hnext] at hstored
  have hnul := h.nul_mem hstored.1
  rw [hstored.2.1, nul_mem_take_iff, List.length_replicate, or_iff_right (Nat.lt_irrefl _)] at hnul
  have hletter := List.eq_of_mem_replicate (List.mem_of_mem_take hnul)
  exact absurd hletter (by decide)

/-- `command` reads 500 letters into its buffer for words, and finds no terminator there. -/
theorem not_isProperString_maxword : ¬ IsProperString MAXWORD
    (gettoken MAXWORD ⟨List.replicate MAXWORD 97 ++ [newline], false⟩).1 :=
  not_isProperString_replicate 499 false

end UnixStudy.Shell
