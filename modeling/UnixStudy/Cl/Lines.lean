import UnixStudy.Cl.Getargs
import UnixStudy.Foundations.Runs
import UnixStudy.Foundations.Words
import Mathlib.Data.List.ReduceOption

/-!
# How `getargs` splits a line

`getargs` is followed here call by call, for any size `max` of the array of arguments. Three limits
meet in it: `fgets` stores at most `MAXLINE - 1` bytes and the newline is one of them, the rest of a
longer line is eaten up to its newline, and the loop that calls `strtok` needs one more entry of the
array for `NULL`. On a text of lines without `NUL` each call takes one line, in order.

## Main definitions

* `eatLoop`, `argvLoop`, `getargsCall` : the loops of `getargs`, and a call of it.
* `Call` : a call that returns, and what it takes from the input.
* `text` : lines with their newlines.
* `Splits` : what a call should make of a line.

## Main results

* `call_line_iff` : what a call makes of a line.
* `call_getargs`, `stuck_iff` : the calls with an array of `MAXARG` entries are those of `main`.
* `splits_text` : successive calls split the lines of a text.

## References

* `src/process/cl.c`, lines 50–96 and 162–184.
-/

namespace UnixStudy.Cl

open Shell (Byte Bytes nul newline space tab)

/-- What a call of `getargs` returns, what it leaves in `*argcp` and `*eofp`, which entries of
`argv` it stores, and what it prints. -/
structure Result where
  returned : Bool
  argc : ℕ
  argv : List (Option Bytes)
  eof : Bool
  prints : List Output
  deriving DecidableEq, Repr

/-- The loop that eats up the rest of a line, for at most `fuel` calls of `getchar`. At the end of
the input the loop is continued. -/
def eatLoop : ℕ → Bytes → Option Bytes
  | 0, _ => none
  | fuel + 1, [] => eatLoop fuel []
  | fuel + 1, c :: cs => if c = newline then some cs else eatLoop fuel cs

/-- The loop that calls `strtok`, with `room` entries of `argv` left behind the entry `i`: the value
of `i` at its end, and the entries that it stores. -/
def argvLoop : ℕ → ℕ → Bytes → ℕ × List (Option Bytes)
  | i, 0, _ => (i, [])
  | i, room + 1, cmdp =>
    match strtok isDelimiter cmdp with
    | none => (i, [none])
    | some (arg, rest) =>
      ((argvLoop (i + 1) room rest).1, some arg :: (argvLoop (i + 1) room rest).2)

/-- The end of `getargs`, on the string in `cmd`. -/
def splitLine (max argc : ℕ) (cmd : Bytes) : Result :=
  if (argvLoop 0 max cmd).1 ≥ max then
    ⟨false, argc, (argvLoop 0 max cmd).2, false, [.tooManyArgs]⟩
  else ⟨true, (argvLoop 0 max cmd).1, (argvLoop 0 max cmd).2, false, []⟩

/-- The result at the end of the input. -/
def atEof (argc : ℕ) : Result := ⟨false, argc, [], true, []⟩

/-- The result for a line that does not fit. -/
def tooLong (argc : ℕ) : Result := ⟨false, argc, [], false, [.lineTooLong]⟩

/-- A call of `getargs` with `argc` in `*argcp`, on the input `cs`: its result, and the rest of the
input, if it returns within the fuel. -/
def getargsCall (fuel max argc : ℕ) (cs : Bytes) : Option (Result × Bytes) :=
  let line := fgets (MAXLINE - 1) cs
  if line = [] then some (atEof argc, cs)
  else
    let cmd := line.takeWhile (· != nul)
    let rest := cs.drop line.length
    if newline ∉ cmd then (eatLoop fuel rest).map fun rest => (tooLong argc, rest)
    else some (splitLine max argc cmd, rest)

/-- A call that returns: `*argcp` and the input before it, its result, and `*argcp` and the input
behind it. -/
def Call (max : ℕ) (s : ℕ × Bytes) (r : Result) (s' : ℕ × Bytes) : Prop :=
  ∃ fuel, getargsCall fuel max s.1 s.2 = some (r, s'.2) ∧ s'.1 = r.argc

/-- Lines with their newlines. -/
def text (lines : List Bytes) : Bytes := lines.flatMap (· ++ [newline])

/-- A blank or a tab. -/
def isBlank (c : Byte) : Bool := c == space || c == tab

/-- What a call should make of a line: its words are the arguments, if the line fits in the buffer,
and its words, with `NULL` behind them, fit in the array. -/
def Splits (max argc : ℕ) (line : Bytes) (r : Result) : Prop :=
  r.eof = false ∧
    if line.length ≤ MAXLINE - 2 ∧ (words isBlank line).length < max then
      r.returned = true ∧ r.argc = (words isBlank line).length ∧
        r.argv = (words isBlank line).map some ++ [none]
    else r.returned = false ∧ r.argc = argc

variable {max argc n : ℕ} {cs line rest : Bytes} {r : Result} {s s' : ℕ × Bytes}

/-! ### The loops -/

/-- The loop ends if and only if there is a newline, behind which the rest begins. -/
theorem eatLoop_iff : (∃ fuel, eatLoop fuel cs = some rest) ↔
    ∃ eaten, newline ∉ eaten ∧ cs = eaten ++ newline :: rest := by
  constructor
  · rintro ⟨fuel, h⟩
    induction fuel generalizing cs with
    | zero => exact absurd h (Option.some_ne_none _).symm
    | succ fuel ih =>
      cases cs with
      | nil => exact ih h
      | cons c cs =>
        rw [eatLoop] at h
        split_ifs at h with hc
        · obtain rfl := Option.some.inj h
          exact ⟨[], List.not_mem_nil, congrArg (· :: cs) hc⟩
        · obtain ⟨eaten, heaten, rfl⟩ := ih h
          exact ⟨c :: eaten, List.not_mem_cons_of_ne_of_not_mem (Ne.symm hc) heaten, rfl⟩
  · rintro ⟨eaten, heaten, rfl⟩
    induction eaten with
    | nil => exact ⟨1, if_pos rfl⟩
    | cons c eaten ih =>
      rw [List.mem_cons, not_or] at heaten
      obtain ⟨fuel, h⟩ := ih heaten.2
      exact ⟨fuel + 1, (if_neg (Ne.symm heaten.1)).trans h⟩

/-- The words are stored in order, as far as there is room for them, and `NULL` behind them if there
is room for it. -/
theorem argvLoop_eq (i room : ℕ) (cmd : Bytes) : argvLoop i room cmd =
    if (words isDelimiter cmd).length < room then
      (i + (words isDelimiter cmd).length, (words isDelimiter cmd).map some ++ [none])
    else (i + room, ((words isDelimiter cmd).take room).map some) := by
  induction room generalizing i cmd with
  | zero => rw [if_neg (Nat.not_lt_zero _), List.take_zero]; rfl
  | succ room ih =>
    rw [argvLoop]
    rcases hstrtok : strtok isDelimiter cmd with _ | ⟨arg, rest⟩
    · rw [words_eq_nil_of_strtok hstrtok]
      rfl
    · rw [words_of_strtok hstrtok]
      simp only [ih, List.length_cons, Nat.add_lt_add_iff_right]
      split_ifs
      · rw [Nat.add_assoc, Nat.add_comm 1]
        rfl
      · rw [Nat.add_assoc, Nat.add_comm 1]
        rfl

/-- The array of arguments has room for `NULL` behind the words. -/
theorem splitLine_of_lt (h : (words isDelimiter cs).length < max) : splitLine max argc cs =
    ⟨true, (words isDelimiter cs).length, (words isDelimiter cs).map some ++ [none], false,
      []⟩ := by
  rw [splitLine, argvLoop_eq, if_pos h, Nat.zero_add, if_neg (Nat.not_le.mpr h)]

/-- The array of arguments has no room for `NULL` behind the words. -/
theorem splitLine_of_le (h : max ≤ (words isDelimiter cs).length) : splitLine max argc cs =
    ⟨false, argc, ((words isDelimiter cs).take max).map some, false, [.tooManyArgs]⟩ := by
  rw [splitLine, argvLoop_eq, if_neg (Nat.not_lt.mpr h), Nat.zero_add, if_pos le_rfl]

/-! ### A call -/

/-- A line that fits, with its newline. -/
theorem fgets_of_lt (hline : newline ∉ line) (h : line.length < n) :
    fgets n (line ++ newline :: rest) = line ++ [newline] := by
  induction line generalizing n with
  | nil =>
    obtain ⟨n, rfl⟩ := Nat.exists_eq_add_one_of_ne_zero (Nat.ne_zero_of_lt h)
    exact if_pos rfl
  | cons c line ih =>
    obtain ⟨n, rfl⟩ := Nat.exists_eq_add_one_of_ne_zero (Nat.ne_zero_of_lt h)
    rw [List.mem_cons, not_or] at hline
    rw [List.cons_append, fgets, if_neg (Ne.symm hline.1), ih hline.2 (Nat.lt_of_succ_lt_succ h)]
    rfl

/-- As far as there is no newline, `fgets` stores what there is room for. -/
theorem fgets_of_not_mem (h : newline ∉ cs.take n) : fgets n cs = cs.take n := by
  induction n generalizing cs with
  | zero => rfl
  | succ n ih =>
    cases cs with
    | nil => rfl
    | cons c cs =>
      rw [List.take_succ_cons, List.mem_cons, not_or] at h
      rw [fgets, if_neg (Ne.symm h.1), ih h.2, List.take_succ_cons]

/-- At the end of the input a call takes nothing. -/
theorem call_nil_iff : Call max (argc, []) r s' ↔ r = atEof argc ∧ s' = (argc, []) := by
  constructor
  · rintro ⟨fuel, h, hargc⟩
    obtain ⟨rfl, hrest⟩ := Prod.mk.inj (Option.some.inj h)
    exact ⟨rfl, Prod.ext hargc hrest.symm⟩
  · rintro ⟨rfl, rfl⟩
    exact ⟨0, rfl, rfl⟩

/-- A call that finds a newline in the buffer takes what is in the buffer. -/
theorem call_iff_of_mem (h : newline ∈ (fgets (MAXLINE - 1) cs).takeWhile (· != nul)) :
    Call max (argc, cs) r s' ↔
      r = splitLine max argc ((fgets (MAXLINE - 1) cs).takeWhile (· != nul)) ∧
        s' = (r.argc, cs.drop (fgets (MAXLINE - 1) cs).length) := by
  have hne : ¬ fgets (MAXLINE - 1) cs = [] := fun hnil => by
    rw [hnil] at h
    exact List.not_mem_nil h
  simp only [Call, getargsCall, if_neg hne, if_neg (not_not.mpr h), exists_const]
  constructor
  · rintro ⟨hr, hargc⟩
    obtain ⟨rfl, hrest⟩ := Prod.mk.inj (Option.some.inj hr)
    exact ⟨rfl, Prod.ext hargc hrest.symm⟩
  · rintro ⟨rfl, rfl⟩
    exact ⟨rfl, rfl⟩

/-- A call that finds no newline in the buffer takes the next newline behind it. -/
theorem call_iff_of_not_mem (hne : fgets (MAXLINE - 1) cs ≠ [])
    (h : newline ∉ (fgets (MAXLINE - 1) cs).takeWhile (· != nul)) :
    Call max (argc, cs) r s' ↔ r = tooLong argc ∧ s'.1 = argc ∧
      ∃ eaten, newline ∉ eaten ∧
        cs.drop (fgets (MAXLINE - 1) cs).length = eaten ++ newline :: s'.2 := by
  simp only [Call, getargsCall, if_neg hne, if_pos h, ← eatLoop_iff, Option.map_eq_some_iff]
  constructor
  · rintro ⟨fuel, ⟨rest, heat, hr⟩, hargc⟩
    obtain ⟨rfl, rfl⟩ := Prod.mk.inj hr
    exact ⟨rfl, hargc, fuel, heat⟩
  · rintro ⟨rfl, hargc, fuel, heat⟩
    exact ⟨fuel, ⟨s'.2, heat, rfl⟩, hargc⟩

/-- What is in front of the first newline, and what is behind it. -/
theorem append_newline_inj {line' rest' : Bytes} (hline : newline ∉ line) (hline' : newline ∉ line')
    (h : line ++ newline :: rest = line' ++ newline :: rest') : line = line' ∧ rest = rest' := by
  induction line generalizing line' with
  | nil =>
    cases line' with
    | nil => exact ⟨rfl, (List.cons.inj h).2⟩
    | cons c line' => exact absurd (List.mem_cons.mpr (.inl (List.cons.inj h).1)) hline'
  | cons c line ih =>
    rw [List.mem_cons, not_or] at hline
    cases line' with
    | nil => exact absurd (List.cons.inj h).1.symm hline.1
    | cons c' line' =>
      rw [List.mem_cons, not_or] at hline'
      obtain ⟨rfl, htail⟩ := List.cons.inj h
      obtain ⟨rfl, rfl⟩ := ih hline.2 hline'.2 htail
      exact ⟨rfl, rfl⟩

/-- What a call makes of a line. -/
def lineResult (max argc : ℕ) (line : Bytes) : Result :=
  if line.length ≤ MAXLINE - 2 then splitLine max argc (line ++ [newline]) else tooLong argc

/-- A line that fits in the buffer is taken with its newline. -/
theorem call_line_of_le (hline : newline ∉ line) (hnul : nul ∉ line)
    (hfits : line.length ≤ MAXLINE - 2) : Call max (argc, line ++ newline :: rest) r s' ↔
      r = splitLine max argc (line ++ [newline]) ∧ s' = (r.argc, rest) := by
  have hfgets : fgets (MAXLINE - 1) (line ++ newline :: rest) = line ++ [newline] :=
    fgets_of_lt hline (Nat.lt_succ_of_le hfits)
  have hcmd : (line ++ [newline]).takeWhile (· != nul) = line ++ [newline] := by
    rw [List.takeWhile_eq_self_iff]
    intro c hc
    rcases List.mem_append.mp hc with hc | hc
    · exact bne_iff_ne.mpr fun h => hnul (h ▸ hc)
    · rw [List.mem_singleton.mp hc]
      decide
  have hdrop : (line ++ newline :: rest).drop (line ++ [newline]).length = rest := by
    rw [List.append_cons line newline rest, List.drop_left]
  rw [call_iff_of_mem, hfgets, hcmd, hdrop]
  rw [hfgets, hcmd]
  exact List.mem_append_right _ List.mem_cons_self

/-- A line that does not fit is eaten up with its newline. -/
theorem call_line_of_lt (hline : newline ∉ line) (hlt : MAXLINE - 1 ≤ line.length) :
    Call max (argc, line ++ newline :: rest) r s' ↔
      r = tooLong argc ∧ s' = (r.argc, rest) := by
  have htake : (line ++ newline :: rest).take (MAXLINE - 1) = line.take (MAXLINE - 1) :=
    List.take_append_of_le_length hlt
  have hfgets : fgets (MAXLINE - 1) (line ++ newline :: rest) = line.take (MAXLINE - 1) := by
    rw [fgets_of_not_mem, htake]
    rw [htake]
    exact fun h => hline (List.mem_of_mem_take h)
  have hlength : (line.take (MAXLINE - 1)).length = MAXLINE - 1 := List.length_take_of_le hlt
  have hne : line.take (MAXLINE - 1) ≠ [] := fun h => by
    rw [h] at hlength
    exact absurd hlength (by decide)
  rw [call_iff_of_not_mem (hfgets ▸ hne), hfgets, hlength, List.drop_append_of_le_length hlt]
  · refine and_congr_right fun hr => ⟨?_, ?_⟩
    · rintro ⟨hargc, eaten, heaten, h⟩
      have hdrop : newline ∉ line.drop (MAXLINE - 1) := fun h => hline (List.mem_of_mem_drop h)
      rw [hr]
      exact Prod.ext hargc (append_newline_inj hdrop heaten h).2.symm
    · rintro rfl
      rw [hr]
      exact ⟨rfl, _, fun h => hline (List.mem_of_mem_drop h), rfl⟩
  · rw [hfgets]
    exact fun h => hline (List.mem_of_mem_take (List.takeWhile_subset _ h))

/-- **What a call makes of a line** with a newline behind it, if the line has no `NUL` or does not
fit: it takes the line with its newline. -/
theorem call_line_iff (hline : newline ∉ line) (hnul : line.length ≤ MAXLINE - 2 → nul ∉ line) :
    Call max (argc, line ++ newline :: rest) r s' ↔
      r = lineResult max argc line ∧ s' = (r.argc, rest) := by
  rw [lineResult]
  split_ifs with hfits
  · exact call_line_of_le hline (hnul hfits) hfits
  · exact call_line_of_lt hline (Nat.lt_of_not_le hfits)

/-! ### The lines of a text -/

/-- A line that a call takes as it should: it has no `NUL`, or does not fit. -/
def Plain (line : Bytes) : Prop := newline ∉ line ∧ (line.length ≤ MAXLINE - 2 → nul ∉ line)

/-- What a call makes of the first of these lines. -/
def firstResult (max argc : ℕ) (lines : List Bytes) : Result :=
  lines.head?.elim (atEof argc) (lineResult max argc)

variable {lines : List Bytes}

theorem text_cons (line : Bytes) (lines : List Bytes) :
    text (line :: lines) = line ++ newline :: text lines := by
  rw [text, List.flatMap_cons, List.append_assoc]
  rfl

/-- A call takes the first line of a text, and nothing behind the last one. -/
theorem call_text_iff (hlines : ∀ l ∈ lines, Plain l) : Call max (argc, text lines) r s' ↔
    r = firstResult max argc lines ∧ s' = (r.argc, text lines.tail) := by
  cases lines with
  | nil =>
    rw [text, List.flatMap_nil, call_nil_iff]
    exact and_congr_right fun hr => by rw [hr]; rfl
  | cons line lines =>
    obtain ⟨hline, hnul⟩ := hlines line List.mem_cons_self
    rw [text_cons, call_line_iff hline hnul]
    rfl

/-- As many lines are taken as there were calls. -/
theorem run_text (hlines : ∀ l ∈ lines, Plain l) {rs : List Result}
    (hrun : Run (Call max) (argc, text lines) rs s) : s.2 = text (lines.drop rs.length) := by
  induction hrun with
  | refl => rfl
  | tail hrun hcall ih =>
    rename_i rs r s s'
    rw [← Prod.mk.eta (p := s), ih,
      call_text_iff fun l hl => hlines l (List.mem_of_mem_drop hl)] at hcall
    rw [hcall.2, List.tail_drop, List.length_append]
    rfl

/-- On a line without newline, the delimiters are the blanks and tabs. -/
theorem words_line (hline : newline ∉ line) :
    words isDelimiter (line ++ [newline]) = words isBlank line := by
  rw [words_append_singleton line (by decide)]
  refine words_congr fun c hc => ?_
  have hne : (c == newline) = false := beq_false_of_ne fun h => hline (h ▸ hc)
  rw [isDelimiter, hne, Bool.or_false, isBlank]

/-- What a call makes of a line is what it should. -/
theorem splits_lineResult (max argc : ℕ) (hline : newline ∉ line) :
    Splits max argc line (lineResult max argc line) := by
  rw [lineResult, Splits]
  by_cases hfits : line.length ≤ MAXLINE - 2
  · rw [if_pos hfits, ← words_line hline]
    by_cases hroom : (words isDelimiter (line ++ [newline])).length < max
    · rw [if_pos ⟨hfits, hroom⟩, splitLine_of_lt hroom]
      exact ⟨rfl, rfl, rfl, rfl⟩
    · rw [if_neg fun h => hroom h.2, splitLine_of_le (Nat.le_of_not_lt hroom)]
      exact ⟨rfl, rfl, rfl⟩
  · rw [if_neg hfits, if_neg fun h => hfits h.1]
    exact ⟨rfl, rfl, rfl⟩

/-- **Successive calls split the lines of a text.** After any number of calls on a text of lines
without `NUL`, as many lines are taken. The next call returns; it takes the next line and makes of
it what it should, and behind the last line it says that the input has ended. -/
theorem splits_text (max argc : ℕ) {lines : List Bytes}
    (hlines : ∀ l ∈ lines, nul ∉ l ∧ newline ∉ l) {rs : List Result} {s : ℕ × Bytes}
    (hrun : Run (Call max) (argc, text lines) rs s) :
    s.2 = text (lines.drop rs.length) ∧ (∃ r s', Call max s r s') ∧
      ∀ r s', Call max s r s' →
        match lines[rs.length]? with
        | some line => s'.2 = text (lines.drop (rs.length + 1)) ∧ Splits max s.1 line r
        | none => r.eof = true ∧ r.returned = false ∧ s' = s := by
  have hplain (l : Bytes) (hl : l ∈ lines) : Plain l := ⟨(hlines l hl).2, fun _ => (hlines l hl).1⟩
  have hs := run_text hplain hrun
  obtain ⟨argc', cs⟩ := s
  obtain rfl : cs = text (lines.drop rs.length) := hs
  have hcall {r : Result} {s' : ℕ × Bytes} :
      Call max (argc', text (lines.drop rs.length)) r s' ↔ _ :=
    call_text_iff fun l hl => hplain l (List.mem_of_mem_drop hl)
  refine ⟨rfl, ⟨_, _, hcall.mpr ⟨rfl, rfl⟩⟩, fun r s' h => ?_⟩
  obtain ⟨hr, rfl⟩ := hcall.mp h
  rw [firstResult, List.head?_drop] at hr
  cases hline : lines[rs.length]? with
  | none =>
    rw [hline] at hr
    subst hr
    have hdrop : lines.drop rs.length = [] :=
      List.drop_eq_nil_of_le (List.getElem?_eq_none_iff.mp hline)
    rw [hdrop]
    exact ⟨rfl, rfl, rfl⟩
  | some line =>
    rw [hline] at hr
    subst hr
    rw [List.tail_drop]
    exact ⟨rfl, splits_lineResult max argc' (hlines line (List.mem_of_getElem? hline)).2⟩

/-- The calls on the lines `a b` and `c`. -/
theorem splits_text_two : ∃ rs s, rs.length = 2 ∧
    Run (Call 20) (0, text [[97, 32, 98], [99]]) rs s ∧ s.2 = text [] ∧
      ∀ r s', Call 20 s r s' → r.eof = true ∧ r.returned = false ∧ s' = s := by
  have hlines : ∀ l ∈ [[97, 32, 98], [99]], nul ∉ l ∧ newline ∉ l := by decide
  have hfirst : Call 20 (0, text [[97, 32, 98], [99]])
      ⟨true, 2, [some [97], some [98], none], false, []⟩ (2, text [[99]]) := ⟨0, rfl, rfl⟩
  have hsecond : Call 20 (2, text [[99]]) ⟨true, 1, [some [99], none], false, []⟩ (1, text []) :=
    ⟨0, rfl, rfl⟩
  have hrun := (Run.refl.tail hfirst).tail hsecond
  exact ⟨_, _, rfl, hrun, (splits_text 20 0 hlines hrun).1, (splits_text 20 0 hlines hrun).2.2⟩

/-! ### The calls of `main` -/

/-- The result of a call, as `main` sees it. -/
def Result.args (r : Result) : Args :=
  match r.prints with
  | [] => if r.eof then .eof else .args r.argv.reduceOption
  | o :: _ => .ignored o

/-- The words that repeated calls of `strtok` return. -/
theorem strtoksLoop_eq {word : Bytes} (hword : ∀ c ∈ word, isDelimiter c = false) (cs : Bytes) :
    strtoksLoop word cs = words isDelimiter (word ++ cs) := by
  induction cs generalizing word with
  | nil =>
    rw [strtoksLoop, List.append_nil]
    split_ifs with hnil
    · rw [hnil]
      rfl
    · exact (words_of_forall hword hnil).symm
  | cons c cs ih =>
    rw [strtoksLoop]
    split_ifs with hc hnil
    · rw [ih fun _ h => absurd h List.not_mem_nil, hnil]
      exact (words_cons_of_pos hc).symm
    · rw [ih fun _ h => absurd h List.not_mem_nil, words_append_cons hword hnil hc]
      rfl
    · rw [ih, List.append_assoc]
      · rfl
      · intro d hd
        rcases List.mem_append.mp hd with hd | hd
        · exact hword d hd
        · rwa [List.mem_singleton.mp hd, ← Bool.not_eq_true]

/-- The end of `getargs` in `main`. -/
theorem lineArgs_eq (argc : ℕ) (cmd : Bytes) : lineArgs cmd = (splitLine MAXARG argc cmd).args := by
  have hwords : strtoks cmd = words isDelimiter cmd :=
    strtoksLoop_eq (fun _ h => absurd h List.not_mem_nil) cmd
  rw [lineArgs, hwords]
  split_ifs with h
  · rw [splitLine_of_le h]
    rfl
  · have hmap : ((words isDelimiter cmd).map some).reduceOption = words isDelimiter cmd := by
      simp [List.reduceOption]
    rw [splitLine_of_lt (Nat.lt_of_not_le h)]
    dsimp only [Result.args]
    rw [List.reduceOption_append, hmap]
    exact congrArg Args.args (List.append_nil _).symm

/-- Where the first newline is. -/
theorem findIdx_newline (hline : newline ∉ line) :
    (line ++ newline :: rest).findIdx? (· == newline) = some line.length := by
  have hnone : line.findIdx? (· == newline) = none :=
    List.findIdx?_eq_none_iff.mpr fun c hc => beq_false_of_ne fun h : c = newline => hline (h ▸ hc)
  rw [List.findIdx?_append, hnone, List.findIdx?_cons, beq_self_eq_true, if_pos rfl]
  exact congrArg some (Nat.zero_add _)

/-- The call that `main` makes takes what `getargs` takes, and gives what it gives. -/
theorem call_getargs (h : Call MAXARG (argc, cs) r s') :
    s'.2 = cs.drop (getargs cs).1 ∧ (getargs cs).2 = r.args := by
  obtain ⟨fuel, h, -⟩ := h
  rw [getargsCall] at h
  rw [getargs]
  dsimp only at h ⊢
  split_ifs at h ⊢ with hnil hmem
  · obtain ⟨rfl, hrest⟩ := Prod.mk.inj (Option.some.inj h)
    exact ⟨hrest.symm, rfl⟩
  · obtain ⟨rfl, hrest⟩ := Prod.mk.inj (Option.some.inj h)
    exact ⟨hrest.symm, lineArgs_eq argc _⟩
  · obtain ⟨rest, heat, hr⟩ := Option.map_eq_some_iff.mp h
    obtain ⟨rfl, rfl⟩ := Prod.mk.inj hr
    obtain ⟨eaten, heaten, hdrop⟩ := eatLoop_iff.mp ⟨fuel, heat⟩
    rw [hdrop, findIdx_newline heaten]
    refine ⟨?_, rfl⟩
    rw [← List.drop_drop, hdrop, List.drop_length_add_append]
    rfl

/-- The call does not return where `getargs` is stuck. -/
theorem stuck_iff (argc : ℕ) (cs : Bytes) :
    (getargs cs).2 = .stuck ↔ ∀ r s', ¬ Call MAXARG (argc, cs) r s' := by
  constructor
  · intro hstuck r s' h
    have hargs : r.args = .stuck := (call_getargs h).2.symm.trans hstuck
    rw [Result.args] at hargs
    split at hargs
    · split_ifs at hargs
    · exact Args.noConfusion hargs
  · intro hnone
    rw [getargs]
    dsimp only
    split_ifs with hnil hmem
    · exact absurd ⟨0, if_pos hnil, rfl⟩ (hnone (atEof argc) (argc, cs))
    · exact absurd ((call_iff_of_mem hmem).mpr ⟨rfl, rfl⟩) (hnone _ _)
    · have hrest : newline ∉ cs.drop (fgets (MAXLINE - 1) cs).length := fun h => by
        obtain ⟨eaten, rest, hdrop, heaten⟩ := List.eq_append_cons_of_mem h
        exact hnone _ (argc, rest)
          ((call_iff_of_not_mem hnil hmem).mpr ⟨rfl, rfl, eaten, heaten, hdrop⟩)
      have hfind : (cs.drop (fgets (MAXLINE - 1) cs).length).findIdx? (· == newline) = none :=
        List.findIdx?_eq_none_iff.mpr fun c hc =>
          beq_false_of_ne fun h : c = newline => hrest (h ▸ hc)
      rw [hfind]

end UnixStudy.Cl
