import UnixStudy.Cl.Lines
import Mathlib.Data.List.DropRight

/-!
# The table of macros

`mkmacrostr` makes a table in C from a text: a line that ends with a colon gives a category, and any
other line has a macro of the category and, behind blanks or tabs, a description of it. Lines with
`#` in front are directives of the preprocessor and are copied. `get_macrostr` finds the macro that
has a given value in the table.

White space at the end of a line is removed, and then the last character is compared with the colon.
If nothing is left of the line, there is no last character: what is compared is the byte that lies
in front of the array, and if this is a colon, another one is written to. Nothing is in the array
`cat` in front of the first category, where a macro reads it.

## Main definitions

* `turn`, `mkmacrostr` : a turn of the loop for a line, and the whole program.
* `IsDirective`, `IsCategory` : the lines that are no macros.
* `Entry`, `macrostr_db`, `get_macrostr` : the table that is compiled, and the search in it.

## Main results

* `mkmacrostr_inside_iff` : when the program stays inside its arrays.

## References

* `src/common/mkmacrostr.c`, lines 23–61.
* `src/common/macrostr.c`, lines 41–65.
-/

namespace UnixStudy.MacroStr

open Cl (fgets isBlank)
open Shell (Bytes nul tab newline space dquote backslash)

/-! ### The compiler -/

/-- `isspace`. -/
def isspace (c : UInt8) : Bool := c == space || (9 ≤ c && c ≤ 13)

/-- `#`. -/
abbrev hash : UInt8 := 35

/-- `:`. -/
abbrev colon : UInt8 := 58

/-- What is written for a line: a copy of it, or the values of a `struct`. -/
inductive Out
  | directive (s : Bytes)
  | entry (cat mac desc : Bytes)
  deriving DecidableEq, Repr

/-- What a turn of the loop leaves in `cat`, if there is something in it, and writes; and whether it
stays inside the arrays, and reads only what was written to them. -/
structure Turn where
  cat : Option Bytes
  out : List Out
  inside : Bool
  deriving DecidableEq, Repr

/-- The string that is left of a line, without the white space at its end. -/
def stripped (line : Bytes) : Bytes := (line.takeWhile (· != nul)).rdropWhile isspace

/-- The description that is left behind a macro. -/
def description (rest : Bytes) : Bytes :=
  match strtok (· == tab) rest with
  | none => []
  | some (desc, _) => desc.dropWhile isspace

/-- The end of a turn for a macro. What is written is not known if there is no string in `cat`. -/
def entryTurn : Option Bytes → Bytes → Bytes → Turn
  | none, _, _ => ⟨none, [], false⟩
  | some cat, mac, rest => ⟨some cat, [.entry cat mac (description rest)], true⟩

/-- A turn of the loop, for a line that `fgets` has stored. The byte `before` lies in front of the
array. -/
def turn (before : UInt8) (cat : Option Bytes) (line : Bytes) : Turn :=
  let s := stripped line
  if s.head? = some hash then ⟨cat, [.directive s], true⟩
  else if s.getLast?.getD before = colon then ⟨some s.dropLast, [], !s.isEmpty⟩
  else
    match strtok isBlank s with
    | none => ⟨cat, [], !s.isEmpty⟩
    | some (mac, rest) => entryTurn cat mac rest

/-- The lines that repeated calls of `fgets` store, for at most `fuel` calls. -/
def fgetsAll : ℕ → Bytes → List Bytes
  | 0, _ => []
  | fuel + 1, input =>
    let line := fgets 99 input
    if line = [] then [] else line :: fgetsAll fuel (input.drop line.length)

/-- The loop over the lines: what is written, and whether it stays inside the arrays. The byte in
front of the array may be another one for each line. -/
def turns (before : ℕ → UInt8) : ℕ → Option Bytes → List Bytes → List Out × Bool
  | _, _, [] => ([], true)
  | n, cat, line :: lines =>
    let t := turn (before n) cat line
    let rest := turns before (n + 1) t.cat lines
    (t.out ++ rest.1, t.inside && rest.2)

/-- `mkmacrostr` on a text. Each line has a byte at least. -/
def mkmacrostr (before : ℕ → UInt8) (input : Bytes) : List Out × Bool :=
  turns before 0 none (fgetsAll input.length input)

/-- A line with `#` in front. -/
def IsDirective (line : Bytes) : Prop := (stripped line).head? = some hash

/-- A line that ends with a colon. -/
def IsCategory (line : Bytes) : Prop := ¬ IsDirective line ∧ (stripped line).getLast? = some colon

instance : DecidablePred IsDirective := fun line =>
  inferInstanceAs (Decidable ((stripped line).head? = some hash))

/-! ### The table -/

/-- An element of `macrostr_db`. -/
structure Entry where
  msCat : Bytes
  msCode : ℤ
  msMacro : Bytes
  msDesc : Bytes
  deriving DecidableEq, Repr

/-- What the C compiler takes from the directives in front of a line: whether the preprocessor keeps
the line, and the values of macros. -/
structure Preprocessor where
  keeps : List Bytes → Bool
  value : List Bytes → Bytes → ℤ

/-- The string in C with the given characters between the quotes, if they are those of the string:
there is no quote, no backslash, and nothing that may be a trigraph. -/
def literal (s : Bytes) : Option Bytes :=
  if dquote ∈ s ∨ backslash ∈ s ∨ [63, 63] <:+: s then none else some s

/-- A letter, a digit, or an underscore. -/
def isWord (c : UInt8) : Bool :=
  (48 ≤ c && c ≤ 57) || (65 ≤ c && c ≤ 90) || c == 95 || (97 ≤ c && c ≤ 122)

/-- An identifier, which is what the name of a macro is. -/
def IsIdentifier (mac : Bytes) : Prop :=
  mac ≠ [] ∧ mac.all isWord ∧ mac.head?.all (57 < ·)

instance : DecidablePred IsIdentifier := fun mac =>
  inferInstanceAs (Decidable (mac ≠ [] ∧ mac.all isWord ∧ mac.head?.all (57 < ·)))

theorem IsIdentifier.isWord {mac : Bytes} (h : IsIdentifier mac) : ∀ c ∈ mac, isWord c = true :=
  List.all_eq_true.mp h.2.1

/-- The table that is compiled, behind some directives, if each macro is an identifier, each string
has the characters that were written, and no directive goes on in the next line. -/
def macrostr_db (cpp : Preprocessor) : List Bytes → List Out → Option (List Entry)
  | _, [] => some []
  | front, .directive s :: outs =>
    if s.getLast? = some backslash then none else macrostr_db cpp (front ++ [s]) outs
  | front, .entry cat mac desc :: outs =>
    if IsIdentifier mac ∧ literal cat = some cat ∧ literal desc = some desc then
      (macrostr_db cpp front outs).map fun db =>
        if cpp.keeps front then ⟨cat, cpp.value front mac, mac, desc⟩ :: db else db
    else none

/-! ### The search -/

/-- `"?"`. -/
def unknown : Bytes := [63]

/-- `get_macrostr`: the macro, and the description. -/
def get_macrostr (cat : Bytes) (code : ℤ) : List Entry → Bytes × Bytes
  | [] => (unknown, unknown)
  | e :: db =>
    if e.msCat = cat ∧ e.msCode = code then (e.msMacro, e.msDesc) else get_macrostr cat code db

variable {cat : Option Bytes} {b : UInt8} {input line rest : Bytes} {lines : List Bytes} {n : ℕ}

/-! ### Lines -/

/-- A call of `fgets` stores what is in front of the input. -/
theorem fgets_isPrefix (n : ℕ) (input : Bytes) : fgets n input <+: input := by
  induction n generalizing input with
  | zero => exact List.nil_prefix
  | succ n ih =>
    cases input with
    | nil => exact List.nil_prefix
    | cons c cs =>
      rw [fgets]
      split_ifs
      · exact ⟨cs, rfl⟩
      · exact (List.prefix_cons_inj c).mpr (ih cs)

theorem fgets_eq_nil_iff (n : ℕ) (input : Bytes) : fgets (n + 1) input = [] ↔ input = [] := by
  cases input with
  | nil => exact iff_of_true rfl rfl
  | cons c cs =>
    rw [fgets]
    split_ifs <;> simp

/-- **The whole input is read**, in order. -/
theorem flatten_fgetsAll {fuel : ℕ} (hfuel : input.length ≤ fuel) :
    (fgetsAll fuel input).flatten = input := by
  induction fuel generalizing input with
  | zero => exact (List.length_eq_zero_iff.mp (Nat.le_zero.mp hfuel)).symm
  | succ fuel ih =>
    rw [fgetsAll]
    split_ifs with hnil
    · exact ((fgets_eq_nil_iff _ _).mp hnil).symm
    · have hpos := List.length_pos_iff.mpr hnil
      rw [List.flatten_cons, ih (by rw [List.length_drop]; omega)]
      exact List.prefix_iff_eq_append.mp (fgets_isPrefix 99 input)

/-- The first line of a text. -/
theorem fgetsAll_line (hline : newline ∉ line) (hlength : line.length ≤ 98) {fuel : ℕ} :
    fgetsAll (fuel + 1) (line ++ newline :: rest) = (line ++ [newline]) :: fgetsAll fuel rest := by
  rw [fgetsAll, Cl.fgets_of_lt hline (Nat.lt_succ_of_le hlength), if_neg (by simp),
    List.append_cons line newline rest, List.drop_left]

/-! ### The arrays -/

/-- Something is left of a line. -/
theorem exists_mem_iff_stripped_ne_nil :
    (∃ c ∈ line.takeWhile (· != nul), isspace c = false) ↔ stripped line ≠ [] := by
  rw [stripped, Ne, List.rdropWhile_eq_nil_iff]
  push Not
  simp only [Bool.not_eq_true]

theorem isBlank_of_isspace {c : UInt8} (h : isspace c = false) : isBlank c = false := by
  rw [isBlank, Bool.or_eq_false_iff, beq_eq_false_iff_ne, beq_eq_false_iff_ne]
  refine ⟨fun heq => ?_, fun heq => ?_⟩
  · rw [heq] at h
    exact absurd h (by decide)
  · rw [heq] at h
    exact absurd h (by decide)

/-- What is left of a line does not end with a blank: there is a macro in it. -/
theorem strtok_stripped (hne : stripped line ≠ []) :
    ∃ mac rest, strtok isBlank (stripped line) = some (mac, rest) := by
  have hlast : isspace ((stripped line).getLast hne) = false :=
    Bool.eq_false_iff.mpr (List.rdropWhile_last_not isspace _ hne)
  have hsome : strtok isBlank (stripped line) ≠ none := fun hnone => by
    have hblank := strtok_eq_none_iff.mp hnone _ (List.getLast_mem hne)
    exact Bool.noConfusion ((isBlank_of_isspace hlast).symm.trans hblank)
  obtain ⟨⟨mac, rest⟩, h⟩ := Option.ne_none_iff_exists'.mp hsome
  exact ⟨mac, rest, h⟩

/-- The last character of a line is looked at only if there is one. -/
theorem getLast?_getD_stripped (hne : stripped line ≠ []) :
    (stripped line).getLast?.getD b = colon ↔ (stripped line).getLast? = some colon := by
  rw [List.getLast?_eq_some_getLast hne, Option.getD_some, Option.some_inj]

/-- A turn for a line of which something is left. -/
theorem turn_of_ne_nil (b : UInt8) (cat : Option Bytes) (hne : stripped line ≠ []) :
    ((turn b cat line).inside = true ↔ (cat = none → IsDirective line ∨ IsCategory line)) ∧
      ((turn b cat line).cat = none ↔ cat = none ∧ ¬ IsCategory line) := by
  rw [IsCategory, turn]
  by_cases hhash : IsDirective line
  · rw [if_pos (by exact hhash)]
    exact ⟨iff_of_true rfl fun _ => .inl hhash, (and_iff_left fun h => h.1 hhash).symm⟩
  rw [if_neg (by exact hhash)]
  simp only [getLast?_getD_stripped hne]
  by_cases hcolon : (stripped line).getLast? = some colon
  · rw [if_pos hcolon]
    refine ⟨iff_of_true ?_ fun _ => .inr ⟨hhash, hcolon⟩,
      iff_of_false (Option.some_ne_none _) fun h => h.2 ⟨hhash, hcolon⟩⟩
    simpa using hne
  obtain ⟨mac, rest, hmac⟩ := strtok_stripped hne
  rw [if_neg hcolon, hmac]
  have hnot : ¬ (IsDirective line ∨ ¬ IsDirective line ∧ (stripped line).getLast? = some colon) :=
    not_or.mpr ⟨hhash, fun h => hcolon h.2⟩
  cases cat with
  | none => exact ⟨iff_of_false Bool.false_ne_true fun h => hnot (h rfl),
      (and_iff_left fun h => hcolon h.2).symm⟩
  | some c => exact ⟨iff_of_true rfl fun h => absurd h (Option.some_ne_none c),
      (and_iff_left fun h => hcolon h.2).symm⟩

/-- Nothing is left of a line. -/
theorem turn_of_nil (hnil : stripped line = []) : (turn b cat line).inside = false := by
  rw [turn, hnil, if_neg (by simp)]
  split_ifs
  · rfl
  · rfl

/-- The loop stays inside the arrays, from a line on. -/
theorem turns_inside_iff (before : ℕ → UInt8) : (turns before n cat lines).2 = true ↔
    (∀ line ∈ lines, stripped line ≠ []) ∧
      (cat = none → ∀ line ∈ lines.find? (¬ IsDirective ·), IsCategory line) := by
  induction lines generalizing n cat with
  | nil => exact iff_of_true rfl ⟨fun _ h => absurd h List.not_mem_nil, fun _ _ h => nomatch h⟩
  | cons line lines ih =>
    rw [turns, Bool.and_eq_true, ih, List.forall_mem_cons]
    by_cases hnil : stripped line = []
    · rw [turn_of_nil hnil]
      exact iff_of_false (fun h => Bool.noConfusion h.1) fun h => h.1.1 hnil
    obtain ⟨hinside, hcat⟩ := turn_of_ne_nil (before n) cat hnil
    rw [hinside, hcat, List.find?_cons]
    by_cases hhash : IsDirective line
    · have hnot : ¬ IsCategory line := fun h => h.1 hhash
      simp [hnil, hhash, hnot]
    · by_cases hcategory : IsCategory line
      · simp [hnil, hhash, hcategory]
      · simp [hnil, hhash, hcategory]
        tauto

/-- **The program stays inside its arrays**, and reads only what it has written to them, if and only
if every line that is read has a character other than white space, and the first line that is not a
directive is a category. -/
theorem mkmacrostr_inside_iff (before : ℕ → UInt8) (input : Bytes) :
    (mkmacrostr before input).2 = true ↔
      (∀ line ∈ fgetsAll input.length input,
        ∃ c ∈ line.takeWhile (· != nul), isspace c = false) ∧
      ∀ line ∈ (fgetsAll input.length input).find? (¬ IsDirective ·), IsCategory line := by
  rw [mkmacrostr, turns_inside_iff]
  simp only [exists_mem_iff_stripped_ne_nil, forall_const]

end UnixStudy.MacroStr
