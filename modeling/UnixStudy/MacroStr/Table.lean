import UnixStudy.MacroStr.Compile

/-!
# From the text to the search

A text for `mkmacrostr` has categories, macros with their descriptions, directives, and blank lines.
If each line fits into the array, and each macro has a category in front of it, what is compiled are
the macros that the preprocessor keeps, with their categories and descriptions, in order, and
`get_macrostr` finds the first one of a category that has a given value: the name is the one that
the text has, and so is the description. Blank lines make no difference while the byte in front of
the array is not a colon.

## Main definitions

* `Line`, `Line.Ok` : the lines of a text.
* `Headed` : the macros have categories.
* `outputs` : what is to be written for some lines.
* `Declared`, `declared` : the macros that a text declares.

## Main results

* `turn_line` : what a turn does with a line.
* `mkmacrostr_lines` : what is written for a text.
* `get_macrostr_text` : what is found in the table for a text.

## References

* `src/common/mkmacrostr.c`, lines 35–60, and `src/common/macrostr.c`, lines 41–65.
* `src/common/macrostr.txt`.
-/

namespace UnixStudy.MacroStr

open Cl (isBlank text)
open Shell (Bytes nul tab newline space dquote backslash)

/-! ### Texts -/

/-- A line of a text: a directive, behind the `#`; a category, in front of the colon; a macro, with
what separates it from its description; or blanks. -/
inductive Line
  | directive (s : Bytes)
  | category (cat : Bytes)
  | declare (mac sep desc : Bytes)
  | blank (s : Bytes)

namespace Line

/-- The characters of a line. -/
def chars : Line → Bytes
  | directive s => hash :: s
  | category cat => cat ++ [colon]
  | declare mac sep desc => mac ++ sep ++ desc
  | blank s => s

/-- What separates a macro from its description: a blank or a tab, tabs, and other white space. -/
def IsSeparator (sep : Bytes) : Prop :=
  ∃ c tabs spaces, sep = c :: tabs ++ spaces ∧ Cl.isBlank c = true ∧ (∀ t ∈ tabs, t = tab) ∧
    ∀ s ∈ spaces, isspace s = true ∧ s ≠ tab

/-- A description begins and ends with characters other than white space, and has no tab. -/
def IsDescription (desc : Bytes) : Prop :=
  tab ∉ desc ∧ literal desc = some desc ∧ (∃ c ∈ desc.head?, isspace c = false) ∧
    ∃ c ∈ desc.getLast?, isspace c = false ∧ c ≠ colon

/-- What a line of each kind looks like. -/
def Shape : Line → Prop
  | directive s => ((hash :: s).rdropWhile isspace).getLast? ≠ some backslash
  | category cat => cat.head? ≠ some hash ∧ literal cat = some cat
  | declare mac sep desc => IsIdentifier mac ∧
      (desc = [] ∧ (∀ c ∈ sep, isspace c = true) ∨ IsSeparator sep ∧ IsDescription desc)
  | blank s => ∀ c ∈ s, isspace c = true

/-- A line that fits into the array with its newline. -/
structure Ok (l : Line) : Prop where
  newline : newline ∉ l.chars
  nul : nul ∉ l.chars
  length : l.chars.length ≤ 98
  shape : l.Shape

/-- The category behind a line, if there is one. -/
def next (cat : Option Bytes) : Line → Option Bytes
  | category cat' => some cat'
  | _ => cat

/-- What is to be written for a line. -/
def out (cat : Option Bytes) : Line → List Out
  | directive s => [.directive ((hash :: s).rdropWhile isspace)]
  | declare mac _ desc => cat.toList.map (Out.entry · mac desc)
  | _ => []

/-- A line of blanks. -/
def isBlank : Line → Bool
  | blank _ => true
  | _ => false

end Line

/-- What is to be written for some lines. -/
def outputs (cat : Option Bytes) : List Line → List Out
  | [] => []
  | l :: lines => l.out cat ++ outputs (l.next cat) lines

/-- There is a category in front of each macro. -/
def Headed (lines : List Line) : Prop :=
  ∀ front mac sep desc, front ++ [.declare mac sep desc] <+: lines → ∃ c, .category c ∈ front

variable {cat : Option Bytes} {l : Line} {lines : List Line}

/-! ### A line -/

theorem isspace_of_isWord {c : UInt8} (h : isWord c = true) : isspace c = false := by
  simp only [isWord, isspace, Bool.or_eq_true, Bool.and_eq_true, decide_eq_true_eq, beq_iff_eq,
    Bool.or_eq_false_iff, Bool.and_eq_false_iff, decide_eq_false_iff_not, beq_eq_false_iff_ne,
    ne_eq, space, UInt8.le_iff_toNat_le, ← UInt8.toNat_inj, UInt8.reduceToNat] at h ⊢
  omega

/-- A character in front that is not white space stays there. -/
theorem head?_rdropWhile {s : Bytes} {c : UInt8} (hs : s.head? = some c) (hc : isspace c = false) :
    (s.rdropWhile isspace).head? = some c := by
  cases hdrop : s.rdropWhile isspace with
  | nil =>
    have hall := List.rdropWhile_eq_nil_iff.mp hdrop c (List.mem_of_mem_head? hs)
    exact absurd (hc.symm.trans hall) Bool.false_ne_true
  | cons d t =>
    obtain ⟨rest, hrest⟩ := hdrop ▸ List.rdropWhile_prefix isspace s
    rw [← hrest] at hs
    exact hs

theorem stripped_append (hnul : nul ∉ l.chars) :
    stripped (l.chars ++ [newline]) = l.chars.rdropWhile isspace := by
  have htake : (l.chars ++ [newline]).takeWhile (· != nul) = l.chars ++ [newline] := by
    refine List.takeWhile_eq_self_iff.mpr fun c hc => ?_
    rcases List.mem_append.mp hc with hc | hc
    · exact bne_iff_ne.mpr fun heq => hnul (heq ▸ hc)
    · rw [List.mem_singleton.mp hc]
      decide
  rw [stripped, htake, List.rdropWhile_concat_pos _ _ _ (by decide)]

/-- White space at the end is removed. -/
theorem rdropWhile_append {s blanks : Bytes} (h : ∀ c ∈ blanks, isspace c = true) :
    (s ++ blanks).rdropWhile isspace = s.rdropWhile isspace := by
  induction blanks using List.reverseRecOn with
  | nil => rw [List.append_nil]
  | append_singleton blanks c ih =>
    rw [← List.append_assoc, List.rdropWhile_concat_pos _ _ _ (h c (by simp))]
    exact ih fun d hd => h d (List.mem_append_left _ hd)

/-- What is left of a line whose last character is not white space. -/
theorem rdropWhile_eq_self {s : Bytes} (h : ∃ c ∈ s.getLast?, isspace c = false) :
    s.rdropWhile isspace = s := by
  rw [List.rdropWhile_eq_self_iff]
  intro hne
  obtain ⟨c, hc, hspace⟩ := h
  rw [List.getLast?_eq_some_getLast hne] at hc
  rw [Option.some.inj hc, hspace]
  exact Bool.false_ne_true

theorem turn_directive {b : UInt8} {s : Bytes} (hok : (Line.directive s).Ok) :
    turn b cat ((Line.directive s).chars ++ [newline]) =
      ⟨cat, [.directive ((hash :: s).rdropWhile isspace)], true⟩ := by
  rw [turn, stripped_append hok.nul, if_pos (head?_rdropWhile rfl (by decide))]
  rfl

theorem turn_category {b : UInt8} {c : Bytes} (hok : (Line.category c).Ok) :
    turn b cat ((Line.category c).chars ++ [newline]) = ⟨some c, [], true⟩ := by
  have hself : (c ++ [colon]).rdropWhile isspace = c ++ [colon] :=
    List.rdropWhile_concat_neg _ _ _ (by decide)
  have hhash : (c ++ [colon]).head? ≠ some hash := by
    cases c with
    | nil => decide
    | cons d c => exact hok.shape.1
  rw [turn, stripped_append hok.nul, Line.chars, hself, if_neg hhash, List.getLast?_concat]
  simp

theorem turn_blank {b : UInt8} {s : Bytes} (hok : (Line.blank s).Ok) (hb : b ≠ colon) :
    turn b cat ((Line.blank s).chars ++ [newline]) = ⟨cat, [], false⟩ := by
  have hnil : s.rdropWhile isspace = [] := List.rdropWhile_eq_nil_iff.mpr hok.shape
  rw [turn, stripped_append hok.nul, Line.chars, hnil, if_neg (by simp)]
  rw [if_neg (by simpa using hb)]
  rfl

/-- The line of a macro, without the white space at its end. -/
theorem stripped_declare {mac sep desc : Bytes} (hok : (Line.declare mac sep desc).Ok) :
    stripped ((Line.declare mac sep desc).chars ++ [newline]) =
      if desc = [] then mac else mac ++ sep ++ desc := by
  obtain ⟨hid, hdesc⟩ := hok.shape
  have hne := hid.1
  have hword := hid.isWord
  rw [stripped_append hok.nul, Line.chars]
  rcases hdesc with ⟨rfl, hsep⟩ | ⟨-, -, -, ⟨d, hd, -⟩, e, he, hlast, -⟩
  · rw [List.append_nil, rdropWhile_append hsep, if_pos rfl]
    exact rdropWhile_eq_self ⟨_, List.getLast?_eq_some_getLast hne,
      isspace_of_isWord (hword _ (List.getLast_mem hne))⟩
  · have hdne : desc ≠ [] := fun hnil => Option.some_ne_none d (hd.symm.trans (hnil ▸ rfl))
    rw [if_neg hdne]
    exact rdropWhile_eq_self ⟨e, List.mem_getLast?_append_of_mem_getLast? he, hlast⟩

/-- What is left behind a macro is its description. -/
theorem description_eq {tabs spaces desc : Bytes} (htabs : ∀ t ∈ tabs, t = tab)
    (hspaces : ∀ s ∈ spaces, isspace s = true ∧ s ≠ tab) (htab : tab ∉ desc)
    (hhead : ∃ c ∈ desc.head?, isspace c = false) :
    description (tabs ++ spaces ++ desc) = desc := by
  obtain ⟨d, hd, hspace⟩ := hhead
  have hne : desc ≠ [] := fun hnil => Option.some_ne_none d (hd.symm.trans (hnil ▸ rfl))
  have hnotab : ∀ c ∈ spaces ++ desc, (c == tab) = false := fun c hc => by
    rcases List.mem_append.mp hc with hc | hc
    · exact beq_eq_false_iff_ne.mpr (hspaces c hc).2
    · exact beq_eq_false_iff_ne.mpr fun heq => htab (heq ▸ hc)
  have hdrop : desc.dropWhile isspace = desc := by
    obtain ⟨e, desc, rfl⟩ := List.exists_cons_of_ne_nil hne
    obtain rfl := Option.some.inj hd
    exact List.dropWhile_cons_of_neg (by rw [hspace]; exact Bool.false_ne_true)
  rw [description, List.append_assoc, strtok_append fun t ht => beq_iff_eq.mpr (htabs t ht),
    strtok_of_forall hnotab (List.append_ne_nil_of_right_ne_nil _ hne)]
  dsimp only
  rw [List.dropWhile_append_of_pos fun s hs => (hspaces s hs).1, hdrop]

theorem turn_declare {b : UInt8} {c mac sep desc : Bytes} (hok : (Line.declare mac sep desc).Ok) :
    turn b (some c) ((Line.declare mac sep desc).chars ++ [newline]) =
      ⟨some c, [.entry c mac desc], true⟩ := by
  obtain ⟨hid, hdesc⟩ := hok.shape
  have hne := hid.1
  have hword := hid.isWord
  have hstripped := stripped_declare hok
  have hhead : ∀ rest, (mac ++ rest).head? ≠ some hash := fun rest heq => by
    rw [List.head?_append_of_ne_nil _ hne, List.head?_eq_some_head hne] at heq
    have hhash := hword _ (List.head_mem hne)
    rw [Option.some.inj heq] at hhash
    exact absurd hhash (by decide)
  have hblank : ∀ c ∈ mac, isBlank c = false := fun c hc =>
    isBlank_of_isspace (isspace_of_isWord (hword c hc))
  rw [turn, hstripped]
  rcases hdesc with ⟨rfl, -⟩ | ⟨⟨d, tabs, spaces, rfl, hd, htabs, hspaces⟩, htab, -, hfirst, hlast⟩
  · have hcolon : mac.getLast?.getD b ≠ colon := fun heq => by
      have hc := hword _ (List.getLast_mem hne)
      rw [List.getLast?_eq_some_getLast hne, Option.getD_some] at heq
      rw [heq] at hc
      exact absurd hc (by decide)
    have hhash : mac.head? ≠ some hash := by
      have hnil := hhead []
      rwa [List.append_nil] at hnil
    rw [if_pos rfl, if_neg hhash, if_neg hcolon, strtok_of_forall hblank hne]
    rfl
  · obtain ⟨e, he, -, hcolon⟩ := hlast
    have hdne : desc ≠ [] := fun hnil => Option.some_ne_none e (he.symm.trans (hnil ▸ rfl))
    have hgetD : (mac ++ (d :: tabs ++ spaces) ++ desc).getLast?.getD b ≠ colon := by
      rw [List.mem_getLast?_append_of_mem_getLast? he]
      exact hcolon
    rw [if_neg hdne, if_neg (by rw [List.append_assoc]; exact hhead _), if_neg hgetD,
      List.append_assoc, List.cons_append, List.cons_append, strtok_append_cons hblank hne hd]
    dsimp only
    rw [entryTurn, description_eq htabs hspaces htab hfirst]

/-- **A turn of the loop** for a line. A blank line makes no difference if the byte in front of the
array is not a colon. -/
theorem turn_line {b : UInt8} (hok : l.Ok) (hb : b ≠ colon)
    (hcat : cat = none → ∀ mac sep desc, l ≠ .declare mac sep desc) :
    turn b cat (l.chars ++ [newline]) = ⟨l.next cat, l.out cat, !l.isBlank⟩ := by
  cases l with
  | directive s => exact turn_directive hok
  | category c => exact turn_category hok
  | declare mac sep desc =>
    cases cat with
    | none => exact absurd rfl (hcat rfl mac sep desc)
    | some c => exact turn_declare hok
  | blank s => exact turn_blank hok hb

/-! ### A text -/

/-- The lines of a text are read one by one. -/
theorem fgetsAll_text (hok : ∀ l ∈ lines, l.Ok) {fuel : ℕ}
    (hfuel : (text (lines.map Line.chars)).length ≤ fuel) :
    fgetsAll fuel (text (lines.map Line.chars)) = lines.map fun l => l.chars ++ [newline] := by
  induction lines generalizing fuel with
  | nil => cases fuel <;> rfl
  | cons l lines ih =>
    rw [List.forall_mem_cons] at hok
    rw [List.map_cons, text, List.flatMap_cons, ← text] at hfuel ⊢
    rw [List.append_assoc, List.singleton_append] at hfuel ⊢
    rw [List.length_append, List.length_cons] at hfuel
    obtain ⟨fuel, rfl⟩ := Nat.exists_eq_add_one_of_ne_zero (Nat.ne_zero_of_lt
      (Nat.lt_of_lt_of_le (Nat.lt_add_left _ (Nat.succ_pos _)) hfuel))
    rw [fgetsAll_line hok.1.newline hok.1.length, ih hok.2 (by omega), List.map_cons]

/-- There is a category in front of the macros behind a line, too. -/
theorem Headed.of_cons (h : Headed (l :: lines)) : l.next none ≠ none ∨ Headed lines := by
  by_cases hl : ∃ c, l = .category c
  · obtain ⟨c, rfl⟩ := hl
    exact .inl (Option.some_ne_none c)
  · refine .inr fun front mac sep desc hfront => ?_
    obtain ⟨c, hc⟩ := h (l :: front) mac sep desc ((List.prefix_cons_inj l).mpr hfront)
    exact ⟨c, (List.mem_cons.mp hc).resolve_left fun heq => hl ⟨c, heq.symm⟩⟩

theorem turns_lines (before : ℕ → UInt8) (hok : ∀ l ∈ lines, l.Ok)
    (hbefore : ∀ n, before n ≠ colon) (hcat : cat ≠ none ∨ Headed lines) (n : ℕ) :
    turns before n cat (lines.map fun l => l.chars ++ [newline]) =
      (outputs cat lines, lines.all fun l => !l.isBlank) := by
  induction lines generalizing n cat with
  | nil => rfl
  | cons l lines ih =>
    rw [List.forall_mem_cons] at hok
    have hdeclare : cat = none → ∀ mac sep desc, l ≠ .declare mac sep desc := by
      rintro rfl mac sep desc rfl
      obtain ⟨c, hc⟩ := hcat.resolve_left (not_not.mpr rfl) [] mac sep desc ⟨lines, rfl⟩
      exact List.not_mem_nil hc
    have hnext : l.next cat ≠ none ∨ Headed lines := by
      cases hnone : cat with
      | none => exact (hcat.resolve_left (not_not.mpr hnone)).of_cons
      | some c => exact .inl (by cases l <;> exact Option.some_ne_none _)
    rw [List.map_cons, turns, turn_line hok.1 (hbefore n) hdeclare, ih hok.2 hnext]
    rfl

/-- What is written for a text: its directives, and its macros with their categories and
descriptions, in order. -/
theorem mkmacrostr_lines (before : ℕ → UInt8) (hok : ∀ l ∈ lines, l.Ok) (hheaded : Headed lines)
    (hbefore : ∀ n, before n ≠ colon) : mkmacrostr before (text (lines.map Line.chars)) =
      (outputs none lines, lines.all fun l => !l.isBlank) := by
  rw [mkmacrostr, fgetsAll_text hok le_rfl, turns_lines before hok hbefore (.inr hheaded)]

/-! ### The search -/

/-- A macro that is declared in a text, with the directives in front of it, its category and its
description. -/
structure Declared where
  front : List Bytes
  cat : Bytes
  mac : Bytes
  desc : Bytes

/-- The macros that are declared, in order. -/
def declared (front : List Bytes) (cat : Option Bytes) : List Line → List Declared
  | [] => []
  | .directive s :: lines => declared (front ++ [(hash :: s).rdropWhile isspace]) cat lines
  | .category c :: lines => declared front (some c) lines
  | .declare mac _ desc :: lines =>
    (cat.toList.map fun c => ⟨front, c, mac, desc⟩) ++ declared front cat lines
  | .blank _ :: lines => declared front cat lines

/-- The element of the table for a macro. -/
def Declared.entry (cpp : Preprocessor) (m : Declared) : Entry :=
  ⟨m.cat, cpp.value m.front m.mac, m.mac, m.desc⟩

/-- The table has the macros that are declared, as far as the preprocessor keeps them. -/
theorem macrostr_db_outputs (cpp : Preprocessor) {front : List Bytes} (hok : ∀ l ∈ lines, l.Ok)
    (hcat : ∀ c ∈ cat, literal c = some c) : macrostr_db cpp front (outputs cat lines) =
      some (((declared front cat lines).filter fun m => cpp.keeps m.front).map
        (Declared.entry cpp)) := by
  induction lines generalizing front cat with
  | nil => rfl
  | cons l lines ih =>
    rw [List.forall_mem_cons] at hok
    rw [outputs]
    cases l with
    | directive s =>
      have hshape : ((hash :: s).rdropWhile isspace).getLast? ≠ some backslash := hok.1.shape
      exact (if_neg hshape).trans (ih hok.2 hcat)
    | category c => exact ih hok.2 fun d hd => Option.some.inj hd ▸ hok.1.shape.2
    | blank s => exact ih hok.2 hcat
    | declare mac sep desc =>
      cases cat with
      | none => exact ih hok.2 hcat
      | some c =>
        have hdesc : literal desc = some desc := by
          rcases hok.1.shape.2 with ⟨rfl, -⟩ | ⟨-, -, hdesc, -⟩
          · decide
          · exact hdesc
        have hentry : IsIdentifier mac ∧ literal c = some c ∧ literal desc = some desc :=
          ⟨hok.1.shape.1, hcat c rfl, hdesc⟩
        have hrest : macrostr_db cpp front (outputs (some c) lines) = _ := ih hok.2 hcat
        refine (if_pos hentry).trans ((congrArg (Option.map _) hrest).trans ?_)
        rw [Option.map_some, declared, Option.toList_some, List.map_singleton,
          List.singleton_append, List.filter_cons]
        split_ifs
        · rfl
        · rfl

/-- The first element that fits is found. -/
theorem get_macrostr_eq (c : Bytes) (code : ℤ) (db : List Entry) : get_macrostr c code db =
    ((db.find? fun e => e.msCat = c ∧ e.msCode = code).map fun e => (e.msMacro, e.msDesc)).getD
      (unknown, unknown) := by
  induction db with
  | nil => rfl
  | cons e db ih =>
    rw [get_macrostr, List.find?_cons]
    by_cases h : e.msCat = c ∧ e.msCode = code
    · rw [if_pos h, decide_eq_true h]
      rfl
    · rw [if_neg h, decide_eq_false h, ih]

/-- **What is found in the table for a text**: the first macro that the text declares in the
category with the value, and that the preprocessor keeps, and its description; or `"?"`, if there is
none. -/
theorem get_macrostr_text (before : ℕ → UInt8) (hok : ∀ l ∈ lines, l.Ok) (hheaded : Headed lines)
    (hbefore : ∀ n, before n ≠ colon) (cpp : Preprocessor) (c : Bytes) (code : ℤ) :
    (macrostr_db cpp [] (mkmacrostr before (text (lines.map Line.chars))).1).map
        (get_macrostr c code) =
      some ((((declared [] none lines).find? fun m =>
        cpp.keeps m.front ∧ m.cat = c ∧ cpp.value m.front m.mac = code).map fun m =>
          (m.mac, m.desc)).getD (unknown, unknown)) := by
  have hnone : ∀ d ∈ (none : Option Bytes), literal d = some d := fun _ h => nomatch h
  rw [mkmacrostr_lines before hok hheaded hbefore, macrostr_db_outputs cpp hok hnone,
    Option.map_some, get_macrostr_eq, List.find?_map, Option.map_map, List.find?_filter]
  simp only [Declared.entry, Function.comp_def, Bool.decide_and, Bool.decide_eq_true]
  rfl

/-- A text that begins with a category. -/
theorem headed_cons_category (c : Bytes) (lines : List Line) :
    Headed (.category c :: lines) := by
  intro front mac sep desc hfront
  cases front with
  | nil => exact absurd (List.cons_prefix_cons.mp hfront).1 Line.noConfusion
  | cons l front => exact ⟨c, (List.cons_prefix_cons.mp hfront).1 ▸ List.mem_cons_self⟩

/-- A category with three macros, of which the second one is behind a directive and the third one
has a description, and a blank line. -/
def sample : List Line :=
  [.category [97], .declare [88] [] [], .blank [], .directive [105, 102], .declare [90] [] [],
    .directive [101], .declare [89] [32, 9, 32] [100, 32, 101]]

/-- The preprocessor drops what is behind the first directive, up to the second one. -/
def sampleCpp : Preprocessor where
  keeps front := front.length ≠ 1
  value _ mac := if mac = [88] then 1 else 2

theorem sample_ok : ∀ l ∈ sample, l.Ok := by
  have hsep : Line.IsSeparator [32, 9, 32] := ⟨32, [9], [32], rfl, rfl,
    List.forall_mem_singleton.mpr rfl, List.forall_mem_singleton.mpr (by decide)⟩
  have hdesc : Line.IsDescription [100, 32, 101] :=
    ⟨by decide, by decide, ⟨100, rfl, by decide⟩, 101, rfl, by decide⟩
  have hnil : ∀ c ∈ ([] : Bytes), isspace c = true := fun c hc => absurd hc List.not_mem_nil
  have hdirective : ∀ s ∈ ([[105, 102], [101]] : List Bytes),
      ((hash :: s).rdropWhile isspace).getLast? ≠ some backslash := by decide
  simp only [sample, List.forall_mem_cons]
  exact ⟨⟨by decide, by decide, by decide, by decide, by decide⟩,
    ⟨by decide, by decide, by decide, by decide, .inl ⟨rfl, hnil⟩⟩,
    ⟨by decide, by decide, by decide, hnil⟩,
    ⟨by decide, by decide, by decide, hdirective _ List.mem_cons_self⟩,
    ⟨by decide, by decide, by decide, by decide, .inl ⟨rfl, hnil⟩⟩,
    ⟨by decide, by decide, by decide, hdirective _ (by decide)⟩,
    ⟨by decide, by decide, by decide, by decide, .inr ⟨hsep, hdesc⟩⟩, by simp⟩

theorem get_macrostr_text_sample :
    (macrostr_db sampleCpp [] (mkmacrostr (fun _ => 0) (text (sample.map Line.chars))).1).map
      (get_macrostr [97] 2) = some ([89], [100, 32, 101]) :=
  get_macrostr_text (fun _ => 0) sample_ok (headed_cons_category _ _) (fun _ => by decide) sampleCpp
    [97] 2

end UnixStudy.MacroStr
