import UnixStudy.Ec.Interleaving
import UnixStudy.Ec.Print
import UnixStudy.Logf.Log

/-!
# The error trace in the log

`ec_print` logs each line that it shows, apart from the warning; the line is passed to `logfmt` as
the format. If the log file cannot be opened, `logfmt` exits, with the mutex of the trace locked.
The handler that was passed to `atexit` then calls `ec_print` again, which waits for the mutex.

A handler that calls `exit` while the program exits has no meaning in C.

## Main definitions

* `Process` : the trace, the log, what was shown, and the mutex.
* `Process.exit`, `Process.ec_print` : the two functions, where calls within calls are counted.
* `logMessages` : the lines in the log.
* `Process.Prints` : how a call of `ec_print` ends.

## Main results

* `Process.printLoop_of_off`, `Process.printLoop_of_open`, `Process.printLoop_of_shut` : the loop of
  `ec_print`.
* `Process.prints_ec_print` : what a call of `ec_print` does.
* `print_ends` : how a call of `ec_print` ends.

## References

* `src/common/ec.c`, lines 24–49 and 110–129, and `src/common/logf.c`, lines 28–58.
-/

namespace UnixStudy.Logf

open Smi (Bytes)
open Ec (ErrType)

/-- How a call ends: it returns, the program exits, the thread waits for a mutex that it has locked
itself, or C does not say what happens. The last one is for calls within calls that were not
counted. -/
inductive Ends
  | returns
  | exits
  | blocks
  | undefined
  | nested
  deriving DecidableEq, Repr

/-- What a process is, what `syserrmsgtype` returns, and what the system answers for the line of
each level. -/
structure World where
  pid : ℤ
  syserrmsgtype : ℕ → Bytes → ℤ → ErrType → Bytes
  answers : ℕ → Answers

/-- The trace; the log; the lines that were written to the standard error; whether the mutex of the
trace is locked; whether `ec_atexit_fcn` is still to be called when the program exits; and whether
the program exits. -/
structure Process where
  trace : Ec.State
  log : Log
  stderr : List Bytes
  locked : Bool
  handler : Bool
  exiting : Bool

/-- The message that there is no log file. -/
def cantOpen (path : CString) : Bytes :=
  [67, 97, 110, 39, 116, 32, 111, 112, 101, 110, 32, 108, 111, 103, 102, 105, 108, 101, 32, 34] ++
    path.chars ++ [34]

namespace Process

variable (w : World)

/-- The loop of `ec_print`, from a level on, where `exit` is known. -/
def printLoop (exit : Process → Process × Ends) :
    ℕ → List (ℕ × Ec.Node) → Process → Process × Ends
  | _, [], P => (P, .returns)
  | level, (a, e) :: nodes, P =>
    match e.ec_context.bind P.trace.textAt with
    | none => (P, .undefined)
    | some context =>
      let buf := w.syserrmsgtype 200 context (if e.ec_next = none then e.ec_errno else 0) e.ec_type
      let buf2 := (snprintf 225 (Ec.levelText level buf)).2
      let P := { P with
        stderr := P.stderr ++ ((if a = Ec.emergencyNode then [Ec.incomplete] else []) ++ [buf2]) }
      match logfmt w.pid 4 (w.answers level) buf2 [] P.log with
      | .ok log => printLoop exit (level + 1) nodes { P with log := log }
      | .error .exit => exit { P with stderr := P.stderr ++ [cantOpen P.log.logpath] }
      | .error _ => (P, .undefined)

mutual

/-- `exit`, where the number bounds the calls within calls. -/
def exit : ℕ → Process → Process × Ends
  | 0, P => (P, .nested)
  | depth + 1, P =>
    if P.exiting then (P, .undefined)
    else if P.handler then
      match ec_print depth { P with handler := false, exiting := true } with
      | (P, .returns) => (P, .exits)
      | (P, e) => (P, e)
    else (P, .exits)

/-- `ec_print`, where the number bounds the calls within calls. -/
def ec_print : ℕ → Process → Process × Ends
  | 0, P => (P, .nested)
  | depth + 1, P =>
    if P.locked then (P, .blocks)
    else
      match Ec.traverse P.trace P.trace.fuel P.trace.ec_head with
      | none => (P, .undefined)
      | some nodes =>
        match printLoop w (exit depth) 0 nodes { P with locked := true } with
        | (P, .returns) => ({ P with locked := false }, .returns)
        | (P, e) => (P, e)

end

end Process

/-! ### The lines in the log -/

/-- A line for each message, from a level on. -/
def logMessages (w : World) : ℕ → List Bytes → Log → Log
  | _, [], s => s
  | level, text :: texts, s =>
    logMessages w (level + 1) texts
      (s.append (line w.pid (w.answers level).now ((vfprintf text []).getD [])))

/-- The lines that are logged. -/
def messages (lines : List Bytes) : List Bytes := lines.filter (· ≠ Ec.incomplete)

variable {w : World} {P : Process} {exit : Process → Process × Ends} {level : ℕ}
  {nodes : List (ℕ × Ec.Node)} {lines : List Bytes}

/-- A line is not the warning, also if it was cut off. -/
theorem buf2_ne_incomplete {buf : Bytes} :
    (snprintf 225 (Ec.levelText level buf)).2 ≠ Ec.incomplete := by
  intro heq
  by_cases hlength : (Ec.levelText level buf).length < 225
  · rw [(snprintf_eq_iff (by decide)).mpr hlength] at heq
    exact Ec.levelText_ne_incomplete heq
  · have htake := congrArg List.length heq
    rw [snprintf, List.length_take, Nat.min_eq_left (by omega)] at htake
    exact absurd htake (by decide)

/-- The messages among the lines of a turn of the loop, and of the other ones. -/
theorem messages_cons (warning : Prop) [Decidable warning] {text : Bytes}
    (htext : text ≠ Ec.incomplete) (rest : List Bytes) :
    messages ((if warning then [Ec.incomplete] else []) ++ text :: rest) =
      text :: messages rest := by
  rw [messages, messages]
  split_ifs
  · simp [htext]
  · simp [htext]

/-! ### The loop -/

namespace Process

/-- **A turn of the loop** shows a line, with the warning in front of it or without, and logs it. -/
theorem printLoop_cons {s : Ec.State} {x : ℕ × Ec.Node}
    (h : Ec.lines s w.syserrmsgtype level (x :: nodes) = some lines) :
    ∃ first text rest, Ec.lines s w.syserrmsgtype (level + 1) nodes = some rest ∧
      lines = first ++ text :: rest ∧ messages lines = text :: messages rest ∧
      ∀ exit P, P.trace = s → printLoop w exit level (x :: nodes) P =
        match logfmt w.pid 4 (w.answers level) text [] P.log with
        | .ok log => printLoop w exit (level + 1) nodes
            { P with stderr := P.stderr ++ (first ++ [text]), log := log }
        | .error .exit => exit
            { P with stderr := P.stderr ++ (first ++ [text]) ++ [cantOpen P.log.logpath] }
        | .error _ => ({ P with stderr := P.stderr ++ (first ++ [text]) }, .undefined) := by
  obtain ⟨a, e⟩ := x
  rw [Ec.lines] at h
  obtain ⟨context, hcontext, h⟩ := Option.bind_eq_some_iff.mp h
  obtain ⟨rest, hrest, h⟩ := Option.bind_eq_some_iff.mp h
  obtain rfl := Option.some.inj h
  refine ⟨_, _, rest, hrest, rfl, messages_cons _ buf2_ne_incomplete rest, ?_⟩
  rintro exit P rfl
  rw [printLoop, hcontext]

/-- **Nothing is logged**, but each line is shown. -/
theorem printLoop_of_off (hoff : P.log.enable_logging = false)
    (hlines : Ec.lines P.trace w.syserrmsgtype level nodes = some lines) :
    printLoop w exit level nodes P = ({ P with stderr := P.stderr ++ lines }, .returns) := by
  induction nodes generalizing level P lines with
  | nil =>
    obtain rfl := Option.some.inj hlines
    rw [printLoop, List.append_nil]
  | cons x nodes ih =>
    obtain ⟨first, text, rest, hrest, rfl, -, hturn⟩ := printLoop_cons hlines
    rw [hturn exit P rfl, logfmt_of_off hoff]
    refine (ih (by exact hoff) (by exact hrest)).trans ?_
    simp only [List.append_assoc, List.cons_append, List.nil_append]

/-- **Each message is logged**, while the file is open. -/
theorem printLoop_of_open (hon : P.log.enable_logging) (hfile : P.log.logfile ≠ none)
    (hlines : Ec.lines P.trace w.syserrmsgtype level nodes = some lines)
    (hall : ∀ text ∈ messages lines, vfprintf text [] ≠ none) :
    printLoop w exit level nodes P =
      ({ P with
          stderr := P.stderr ++ lines
          log := logMessages w level (messages lines) P.log }, .returns) := by
  induction nodes generalizing level P lines with
  | nil =>
    obtain rfl := Option.some.inj hlines
    rw [printLoop, List.append_nil]
    rfl
  | cons x nodes ih =>
    obtain ⟨first, text, rest, hrest, rfl, hmessages, hturn⟩ := printLoop_cons hlines
    rw [hmessages] at hall ⊢
    obtain ⟨logged, hlogged⟩ := Option.ne_none_iff_exists'.mp (hall text List.mem_cons_self)
    rw [hturn exit P rfl, logfmt_of_open hfile hlogged, if_pos hon, logMessages, hlogged]
    refine (ih ?_ ?_ (by exact hrest) fun text htext =>
      hall text (List.mem_cons_of_mem _ htext)).trans ?_
    · exact (Log.append_enable_logging _ _).trans hon
    · exact (Log.append_logfile _ _).trans_ne hfile
    · simp only [List.append_assoc, List.cons_append, List.nil_append, Option.getD_some]

/-- **What happens to a message that cannot be formatted** is not defined. -/
theorem printLoop_of_undefined (hon : P.log.enable_logging) (hfile : P.log.logfile ≠ none)
    (hlines : Ec.lines P.trace w.syserrmsgtype level nodes = some lines)
    (hbad : ∃ text ∈ messages lines, vfprintf text [] = none) :
    (printLoop w exit level nodes P).2 = .undefined := by
  induction nodes generalizing level P lines with
  | nil =>
    obtain rfl := Option.some.inj hlines
    obtain ⟨text, htext, -⟩ := hbad
    exact absurd htext List.not_mem_nil
  | cons x nodes ih =>
    obtain ⟨first, text, rest, hrest, rfl, hmessages, hturn⟩ := printLoop_cons hlines
    rw [hmessages, List.exists_mem_cons_iff] at hbad
    rw [hturn exit P rfl]
    cases hlogged : vfprintf text [] with
    | none => rw [logfmt_of_undefined (.inl hfile) hon hlogged]
    | some logged =>
      rw [logfmt_of_open hfile hlogged, if_pos hon]
      refine ih ?_ ?_ (by exact hrest) (hbad.resolve_left fun hnone => ?_)
      · exact (Log.append_enable_logging _ _).trans hon
      · exact (Log.append_logfile _ _).trans_ne hfile
      · exact Option.some_ne_none logged (hlogged.symm.trans hnone)

/-- The file is opened for the first message, if this can be formatted. -/
theorem printLoop_of_opens (hon : P.log.enable_logging) (hfile : P.log.logfile = none)
    (hopen : (w.answers level).fopen)
    (hlines : Ec.lines P.trace w.syserrmsgtype level nodes = some lines) (hne : lines ≠ []) :
    let Q := { P with log := P.log.opened w.pid (w.answers level) }
    (printLoop w exit level nodes P).2 = (printLoop w exit level nodes Q).2 ∧
      ((∀ text ∈ messages lines, vfprintf text [] ≠ none) →
        printLoop w exit level nodes P = printLoop w exit level nodes Q) := by
  intro Q
  cases nodes with
  | nil => exact absurd (Option.some.inj hlines).symm hne
  | cons x nodes =>
    obtain ⟨first, text, rest, hrest, rfl, hmessages, hturn⟩ := printLoop_cons hlines
    have hopened : Q.log.logfile ≠ none := by
      rw [Log.opened_logfile]
      exact Option.some_ne_none _
    have hon' : Q.log.enable_logging := (Log.append_enable_logging _ _).trans hon
    rw [hmessages, hturn exit P rfl, hturn exit Q rfl]
    cases hlogged : vfprintf text [] with
    | none =>
      rw [logfmt_of_undefined (.inr hopen) hon hlogged,
        logfmt_of_undefined (.inl hopened) hon' hlogged]
      exact ⟨rfl, fun hall => absurd hlogged (hall text List.mem_cons_self)⟩
    | some logged =>
      rw [logfmt_of_opens hfile hopen hon hlogged, logfmt_of_open hopened hlogged, if_pos hon']
      exact ⟨rfl, fun _ => rfl⟩

/-- **Without a file** the program exits when the first message was shown, from within the loop. -/
theorem printLoop_of_shut (hon : P.log.enable_logging) (hfile : P.log.logfile = none)
    (hopen : (w.answers level).fopen = false)
    (hlines : Ec.lines P.trace w.syserrmsgtype level nodes = some lines) (hne : lines ≠ []) :
    ∃ first, first ≠ [] ∧ first <+: lines ∧ ∀ exit, printLoop w exit level nodes P =
      exit { P with stderr := P.stderr ++ first ++ [cantOpen P.log.logpath] } := by
  cases nodes with
  | nil => exact absurd (Option.some.inj hlines).symm hne
  | cons x nodes =>
    obtain ⟨first, text, rest, hrest, rfl, -, hturn⟩ := printLoop_cons hlines
    refine ⟨first ++ [text], by simp, ⟨rest, by simp⟩, fun exit => ?_⟩
    rw [hturn exit P rfl, logfmt_of_shut hfile hopen hon]

/-! ### A call -/

/-- A program that exits while it has the mutex, and that has a handler, waits for the mutex. -/
theorem exit_of_locked (hlocked : P.locked) (hexiting : P.exiting = false) (depth : ℕ) :
    (Process.exit w (depth + 2) P).2 = if P.handler then .blocks else .exits := by
  rw [Process.exit, hexiting]
  cases hhandler : P.handler with
  | false => rfl
  | true => simp [ec_print, hlocked]

/-- The log with its file open. -/
def readied (w : World) (s : Log) : Log :=
  if s.logfile = none then s.opened w.pid (w.answers 0) else s

variable {depth : ℕ}

/-- `ec_print` has the mutex while it is in its loop. -/
theorem ec_print_eq (hlocked : P.locked = false)
    (hlines : Ec.ec_print P.trace w.syserrmsgtype = some lines) :
    ∃ nodes, Ec.lines P.trace w.syserrmsgtype 0 nodes = some lines ∧ ∀ depth,
      ec_print w (depth + 1) P =
        match printLoop w (Process.exit w depth) 0 nodes { P with locked := true } with
        | (P, .returns) => ({ P with locked := false }, .returns)
        | (P, e) => (P, e) := by
  obtain ⟨nodes, hnodes, hlines⟩ := Option.bind_eq_some_iff.mp hlines
  refine ⟨nodes, hlines, fun depth => ?_⟩
  rw [ec_print, hlocked, hnodes]
  rfl

/-- There is nothing to log. -/
theorem ec_print_of_quiet (hlocked : P.locked = false)
    (hlines : Ec.ec_print P.trace w.syserrmsgtype = some lines)
    (hquiet : lines = [] ∨ P.log.enable_logging = false) :
    ec_print w (depth + 1) P = ({ P with stderr := P.stderr ++ lines }, .returns) := by
  obtain ⟨nodes, hlines, heq⟩ := ec_print_eq hlocked hlines
  have hloop : printLoop w (Process.exit w depth) 0 nodes { P with locked := true } =
      ({ P with locked := true, stderr := P.stderr ++ lines }, .returns) := by
    rcases hquiet with rfl | hoff
    · cases nodes with
      | nil => rw [printLoop, List.append_nil]
      | cons x nodes =>
        obtain ⟨first, text, rest, -, hnil, -⟩ := printLoop_cons hlines
        exact absurd hnil.symm (by simp)
    · exact printLoop_of_off hoff hlines
  rw [heq, hloop, ← hlocked]

/-- There is a file for the messages. -/
theorem ec_print_of_file (hlocked : P.locked = false)
    (hlines : Ec.ec_print P.trace w.syserrmsgtype = some lines) (hne : lines ≠ [])
    (hon : P.log.enable_logging) (hfile : P.log.logfile ≠ none ∨ (w.answers 0).fopen)
    (hall : ∀ text ∈ messages lines, vfprintf text [] ≠ none) :
    ec_print w (depth + 1) P =
      ({ P with
          stderr := P.stderr ++ lines
          log := logMessages w 0 (messages lines) (readied w P.log) }, .returns) := by
  obtain ⟨nodes, hlines, heq⟩ := ec_print_eq hlocked hlines
  have hloop : printLoop w (Process.exit w depth) 0 nodes { P with locked := true } =
      ({ P with
          locked := true
          stderr := P.stderr ++ lines
          log := logMessages w 0 (messages lines) (readied w P.log) }, .returns) := by
    rw [readied]
    split_ifs with hnone
    · have hopen : (w.answers 0).fopen := hfile.resolve_left (not_not.mpr hnone)
      refine ((printLoop_of_opens (by exact hon) (by exact hnone) hopen (by exact hlines)
        hne).2 hall).trans ?_
      refine printLoop_of_open ?_ ?_ (by exact hlines) hall
      · exact (Log.append_enable_logging _ _).trans hon
      · exact (Log.opened_logfile _).trans_ne (Option.some_ne_none _)
    · exact printLoop_of_open (by exact hon) (by exact hnone) (by exact hlines) hall
  rw [heq, hloop, ← hlocked]

/-- A message cannot be formatted. -/
theorem ec_print_of_undefined (hlocked : P.locked = false)
    (hlines : Ec.ec_print P.trace w.syserrmsgtype = some lines)
    (hon : P.log.enable_logging) (hfile : P.log.logfile ≠ none ∨ (w.answers 0).fopen)
    (hbad : ∃ text ∈ messages lines, vfprintf text [] = none) :
    (ec_print w (depth + 1) P).2 = .undefined := by
  obtain ⟨nodes, hlines, heq⟩ := ec_print_eq hlocked hlines
  have hne : lines ≠ [] := by
    rintro rfl
    obtain ⟨text, htext, -⟩ := hbad
    exact List.not_mem_nil htext
  have hloop : (printLoop w (Process.exit w depth) 0 nodes { P with locked := true }).2 =
      .undefined := by
    by_cases hnone : P.log.logfile = none
    · have hopen : (w.answers 0).fopen := hfile.resolve_left (not_not.mpr hnone)
      refine (printLoop_of_opens (by exact hon) (by exact hnone) hopen (by exact hlines)
        hne).1.trans ?_
      refine printLoop_of_undefined ?_ ?_ (by exact hlines) hbad
      · exact (Log.append_enable_logging _ _).trans hon
      · exact (Log.opened_logfile _).trans_ne (Option.some_ne_none _)
    · exact printLoop_of_undefined (by exact hon) (by exact hnone) (by exact hlines) hbad
  rw [heq]
  generalize printLoop w (Process.exit w depth) 0 nodes { P with locked := true } = r at hloop
  obtain ⟨Q, e⟩ := r
  obtain rfl : e = .undefined := hloop
  rfl

/-- There is no file for the messages: the program exits while it has the mutex. -/
theorem ec_print_of_shut (hlocked : P.locked = false) (hexiting : P.exiting = false)
    (hlines : Ec.ec_print P.trace w.syserrmsgtype = some lines) (hne : lines ≠ [])
    (hon : P.log.enable_logging) (hfile : P.log.logfile = none)
    (hopen : (w.answers 0).fopen = false) :
    (ec_print w (depth + 3) P).2 = if P.handler then .blocks else .exits := by
  obtain ⟨nodes, hlines, heq⟩ := ec_print_eq hlocked hlines
  obtain ⟨first, -, -, hloop⟩ :=
    printLoop_of_shut (P := { P with locked := true }) hon hfile hopen hlines hne
  set Q := { P with
    locked := true
    stderr := P.stderr ++ first ++ [cantOpen P.log.logpath] } with hQ
  have hexit : (Process.exit w (depth + 2) Q).2 = if P.handler then .blocks else .exits :=
    exit_of_locked (P := Q) rfl hexiting depth
  rw [heq, hloop]
  generalize Process.exit w (depth + 2) Q = r at hexit
  obtain ⟨R, e⟩ := r
  obtain rfl : e = if P.handler then .blocks else .exits := hexit
  split_ifs
  · rfl
  · rfl

/-- How a call of `ec_print` ends, for the lines that are to be shown: there is nothing to log; all
of them were logged; a message cannot be formatted; or there is no file, and the program exits while
it has the mutex. -/
inductive Prints (w : World) (P : Process) (lines : List Bytes) : Process × Ends → Prop
  | quiet (h : lines = [] ∨ P.log.enable_logging = false) :
      Prints w P lines ({ P with stderr := P.stderr ++ lines }, .returns)
  | logged (hne : lines ≠ []) (hon : P.log.enable_logging)
      (hfile : P.log.logfile ≠ none ∨ (w.answers 0).fopen)
      (hall : ∀ text ∈ messages lines, vfprintf text [] ≠ none) :
      Prints w P lines ({ P with
          stderr := P.stderr ++ lines
          log := logMessages w 0 (messages lines) (readied w P.log) }, .returns)
  | undefined (Q : Process) (hne : lines ≠ []) (hon : P.log.enable_logging)
      (hfile : P.log.logfile ≠ none ∨ (w.answers 0).fopen)
      (hbad : ¬ ∀ text ∈ messages lines, vfprintf text [] ≠ none) :
      Prints w P lines (Q, .undefined)
  | shut (Q : Process) (hne : lines ≠ []) (hon : P.log.enable_logging)
      (hfile : P.log.logfile = none) (hopen : (w.answers 0).fopen = false) :
      Prints w P lines (Q, if P.handler then .blocks else .exits)

/-- **What `ec_print` does.** -/
theorem prints_ec_print (hlocked : P.locked = false) (hexiting : P.exiting = false)
    (hlines : Ec.ec_print P.trace w.syserrmsgtype = some lines) :
    Prints w P lines (ec_print w (depth + 3) P) := by
  by_cases hquiet : lines = [] ∨ P.log.enable_logging = false
  · rw [ec_print_of_quiet hlocked hlines hquiet]
    exact .quiet hquiet
  rw [not_or, Bool.not_eq_false] at hquiet
  obtain ⟨hne, hon⟩ := hquiet
  by_cases hfile : P.log.logfile ≠ none ∨ (w.answers 0).fopen
  · by_cases hall : ∀ text ∈ messages lines, vfprintf text [] ≠ none
    · rw [ec_print_of_file hlocked hlines hne hon hfile hall]
      exact .logged hne hon hfile hall
    · have hends : (ec_print w (depth + 3) P).2 = .undefined := by
        refine ec_print_of_undefined hlocked hlines hon hfile ?_
        push Not at hall
        exact hall
      have hundefined := Prints.undefined (ec_print w (depth + 3) P).1 hne hon hfile hall
      rwa [← hends] at hundefined
  · rw [not_or, not_not, Bool.not_eq_true] at hfile
    have hends : (ec_print w (depth + 3) P).2 = if P.handler then .blocks else .exits :=
      ec_print_of_shut hlocked hexiting hlines hne hon hfile.1 hfile.2
    have hshut := Prints.shut (ec_print w (depth + 3) P).1 hne hon hfile.1 hfile.2
    rwa [← hends] at hshut

end Process

/-! ### Every run -/

/-- A call of `ec_push` was made, if there are some since the last call of `ec_reinit`. -/
theorem exists_push {as : List Ec.Label} (h : (Ec.history as).period ≠ []) :
    ∃ p, Ec.Label.push p ∈ as := by
  induction as using List.reverseRecOn with
  | nil => exact absurd rfl h
  | append_singleton as l ih =>
    rw [Ec.history_append] at h
    cases l with
    | push p => exact ⟨p, List.mem_append_right as List.mem_cons_self⟩
    | print =>
      obtain ⟨p, hp⟩ := ih h
      exact ⟨p, List.mem_append_left _ hp⟩
    | reinit => exact absurd rfl h

/-- No line is shown if and only if there are no calls to be shown. -/
theorem shownLines_eq_nil_iff {ps : List Ec.Push} :
    Ec.shownLines w.syserrmsgtype 0 ((Ec.kept ps).map fun p => (p, p.shown)) = [] ↔ ps = [] := by
  constructor
  · intro hnil
    have hkept : Ec.kept ps = [] := by
      cases hcons : Ec.kept ps with
      | nil => rfl
      | cons p qs =>
        rw [hcons, List.map_cons, Ec.shownLines] at hnil
        simp at hnil
    have hlast : (Ec.kept ps).getLast? = ps.getLast? := Ec.getLast?_kept
    rw [hkept] at hlast
    exact List.getLast?_eq_none_iff.mp hlast.symm
  · rintro rfl
    rfl

/-- The warning can be formatted. -/
theorem forall_messages_iff :
    (∀ text ∈ messages lines, vfprintf text [] ≠ none) ↔
      ∀ text ∈ lines, vfprintf text [] ≠ none := by
  refine ⟨fun h text htext => ?_, fun h text htext => h text (List.mem_of_mem_filter htext)⟩
  by_cases hwarning : text = Ec.incomplete
  · rw [hwarning, vfprintf_eq_self (by decide)]
    exact Option.some_ne_none _
  · exact h text (List.mem_filter.mpr ⟨htext, decide_eq_true hwarning⟩)

/-- **How a call of `ec_print` ends**, after any run in which memory is used rightly and the handler
was passed to `atexit` at the first error, while the program does not exit. It waits for ever if and
only if there is an error, messages are logged, the log file is not open, and it cannot be opened.
It returns if and only if there is no error, or messages are not logged, or there is a file, and no
line has a `%` that is not followed by another one. Then the lines were shown, and logged. -/
theorem print_ends {as : List Ec.Label} (hrun : Run Ec.Step Ec.start as P.trace)
    (hone : Ec.OneWithoutText as)
    (hlib : ∀ size text n t, 0 < size → (w.syserrmsgtype size text n t).length < size)
    (hlength : (Ec.history as).period.length ≤ 2 ^ 31) (hlocked : P.locked = false)
    (hexiting : P.exiting = false) (hhandler : P.handler = P.trace.attexit_called) :
    let lines := Ec.shownLines w.syserrmsgtype 0
      ((Ec.kept (Ec.history as).period).map fun p => (p, p.shown))
    let r := Process.ec_print w 3 P
    (r.2 = .blocks ↔ (Ec.history as).period ≠ [] ∧ P.log.enable_logging ∧
      P.log.logfile = none ∧ (w.answers 0).fopen = false) ∧
    (r.2 = .returns ↔ (Ec.history as).period = [] ∨ P.log.enable_logging = false ∨
      (P.log.logfile ≠ none ∨ (w.answers 0).fopen) ∧ ∀ text ∈ lines, vfprintf text [] ≠ none) ∧
    (r.2 = .returns → r.1 = { P with
      stderr := P.stderr ++ lines
      log := if lines ≠ [] ∧ P.log.enable_logging then
        logMessages w 0 (messages lines) (Process.readied w P.log) else P.log }) := by
  intro lines r
  have hlines : Ec.ec_print P.trace w.syserrmsgtype = some lines :=
    Ec.ec_print_kept hrun hone hlib hlength
  have hnil : lines = [] ↔ (Ec.history as).period = [] := shownLines_eq_nil_iff
  have hsome : lines ≠ [] ↔ (Ec.history as).period ≠ [] := not_congr hnil
  have hcalled : lines ≠ [] → P.handler = true := fun hne => by
    obtain ⟨p, hp⟩ := exists_push (hsome.mp hne)
    exact hhandler.trans ((Ec.attexit_called_run hrun).mpr ⟨p, hp⟩)
  have hprints : Process.Prints w P lines r := Process.prints_ec_print hlocked hexiting hlines
  rw [← forall_messages_iff, ← hsome, ← hnil]
  clear_value lines r
  cases hprints with
  | quiet h =>
    have hnot : ¬ (lines ≠ [] ∧ P.log.enable_logging = true) := by
      rintro ⟨hne, hon⟩
      rcases h with hnil | hoff
      · exact hne hnil
      · exact Bool.noConfusion (hoff.symm.trans hon)
    rw [if_neg hnot]
    exact ⟨iff_of_false Ends.noConfusion fun h => hnot ⟨h.1, h.2.1⟩,
      iff_of_true rfl (h.imp_right .inl), fun _ => rfl⟩
  | logged hne hon hfile hall =>
    rw [if_pos ⟨hne, hon⟩]
    refine ⟨iff_of_false Ends.noConfusion ?_, iff_of_true rfl (.inr (.inr ⟨hfile, hall⟩)),
      fun _ => rfl⟩
    rintro ⟨-, -, hnone, hopen⟩
    exact not_or.mpr ⟨not_not.mpr hnone, Bool.not_eq_true _ ▸ hopen⟩ hfile
  | undefined Q hne hon hfile hbad =>
    refine ⟨iff_of_false Ends.noConfusion ?_, iff_of_false Ends.noConfusion ?_,
      Ends.noConfusion⟩
    · rintro ⟨-, -, hnone, hopen⟩
      exact not_or.mpr ⟨not_not.mpr hnone, Bool.not_eq_true _ ▸ hopen⟩ hfile
    · rintro (hnil | hoff | ⟨-, hall⟩)
      · exact hne hnil
      · exact Bool.noConfusion (hoff.symm.trans hon)
      · exact hbad hall
  | shut Q hne hon hfile hopen =>
    rw [hcalled hne, if_pos rfl]
    refine ⟨iff_of_true rfl ⟨hne, hon, hfile, hopen⟩, iff_of_false Ends.noConfusion ?_,
      Ends.noConfusion⟩
    rintro (hnil | hoff | ⟨hnone | hopen', -⟩)
    · exact hne hnil
    · exact Bool.noConfusion (hoff.symm.trans hon)
    · exact hnone hfile
    · exact Bool.noConfusion (hopen.symm.trans hopen')

/-- The log file cannot be opened. -/
def sampleWorld : World := ⟨7, Ec.sampleText, fun _ => ⟨false, [], []⟩⟩

/-- Messages are logged, and the handler is known after a call of `ec_push`. -/
def sampleProcess (s : Ec.State) : Process where
  trace := s
  log := { start fun _ => [] with enable_logging := true }
  stderr := []
  locked := false
  handler := s.attexit_called
  exiting := false

theorem print_ends_sample : ∃ s, Run Ec.Step Ec.start Ec.sample s ∧
    (Process.ec_print sampleWorld 3 (sampleProcess s)).2 = .blocks := by
  obtain ⟨s, hrun, hone⟩ := Ec.exists_sample
  have hperiod : (Ec.history Ec.sample).period ≠ [] := List.cons_ne_nil _ _
  exact ⟨s, hrun, (print_ends (w := sampleWorld) (P := sampleProcess s) hrun hone
    Ec.length_sampleText (by decide) rfl rfl rfl).1.mpr ⟨hperiod, rfl, rfl, rfl⟩⟩

end UnixStudy.Logf
