import UnixStudy.Foundations.CStrings
import UnixStudy.Foundations.Runs
import UnixStudy.Smi.Message

/-!
# The log file

A message is logged if this is enabled. The file is opened when it is needed for the first time: for
a message, or by `logfmt_setpath`. A first line is then written to it by `logfmt` itself, which is
called from `init`, as `init` is called from `logfmt`; but by then the file is open. It stays open,
also if the path is set later.

If the file cannot be opened, the program exits. The directives of a format are `%s` and `%%` here;
what C does not define has no result. `strftime` has enough room.

## Main definitions

* `Log` : the static variables, and the files.
* `init`, `logfmt` : the two functions, where the calls within calls are counted.
* `step` : a call of one of the functions.
* `Written` : what is in the files, as known from the calls.

## Main results

* `init_eq`, `logfmt_eq` : what the functions do.
* `log_written` : what is in the files after any calls.

## References

* `src/common/logf.c`.
-/

namespace UnixStudy.Logf

open Smi (Bytes decimal)

/-! ### Formats -/

/-- `%` -/
abbrev percent : UInt8 := 37

/-- What `vfprintf` makes of a format and its arguments. -/
def vfprintf : Bytes → List Bytes → Option Bytes
  | [], _ => some []
  | [c], _ => if c = percent then none else some [c]
  | c :: d :: cs, args =>
    if c ≠ percent then (vfprintf (d :: cs) args).map (c :: ·)
    else if d = percent then (vfprintf cs args).map (percent :: ·)
    else if d = 115 then
      match args with
      | [] => none
      | arg :: args => (vfprintf cs args).map (arg ++ ·)
    else none

/-- A character other than `%` stands for itself. -/
theorem vfprintf_cons {c : UInt8} (hc : c ≠ percent) (cs : Bytes) (args : List Bytes) :
    vfprintf (c :: cs) args = (vfprintf cs args).map (c :: ·) := by
  cases cs with
  | nil => exact if_neg hc
  | cons d cs => exact if_pos hc

/-- A text in which there is no `%` stands for itself. -/
theorem vfprintf_append {text : Bytes} (h : percent ∉ text) (cs : Bytes) (args : List Bytes) :
    vfprintf (text ++ cs) args = (vfprintf cs args).map (text ++ ·) := by
  induction text with
  | nil => exact Option.map_id'.symm
  | cons c text ih =>
    rw [List.mem_cons, not_or] at h
    rw [List.cons_append, vfprintf_cons (Ne.symm h.1), ih h.2, Option.map_map]
    rfl

theorem vfprintf_eq_self {text : Bytes} (h : percent ∉ text) (args : List Bytes) :
    vfprintf text args = some text := by
  have happend := vfprintf_append h [] args
  rwa [List.append_nil, vfprintf, Option.map_some, List.append_nil] at happend

/-- `%s` stands for an argument. -/
theorem vfprintf_string (cs arg : Bytes) (args : List Bytes) :
    vfprintf (percent :: 115 :: cs) (arg :: args) = (vfprintf cs args).map (arg ++ ·) := rfl

/-! ### The functions -/

/-- The path of the file that is open, the path to open a file at, whether messages are logged, and
what is in the files. -/
structure Log where
  logfile : Option CString
  logpath : CString
  enable_logging : Bool
  files : CString → Bytes

/-- `"/tmp/auplog.tmp"` -/
def auplog : CString where
  chars := [47, 116, 109, 112, 47, 97, 117, 112, 108, 111, 103, 46, 116, 109, 112]
  noNul := by decide

/-- The beginning. -/
def start (files : CString → Bytes) : Log := ⟨none, auplog, false, files⟩

/-- What the system answers during a call: whether the file can be opened, and the time, as a text,
for the line that says this and for the message. -/
structure Answers where
  fopen : Bool
  opening : Bytes
  now : Bytes

/-- Why a call does not return: the program exits, or a format goes wrong. The last one is for calls
within calls that were not counted. -/
inductive Stop
  | exit
  | undefined
  | nested
  deriving DecidableEq, Repr

/-- `"Log file "` -/
def logFile : Bytes := [76, 111, 103, 32, 102, 105, 108, 101, 32]

/-- `" opened"` -/
def isOpened : Bytes := [32, 111, 112, 101, 110, 101, 100]

/-- A line of the log, of a process. -/
def line (pid : ℤ) (timebuf text : Bytes) : Bytes :=
  timebuf ++ [32, 91] ++ decimal pid ++ [93, 58, 32] ++ text ++ [10]

/-- What is written to the file that is open. -/
def Log.append (s : Log) (text : Bytes) : Log :=
  match s.logfile with
  | none => s
  | some path => { s with files := Function.update s.files path (s.files path ++ text) }

mutual

/-- `init`, where the number bounds the calls within calls. -/
def init (pid : ℤ) : ℕ → Answers → Log → Except Stop Log
  | 0, _, _ => .error .nested
  | depth + 1, a, s => do
    let s ←
      if s.logfile = none ∧ a.fopen then
        logfmt pid depth { a with now := a.opening } (logFile ++ percent :: 115 :: isOpened)
          [s.logpath.chars] ({ s with logfile := some s.logpath }.append [10])
      else .ok s
    if s.logfile = none then .error .exit else .ok s

/-- `logfmt`, where the number bounds the calls within calls. -/
def logfmt (pid : ℤ) : ℕ → Answers → Bytes → List Bytes → Log → Except Stop Log
  | 0, _, _, _, _ => .error .nested
  | depth + 1, a, format, args, s =>
    if s.enable_logging then do
      let s ← init pid depth a s
      match vfprintf format args with
      | none => .error .undefined
      | some text => .ok (s.append (line pid a.now text))
    else .ok s

end

variable {pid : ℤ} {a : Answers} {s s' : Log} {format : Bytes} {args : List Bytes} {depth : ℕ}

/-! ### What they do -/

/-- The first line says that the file was opened. -/
theorem vfprintf_opened (path : CString) :
    vfprintf (logFile ++ percent :: 115 :: isOpened) [path.chars] =
      some (logFile ++ (path.chars ++ isOpened)) := by
  rw [vfprintf_append (by decide), vfprintf_string, vfprintf_eq_self (by decide)]
  rfl

/-- What is written to a file when it is opened. -/
def openingText (pid : ℤ) (a : Answers) (enabled : Bool) (path : CString) : Bytes :=
  [10] ++ if enabled then line pid a.opening (logFile ++ (path.chars ++ isOpened)) else []

/-- The file was opened. -/
def Log.opened (s : Log) (pid : ℤ) (a : Answers) : Log :=
  { s with logfile := some s.logpath }.append (openingText pid a s.enable_logging s.logpath)

theorem Log.append_append (s : Log) (text text' : Bytes) :
    (s.append text).append text' = s.append (text ++ text') := by
  cases hfile : s.logfile with
  | none => simp [append, hfile]
  | some path => simp [append, hfile]

theorem Log.append_nil (s : Log) : s.append [] = s := by
  obtain ⟨logfile, logpath, enable_logging, files⟩ := s
  cases logfile with
  | none => rfl
  | some path => simp [append]

theorem Log.append_logfile (s : Log) (text : Bytes) : (s.append text).logfile = s.logfile := by
  cases hfile : s.logfile with
  | none => simp [append, hfile]
  | some path => simp [append, hfile]

theorem Log.append_logpath (s : Log) (text : Bytes) : (s.append text).logpath = s.logpath := by
  cases hfile : s.logfile with
  | none => simp [append, hfile]
  | some path => simp [append, hfile]

theorem Log.append_enable_logging (s : Log) (text : Bytes) :
    (s.append text).enable_logging = s.enable_logging := by
  cases hfile : s.logfile with
  | none => simp [append, hfile]
  | some path => simp [append, hfile]

/-- While the file is open, `init` does nothing. -/
theorem init_of_open (hfile : s.logfile ≠ none) : init pid (depth + 1) a s = .ok s := by
  rw [init, if_neg fun h => hfile h.1]
  exact if_neg hfile

/-- While the file is open, a message is a line of it. -/
theorem logfmt_of_open (hfile : s.logfile ≠ none) {text : Bytes}
    (htext : vfprintf format args = some text) : logfmt pid (depth + 2) a format args s =
      .ok (if s.enable_logging then s.append (line pid a.now text) else s) := by
  rw [logfmt, init_of_open hfile, htext]
  split_ifs with hon
  · rfl
  · rfl

theorem Log.opened_logfile (s : Log) : (s.opened pid a).logfile = some s.logpath :=
  append_logfile _ _

/-- The call of `logfmt` in `init` finds the file open. -/
theorem logfmt_in_init : logfmt pid (depth + 2) { a with now := a.opening }
    (logFile ++ percent :: 115 :: isOpened) [s.logpath.chars]
      ({ s with logfile := some s.logpath }.append [10]) = .ok (s.opened pid a) := by
  have hfile : ({ s with logfile := some s.logpath }.append [10]).logfile ≠ none := by
    rw [Log.append_logfile]
    exact Option.some_ne_none _
  rw [logfmt_of_open hfile (vfprintf_opened s.logpath), Log.append_enable_logging, Log.opened,
    openingText]
  dsimp only
  split_ifs with hon
  · rw [Log.append_append]
  · rw [List.append_nil]

/-- **What `init` does.** -/
theorem init_eq : init pid (depth + 3) a s =
    if s.logfile ≠ none then .ok s
    else if a.fopen then .ok (s.opened pid a) else .error .exit := by
  by_cases hfile : s.logfile ≠ none
  · rw [if_pos hfile, init_of_open hfile]
  rw [if_neg hfile, init]
  rw [not_not] at hfile
  by_cases hopen : a.fopen
  · have hopened : (s.opened pid a).logfile ≠ none := by
      rw [s.opened_logfile]
      exact Option.some_ne_none _
    rw [if_pos ⟨hfile, hopen⟩, if_pos hopen, logfmt_in_init]
    change (if (s.opened pid a).logfile = none then .error .exit else .ok (s.opened pid a) :
      Except Stop Log) = _
    rw [if_neg hopened]
  · rw [if_neg fun h => hopen h.2, if_neg hopen]
    exact if_pos hfile

/-- **What `logfmt` does.** -/
theorem logfmt_eq : logfmt pid (depth + 4) a format args s =
    if s.enable_logging then
      (init pid (depth + 3) a s).bind fun s =>
        match vfprintf format args with
        | none => .error .undefined
        | some text => .ok (s.append (line pid a.now text))
    else .ok s := by
  rw [logfmt]
  rfl

/-- A message is logged, in a file that is open or can be opened. -/
theorem logfmt_eq_ok (hs : logfmt pid (depth + 4) a format args s = .ok s')
    (hon : s.enable_logging) : ∃ text, vfprintf format args = some text ∧
      (s.logfile ≠ none ∧ s' = s.append (line pid a.now text) ∨
        s.logfile = none ∧ a.fopen ∧ s' = (s.opened pid a).append (line pid a.now text)) := by
  rw [logfmt_eq, if_pos hon, init_eq] at hs
  split_ifs at hs with hfile hopen
  · cases htext : vfprintf format args with
    | none => simp [Except.bind, htext] at hs
    | some text =>
      simp only [Except.bind, htext, Except.ok.injEq] at hs
      exact ⟨text, rfl, .inl ⟨hfile, hs.symm⟩⟩
  · cases htext : vfprintf format args with
    | none => simp [Except.bind, htext] at hs
    | some text =>
      simp only [Except.bind, htext, Except.ok.injEq] at hs
      exact ⟨text, rfl, .inr ⟨not_not.mp hfile, hopen, hs.symm⟩⟩
  · simp [Except.bind] at hs

/-- A message is logged to a file that is opened for it. -/
theorem logfmt_of_opens (hfile : s.logfile = none) (hopen : a.fopen) (hon : s.enable_logging)
    {text : Bytes} (htext : vfprintf format args = some text) :
    logfmt pid (depth + 4) a format args s =
      .ok ((s.opened pid a).append (line pid a.now text)) := by
  rw [logfmt_eq, if_pos hon, init_eq, if_neg (not_not.mpr hfile), if_pos hopen, htext]
  rfl

/-- There is no file for a message. -/
theorem logfmt_of_shut (hfile : s.logfile = none) (hopen : a.fopen = false)
    (hon : s.enable_logging) : logfmt pid (depth + 4) a format args s = .error .exit := by
  rw [logfmt_eq, if_pos hon, init_eq, if_neg (not_not.mpr hfile), hopen]
  rfl

/-- There is a file for a message, but it cannot be formatted. -/
theorem logfmt_of_undefined (hfile : s.logfile ≠ none ∨ a.fopen) (hon : s.enable_logging)
    (htext : vfprintf format args = none) :
    logfmt pid (depth + 4) a format args s = .error .undefined := by
  rw [logfmt_eq, if_pos hon, init_eq, htext]
  split_ifs with hopened hopen
  · rfl
  · rfl
  · exact absurd hfile (not_or.mpr ⟨hopened, hopen⟩)

/-- Nothing is logged. -/
theorem logfmt_of_off (hoff : s.enable_logging = false) :
    logfmt pid (depth + 4) a format args s = .ok s := by
  rw [logfmt_eq, hoff]
  rfl

/-! ### Calls one after the other -/

/-- `"-l"` -/
def minusL : Bytes := [45, 108]

/-- A call of one of the functions, with what the system answers. -/
inductive Label
  | logfmt (format : Bytes) (args : List Bytes) (answers : Answers)
  | logfmt_setpath (path : CString) (answers : Answers)
  | logfmt_args (argv : List Bytes)
  | logfmt_enable (enable : Bool)

/-- `logfmt_setpath`. -/
def logfmtSetpath (pid : ℤ) (path : CString) (a : Answers) (s : Log) : Except Stop Log :=
  init pid 3 a { s with logpath := path }

/-- `logfmt_args`. -/
def logfmtArgs (argv : List Bytes) (s : Log) : Log :=
  if minusL ∈ argv.tail then { s with enable_logging := true } else s

/-- `logfmt_enable`. -/
def logfmtEnable (enable : Bool) (s : Log) : Log := { s with enable_logging := enable }

/-- A call that returns. -/
def step (pid : ℤ) (s : Log) : Label → Option Log
  | .logfmt format args a => (logfmt pid 4 a format args s).toOption
  | .logfmt_setpath path a => (logfmtSetpath pid path a s).toOption
  | .logfmt_args argv => some (logfmtArgs argv s)
  | .logfmt_enable enable => some (logfmtEnable enable s)

/-- A call that returns. -/
abbrev Step (pid : ℤ) (s : Log) (l : Label) (s' : Log) : Prop := step pid s l = some s'

/-! ### What is known from the calls -/

/-- Whether messages are logged after a call. -/
def Label.on (on : Bool) : Label → Bool
  | .logfmt_args argv => on || minusL ∈ argv.tail
  | .logfmt_enable enable => enable
  | .logfmt .. | .logfmt_setpath .. => on

/-- Whether messages are logged after some calls. -/
def enabled (ls : List Label) : Bool := ls.foldl Label.on false

/-- The path after a call. -/
def Label.path (path : CString) : Label → CString
  | .logfmt_setpath path _ => path
  | .logfmt .. | .logfmt_args .. | .logfmt_enable .. => path

/-- The path after some calls. -/
def path (ls : List Label) : CString := ls.foldl Label.path auplog

/-- A call for which the file has to be open. -/
def Label.needs (on : Bool) : Label → Bool
  | .logfmt .. => on
  | .logfmt_setpath .. => true
  | .logfmt_args .. | .logfmt_enable .. => false

/-- What is written when a call opens the file. -/
def Label.openingText (pid : ℤ) (on : Bool) (path : CString) : Label → Bytes
  | .logfmt _ _ a | .logfmt_setpath _ a => Logf.openingText pid a on path
  | .logfmt_args .. | .logfmt_enable .. => []

/-- The line of a call. -/
def Label.text (pid : ℤ) (on : Bool) : Label → Bytes
  | .logfmt format args a =>
    if on then line pid a.now ((vfprintf format args).getD []) else []
  | .logfmt_setpath .. | .logfmt_args .. | .logfmt_enable .. => []

/-- The lines of some calls. -/
def shown (pid : ℤ) : Bool → List Label → Bytes
  | _, [] => []
  | on, l :: ls => l.text pid on ++ shown pid (l.on on) ls

/-- None of the calls needs the file. -/
def NoneNeeds (ls : List Label) : Prop :=
  ∀ as l bs, ls = as ++ l :: bs → l.needs (enabled as) = false

/-- While no call has needed the file, nothing was written. From the first call that does, one file
is written to, the one whose path it was then: an empty line is added to it, a line that says that
it was opened if messages were logged then, and a line for each message since. -/
structure Written (pid : ℤ) (files : CString → Bytes) (ls : List Label) (s : Log) : Prop where
  closed : s.logfile = none → NoneNeeds ls ∧ s.files = files
  opened : ∀ p, s.logfile = some p → ∃ as l bs, ls = as ++ l :: bs ∧ NoneNeeds as ∧
    l.needs (enabled as) ∧ p = path (as ++ [l]) ∧ s.files = Function.update files p (files p ++
      (l.openingText pid (enabled as) p ++ shown pid (enabled as) (l :: bs)))

/-! ### Runs -/

/-- What a call does. -/
structure Does (pid : ℤ) (s : Log) (l : Label) (s' : Log) : Prop where
  on : s'.enable_logging = l.on s.enable_logging
  path : s'.logpath = l.path s.logpath
  appends : ∀ p, s.logfile = some p → s'.logfile = some p ∧ s'.files =
    Function.update s.files p (s.files p ++ l.text pid s.enable_logging)
  idle : s.logfile = none → l.needs s.enable_logging = false →
    s'.logfile = none ∧ s'.files = s.files
  opens : s.logfile = none → l.needs s.enable_logging →
    s'.logfile = some s'.logpath ∧ s'.files = Function.update s.files s'.logpath
      (s.files s'.logpath ++
        (l.openingText pid s.enable_logging s'.logpath ++ l.text pid s.enable_logging))

/-- What is written to a file that is open. -/
theorem Log.append_files {p : CString} (hfile : s.logfile = some p) (text : Bytes) :
    (s.append text).files = Function.update s.files p (s.files p ++ text) := by
  simp [append, hfile]

/-- A call that does not write. -/
theorem Does.of_files_eq {l : Label} (on : s'.enable_logging = l.on s.enable_logging)
    (path : s'.logpath = l.path s.logpath) (logfile : s'.logfile = s.logfile)
    (files : s'.files = s.files) (htext : l.text pid s.enable_logging = [])
    (hneeds : s.logfile = none → l.needs s.enable_logging = false) : Does pid s l s' where
  on := on
  path := path
  appends p hp := ⟨logfile.trans hp, by rw [files, htext, List.append_nil, Function.update_eq_self]⟩
  idle hnone _ := ⟨logfile.trans hnone, files⟩
  opens hnone h := by
    rw [hneeds hnone] at h
    exact Bool.noConfusion h

/-- A call that finds the file open. -/
theorem Does.of_open {l : Label} (hfile : s.logfile ≠ none)
    (hon : l.on s.enable_logging = s.enable_logging) (hpath : l.path s.logpath = s.logpath) :
    Does pid s l (s.append (l.text pid s.enable_logging)) where
  on := by rw [Log.append_enable_logging, hon]
  path := by rw [Log.append_logpath, hpath]
  appends p hp := ⟨(s.append_logfile _).trans hp, Log.append_files hp _⟩
  idle hnone _ := absurd hnone hfile
  opens hnone _ := absurd hnone hfile

/-- A call that opens the file. -/
theorem Does.of_opened {l : Label} (hnone : s.logfile = none) (hneeds : l.needs s.enable_logging)
    (hon : l.on s.enable_logging = s.enable_logging)
    (htext : l.openingText pid s.enable_logging (l.path s.logpath) =
      openingText pid a s.enable_logging (l.path s.logpath)) :
    Does pid s l (({ s with logpath := l.path s.logpath }.opened pid a).append
      (l.text pid s.enable_logging)) where
  on := by rw [Log.append_enable_logging, Log.opened, Log.append_enable_logging, hon]
  path := by rw [Log.append_logpath, Log.opened, Log.append_logpath]
  appends p hp := absurd (hp.symm.trans hnone) (Option.some_ne_none p)
  idle _ h := by
    rw [hneeds] at h
    exact Bool.noConfusion h
  opens _ _ := by
    rw [Log.opened, Log.append_append, Log.append_logfile, Log.append_logpath, htext]
    exact ⟨rfl, Log.append_files rfl _⟩

/-- **Every call does what is known of it.** -/
theorem does {l : Label} (hs : Step pid s l s') : Does pid s l s' := by
  cases l with
  | logfmt format args a =>
    cases hcall : logfmt pid 4 a format args s with
    | error e => simp [Step, step, hcall, Except.toOption] at hs
    | ok s₁ =>
      obtain rfl : s₁ = s' := by simpa [Step, step, hcall, Except.toOption] using hs
      cases hon : s.enable_logging with
      | false =>
        rw [logfmt_eq, hon] at hcall
        obtain rfl := Except.ok.inj hcall
        exact .of_files_eq rfl rfl rfl rfl (by rw [hon]; rfl) fun _ => hon
      | true =>
        obtain ⟨text, htext, hfile⟩ := logfmt_eq_ok hcall hon
        have hline : (Label.logfmt format args a).text pid s.enable_logging =
            line pid a.now text := by
          rw [Label.text, if_pos hon, htext, Option.getD_some]
        obtain ⟨hfile, rfl⟩ | ⟨hfile, -, rfl⟩ := hfile
        · rw [← hline]
          exact .of_open hfile rfl rfl
        · rw [← hline]
          exact .of_opened (a := a) hfile hon rfl rfl
  | logfmt_setpath path a =>
    cases hcall : logfmtSetpath pid path a s with
    | error e => simp [Step, step, hcall, Except.toOption] at hs
    | ok s₁ =>
      obtain rfl : s₁ = s' := by simpa [Step, step, hcall, Except.toOption] using hs
      rw [logfmtSetpath, init_eq] at hcall
      split_ifs at hcall with hfile hopen
      · obtain rfl := Except.ok.inj hcall
        exact .of_files_eq rfl rfl rfl rfl rfl fun h => absurd h hfile
      · obtain rfl := Except.ok.inj hcall
        have h : Does pid s (.logfmt_setpath path a) _ :=
          .of_opened (a := a) (not_not.mp hfile) rfl rfl rfl
        rwa [Label.text, Log.append_nil] at h
  | logfmt_args argv =>
    obtain rfl := Option.some.inj hs
    refine .of_files_eq ?_ ?_ ?_ ?_ rfl fun _ => rfl
    all_goals
      dsimp only [logfmtArgs]
      split_ifs with hmem
      all_goals simp [Label.on, Label.path, hmem]
  | logfmt_enable enable =>
    obtain rfl := Option.some.inj hs
    exact .of_files_eq rfl rfl rfl rfl rfl fun _ => rfl

/-- The lines of some calls and one more. -/
theorem shown_append (on : Bool) (ls : List Label) (l : Label) :
    shown pid on (ls ++ [l]) = shown pid on ls ++ l.text pid (ls.foldl Label.on on) := by
  induction ls generalizing on with
  | nil => exact List.append_nil _
  | cons l' ls ih => rw [List.cons_append, shown, ih, shown, List.append_assoc, List.foldl_cons]

theorem enabled_append (as bs : List Label) :
    enabled (as ++ bs) = bs.foldl Label.on (enabled as) := List.foldl_append

theorem path_append (as : List Label) (l : Label) : path (as ++ [l]) = l.path (path as) :=
  List.foldl_append

variable {files : CString → Bytes} {ls : List Label}

/-- **A call more.** -/
theorem Written.step (h : Written pid files ls s) (hon : s.enable_logging = enabled ls)
    (hpath : s.logpath = path ls) {l : Label} (hs : Does pid s l s') :
    Written pid files (ls ++ [l]) s' := by
  constructor
  · intro hnone
    have hnone₀ : s.logfile = none := by
      cases hfile : s.logfile with
      | none => rfl
      | some p => exact absurd ((hs.appends p hfile).1.symm.trans hnone) (Option.some_ne_none p)
    cases hneeds : l.needs s.enable_logging with
    | true => exact absurd ((hs.opens hnone₀ hneeds).1.symm.trans hnone) (Option.some_ne_none _)
    | false =>
      obtain ⟨hnoneNeeds, hfiles⟩ := h.closed hnone₀
      refine ⟨forall_split_append_singleton.mpr ⟨fun as₁ b as₂ heq => hnoneNeeds as₁ b as₂ heq, ?_⟩,
        (hs.idle hnone₀ hneeds).2.trans hfiles⟩
      rwa [← hon]
  · intro p hp
    cases hfile : s.logfile with
    | some q =>
      obtain ⟨hq, hfiles⟩ := hs.appends q hfile
      obtain rfl := Option.some.inj (hq.symm.trans hp)
      obtain ⟨as, l₀, bs, rfl, hnoneNeeds, hneeds, hpath₀, hfiles₀⟩ := h.opened q hfile
      refine ⟨as, l₀, bs ++ [l], by simp, hnoneNeeds, hneeds, hpath₀, ?_⟩
      rw [hfiles, hfiles₀, Function.update_idem, Function.update_self, hon, ← List.cons_append,
        shown_append, enabled_append]
      simp only [List.append_assoc]
    | none =>
      cases hneeds : l.needs s.enable_logging with
      | false => exact absurd ((hs.idle hfile hneeds).1.symm.trans hp) (Option.some_ne_none p).symm
      | true =>
        obtain ⟨hopen, hfiles⟩ := hs.opens hfile hneeds
        obtain rfl := Option.some.inj (hopen.symm.trans hp)
        obtain ⟨hnoneNeeds, hfiles₀⟩ := h.closed hfile
        refine ⟨ls, l, [], rfl, hnoneNeeds, hon ▸ hneeds, ?_, ?_⟩
        · rw [path_append, ← hpath]
          exact hs.path
        · rw [hfiles, hfiles₀, hon, shown, shown, List.append_nil]

/-- **The log.** In every run of calls that return, what was written is known from the calls: it is
in one file, whose path was set before the first call that needed a file, or by this call; each
message since is there as a line of its own, in order, if messages were logged then; and no other
file has changed. -/
theorem log_written (hrun : Run (Step pid) (start files) ls s) : Written pid files ls s := by
  have h : s.enable_logging = enabled ls ∧ s.logpath = path ls ∧ Written pid files ls s := by
    induction hrun with
    | refl =>
      refine ⟨rfl, rfl, fun _ => ⟨fun as l bs heq => absurd heq nil_ne_append_cons, rfl⟩, ?_⟩
      exact fun p hp => absurd hp.symm (Option.some_ne_none p)
    | tail hrun hs ih =>
      obtain ⟨hon, hpath, h⟩ := ih
      have hdoes := does hs
      refine ⟨?_, ?_, h.step hon hpath hdoes⟩
      · rw [hdoes.on, hon, enabled_append]
        rfl
      · rw [hdoes.path, hpath, path_append]
  exact h.2.2

/-- Messages are logged, one is, the path is set, and another message is logged. -/
def sample : List Label :=
  [.logfmt_args [[97], minusL], .logfmt [104, 105] [] ⟨true, [49], [50]⟩,
    .logfmt_setpath ⟨[47, 120], by decide⟩ ⟨true, [51], [52]⟩,
    .logfmt [37, 115, 33] [[104, 111]] ⟨true, [53], [54]⟩]

/-- Both messages are in the first file. -/
theorem log_written_sample : ∃ s, Run (Step 7) (start fun _ => []) sample s ∧
    s.logfile = some auplog ∧ s.files auplog = [10] ++
      line 7 [49] (logFile ++ (auplog.chars ++ isOpened)) ++ line 7 [50] [104, 105] ++
        line 7 [54] [104, 111, 33] ∧ Written 7 (fun _ => []) sample s := by
  have hrun : (sample.foldlM (step 7) (start fun _ => [])).map
      (fun s => (s.logfile, s.files auplog)) = some (some auplog, [10] ++
        line 7 [49] (logFile ++ (auplog.chars ++ isOpened)) ++ line 7 [50] [104, 105] ++
          line 7 [54] [104, 111, 33]) := rfl
  obtain ⟨s, hs, hshows⟩ := Option.map_eq_some_iff.mp hrun
  obtain ⟨hfile, hfiles⟩ := Prod.mk.inj hshows
  have hrun : Run (Step 7) (start fun _ => []) sample s := .of_foldlM hs
  exact ⟨s, hrun, hfile, hfiles, log_written hrun⟩

end UnixStudy.Logf
