import UnixStudy.Shell.Pipeline
import UnixStudy.Shell.Plumbing
import Mathlib.Data.List.DropRight

/-!
# From typed words to the arguments of a program

The words of a command line reach the child that is forked for it unchanged and in order, as far as
there is memory for them, and the first of them is the path that is executed. The name that the
program is given in `argv[0]` should be the last component of the path; `strchr` finds the first
slash and not the last one, so a path with several slashes keeps what stands behind its first.

## Main definitions

* `finalComponent` : the last component of a path.
* `WordLine` : a command line with words only, that asks for a program.
* `keptWords` : the words that there is memory for.
* `ArgumentsReach` : the child calls `execvp` with what was typed.

## Main results

* `cmdname_eq_finalComponent_iff` : the names that are cut at the right slash.
* `WordLine.children_command` : the child that is forked for a line, and its arguments.
* `WordLine.argumentsReach_iff` : the lines whose words reach the program.

## References

* `src/communication/shell.c`, lines 253–264 and 288–301.
-/

namespace UnixStudy.Shell

/-! ### The last component of a path -/

/-- What stands behind the last slash of a path, or the whole path if it has none. -/
def finalComponent (w : Bytes) : Bytes := w.rtakeWhile (· != slash)

theorem slash_notMem_finalComponent (w : Bytes) : slash ∉ finalComponent w := fun h =>
  absurd (List.mem_rtakeWhile_imp h) (by simp)

theorem finalComponent_of_notMem {w : Bytes} (h : slash ∉ w) : finalComponent w = w :=
  List.rtakeWhile_eq_self_iff.mpr fun _ hc => bne_iff_ne.mpr fun heq => h (heq ▸ hc)

/-- A path is cut at a slash behind which there is none. -/
theorem finalComponent_append (u : Bytes) {v : Bytes} (h : slash ∉ v) :
    finalComponent (u ++ slash :: v) = v := by
  have hv : ∀ c ∈ v.reverse, (c != slash) = true := fun c hc =>
    bne_iff_ne.mpr fun heq => h (heq ▸ List.mem_reverse.mp hc)
  rw [finalComponent, List.rtakeWhile, List.reverse_append, List.reverse_cons, List.append_assoc,
    List.singleton_append, List.takeWhile_append_of_pos hv, List.takeWhile_cons_of_neg (by simp),
    List.append_nil, List.reverse_reverse]

theorem cmdname_of_notMem {w : Bytes} (h : slash ∉ w) : cmdname w = w := by
  rw [cmdname, if_neg (by simpa using h)]

/-- `cmdname` cuts a path at its first slash. -/
theorem cmdname_append {u : Bytes} (v : Bytes) (h : slash ∉ u) :
    cmdname (u ++ slash :: v) = v := by
  have hu : ∀ c ∈ u, (c != slash) = true := fun c hc => bne_iff_ne.mpr fun heq => h (heq ▸ hc)
  rw [cmdname, if_pos (by simp), List.dropWhile_append_of_pos hu,
    List.dropWhile_cons_of_neg (by simp), List.drop_one, List.tail_cons]

/-- **Where a name is cut.** `cmdname` gives the last component of a path exactly if the path has at
most one slash. -/
theorem cmdname_eq_finalComponent_iff (w : Bytes) :
    cmdname w = finalComponent w ↔ w.count slash ≤ 1 := by
  by_cases hw : slash ∈ w
  · obtain ⟨u, v, rfl, hu⟩ := List.eq_append_cons_of_mem hw
    rw [cmdname_append v hu, List.count_append, List.count_eq_zero.mpr hu, List.count_cons_self,
      Nat.zero_add, Nat.succ_le_succ_iff, Nat.le_zero, List.count_eq_zero]
    constructor
    · intro h
      rw [h]
      exact slash_notMem_finalComponent _
    · intro h
      exact (finalComponent_append u h).symm
  · rw [cmdname_of_notMem hw, finalComponent_of_notMem hw, List.count_eq_zero.mpr hw]
    exact iff_of_true rfl (Nat.zero_le 1)

/-! ### The words that are kept -/

section Kept

variable {sys : System}

/-- The words of a line for which `malloc` finds memory, after `m` calls of it. -/
def keptWords (sys : System) : ℕ → List Bytes → List Bytes
  | _, [] => []
  | m, w :: ws =>
    if sys.malloc m then w :: keptWords sys (m + 1) ws else keptWords sys (m + 1) ws

theorem keptWords_sublist (sys : System) (m : ℕ) (ws : List Bytes) :
    (keptWords sys m ws).Sublist ws := by
  induction ws generalizing m with
  | nil => exact .slnil
  | cons w ws ih =>
    rw [keptWords]
    split_ifs
    · exact (ih (m + 1)).cons_cons w
    · exact (ih (m + 1)).cons w

/-- All words are kept exactly if there is memory for each of them. -/
theorem keptWords_eq_self_iff {m : ℕ} {ws : List Bytes} :
    keptWords sys m ws = ws ↔ ∀ i < ws.length, sys.malloc (m + i) = true := by
  induction ws generalizing m with
  | nil => exact iff_of_true rfl fun i hi => absurd hi (Nat.not_lt_zero i)
  | cons w ws ih =>
    rw [keptWords, List.length_cons, Nat.forall_lt_succ_left]
    split_ifs with hkeep
    · rw [List.cons_inj_right, ih]
      simp only [Nat.add_zero, hkeep, true_and, Nat.add_assoc, Nat.add_comm 1]
    · refine iff_of_false (fun h => ?_) fun h => hkeep h.1
      have hlen := (keptWords_sublist sys (m + 1) ws).length_le
      rw [h, List.length_cons] at hlen
      exact Nat.not_succ_le_self _ hlen

/-- A word for which there is no memory is passed over. -/
theorem Cursor.step_word_of_not_keep {c : Cursor} (w : Typed)
    (hroom : c.locals.argv.length < MAXARG - 1) (hkeep : sys.malloc c.mallocs = false) :
    c.step sys (.word w) = ⟨c.locals, c.mallocs + 1⟩ := by
  rw [Cursor.step, Item.locals, if_pos (Or.inr hkeep), Item.mallocs, if_neg (Nat.not_le.mpr hroom)]

/-- A word as the loop of `command` takes it. -/
def wordItem (w : Bytes) : Item := .word (.ofTok (.word w))

/-- A stage of words has these words, as far as they are kept. -/
theorem locals_steps_words {c : Cursor} {ws : List Bytes} (hnul : ∀ w ∈ ws, nul ∉ w)
    (hlen : c.locals.argv.length + ws.length ≤ MAXARG - 1) :
    (c.steps sys (ws.map wordItem)).locals =
      { c.locals with argv := c.locals.argv ++ keptWords sys c.mallocs ws } := by
  induction ws generalizing c with
  | nil =>
    rw [keptWords, List.append_nil]
    rfl
  | cons w ws ih =>
    obtain ⟨hw, hws⟩ := List.forall_mem_cons.mp hnul
    rw [List.length_cons] at hlen
    have htext : (Typed.ofTok (.word w)).text = w := takeWhile_of_nul_notMem hw
    rw [Cursor.steps, List.map_cons, List.foldl_cons, ← Cursor.steps, wordItem, keptWords]
    split_ifs with hkeep
    · rw [Cursor.step_word sys _ (by omega) hkeep, ih hws, htext, List.append_assoc,
        List.singleton_append]
      rw [List.length_append, List.length_singleton]
      omega
    · rw [Cursor.step_word_of_not_keep _ (by omega) (Bool.eq_false_of_not_eq_true hkeep), ih hws]
      dsimp only
      omega

theorem itemsFit_words {makepipe : Bool} (c : Cursor) (ws : List Bytes) :
    ItemsFit sys makepipe c (ws.map wordItem) := by
  induction ws generalizing c with
  | nil => trivial
  | cons w ws ih => exact ⟨rfl, ih _⟩

end Kept

/-! ### A line of words -/

/-- At most 49 words, laid out as one line of text: in double quotes or bare, and with any
blanks. -/
structure WordLine where
  words : List Bytes
  count : words.length ≤ MAXARG - 1
  layout : Layout MAXWORD
  toks_layout : layout.toks = words.map Tok.word ++ [.nl]

/-- The arguments of `invoke` for a stage without redirections and pipes. -/
def plainInvocation (argv : List Bytes) : Invocation where
  argv := argv
  srcfd := 0
  srcfile := []
  dstfd := 1
  dstfile := []
  append := none
  bckgrnd := false
  closefd := -1

namespace WordLine

/-- The words, each in double quotes with a blank behind it. -/
def quoted (ws : List Bytes) (hcount : ws.length ≤ MAXARG - 1)
    (hfits : ∀ w ∈ ws, nul ∉ w ∧ w.length < MAXWORD) : WordLine where
  words := ws
  count := hcount
  layout := .ofToks (ws.map Tok.word ++ [.nl]) fun w hw => hfits w (by simpa using hw)
  toks_layout := Layout.toks_ofToks _ _

variable {P : WordLine} {sys : System} {s : State} {more : Bytes}

theorem nul_notMem_words (P : WordLine) : ∀ w ∈ P.words, nul ∉ w := by
  intro w hw
  have htok : Tok.word w ∈ P.layout.toks := by
    rw [P.toks_layout]
    exact List.mem_append_left _ (List.mem_map_of_mem hw)
  obtain ⟨p, hp, hpw⟩ := List.mem_map.mp htok
  exact ((P.layout.valid p hp).2 w hpw).1

/-- The line as `command` takes it. -/
def line (P : WordLine) : Line := .last (P.words.map wordItem) .nl

theorem typed_line (P : WordLine) : P.line.typed = P.layout.toks.map Typed.ofTok := by
  have hwords (ws : List Bytes) : (ws.map wordItem).flatMap Item.typed =
      (ws.map Tok.word).map Typed.ofTok := by
    induction ws with
    | nil => rfl
    | cons w ws ih =>
      rw [List.map_cons, List.flatMap_cons, ih]
      rfl
  rw [P.toks_layout, line, Line.typed, hwords, List.map_append]
  rfl

/-- The line stands on the input. -/
theorem exists_isTyped_line (hinput : s.stdin.unread = P.layout.text ++ more) :
    ∃ rest, P.line.IsTyped sys s rest := by
  obtain ⟨rest, -, hlex⟩ := @lexes_render MAXWORD s.stdin.readError _ P.layout.valid
    P.layout.spaced _ P.layout.lead_blank more
  have hstdin : s.stdin =
      ⟨P.layout.lead ++ (render P.layout.pieces ++ more), s.stdin.readError⟩ := by
    rw [← List.append_assoc, ← Layout.text, ← hinput]
  refine ⟨⟨rest ++ more, s.stdin.readError⟩, itemsFit_words _ _, ?_⟩
  rw [typed_line, hstdin]
  exact reads_scan_iff.mpr hlex

/-- The one stage of the line is invoked with the words that were kept. -/
theorem finishArgs_line (P : WordLine) (sys : System) (s s₁ : State) :
    finishArgs sys false Token.nl
        (runLocals sys .nl ⟨(Cursor.steps sys ⟨{}, s.mallocs⟩ (P.words.map wordItem)).locals, .nl⟩
          [] s₁) s₁ =
      plainInvocation (keptWords sys s.mallocs P.words) := by
  have hlocals : (Cursor.steps sys ⟨{}, s.mallocs⟩ (P.words.map wordItem)).locals =
      { argv := keptWords sys s.mallocs P.words } :=
    locals_steps_words (c := ⟨{}, s.mallocs⟩) P.nul_notMem_words
      ((Nat.zero_add _).trans_le P.count)
  have hsize : 0 < MAXFNAME := by decide
  rw [hlocals]
  simp only [finishArgs, stageArgs, runLocals, cString_nil hsize]
  rfl

/-- **The child of a line of words.** It is forked unless `fork` fails, no word was kept, or the
first word that was kept names a builtin. -/
theorem children_command (hinput : s.stdin.unread = P.layout.text ++ more) :
    (s.since (command sys false s).2).filterMap Event.toChild =
      (((plainInvocation (keptWords sys s.mallocs P.words)).forks (sys.calls s.stages)).map
        (nextChild sys (plainInvocation (keptWords sys s.mallocs P.words)) s)).toList := by
  obtain ⟨rest, htyped⟩ := @exists_isTyped_line P sys s more hinput
  obtain ⟨s₁, honly, -, hchildren⟩ := htyped.since_children
  have hinvoked := finishArgs_line P sys s s₁
  have hchild : nextChild sys (plainInvocation (keptWords sys s.mallocs P.words)) s₁ =
      nextChild sys (plainInvocation (keptWords sys s.mallocs P.words)) s := by
    funext pid
    rw [nextChild, nextChild, honly.stages, honly.fds]
  have hfinish := children_finish sys false Token.nl Token.nl
    (runLocals sys .nl ⟨(Cursor.steps sys ⟨{}, s.mallocs⟩ (P.words.map wordItem)).locals, .nl⟩ []
      s₁) s₁
  have hpipe : afterPipe sys false s₁ = s₁ := if_neg Bool.false_ne_true
  rw [hinvoked, hpipe, honly.stages, hchild] at hfinish
  exact hchildren.trans hfinish

end WordLine

/-! ### The arguments of the program -/

/-- `fd_check` looks at no descriptor that a stage without redirections and pipes has changed. -/
theorem fdCheck_redirect (calls : Calls) (argv : List Bytes) (t : FdTable Obj) :
    fdCheck (redirect calls (plainInvocation argv) t) = fdCheck t := by
  have hredirect : redirect calls (plainInvocation argv) t =
      (t.sysDup2 calls.dupSrc 0 0).sysDup2 calls.dupDst 1 1 := by
    simp [redirect, plainInvocation]
  have hopen (fd : ℕ) (hfd : 3 ≤ fd) :
      (redirect calls (plainInvocation argv) t).IsOpen fd ↔ t.IsOpen fd := by
    rw [hredirect, FdTable.IsOpen, FdTable.slot_sysDup2_of_ne _ _ _ (by omega),
      FdTable.slot_sysDup2_of_ne _ _ _ (by omega)]
    rfl
  rw [fdCheck, fdCheck, Bool.eq_iff_iff, List.all_eq_true, List.all_eq_true]
  refine forall₂_congr fun fd hfd => ?_
  obtain ⟨hfd, -⟩ := List.mem_range'_1.mp hfd
  simp only [hopen fd hfd]

theorem forks_plainInvocation_iff {argv : List Bytes} {calls : Calls} {pid : ℕ+} :
    (plainInvocation argv).forks calls = some pid ↔
      argv ≠ [] ∧ isBuiltin (argv0 argv) = false ∧ calls.fork = some pid := by
  rw [Invocation.forks, ite_eq_iff]
  refine (or_iff_left fun h => absurd h.2 (Option.some_ne_none pid).symm).trans ?_
  exact and_assoc

theorem stopped_nextChild (sys : System) (argv : List Bytes) (s : State) (pid : ℕ+) :
    (nextChild sys (plainInvocation argv) s pid).stopped = !fdCheck s.fds :=
  congrArg not (fdCheck_redirect (sys.calls s.stages) argv s.fds)

/-- The path and the arguments are those that were typed exactly if no word was passed over and the
name is cut at the right slash. -/
theorem arguments_eq_iff {kept ws : List Bytes} (hne : kept ≠ []) (hsub : kept.Sublist ws) :
    (argv0 kept = argv0 ws ∧
      cmdname (argv0 kept) :: kept.tail = finalComponent (argv0 ws) :: ws.tail) ↔
        kept = ws ∧ (argv0 ws).count slash ≤ 1 := by
  obtain ⟨k, ks, rfl⟩ := List.exists_cons_of_ne_nil hne
  cases ws with
  | nil => exact absurd (List.sublist_nil.mp hsub) hne
  | cons w ws =>
    simp only [argv0, List.headD_cons, List.tail_cons, List.cons.injEq,
      ← cmdname_eq_finalComponent_iff]
    constructor
    · rintro ⟨rfl, hname, rfl⟩
      exact ⟨⟨rfl, rfl⟩, hname⟩
    · rintro ⟨⟨rfl, rfl⟩, hname⟩
      exact ⟨rfl, hname, rfl⟩

/-- Every child that is forked for the words calls `execvp`, with the first word as the path, and
with the last component of the first word and the other words as the arguments. The list stands for
the vector up to the `NULL` that `command` stores behind it, for which there is room. -/
def ArgumentsReach (sys : System) (ws : List Bytes) (s : State) : Prop :=
  ∀ c ∈ (s.since (command sys false s).2).filterMap Event.toChild, c.stopped = false ∧
    c.path = argv0 ws ∧ c.argv = finalComponent (argv0 ws) :: ws.tail ∧ c.argv.length < MAXARG

instance (sys : System) (ws : List Bytes) (s : State) : Decidable (ArgumentsReach sys ws s) :=
  inferInstanceAs (Decidable (∀ c ∈ (s.since (command sys false s).2).filterMap Event.toChild, _))

/-- A child is forked for the words. -/
def StartsChild (sys : System) (ws : List Bytes) (s : State) : Prop :=
  keptWords sys s.mallocs ws ≠ [] ∧ isBuiltin (argv0 (keptWords sys s.mallocs ws)) = false ∧
    (sys.calls s.stages).fork ≠ none

/-- **The lines whose words reach the program.** If a child is forked for the words, then it calls
`execvp` with what was typed exactly if the shell has no descriptor open that `fd_check` objects to,
there is memory for all words, and the first word has at most one slash. -/
theorem WordLine.argumentsReach_iff (P : WordLine) (sys : System) (s : State) (more : Bytes)
    (hinput : s.stdin.unread = P.layout.text ++ more) :
    ArgumentsReach sys P.words s ↔ (StartsChild sys P.words s → fdCheck s.fds = true ∧
      (∀ i < P.words.length, sys.malloc (s.mallocs + i) = true) ∧
      (argv0 P.words).count slash ≤ 1) := by
  rw [ArgumentsReach, children_command hinput, StartsChild, ← keptWords_eq_self_iff]
  have hsub := keptWords_sublist sys s.mallocs P.words
  generalize keptWords sys s.mallocs P.words = kept at hsub
  cases hforks : (plainInvocation kept).forks (sys.calls s.stages) with
  | none =>
    refine iff_of_true (fun _ hc => absurd hc List.not_mem_nil) fun ⟨hne, hexternal, hfork⟩ => ?_
    obtain ⟨pid, hpid⟩ := Option.ne_none_iff_exists'.mp hfork
    rw [forks_plainInvocation_iff.mpr ⟨hne, hexternal, hpid⟩] at hforks
    exact absurd hforks (Option.some_ne_none pid)
  | some pid =>
    obtain ⟨hne, hexternal, hfork⟩ := forks_plainInvocation_iff.mp hforks
    have hroom : (cmdname (argv0 kept) :: kept.tail).length < MAXARG := by
      have hcount := P.count
      have hlen := hsub.length_le
      have hpos := List.length_pos_iff.mpr hne
      rw [List.length_cons, List.length_tail]
      omega
    rw [hfork, forall_prop_of_true ⟨hne, hexternal, Option.some_ne_none pid⟩,
      ← arguments_eq_iff hne hsub]
    refine List.forall_mem_singleton.trans ?_
    rw [stopped_nextChild, Bool.not_eq_false']
    exact and_congr_right fun _ => and_congr_right fun _ => and_iff_left hroom

/-- The name of the program `/bin/ls` is cut at its first slash. -/
theorem not_argumentsReach_path : ¬ ArgumentsReach .obliging [[47, 98, 105, 110, 47, 108, 115]]
    (.start [34, 47, 98, 105, 110, 47, 108, 115, 34, 10]) := by
  decide

/-- The words `ls` and `-l`, typed in double quotes with blanks behind them, reach the program. -/
theorem WordLine.argumentsReach_iff_ls : ArgumentsReach .obliging [[108, 115], [45, 108]]
    (.start [34, 108, 115, 34, 32, 34, 45, 108, 34, 32, 10, 32]) :=
  ((WordLine.quoted [[108, 115], [45, 108]] (by decide) (by decide)).argumentsReach_iff .obliging
    (.start [34, 108, 115, 34, 32, 34, 45, 108, 34, 32, 10, 32]) [] rfl).mpr
      fun _ => ⟨by decide, fun _ _ => rfl, by decide⟩

end UnixStudy.Shell
