import UnixStudy.Shell.Layout
import UnixStudy.Shell.Line
import Mathlib.Data.List.TakeWhile

/-!
# The parser runs what was written

A pipeline is well formed if every stage has between one and 49 words, only the first stage takes
its input from a file and only the last one sends its output to one, each at most once. Such a
pipeline is a `Line` without a misplaced item, so `command` reads it as it was typed and invokes
its stages, from the last one to the first, with what was written for them.

## Main definitions

* `Part`, `Pipeline` : what a stage is written with, and well-formed pipelines.
* `Pipeline.toks`, `Pipeline.requests` : its tokens, and what it asks for.
* `Line.ofParts` : the line that is typed for it.

## Main results

* `reads_scan_iff` : the tokens of a text as `command` gets them.
* `Pipeline.reading_toks` : what is read of a well-formed pipeline.
* `Pipeline.runs_what_was_written` : `command` on a well-formed pipeline.

## References

* `src/communication/shell.c`, lines 277–362.
-/

namespace UnixStudy.Shell

/-! ### Tokens with their text -/

/-- A token that was written, as `command` gets it. -/
def Typed.ofTok (t : Tok) : Typed where
  lexed := t.lexed
  text := match t with
    | .word w => w.takeWhile (· != nul)
    | _ => []

/-- A string that ends inside its buffer is read up to its terminator. -/
theorem cString_terminated (size : ℕ) (w beyond : Bytes) :
    cString size (w ++ [nul]) beyond = w.takeWhile (· != nul) := by
  have htake (tail : Bytes) :
      (w ++ nul :: tail).takeWhile (· != nul) = w.takeWhile (· != nul) := by
    rw [List.takeWhile_append]
    split_ifs with h
    · simp [(List.takeWhile_prefix (· != nul)).eq_of_length h]
    · rfl
  simp only [cString]
  split_ifs
  · exact htake []
  · simpa using htake beyond

theorem takeWhile_of_nul_notMem {w : Bytes} (h : nul ∉ w) : w.takeWhile (· != nul) = w :=
  List.takeWhile_eq_self_iff.mpr fun c hc => by
    simpa using fun hcnul : c = nul => h (hcnul ▸ hc)

theorem scan_eq_ofTok_iff {sys : System} {t : Tok} {s s' : Stdin} :
    scan sys s = (Typed.ofTok t, s') ↔ Shell.gettoken MAXWORD s = (t.lexed, s') := by
  constructor
  · intro h
    obtain ⟨hlexed, hstdin⟩ := Prod.mk.inj h
    exact Prod.ext (congrArg Typed.lexed hlexed) hstdin
  · intro h
    simp only [scan, h]
    cases t with
    | word w => simp [Typed.ofTok, Tok.lexed, cString_terminated]
    | _ => rfl

/-- What is lexed is what `command` gets. -/
theorem reads_scan_iff {sys : System} {ts : List Tok} {s s' : Stdin} :
    Reads (scan sys) s (ts.map Typed.ofTok) s' ↔ Lexes MAXWORD s ts s' := by
  induction ts generalizing s with
  | nil => exact Reads.nil_iff.trans Reads.nil_iff.symm
  | cons t ts ih =>
    simp only [Lexes, List.map_cons, Reads.cons_iff, scan_eq_ofTok_iff] at ih ⊢
    exact exists_congr fun _ => and_congr_right fun _ => ih

/-! ### Parts of a stage -/

/-- What a stage is written with: words and redirections, in any order. -/
inductive Part
  | word (w : Bytes)
  | source (f : Bytes)
  | dest (append : Bool) (f : Bytes)
  deriving DecidableEq, Repr

namespace Part

/-- The word, or the name of the file. -/
def text : Part → Bytes
  | word w => w
  | source f => f
  | dest _ f => f

/-- The tokens of a part. -/
def toks : Part → List Tok
  | word w => [.word w]
  | source f => [.lt, .word f]
  | dest append f => [if append then .gtgt else .gt, .word f]

/-- What the loop of `command` takes a part for. -/
def item : Part → Item
  | word w => .word (.ofTok (.word w))
  | source f => .source (.ofTok (.word f))
  | dest append f => .dest append (.ofTok (.word f))

theorem typed_item (p : Part) : p.item.typed = p.toks.map Typed.ofTok := by
  cases p with
  | word | source => rfl
  | dest append => cases append <;> rfl

/-- The words of a stage. -/
def words (ps : List Part) : List Bytes :=
  ps.filterMap fun | word w => some w | _ => none

/-- The files a stage reads from. -/
def sources (ps : List Part) : List Bytes :=
  ps.filterMap fun | source f => some f | _ => none

/-- The files a stage writes to, and whether it appends to them. -/
def dests (ps : List Part) : List (Bool × Bytes) :=
  ps.filterMap fun | dest append f => some (append, f) | _ => none

/-- What is asked for by a stage. -/
def request (ps : List Part) (term : Terminator) : Request where
  argv := words ps
  srcfile := (sources ps).headD []
  dstfile := ((dests ps).map Prod.snd).headD []
  append := (dests ps).head?.map Prod.fst
  bckgrnd := term == .amp

section Locals

variable {sys : System} (ps : List Part) (c : Cursor)

/-- The redirections of a stage set the variables they are for, and words do not. -/
theorem locals_steps : (c.steps sys (ps.map item)).locals =
    { argv := (c.steps sys (ps.map item)).locals.argv
      srcfd := (sources ps).foldl (fun _ _ => -1) c.locals.srcfd
      srcfile := (sources ps).foldl (fun old f => overlay (f ++ [nul]) old) c.locals.srcfile
      dstfd := (dests ps).foldl (fun _ _ => -1) c.locals.dstfd
      dstfile := (dests ps).foldl (fun old d => overlay (d.2 ++ [nul]) old) c.locals.dstfile
      append := (dests ps).foldl (fun _ d => some d.1) c.locals.append } := by
  induction ps generalizing c with
  | nil => rfl
  | cons p ps ih =>
    rw [Cursor.steps, List.map_cons, List.foldl_cons, ← Cursor.steps, ih]
    cases p with
    | word w =>
      simp only [Cursor.step, item, Item.locals]
      split_ifs <;> rfl
    | source | dest => rfl

/-- With enough memory and few enough words, every word is stored. -/
theorem argv_steps (hmalloc : ∀ n, sys.malloc n = true)
    (hlen : c.locals.argv.length + (words ps).length ≤ MAXARG - 1) :
    (c.steps sys (ps.map item)).locals.argv =
      c.locals.argv ++ (words ps).map (List.takeWhile (· != nul)) := by
  induction ps generalizing c with
  | nil => exact (List.append_nil _).symm
  | cons p ps ih =>
    rw [Cursor.steps, List.map_cons, List.foldl_cons, ← Cursor.steps]
    cases p with
    | word w =>
      have hwords : words (word w :: ps) = w :: words ps := rfl
      rw [hwords, List.length_cons] at hlen
      rw [item, Cursor.step_word sys _ (by omega) (hmalloc _),
        ih _ (by rw [List.length_append, List.length_singleton]; omega), hwords]
      simp [Typed.ofTok]
    | source | dest => exact ih _ hlen

/-- The items of a stage fit exactly if its redirections are in their places. -/
theorem itemsFit_iff {makepipe : Bool} : ItemsFit sys makepipe c (ps.map item) ↔
    (makepipe = true → sources ps = []) ∧ (dests ps).length ≤ 1 ∧
      (dests ps ≠ [] → c.locals.dstfd = 1) := by
  induction ps generalizing c with
  | nil => simp [ItemsFit, sources, dests]
  | cons p ps ih =>
    rw [List.map_cons, ItemsFit, ih]
    cases p with
    | word w =>
      have hdstfd : (c.step sys (word w).item).locals.dstfd = c.locals.dstfd := by
        simp only [Cursor.step, item, Item.locals]
        split_ifs <;> rfl
      rw [hdstfd]
      exact and_iff_right rfl
    | source f =>
      have hsources : sources (source f :: ps) ≠ [] := List.cons_ne_nil _ _
      cases makepipe with
      | true => exact iff_of_false (fun h => Bool.noConfusion h.1) fun h => hsources (h.1 rfl)
      | false =>
        have hempty (p : Prop) : false = true → p := fun h => absurd h Bool.false_ne_true
        exact (and_iff_right rfl).trans (and_congr_left' (iff_of_true (hempty _) (hempty _)))
    | dest append f =>
      have hdests : dests (dest append f :: ps) = (append, f) :: dests ps := rfl
      rw [hdests]
      constructor
      · rintro ⟨hdstfd, hsources, -, hrest⟩
        have hnone : dests ps = [] := by
          by_contra h
          exact absurd (show (-1 : ℤ) = 1 from hrest h) (by decide)
        exact ⟨hsources, by rw [hnone]; exact le_rfl, fun _ => hdstfd⟩
      · rintro ⟨hsources, hlen, hdstfd⟩
        have hnone : dests ps = [] := by simpa using hlen
        exact ⟨hdstfd (List.cons_ne_nil _ _), hsources, by simp [hnone], fun h => absurd hnone h⟩

end Locals

/-- The string in the buffer of a file name, after the redirections of a stage. -/
theorem cString_overlay (f b : Bytes) (hnul : nul ∉ f) :
    cString MAXFNAME (overlay (f ++ [nul]) []) b = f := by
  rw [overlay, List.drop_nil, List.append_nil, cString_terminated, takeWhile_of_nul_notMem hnul]

/-- The words and names of a stage fit their buffers. -/
def TextsFit (ps : List Part) : Prop := ∀ p ∈ ps, nul ∉ p.text ∧ p.text.length < MAXWORD

instance (ps : List Part) : Decidable (TextsFit ps) :=
  inferInstanceAs (Decidable (∀ p ∈ ps, nul ∉ p.text ∧ p.text.length < MAXWORD))

theorem TextsFit.nul_notMem_words {ps : List Part} (h : TextsFit ps) :
    ∀ w ∈ words ps, nul ∉ w := by
  intro w hw
  obtain ⟨p, hp, hpw⟩ := List.mem_filterMap.mp hw
  cases p <;> simp at hpw
  exact hpw ▸ (h _ hp).1

theorem TextsFit.nul_notMem_sources {ps : List Part} (h : TextsFit ps) :
    ∀ f ∈ sources ps, nul ∉ f := by
  intro f hf
  obtain ⟨p, hp, hpf⟩ := List.mem_filterMap.mp hf
  cases p <;> simp at hpf
  exact hpf ▸ (h _ hp).1

theorem TextsFit.nul_notMem_dests {ps : List Part} (h : TextsFit ps) :
    ∀ d ∈ dests ps, nul ∉ d.2 := by
  intro d hd
  obtain ⟨p, hp, hpd⟩ := List.mem_filterMap.mp hd
  cases p <;> simp at hpd
  exact hpd ▸ (h _ hp).1

/-- A stage that was read asks for what was written. -/
theorem request_steps {sys : System} {ps : List Part} (hmalloc : ∀ n, sys.malloc n = true)
    (htexts : TextsFit ps) (hwords : (words ps).length ≤ MAXARG - 1)
    (hsources : (sources ps).length ≤ 1) (hdests : (dests ps).length ≤ 1) (m n : ℕ)
    (token : Token) (term : Terminator) :
    Stage.request ⟨(Cursor.steps sys ⟨{}, m⟩ (ps.map item)).locals, token⟩ sys n term =
      request ps term := by
  have hargv : (Cursor.steps sys ⟨{}, m⟩ (ps.map item)).locals.argv = words ps := by
    rw [argv_steps ps ⟨{}, m⟩ hmalloc (by simpa using hwords)]
    exact (List.map_congr_left fun w hw =>
      takeWhile_of_nul_notMem (htexts.nul_notMem_words w hw)).trans (List.map_id _)
  have hsrc : cString MAXFNAME
      ((sources ps).foldl (fun old f => overlay (f ++ [nul]) old) []) (sys.beyond .srcfile n) =
        (sources ps).headD [] := by
    rcases hs : sources ps with _ | ⟨f, _ | _⟩
    · exact cString_nil (by decide) _
    · exact cString_overlay f _ (htexts.nul_notMem_sources f (by rw [hs]; exact List.mem_cons_self))
    · simp [hs] at hsources
  have hdst : cString MAXFNAME
      ((dests ps).foldl (fun old d => overlay (d.2 ++ [nul]) old) []) (sys.beyond .dstfile n) =
        ((dests ps).map Prod.snd).headD [] ∧
      (dests ps).foldl (fun _ d => some d.1) none = (dests ps).head?.map Prod.fst := by
    rcases hd : dests ps with _ | ⟨d, _ | _⟩
    · exact ⟨cString_nil (by decide) _, rfl⟩
    · exact ⟨cString_overlay d.2 _
        (htexts.nul_notMem_dests d (by rw [hd]; exact List.mem_cons_self)), rfl⟩
    · simp [hd] at hdests
  rw [Stage.request, locals_steps, hargv]
  simp only [hsrc, hdst.1, hdst.2, request]
  cases term <;> rfl

end Part

/-! ### Well-formed pipelines -/

/-- The token of a terminator, as it is written. -/
def Terminator.tok : Terminator → Tok
  | amp => .amp
  | semi => .semi
  | nl => .nl

/-- The tokens of stages written in parts. -/
def lineToks : List (List Part) → Terminator → List Tok
  | [], t => [t.tok]
  | [ps], t => ps.flatMap Part.toks ++ [t.tok]
  | ps :: qs :: rest, t => ps.flatMap Part.toks ++ .bar :: lineToks (qs :: rest) t

/-- The line that is typed with stages written in parts. -/
def Line.ofParts : List (List Part) → Terminator → Line
  | [], t => .last [] t
  | [ps], t => .last (ps.map Part.item) t
  | ps :: qs :: rest, t => .bar (ps.map Part.item) (ofParts (qs :: rest) t)

theorem Part.typed_items (ps : List Part) : (ps.map Part.item).flatMap Item.typed =
    (ps.flatMap Part.toks).map Typed.ofTok := by
  simp only [List.flatMap_map, List.map_flatMap, Part.typed_item]

theorem Line.typed_ofParts (stages : List (List Part)) (t : Terminator) :
    (Line.ofParts stages t).typed = (lineToks stages t).map Typed.ofTok := by
  have hterm : Typed.punct t.token = Typed.ofTok t.tok := by cases t <;> rfl
  induction stages with
  | nil => simp [ofParts, typed, lineToks, hterm]
  | cons ps rest ih =>
    cases rest with
    | nil => simp [ofParts, typed, lineToks, hterm, Part.typed_items]
    | cons qs rest =>
      rw [ofParts, typed, lineToks, Part.typed_items, ih, List.map_append, List.map_cons]
      rfl

theorem Line.term_ofParts (stages : List (List Part)) (t : Terminator) :
    (Line.ofParts stages t).term = t := by
  fun_induction Line.ofParts stages t with
  | case1 | case2 => rfl
  | case3 _ _ _ _ ih => exact ih

/-- Every stage has between one word and 49, and redirections stand at the ends of the pipeline
only, at most one at each end. -/
structure WellFormed (stages : List (List Part)) : Prop where
  nonempty : stages ≠ []
  words : ∀ ps ∈ stages, 1 ≤ (Part.words ps).length ∧ (Part.words ps).length ≤ MAXARG - 1
  source_first : ∀ ps ∈ stages.tail, Part.sources ps = []
  source_once : ∀ ps ∈ stages, (Part.sources ps).length ≤ 1
  dest_last : ∀ ps ∈ stages.dropLast, Part.dests ps = []
  dest_once : ∀ ps ∈ stages, (Part.dests ps).length ≤ 1

/-- A pipeline that is well formed, and whose words and names fit their buffers. -/
structure Pipeline where
  stages : List (List Part)
  term : Terminator
  wellFormed : WellFormed stages
  textsFit : ∀ ps ∈ stages, Part.TextsFit ps

/-- A line of parts fits exactly if its redirections stand at its ends. -/
theorem Line.fits_ofParts_iff {sys : System} {makepipe : Bool} {stages : List (List Part)}
    {t : Terminator} {m : ℕ} (hne : stages ≠ []) :
    (Line.ofParts stages t).Fits sys makepipe ⟨{}, m⟩ ↔
      (makepipe = true → ∀ ps ∈ stages, Part.sources ps = []) ∧
        (∀ ps ∈ stages.tail, Part.sources ps = []) ∧
        (∀ ps ∈ stages.dropLast, Part.dests ps = []) ∧
        ∀ ps ∈ stages, (Part.dests ps).length ≤ 1 := by
  induction stages generalizing makepipe m with
  | nil => exact absurd rfl hne
  | cons ps rest ih =>
    have hitems : ItemsFit sys makepipe ⟨{}, m⟩ (ps.map Part.item) ↔
        (makepipe = true → Part.sources ps = []) ∧ (Part.dests ps).length ≤ 1 :=
      (Part.itemsFit_iff ps _).trans (and_congr_right' (and_iff_left fun _ => rfl))
    cases rest with
    | nil => rw [ofParts, Fits, hitems]; simp
    | cons qs rest =>
      have hdstfd : (Cursor.steps sys ⟨{}, m⟩ (ps.map Part.item)).locals.dstfd = 1 ↔
          Part.dests ps = [] := by
        rw [Part.locals_steps]
        cases h : Part.dests ps with
        | nil => exact iff_of_true rfl rfl
        | cons d ds =>
          have hfold (ds : List (Bool × Bytes)) : ds.foldl (fun _ _ => (-1 : ℤ)) (-1) = -1 := by
            induction ds with
            | nil => rfl
            | cons _ _ ih => exact ih
          refine iff_of_false (fun h => ?_) (List.cons_ne_nil _ _)
          exact absurd ((hfold ds).symm.trans h) (by decide)
      rw [ofParts, Fits, hitems, hdstfd, ih (List.cons_ne_nil _ _)]
      constructor
      · rintro ⟨⟨hstage, honce⟩, hbar, hsources, -, hdests, honce'⟩
        exact ⟨fun h => List.forall_mem_cons.mpr ⟨hstage h, hsources rfl⟩, hsources rfl,
          List.forall_mem_cons.mpr ⟨hbar, hdests⟩, List.forall_mem_cons.mpr ⟨honce, honce'⟩⟩
      · rintro ⟨hstage, hsources, hdests, honce⟩
        obtain ⟨hbar, hdests'⟩ := List.forall_mem_cons.mp hdests
        obtain ⟨honce, honce'⟩ := List.forall_mem_cons.mp honce
        exact ⟨⟨fun h => hstage h ps List.mem_cons_self, honce⟩, hbar, fun _ => hsources,
          fun rs hrs => hsources rs (List.mem_of_mem_tail hrs), hdests', honce'⟩

/-- What is asked for by the stages that were read of a line of parts. -/
theorem Line.requests_ofParts {sys : System} (hmalloc : ∀ n, sys.malloc n = true)
    {stages : List (List Part)} (hne : stages ≠ []) (htexts : ∀ ps ∈ stages, Part.TextsFit ps)
    (hwords : ∀ ps ∈ stages, (Part.words ps).length ≤ MAXARG - 1)
    (hsources : ∀ ps ∈ stages, (Part.sources ps).length ≤ 1)
    (hdests : ∀ ps ∈ stages, (Part.dests ps).length ≤ 1) (m n : ℕ) (t term : Terminator) :
    ((Line.ofParts stages t).stages sys ⟨{}, m⟩).map (fun st => st.request sys n term) =
      stages.map fun ps => Part.request ps term := by
  induction stages generalizing m with
  | nil => exact absurd rfl hne
  | cons ps rest ih =>
    have hfirst := Part.request_steps hmalloc (htexts ps List.mem_cons_self)
      (hwords ps List.mem_cons_self) (hsources ps List.mem_cons_self)
      (hdests ps List.mem_cons_self) m n
    cases rest with
    | nil => exact congrArg (· :: []) (hfirst _ term)
    | cons qs rest =>
      rw [ofParts, Line.stages, List.map_cons, List.map_cons, hfirst,
        ih (List.cons_ne_nil _ _) (fun rs hrs => htexts rs (List.mem_cons_of_mem _ hrs))
          (fun rs hrs => hwords rs (List.mem_cons_of_mem _ hrs))
          (fun rs hrs => hsources rs (List.mem_cons_of_mem _ hrs))
          fun rs hrs => hdests rs (List.mem_cons_of_mem _ hrs)]

namespace Pipeline

variable (P : Pipeline)

/-- The tokens of a pipeline. -/
def toks : List Tok := lineToks P.stages P.term

/-- The line that is typed for a pipeline. -/
def line : Line := .ofParts P.stages P.term

/-- What is asked for by the stages of a pipeline, the first one first. -/
def requests : List Request := P.stages.map fun ps => Part.request ps P.term

theorem fits_line (sys : System) (m : ℕ) : P.line.Fits sys false ⟨{}, m⟩ :=
  (Line.fits_ofParts_iff P.wellFormed.nonempty).mpr
    ⟨nofun, P.wellFormed.source_first, P.wellFormed.dest_last, P.wellFormed.dest_once⟩

variable {P} {sys : System} {s : State} {rest : Stdin}

/-- The tokens of a pipeline are those of its line. -/
theorem isTyped_line (P : Pipeline) (hlex : Lexes MAXWORD s.stdin P.toks rest) :
    P.line.IsTyped sys s rest := by
  refine ⟨P.fits_line sys s.mallocs, ?_⟩
  rw [line, Line.typed_ofParts]
  exact reads_scan_iff.mpr hlex

/-- A well-formed pipeline is read as it was typed. -/
theorem reading_toks (hlex : Lexes MAXWORD s.stdin P.toks rest) :
    ∃ s₁, reading sys false {} s =
        (.stages (P.line.stages sys ⟨{}, s.mallocs⟩) P.term, s₁) ∧ s₁.stdin = rest := by
  obtain ⟨s₁, hreading, -, hstdin, -⟩ := (P.isTyped_line hlex).reading
  rw [line, Line.term_ofParts] at hreading
  exact ⟨s₁, hreading, hstdin⟩

/-- **The parser runs what was written.** On the tokens of a well-formed pipeline `command` calls
`invoke` once for every stage, from the last one to the first, with the words, the names and the
flags that were written; it returns the terminator, stores the result of the first of these calls
through `wpid`, and leaves unread what stands behind the terminator. -/
theorem runs_what_was_written (P : Pipeline) (hmalloc : ∀ n, sys.malloc n = true)
    (hlex : Lexes MAXWORD s.stdin P.toks rest) :
    ∃ s', command sys false s = (.returned P.term.token none, s') ∧ s'.stdin = rest ∧
      ∃ a as, (s.since s').filterMap Event.toInvocation = a :: as ∧
        (a :: as).map Invocation.request = P.requests.reverse ∧
        ∀ s₁, s₁.stages = s.stages → s'.pid = (invoke sys a s₁).1 := by
  obtain ⟨s₁, hreading, hstdin⟩ := @reading_toks P sys s rest hlex
  have honly := onlyReads_of_reading hreading
  have hends : EndsWith P.term (P.line.stages sys ⟨{}, s.mallocs⟩) := by
    rw [← Line.term_ofParts P.stages P.term]
    exact P.line.endsWith_stages ⟨{}, s.mallocs⟩
  have hwf := P.wellFormed
  refine ⟨_, command_of_reading hreading, by rw [runStages_stdin, hstdin], ?_⟩
  obtain ⟨st, a, as, -, hinv, hargv, hpid⟩ := @runStages_pid sys _ false _ s₁ hends
  have hsince := since_command hreading
  rw [command_of_reading hreading] at hsince
  refine ⟨a, as, ?_, ?_, fun s₂ hs₂ => ?_⟩
  · rw [hsince, List.filterMap_append, honly.toInvocation, hinv, List.nil_append]
  · rw [← hinv, runStages_requests, requests, line,
      Line.requests_ofParts hmalloc hwf.nonempty P.textsFit (fun ps hps => (hwf.words ps hps).2)
        hwf.source_once hwf.dest_once]
  · rw [hpid, invoke_fst, hs₂, honly.stages, Stage.forks_eq hargv]

/-- The pipeline `a<f|b>>g&`. -/
def sample : Pipeline where
  stages := [[.word [97], .source [102]], [.word [98], .dest true [103]]]
  term := .amp
  wellFormed := ⟨by decide, by decide, by decide, by decide, by decide, by decide⟩
  textsFit := by decide

/-- On `a<f|b>>g&`, with a newline behind it, `b` is invoked before `a`. -/
theorem runs_what_was_written_sample : ∃ s',
    command .obliging false (.start [97, 60, 102, 124, 98, 62, 62, 103, 38, 10]) =
        (.returned .amp none, s') ∧
      s'.stdin = ⟨[10], false⟩ ∧
      ∃ a as, (State.since (.start [97, 60, 102, 124, 98, 62, 62, 103, 38, 10])
            s').filterMap Event.toInvocation = a :: as ∧
        (a :: as).map Invocation.request =
          [⟨[[98]], [], [103], some true, true⟩, ⟨[[97]], [102], [], none, true⟩] ∧
        ∀ s₁, s₁.stages = 0 → s'.pid = (invoke .obliging a s₁).1 :=
  sample.runs_what_was_written (fun _ => rfl) (.cons rfl (.cons rfl (.cons rfl (.cons rfl
    (.cons rfl (.cons rfl (.cons rfl (.cons rfl (.nil _)))))))))

end Pipeline

end UnixStudy.Shell
