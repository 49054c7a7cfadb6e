import UnixStudy.Shell.Running

/-!
# Everything that can be typed as one pipeline

`command` goes on reading after a syntax error, so there is more that it takes for a pipeline than
its grammar allows. A `Line` is anything it can have read: stages of words and redirections, among
them the misplaced ones that draw a message. A line flattens to the tokens it was typed with
(`Line.typed`), and it says what the loop makes of them (`Line.stages`) and which messages it draws
(`Line.messages`).

Reading is exact for lines: where the tokens of a line are typed, the line is what is read
(`reading_line`), and whatever is read to a terminator is a line that was typed (`exists_line`).

## Main definitions

* `Typed`, `scan` : tokens with the string that a word leaves in the buffer.
* `Item` : what the loop takes off the input in one turn.
* `Line` : a typed pipeline; `Line.Fits`, `Line.stages`, `Line.messages`.

## Main results

* `round_item`, `exists_item` : turns of the loop and items.
* `reading_line`, `exists_line` : readings and lines.
-/

namespace UnixStudy.Shell

/-! ### Tokens -/

/-- A token as `command` gets it. With a word comes the string that is then in its buffer. -/
structure Typed where
  lexed : Lexed
  text : Bytes := []
  deriving DecidableEq, Repr

/-- A token that is no word. -/
def Typed.punct (t : Token) : Typed := { lexed := ⟨t, [], []⟩ }

/-- The next token of the input. -/
def scan (sys : System) (s : Stdin) : Typed × Stdin :=
  let r := Shell.gettoken MAXWORD s
  (⟨r.1, if r.1.token = .word then
      cString MAXWORD r.1.word (sys.beyond .word r.2.unread.length) else []⟩, r.2)

section Scan

variable {sys : System} {s : State}

/-- The call of `gettoken` that takes a token. -/
theorem gettoken_of_scan {w : Typed} {rest : Stdin} (h : scan sys s.stdin = (w, rest)) :
    ∃ s₁, s.gettoken MAXWORD = (w.lexed, s₁) ∧ s₁.stdin = rest ∧ s₁.mallocs = s.mallocs ∧
      s₁.messages = s.messages ++ w.lexed.diags := by
  obtain ⟨rfl, rfl⟩ := Prod.mk.inj h
  exact ⟨_, rfl, rfl, rfl, State.messages_gettoken MAXWORD s⟩

theorem text_of_scan {w : Typed} {rest : Stdin} (h : scan sys s.stdin = (w, rest))
    (hword : w.lexed.token = .word) :
    cString MAXWORD w.lexed.word (sys.beyond .word rest.unread.length) = w.text := by
  obtain ⟨rfl, rfl⟩ := Prod.mk.inj h
  exact (if_pos hword).symm

theorem scan_eq (sys : System) (s : State) :
    scan sys s.stdin = ((scan sys s.stdin).1, (s.gettoken MAXWORD).2.stdin) := rfl

theorem scan_punct (sys : System) {t : Token} (h : (s.gettoken MAXWORD).1.token = t)
    (ht : t ∉ [.word, .eof, .error]) :
    scan sys s.stdin = (.punct t, (s.gettoken MAXWORD).2.stdin) := by
  have hpunct : (Shell.gettoken MAXWORD s.stdin).1 = _ := gettoken_punct (h ▸ ht)
  have hne : (Shell.gettoken MAXWORD s.stdin).1.token ≠ .word := fun hw => by
    rw [← h] at ht
    exact ht (hw ▸ List.mem_cons_self)
  subst h
  simp only [scan, if_neg hne, Typed.punct, State.gettoken]
  rw [← hpunct]

end Scan

/-! ### Items -/

/-- What the loop of `command` takes off the input in one turn that does not end the stage: a word,
a redirection with the token behind it, or a token that is misplaced. -/
inductive Item
  | word (w : Typed)
  | source (f : Typed)
  | extraSource
  | dest (append : Bool) (f : Typed)
  | extraDest (append : Bool)
  | conflict
  deriving DecidableEq, Repr

namespace Item

/-- The token of a redirection of the output. -/
def gtToken (append : Bool) : Token := if append then .gtgt else .gt

/-- The tokens an item was typed with. -/
def typed : Item → List Typed
  | word w => [w]
  | source f => [.punct .lt, f]
  | extraSource => [.punct .lt]
  | dest append f => [.punct (gtToken append), f]
  | extraDest append => [.punct (gtToken append)]
  | conflict => [.punct .bar]

/-- The loop can take the item where it is: whether a redirection is in its place depends on the
stage, and on the redirections in front of it. -/
def Fits (makepipe : Bool) (l : Locals) : Item → Prop
  | word w => w.lexed.token = .word
  | source _ => makepipe = false
  | extraSource => makepipe = true
  | dest _ _ => l.dstfd = 1
  | extraDest _ => l.dstfd ≠ 1
  | conflict => l.dstfd ≠ 1

/-- The local variables after an item; `keep` says whether `malloc` finds memory for a word. -/
def locals (keep : Bool) (l : Locals) : Item → Locals
  | word w => if l.argv.length ≥ MAXARG - 1 ∨ keep = false then l
    else { l with argv := l.argv ++ [w.text] }
  | source f =>
    { l with
      srcfile := overlay f.lexed.word l.srcfile
      srcfd := if f.lexed.token = .word then -1 else l.srcfd }
  | dest append f =>
    { l with
      dstfile := overlay f.lexed.word l.dstfile
      dstfd := if f.lexed.token = .word then -1 else l.dstfd
      append := if f.lexed.token = .word then some append else l.append }
  | _ => l

/-- The number of calls of `malloc` for an item. -/
def mallocs (l : Locals) : Item → ℕ
  | word _ => if l.argv.length ≥ MAXARG - 1 then 0 else 1
  | _ => 0

/-- The messages that an item draws. -/
def messages (keep : Bool) (l : Locals) : Item → List Diag
  | word w => w.lexed.diags ++ if l.argv.length ≥ MAXARG - 1 then [.tooManyArgs]
    else if keep then [] else [.outOfArgMemory]
  | source f => f.lexed.diags ++ if f.lexed.token = .word then [] else [.illegalLt]
  | extraSource => [.extraLt]
  | dest _ f => f.lexed.diags ++ if f.lexed.token = .word then [] else [.illegalGt]
  | extraDest _ => [.extraGt]
  | conflict => [.conflictsBar]

end Item

theorem State.messages_malloc (s : State) (n : ℕ) :
    ({ s with mallocs := n } : State).messages = s.messages := rfl

section Round

variable {sys : System} {makepipe : Bool} {l : Locals} {s : State}

/-- The two redirections of the output are treated alike. -/
theorem round_gt (append : Bool)
    (h : (s.gettoken MAXWORD).1.token = Item.gtToken append) : round sys makepipe l s =
      let t := s.gettoken MAXWORD
      if l.dstfd ≠ 1 then (.go l, t.2.diag .extraGt)
      else
        let f := t.2.gettoken MAXFNAME
        let l := { l with dstfile := overlay f.1.word l.dstfile }
        if f.1.token ≠ .word then (.go l, f.2.diag .illegalGt)
        else (.go { l with dstfd := -1, append := some append }, f.2) := by
  cases append <;> simp only [round, h, Item.gtToken] <;> rfl

/-- One turn of the loop for an item that was typed. -/
theorem round_item {i : Item} {rest : Stdin} (hfits : i.Fits makepipe l)
    (hread : Reads (scan sys) s.stdin i.typed rest) :
    ∃ s', round sys makepipe l s = (.go (i.locals (sys.malloc s.mallocs) l), s') ∧
      s'.stdin = rest ∧ s'.mallocs = s.mallocs + i.mallocs l ∧
      s'.messages = s.messages ++ i.messages (sys.malloc s.mallocs) l := by
  cases i with
  | word w =>
    obtain ⟨_, hw, hnil⟩ := Reads.cons_iff.mp hread
    obtain rfl := Reads.nil_iff.mp hnil
    obtain ⟨s₁, hg, rfl, hmallocs, hmessages⟩ := gettoken_of_scan hw
    have htoken : w.lexed.token = .word := hfits
    have htext := text_of_scan hw htoken
    simp only [round, hg, htoken, Item.locals, Item.mallocs, Item.messages, hmallocs]
    by_cases hfull : l.argv.length ≥ MAXARG - 1
    · rw [if_pos hfull, if_pos hfull, if_pos hfull, if_pos (Or.inl hfull)]
      exact ⟨_, rfl, rfl, hmallocs, by simp [hmessages]⟩
    rw [if_neg hfull, if_neg hfull, if_neg hfull]
    cases hkeep : sys.malloc s.mallocs with
    | false =>
      rw [if_pos (Or.inr rfl)]
      exact ⟨_, rfl, rfl, rfl, by simp [hmessages, State.messages_malloc]⟩
    | true =>
      have hkept : ¬ (l.argv.length ≥ MAXARG - 1 ∨ true = false) :=
        fun h => h.elim hfull Bool.noConfusion
      rw [if_neg hkept, if_pos rfl, if_pos rfl, htext]
      exact ⟨_, rfl, rfl, rfl, by simp [hmessages, State.messages_malloc]⟩
  | source f =>
    obtain ⟨_, hlt, hrest⟩ := Reads.cons_iff.mp hread
    obtain ⟨_, hf, hnil⟩ := Reads.cons_iff.mp hrest
    obtain rfl := Reads.nil_iff.mp hnil
    obtain ⟨s₁, hg, rfl, hmallocs, hmessages⟩ := gettoken_of_scan hlt
    obtain ⟨s₂, hg₂, rfl, hmallocs₂, hmessages₂⟩ := gettoken_of_scan hf
    have hstage : makepipe = false := hfits
    subst hstage
    simp only [round, hg, hg₂, Typed.punct, Item.locals, Item.mallocs, Item.messages,
      Bool.false_eq_true, ↓reduceIte]
    by_cases hword : f.lexed.token = .word
    · rw [if_neg (not_not.mpr hword), if_pos hword, if_pos hword]
      exact ⟨_, rfl, rfl, hmallocs₂.trans hmallocs, by simp [hmessages₂, hmessages, Typed.punct]⟩
    · rw [if_pos hword, if_neg hword, if_neg hword]
      exact ⟨_, rfl, rfl, hmallocs₂.trans hmallocs, by simp [hmessages₂, hmessages, Typed.punct]⟩
  | dest append f =>
    obtain ⟨_, hgt, hrest⟩ := Reads.cons_iff.mp hread
    obtain ⟨_, hf, hnil⟩ := Reads.cons_iff.mp hrest
    obtain rfl := Reads.nil_iff.mp hnil
    obtain ⟨s₁, hg, rfl, hmallocs, hmessages⟩ := gettoken_of_scan hgt
    obtain ⟨s₂, hg₂, rfl, hmallocs₂, hmessages₂⟩ := gettoken_of_scan hf
    have hdstfd : ¬ l.dstfd ≠ 1 := not_not.mpr hfits
    have hround : round sys makepipe l s = _ := round_gt append (by rw [hg]; rfl)
    rw [hround, if_neg hdstfd]
    simp only [hg, hg₂, Item.locals, Item.mallocs, Item.messages]
    by_cases hword : f.lexed.token = .word
    · rw [if_neg (not_not.mpr hword), if_pos hword, if_pos hword, if_pos hword]
      exact ⟨_, rfl, rfl, hmallocs₂.trans hmallocs, by simp [hmessages₂, hmessages, Typed.punct]⟩
    · rw [if_pos hword, if_neg hword, if_neg hword, if_neg hword]
      exact ⟨_, rfl, rfl, hmallocs₂.trans hmallocs, by simp [hmessages₂, hmessages, Typed.punct]⟩
  | extraSource =>
    obtain ⟨_, hlt, hnil⟩ := Reads.cons_iff.mp hread
    obtain rfl := Reads.nil_iff.mp hnil
    obtain ⟨s₁, hg, rfl, hmallocs, hmessages⟩ := gettoken_of_scan hlt
    have hstage : makepipe = true := hfits
    simp only [round, hg, Typed.punct, hstage, ↓reduceIte]
    exact ⟨_, rfl, rfl, hmallocs, by simp [hmessages, Typed.punct, Item.messages]⟩
  | extraDest append =>
    obtain ⟨_, hgt, hnil⟩ := Reads.cons_iff.mp hread
    obtain rfl := Reads.nil_iff.mp hnil
    obtain ⟨s₁, hg, rfl, hmallocs, hmessages⟩ := gettoken_of_scan hgt
    have hdstfd : l.dstfd ≠ 1 := hfits
    have hround : round sys makepipe l s = _ := round_gt append (by rw [hg]; rfl)
    rw [hround, if_pos hdstfd, hg]
    exact ⟨_, rfl, rfl, hmallocs, by simp [hmessages, Typed.punct, Item.messages]⟩
  | conflict =>
    obtain ⟨_, hbar, hnil⟩ := Reads.cons_iff.mp hread
    obtain rfl := Reads.nil_iff.mp hnil
    obtain ⟨s₁, hg, rfl, hmallocs, hmessages⟩ := gettoken_of_scan hbar
    have hdstfd : l.dstfd ≠ 1 := hfits
    simp only [round, hg, Typed.punct]
    rw [if_pos hdstfd]
    exact ⟨_, rfl, rfl, hmallocs, by simp [hmessages, Typed.punct, Item.messages]⟩

/-- A turn that goes on has taken an item. -/
theorem exists_item {l' : Locals} {s' : State}
    (h : round sys makepipe l s = (.go l', s')) :
    ∃ i : Item, i.Fits makepipe l ∧ Reads (scan sys) s.stdin i.typed s'.stdin := by
  cases htoken : (s.gettoken MAXWORD).1.token with
  | word =>
    refine ⟨.word (scan sys s.stdin).1, htoken, Reads.singleton ?_⟩
    rw [scan_eq]
    simp only [round, htoken] at h
    split_ifs at h <;> cases h <;> rfl
  | lt =>
    have hscan := scan_punct sys htoken (by decide)
    simp only [round, htoken] at h
    split_ifs at h with hstage hword <;> cases h
    · exact ⟨.extraSource, hstage, .singleton hscan⟩
    all_goals exact ⟨.source (scan sys (s.gettoken MAXWORD).2.stdin).1,
      Bool.eq_false_of_not_eq_true hstage, .cons hscan (.singleton rfl)⟩
  | gt =>
    have hscan := scan_punct sys htoken (by decide)
    rw [round_gt false htoken] at h
    dsimp only at h
    split_ifs at h with hdstfd hword <;> cases h
    · exact ⟨.extraDest false, hdstfd, .singleton hscan⟩
    all_goals exact ⟨.dest false (scan sys (s.gettoken MAXWORD).2.stdin).1, not_not.mp hdstfd,
      .cons hscan (.singleton rfl)⟩
  | gtgt =>
    have hscan := scan_punct sys htoken (by decide)
    rw [round_gt true htoken] at h
    dsimp only at h
    split_ifs at h with hdstfd hword <;> cases h
    · exact ⟨.extraDest true, hdstfd, .singleton hscan⟩
    all_goals exact ⟨.dest true (scan sys (s.gettoken MAXWORD).2.stdin).1, not_not.mp hdstfd,
      .cons hscan (.singleton rfl)⟩
  | bar =>
    have hscan := scan_punct sys htoken (by decide)
    simp only [round, htoken] at h
    split_ifs at h with hdstfd <;> cases h
    exact ⟨.conflict, hdstfd, .singleton hscan⟩
  | amp | semi | nl | eof | error => simp [round, htoken] at h

theorem round_of_bar {rest : Stdin} (hdstfd : l.dstfd = 1)
    (hscan : scan sys s.stdin = (.punct .bar, rest)) :
    ∃ s', round sys makepipe l s = (.bar, s') ∧ s'.stdin = rest ∧ s'.mallocs = s.mallocs ∧
      s'.messages = s.messages := by
  obtain ⟨s₁, hg, rfl, hmallocs, hmessages⟩ := gettoken_of_scan hscan
  refine ⟨s₁, ?_, rfl, hmallocs, by simpa [Typed.punct] using hmessages⟩
  simp only [round, hg, Typed.punct]
  rw [if_neg (not_not.mpr hdstfd)]

theorem scan_of_round_bar {s' : State} (h : round sys makepipe l s = (.bar, s')) :
    l.dstfd = 1 ∧ scan sys s.stdin = (.punct .bar, s'.stdin) := by
  cases htoken : (s.gettoken MAXWORD).1.token with
  | bar =>
    have hscan := scan_punct sys htoken (by decide)
    simp only [round, htoken] at h
    split_ifs at h with hdstfd <;> cases h
    exact ⟨not_not.mp hdstfd, hscan⟩
  | amp | semi | nl | eof | error => simp [round, htoken] at h
  | word | lt | gt | gtgt =>
    simp only [round, htoken] at h
    split_ifs at h <;> simp at h

theorem round_of_term {t : Terminator} {rest : Stdin}
    (hscan : scan sys s.stdin = (.punct t.token, rest)) :
    ∃ s', round sys makepipe l s = (.term t, s') ∧ s'.stdin = rest ∧ s'.mallocs = s.mallocs ∧
      s'.messages = s.messages := by
  obtain ⟨s₁, hg, rfl, hmallocs, hmessages⟩ := gettoken_of_scan hscan
  refine ⟨s₁, ?_, rfl, hmallocs, by simpa [Typed.punct] using hmessages⟩
  cases t <;> simp only [round, hg, Typed.punct, Terminator.token]

theorem scan_of_round_term {t : Terminator} {s' : State}
    (h : round sys makepipe l s = (.term t, s')) :
    scan sys s.stdin = (.punct t.token, s'.stdin) := by
  cases htoken : (s.gettoken MAXWORD).1.token with
  | amp | semi | nl =>
    have hscan := scan_punct sys htoken (by decide)
    simp only [round, htoken] at h
    cases h
    exact hscan
  | eof | error => simp [round, htoken] at h
  | word | lt | gt | gtgt | bar =>
    simp only [round, htoken] at h
    split_ifs at h <;> simp at h

end Round

/-! ### Lines -/

/-- Something that can be typed as one pipeline: stages, and the token that ends the last one. -/
inductive Line
  | last (items : List Item) (term : Terminator)
  | bar (items : List Item) (rest : Line)
  deriving Repr

/-- How far a reading of a line has come: the local variables, and the calls of `malloc`. -/
structure Cursor where
  locals : Locals := {}
  mallocs : ℕ

section Cursor

variable (sys : System) (makepipe : Bool)

/-- The cursor behind an item. -/
def Cursor.step (c : Cursor) (i : Item) : Cursor :=
  ⟨i.locals (sys.malloc c.mallocs) c.locals, c.mallocs + i.mallocs c.locals⟩

/-- The cursor behind several items. -/
def Cursor.steps (c : Cursor) (items : List Item) : Cursor := items.foldl (Cursor.step sys) c

/-- A word for which there is room and memory is stored. -/
theorem Cursor.step_word {c : Cursor} (w : Typed) (hroom : c.locals.argv.length < MAXARG - 1)
    (hkeep : sys.malloc c.mallocs = true) : c.step sys (.word w) =
      ⟨{ c.locals with argv := c.locals.argv ++ [w.text] }, c.mallocs + 1⟩ := by
  have hkept : ¬ (c.locals.argv.length ≥ MAXARG - 1 ∨ sys.malloc c.mallocs = false) := by
    simpa [hkeep] using hroom
  rw [Cursor.step, Item.locals, if_neg hkept, Item.mallocs, if_neg (Nat.not_le.mpr hroom)]

theorem Item.messages_word_eq_nil_iff {keep : Bool} {l : Locals} {w : Typed} :
    (Item.word w).messages keep l = [] ↔
      w.lexed.diags = [] ∧ l.argv.length < MAXARG - 1 ∧ keep = true := by
  rw [messages, List.append_eq_nil_iff]
  refine and_congr_right fun _ => ?_
  split_ifs with hfull hkeep
  · exact iff_of_false id fun h => Nat.not_le.mpr h.1 hfull
  · exact iff_of_true rfl ⟨Nat.not_le.mp hfull, hkeep⟩
  · exact iff_of_false id fun h => hkeep h.2

/-- The loop can take the items one after the other. -/
def ItemsFit : Cursor → List Item → Prop
  | _, [] => True
  | c, i :: items => i.Fits makepipe c.locals ∧ ItemsFit (c.step sys i) items

/-- The messages that the items draw. -/
def itemsMessages : Cursor → List Item → List Diag
  | _, [] => []
  | c, i :: items =>
    i.messages (sys.malloc c.mallocs) c.locals ++ itemsMessages (c.step sys i) items

end Cursor

namespace Line

/-- The tokens a line was typed with. -/
def typed : Line → List Typed
  | last items t => items.flatMap Item.typed ++ [.punct t.token]
  | bar items rest => items.flatMap Item.typed ++ .punct .bar :: rest.typed

/-- The token that ends the line. -/
def term : Line → Terminator
  | last _ t => t
  | bar _ rest => rest.term

/-- The loop can take what was typed in the given way: every item fits, and a stage is ended by `|`
only where its output is not redirected. -/
def Fits (sys : System) : Bool → Cursor → Line → Prop
  | makepipe, c, last items _ => ItemsFit sys makepipe c items
  | makepipe, c, bar items rest => ItemsFit sys makepipe c items ∧
      (c.steps sys items).locals.dstfd = 1 ∧ rest.Fits sys true ⟨{}, (c.steps sys items).mallocs⟩

/-- What `command` has read of each stage. -/
def stages (sys : System) : Cursor → Line → List Stage
  | c, last items t => [⟨(c.steps sys items).locals, t.token⟩]
  | c, bar items rest =>
    ⟨(c.steps sys items).locals, .bar⟩ :: rest.stages sys ⟨{}, (c.steps sys items).mallocs⟩

/-- The messages drawn while the line is read. -/
def messages (sys : System) : Cursor → Line → List Diag
  | c, last items _ => itemsMessages sys c items
  | c, bar items rest =>
    itemsMessages sys c items ++ rest.messages sys ⟨{}, (c.steps sys items).mallocs⟩

/-- Put an item in front of the first stage. -/
def cons (i : Item) : Line → Line
  | last items t => last (i :: items) t
  | bar items rest => bar (i :: items) rest

theorem typed_cons (i : Item) (L : Line) : (L.cons i).typed = i.typed ++ L.typed := by
  cases L <;> simp [cons, typed]

theorem fits_cons {sys : System} {makepipe : Bool} {c : Cursor} {i : Item} {L : Line} :
    (L.cons i).Fits sys makepipe c ↔
      i.Fits makepipe c.locals ∧ L.Fits sys makepipe (c.step sys i) := by
  cases L with
  | last => rfl
  | bar => exact and_assoc

end Line

/-! ### Reading a line -/

section Reading

variable {sys : System}

theorem reading_items {makepipe : Bool} {items : List Item} {l : Locals} {s : State}
    {rest : Stdin} (hfits : ItemsFit sys makepipe ⟨l, s.mallocs⟩ items)
    (hread : Reads (scan sys) s.stdin (items.flatMap Item.typed) rest) :
    ∃ s', reading sys makepipe l s =
        reading sys makepipe (Cursor.steps sys ⟨l, s.mallocs⟩ items).locals s' ∧
      s'.stdin = rest ∧ s'.mallocs = (Cursor.steps sys ⟨l, s.mallocs⟩ items).mallocs ∧
      s'.messages = s.messages ++ itemsMessages sys ⟨l, s.mallocs⟩ items := by
  induction items generalizing l s with
  | nil => exact ⟨s, rfl, (Reads.nil_iff.mp hread).symm, rfl, (List.append_nil _).symm⟩
  | cons i items ih =>
    rw [List.flatMap_cons] at hread
    obtain ⟨mid, hi, hitems⟩ := Reads.append_iff.mp hread
    obtain ⟨s₁, hround, rfl, hmallocs, hmessages⟩ := round_item hfits.1 hi
    have hstep : Cursor.step sys ⟨l, s.mallocs⟩ i =
        ⟨i.locals (sys.malloc s.mallocs) l, s₁.mallocs⟩ := by rw [hmallocs]; rfl
    have hfits' := hfits.2
    rw [hstep] at hfits'
    obtain ⟨s', hreading, hstdin, hmallocs', hmessages'⟩ := ih hfits' hitems
    rw [Cursor.steps, List.foldl_cons, hstep]
    refine ⟨s', (reading_of_go sys hround).trans hreading, hstdin, hmallocs', ?_⟩
    rw [hmessages', hmessages, itemsMessages, hstep, List.append_assoc]

/-- **Lines are read as they were typed.** -/
theorem reading_line {L : Line} {makepipe : Bool} {l : Locals} {s : State} {rest : Stdin}
    (hfits : L.Fits sys makepipe ⟨l, s.mallocs⟩) (hread : Reads (scan sys) s.stdin L.typed rest) :
    ∃ s', reading sys makepipe l s = (.stages (L.stages sys ⟨l, s.mallocs⟩) L.term, s') ∧
      s'.stdin = rest ∧ s'.messages = s.messages ++ L.messages sys ⟨l, s.mallocs⟩ := by
  induction L generalizing makepipe l s with
  | last items t =>
    obtain ⟨mid, hitems, hterm⟩ := Reads.append_iff.mp hread
    obtain ⟨s₁, hreading, rfl, -, hmessages⟩ := reading_items hfits hitems
    obtain ⟨_, hterm, hnil⟩ := Reads.cons_iff.mp hterm
    obtain rfl := Reads.nil_iff.mp hnil
    obtain ⟨s', hround, hstdin, -, hmessages'⟩ := round_of_term hterm
    exact ⟨s', hreading.trans (reading_of_term sys hround), hstdin, hmessages'.trans hmessages⟩
  | bar items rest' ih =>
    obtain ⟨mid, hitems, hbar⟩ := Reads.append_iff.mp hread
    obtain ⟨s₁, hreading, rfl, hmallocs, hmessages⟩ := reading_items hfits.1 hitems
    obtain ⟨_, hbar, hrest⟩ := Reads.cons_iff.mp hbar
    obtain ⟨s₂, hround, rfl, hmallocs₂, hmessages₂⟩ := round_of_bar hfits.2.1 hbar
    have hcursor : (Cursor.steps sys ⟨l, s.mallocs⟩ items).mallocs = s₂.mallocs := by
      rw [hmallocs₂, hmallocs]
    have hfits' := hfits.2.2
    rw [hcursor] at hfits'
    obtain ⟨s', hreading', hstdin, hmessages'⟩ := ih hfits' hrest
    refine ⟨s', ?_, hstdin, ?_⟩
    · rw [hreading, reading_of_bar sys hround, hreading', Line.stages, hcursor]
      rfl
    · rw [hmessages', hmessages₂, hmessages, Line.messages, hcursor, List.append_assoc]

theorem exists_typed_line {makepipe : Bool} {l : Locals} {s s' : State} {sts : List Stage}
    {t : Terminator} (h : reading sys makepipe l s = (.stages sts t, s')) :
    ∃ L : Line, L.Fits sys makepipe ⟨l, s.mallocs⟩ ∧ Reads (scan sys) s.stdin L.typed s'.stdin := by
  refine reading_induction sys (P := fun makepipe l s r => ∀ sts t s', r = (.stages sts t, s') →
    ∃ L : Line, L.Fits sys makepipe ⟨l, s.mallocs⟩ ∧
      Reads (scan sys) s.stdin L.typed s'.stdin) ?_ ?_ ?_ ?_ ?_ makepipe l s sts t s' h
  · intro makepipe l s l' s₁ hround ih sts t s' hr
    obtain ⟨L, hfits, hread⟩ := ih sts t s' hr
    obtain ⟨i, hi, hitem⟩ := exists_item hround
    obtain ⟨s₂, hround₂, -, hmallocs, -⟩ := round_item hi hitem
    obtain ⟨hl, rfl⟩ := Prod.mk.inj (hround.symm.trans hround₂)
    obtain rfl : l' = _ := Round.go.inj hl
    refine ⟨L.cons i, Line.fits_cons.mpr ⟨hi, ?_⟩, ?_⟩
    · rw [hmallocs] at hfits
      exact hfits
    · rw [Line.typed_cons]
      exact hitem.append hread
  · intro makepipe l s s₁ hround ih sts t s' hr
    obtain ⟨hdstfd, hscan⟩ := scan_of_round_bar hround
    obtain ⟨s₂, hround₂, -, hmallocs, -⟩ :
        ∃ s', round sys makepipe l s = (.bar, s') ∧ _ := round_of_bar hdstfd hscan
    obtain ⟨-, rfl⟩ := Prod.mk.inj (hround.symm.trans hround₂)
    rcases hrest : reading sys true {} s₁ with ⟨⟨sts', t'⟩ | _ | _ | _, s''⟩ <;>
      rw [hrest] at hr <;> simp only [Reading.cons] at hr <;> cases hr
    obtain ⟨L, hfits, hread⟩ := ih _ _ _ hrest
    rw [hmallocs] at hfits
    exact ⟨.bar [] L, ⟨trivial, hdstfd, hfits⟩, .cons hscan hread⟩
  · intro makepipe l s t s₁ hround sts t' s' hr
    cases hr
    exact ⟨.last [] t, trivial, .singleton (scan_of_round_term hround)⟩
  · intro _ _ _ _ _ _ _ _ hr
    cases hr
  · intro _ _ _ _ _ _ _ _ hr
    cases hr

/-- **What is read was typed.** A reading that ends with a terminator is the reading of a line. -/
theorem exists_line {makepipe : Bool} {l : Locals} {s s' : State} {sts : List Stage}
    {t : Terminator} (h : reading sys makepipe l s = (.stages sts t, s')) :
    ∃ L : Line, L.Fits sys makepipe ⟨l, s.mallocs⟩ ∧
      Reads (scan sys) s.stdin L.typed s'.stdin ∧ sts = L.stages sys ⟨l, s.mallocs⟩ ∧
      t = L.term ∧ s'.messages = s.messages ++ L.messages sys ⟨l, s.mallocs⟩ := by
  obtain ⟨L, hfits, hread⟩ := exists_typed_line h
  obtain ⟨s₁, hreading, -, hmessages⟩ := reading_line hfits hread
  obtain ⟨hr, rfl⟩ := Prod.mk.inj (h.symm.trans hreading)
  obtain ⟨rfl, rfl⟩ := Reading.stages.inj hr
  exact ⟨L, hfits, hread, rfl, rfl, hmessages⟩

theorem Line.endsWith_stages (L : Line) (c : Cursor) : EndsWith L.term (L.stages sys c) := by
  induction L generalizing c with
  | last items t => rfl
  | bar items rest ih =>
    have h := ih ⟨{}, (c.steps sys items).mallocs⟩
    rw [stages, term]
    cases hrest : rest.stages sys ⟨{}, (c.steps sys items).mallocs⟩ with
    | nil => rw [hrest] at h; exact h.elim
    | cons st sts => rw [hrest] at h; exact ⟨rfl, h⟩

/-! ### The variables of a stage that was read -/

/-- Behind the end of the input there is nothing but ends of the input. -/
theorem token_of_unread_nil {s s' : Stdin} {ts : List Typed} (h : s.unread = [])
    (hread : Reads (scan sys) s ts s') : ∀ t ∈ ts, t.lexed.token ∈ [.eof, .error] := by
  induction hread with
  | nil => simp
  | @cons s s₁ _ t ts hscan _ ih =>
    obtain ⟨rfl, rfl⟩ := Prod.mk.inj hscan
    have hget : Shell.gettoken MAXWORD s = _ := gettoken_of_unread_nil h
    refine List.forall_mem_cons.mpr ⟨?_, ih ?_⟩
    · rw [hget]
      simp only [endOfInput]
      split_ifs <;> simp [WordBuffer.lexed]
    · rw [hget]
      exact h

/-- The input does not end before a token that is none of its ends. -/
theorem token_of_reads_append {s s' : Stdin} {ts : List Typed} {u : Typed}
    (hread : Reads (scan sys) s (ts ++ [u]) s') (hu : u.lexed.token ∉ [.eof, .error]) :
    ∀ t ∈ ts, t.lexed.token ∉ [.eof, .error] := by
  induction ts generalizing s with
  | nil => simp
  | cons t ts ih =>
    obtain ⟨s₁, hscan, hrest⟩ := Reads.cons_iff.mp hread
    refine List.forall_mem_cons.mpr ⟨fun ht => hu ?_, ih hrest⟩
    obtain ⟨rfl, rfl⟩ := Prod.mk.inj hscan
    have hnil : (Shell.gettoken MAXWORD s).2.unread = [] := gettoken_eq_nil (by simpa using ht)
    exact token_of_unread_nil hnil hrest u (List.mem_append_right _ List.mem_cons_self)

theorem Line.typed_eq (L : Line) : ∃ ts, L.typed = ts ++ [.punct L.term.token] := by
  induction L with
  | last items t => exact ⟨_, rfl⟩
  | bar items rest ih =>
    obtain ⟨ts, hts⟩ := ih
    exact ⟨items.flatMap Item.typed ++ .punct .bar :: ts, by simp [typed, term, hts]⟩

/-- A token of a typed line is a word, or it has stored nothing. -/
theorem Line.word_eq_nil {L : Line} {s s' : Stdin} (hread : Reads (scan sys) s L.typed s') :
    ∀ t ∈ L.typed, t.lexed.token = .word ∨ t.lexed.word = [] := by
  obtain ⟨ts, hts⟩ := L.typed_eq
  have hterm : (Typed.punct L.term.token).lexed.token ∉ [.eof, .error] := by
    cases L.term <;> decide
  have hproper := token_of_reads_append (hts ▸ hread) hterm
  intro t ht
  obtain ⟨u, hu⟩ := hread.exists_next t ht
  rw [hts, List.mem_append, List.mem_singleton] at ht
  rcases ht with ht | rfl
  · refine or_iff_not_imp_left.mpr fun hword => ?_
    have hlexed : (Shell.gettoken MAXWORD u).1 = t.lexed := congrArg Typed.lexed hu
    have hpunct : (Shell.gettoken MAXWORD u).1 = _ := gettoken_punct (by
      rw [hlexed]
      have hne := hproper t ht
      simp only [List.mem_cons, not_or] at hne ⊢
      exact ⟨hword, hne⟩)
    rw [← hlexed, hpunct]
  · exact Or.inr rfl

/-- The variables of a stage agree with its redirections: a source is read from a file only in the
first stage, and a name is stored only with the mark that goes with it. -/
structure Locals.IsSet (makepipe : Bool) (l : Locals) : Prop where
  source : l.srcfd = 0 ∧ l.srcfile = [] ∨ makepipe = false ∧ l.srcfd = -1
  dest : l.dstfd = 1 ∧ l.dstfile = [] ∨ l.dstfd = -1 ∧ ∃ b, l.append = some b

theorem Locals.IsSet.step {makepipe : Bool} {c : Cursor} {i : Item}
    (h : c.locals.IsSet makepipe) (hfits : i.Fits makepipe c.locals)
    (hwords : ∀ t ∈ i.typed, t.lexed.token = .word ∨ t.lexed.word = []) :
    (c.step sys i).locals.IsSet makepipe := by
  cases i with
  | word w =>
    simp only [Cursor.step, Item.locals]
    split_ifs
    · exact h
    · exact ⟨h.source, h.dest⟩
  | source f =>
    rcases hwords f (List.mem_cons_of_mem _ List.mem_cons_self) with hf | hf
    · exact ⟨Or.inr ⟨hfits, if_pos hf⟩, h.dest⟩
    · by_cases hword : f.lexed.token = .word
      · exact ⟨Or.inr ⟨hfits, if_pos hword⟩, h.dest⟩
      · have hstep : (c.step sys (.source f)).locals = c.locals := by
          simp only [Cursor.step, Item.locals, if_neg hword, hf]
          rfl
        rw [hstep]
        exact h
  | dest append f =>
    rcases hwords f (List.mem_cons_of_mem _ List.mem_cons_self) with hf | hf
    · exact ⟨h.source, Or.inr ⟨if_pos hf, append, if_pos hf⟩⟩
    · by_cases hword : f.lexed.token = .word
      · exact ⟨h.source, Or.inr ⟨if_pos hword, append, if_pos hword⟩⟩
      · have hstep : (c.step sys (.dest append f)).locals = c.locals := by
          simp only [Cursor.step, Item.locals, if_neg hword, hf]
          rfl
        rw [hstep]
        exact h
  | extraSource | extraDest | conflict => exact h

theorem Locals.IsSet.steps {makepipe : Bool} {c : Cursor} {items : List Item}
    (h : c.locals.IsSet makepipe) (hfits : ItemsFit sys makepipe c items)
    (hwords : ∀ t ∈ items.flatMap Item.typed, t.lexed.token = .word ∨ t.lexed.word = []) :
    (c.steps sys items).locals.IsSet makepipe := by
  induction items generalizing c with
  | nil => exact h
  | cons i items ih =>
    rw [List.flatMap_cons, List.forall_mem_append] at hwords
    exact ih (h.step hfits.1 hwords.1) hfits.2 hwords.2

/-- The stages of a pipeline are set, and the output of a stage in front of another one is not
redirected. -/
def StagesSet : Bool → List Stage → Prop
  | _, [] => True
  | makepipe, st :: sts => st.locals.IsSet makepipe ∧ (sts ≠ [] → st.locals.dstfd = 1) ∧
      StagesSet true sts

theorem Line.stagesSet {L : Line} {makepipe : Bool} {m : ℕ} (hfits : L.Fits sys makepipe ⟨{}, m⟩)
    (hwords : ∀ t ∈ L.typed, t.lexed.token = .word ∨ t.lexed.word = []) :
    StagesSet makepipe (L.stages sys ⟨{}, m⟩) := by
  have hstart (makepipe : Bool) : ({} : Locals).IsSet makepipe :=
    ⟨Or.inl ⟨rfl, rfl⟩, Or.inl ⟨rfl, rfl⟩⟩
  induction L generalizing makepipe m with
  | last items t =>
    exact ⟨(hstart makepipe).steps hfits fun t ht => hwords t (List.mem_append_left _ ht),
      fun h => absurd rfl h, trivial⟩
  | bar items rest ih =>
    exact ⟨(hstart makepipe).steps hfits.1 fun t ht => hwords t (List.mem_append_left _ ht),
      fun _ => hfits.2.1,
      ih hfits.2.2 fun t ht => hwords t (List.mem_append_right _ (List.mem_cons_of_mem _ ht))⟩

end Reading

/-! ### The line on the input -/

section IsTyped

variable (sys : System) (s : State)

/-- The line is what stands at the start of the input of the shell. -/
def Line.IsTyped (L : Line) (rest : Stdin) : Prop :=
  L.Fits sys false ⟨{}, s.mallocs⟩ ∧ Reads (scan sys) s.stdin L.typed rest

variable {sys s} {L : Line} {rest : Stdin}

/-- A typed line is read and then run. -/
theorem Line.IsTyped.reading (h : L.IsTyped sys s rest) : ∃ s₁, Shell.reading sys false {} s =
    (.stages (L.stages sys ⟨{}, s.mallocs⟩) L.term, s₁) ∧ OnlyReads s s₁ ∧ s₁.stdin = rest ∧
      s₁.messages = s.messages ++ L.messages sys ⟨{}, s.mallocs⟩ := by
  obtain ⟨s₁, hreading, hstdin, hmessages⟩ := reading_line h.1 h.2
  exact ⟨s₁, hreading, onlyReads_of_reading hreading, hstdin, hmessages⟩

theorem Line.IsTyped.stagesSet (h : L.IsTyped sys s rest) :
    StagesSet false (L.stages sys ⟨{}, s.mallocs⟩) :=
  Line.stagesSet h.1 (Line.word_eq_nil h.2)

/-- A call that reads no line does nothing else. -/
theorem onlyReads_of_not_isTyped (h : ∀ L rest, ¬ Line.IsTyped sys s L rest) :
    OnlyReads s (command sys false s).2 := by
  have honly := onlyReads_reading sys false {} s
  have hstate : (command sys false s).2 = (Shell.reading sys false {} s).2 := by
    rw [command_eq]
    rcases hr : Shell.reading sys false {} s with ⟨⟨sts, t⟩ | _ | _ | _, s₁⟩
    · obtain ⟨L, hfits, hread, -⟩ := exists_line hr
      exact absurd ⟨hfits, hread⟩ (h L s₁.stdin)
    all_goals rfl
  rwa [hstate]

end IsTyped

end UnixStudy.Shell
