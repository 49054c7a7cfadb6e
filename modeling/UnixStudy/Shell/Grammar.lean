import UnixStudy.Shell.Pipeline
import UnixStudy.Shell.Rejection

/-!
# What the parser accepts

The grammar of the shell has the blank line and the well-formed pipelines. `command` accepts these
and a little more: the test for a second `<` asks whether the stage is the first one, and not
whether it has a `<` already; and the test for an empty stage passes over a last stage that is ended
by a newline and whose source is no descriptor above `1`. The lines accepted are those of
`IsTolerated` (`accepts_iff`), and the difference from the grammar is exactly these two slips
(`accepts_iff_inGrammar_iff`).

## Main definitions

* `Accepts`, `InGrammar` : no syntax message is written; the grammar.
* `IsTolerated` : what is accepted.

## Main results

* `lineToks_inj` : the tokens of a pipeline determine it.
* `accepts_iff` : what the parser accepts.
* `accepts_iff_inGrammar_iff` : when that is the grammar.

## References

* `src/communication/shell.c`, lines 288–361.
-/

namespace UnixStudy.Shell

/-! ### Tokens determine the pipeline -/

/-- A token that ends a stage. -/
def Tok.IsEnd : Tok → Prop
  | .bar | .amp | .semi | .nl => True
  | _ => False

theorem Tok.isEnd_bar : Tok.bar.IsEnd := trivial

theorem Terminator.isEnd_tok (t : Terminator) : t.tok.IsEnd := by cases t <;> trivial

theorem Part.exists_toks (p : Part) : ∃ t ts, p.toks = t :: ts ∧ ¬ t.IsEnd := by
  cases p with
  | word | source => exact ⟨_, _, rfl, id⟩
  | dest append => cases append <;> exact ⟨_, _, rfl, id⟩

theorem Part.toks_append_inj {p q : Part} {us vs : List Tok} (h : p.toks ++ us = q.toks ++ vs) :
    p = q ∧ us = vs := by
  rcases p with w | f | ⟨_ | _, f⟩ <;> rcases q with w' | f' | ⟨_ | _, f'⟩ <;> simp_all [toks]

theorem Part.toks_inj {ps qs : List Part} {e e' : Tok} {us us' : List Tok} (he : e.IsEnd)
    (he' : e'.IsEnd) (h : ps.flatMap Part.toks ++ e :: us = qs.flatMap Part.toks ++ e' :: us') :
    ps = qs ∧ e = e' ∧ us = us' := by
  induction ps generalizing qs with
  | nil =>
    cases qs with
    | nil => simpa using h
    | cons q qs =>
      obtain ⟨t, ts, hq, ht⟩ := q.exists_toks
      rw [List.flatMap_cons, hq] at h
      exact absurd ((List.cons.inj h).1 ▸ he) ht
  | cons p ps ih =>
    cases qs with
    | nil =>
      obtain ⟨t, ts, hp, ht⟩ := p.exists_toks
      rw [List.flatMap_cons, hp] at h
      exact absurd ((List.cons.inj h).1 ▸ he') ht
    | cons q qs =>
      rw [List.flatMap_cons, List.flatMap_cons, List.append_assoc, List.append_assoc] at h
      obtain ⟨rfl, hrest⟩ := toks_append_inj h
      obtain ⟨rfl, he, hus⟩ := ih hrest
      exact ⟨rfl, he, hus⟩

theorem Terminator.tok_inj {t t' : Terminator} (h : t.tok = t'.tok) : t = t' := by
  cases t <;> cases t' <;> first | rfl | cases h

/-- **The tokens of a pipeline determine it.** -/
theorem lineToks_inj {stages stages' : List (List Part)} {t t' : Terminator} (hne : stages ≠ [])
    (hne' : stages' ≠ []) (h : lineToks stages t = lineToks stages' t') :
    stages = stages' ∧ t = t' := by
  induction stages generalizing stages' with
  | nil => exact absurd rfl hne
  | cons ps rest ih =>
    obtain ⟨qs, rest', rfl⟩ := List.exists_cons_of_ne_nil hne'
    rcases rest with _ | ⟨ps', rest⟩ <;> rcases rest' with _ | ⟨qs', rest'⟩ <;>
      simp only [lineToks] at h
    · obtain ⟨rfl, ht, -⟩ := Part.toks_inj t.isEnd_tok t'.isEnd_tok h
      exact ⟨rfl, Terminator.tok_inj ht⟩
    · obtain ⟨-, ht, -⟩ := Part.toks_inj t.isEnd_tok Tok.isEnd_bar h
      cases t <;> cases ht
    · obtain ⟨-, ht, -⟩ := Part.toks_inj Tok.isEnd_bar t'.isEnd_tok h
      cases t' <;> cases ht
    · obtain ⟨rfl, -, hrest⟩ := Part.toks_inj Tok.isEnd_bar Tok.isEnd_bar h
      obtain ⟨hstages, ht⟩ := ih (List.cons_ne_nil _ _) (List.cons_ne_nil _ _) hrest
      exact ⟨congrArg (ps :: ·) hstages, ht⟩

/-! ### A reading without a syntax message -/

/-- A token that ends a pipeline. -/
def Tok.IsTerminator (t : Tok) : Prop := ∃ u : Terminator, t = u.tok

/-- A message about the tokens is written between two states. -/
def SyntaxMessage (s s' : State) : Prop :=
  ∃ ds, s'.messages = s.messages ++ ds ∧ ∃ d ∈ ds, d.isSyntax

theorem OnlyReads.exists_messages {s s' : State} (h : OnlyReads s s') :
    ∃ ds, s'.messages = s.messages ++ ds := by
  obtain ⟨es, hes, -⟩ := h.trace
  exact ⟨es.filterMap Event.toDiag, by rw [State.messages, hes, List.filterMap_append]; rfl⟩

namespace SyntaxMessage

theorem before {s s₁ s' : State} {ds : List Diag} (h₁ : s₁.messages = s.messages ++ ds)
    (h : SyntaxMessage s₁ s') : SyntaxMessage s s' := by
  obtain ⟨es, hes, d, hd, hmsg⟩ := h
  exact ⟨ds ++ es, by rw [hes, h₁, List.append_assoc], d, List.mem_append_right ds hd, hmsg⟩

theorem behind {s s₁ s' : State} {ds : List Diag} {d : Diag} (h : OnlyReads s₁ s')
    (h₁ : s₁.messages = s.messages ++ ds) (hd : d ∈ ds) (hmsg : d.isSyntax) :
    SyntaxMessage s s' := by
  obtain ⟨es, hes⟩ := h.exists_messages
  exact ⟨ds ++ es, by rw [hes, h₁, List.append_assoc], d, List.mem_append_left es hd, hmsg⟩

end SyntaxMessage

section Reading

variable {sys : System} {makepipe : Bool} {l : Locals} {s : State}

/-- The rest of the pipeline is written in parts that draw no message. -/
def WrittenInParts (sys : System) (makepipe : Bool) (c : Cursor) (toks : List Tok) : Prop :=
  ∃ ps rest t, toks = lineToks (ps :: rest) t ∧
    (Line.ofParts (ps :: rest) t).Fits sys makepipe c ∧
    (Line.ofParts (ps :: rest) t).messages sys c = []

theorem lineToks_cons (p : Part) (ps : List Part) (rest : List (List Part)) (t : Terminator) :
    lineToks ((p :: ps) :: rest) t = p.toks ++ lineToks (ps :: rest) t := by
  cases rest <;> simp [lineToks]

theorem Line.ofParts_cons (p : Part) (ps : List Part) (rest : List (List Part)) (t : Terminator) :
    Line.ofParts ((p :: ps) :: rest) t = (Line.ofParts (ps :: rest) t).cons p.item := by
  cases rest <;> rfl

theorem Line.messages_cons (i : Item) (L : Line) (c : Cursor) : (L.cons i).messages sys c =
    i.messages (sys.malloc c.mallocs) c.locals ++ L.messages sys (c.step sys i) := by
  cases L with
  | last => rfl
  | bar => exact List.append_assoc ..

theorem WrittenInParts.cons {c : Cursor} {p : Part} {toks : List Tok}
    (hfits : p.item.Fits makepipe c.locals)
    (hquiet : p.item.messages (sys.malloc c.mallocs) c.locals = [])
    (h : WrittenInParts sys makepipe (c.step sys p.item) toks) :
    WrittenInParts sys makepipe c (p.toks ++ toks) := by
  obtain ⟨ps, rest, t, rfl, hrest, hmessages⟩ := h
  refine ⟨p :: ps, rest, t, (lineToks_cons ..).symm, ?_, ?_⟩
  · rw [Line.ofParts_cons]
    exact Line.fits_cons.mpr ⟨hfits, hrest⟩
  · rw [Line.ofParts_cons, Line.messages_cons, hquiet, hmessages, List.append_nil]

/-- An item draws a message that is still there when the line is read. -/
theorem syntaxMessage_of_item {i : Item} {mid : Stdin} {d : Diag} (hfits : i.Fits makepipe l)
    (hread : Reads (scan sys) s.stdin i.typed mid)
    (hd : d ∈ i.messages (sys.malloc s.mallocs) l) (hmsg : d.isSyntax) :
    SyntaxMessage s (reading sys makepipe l s).2 := by
  obtain ⟨s₁, hround, -, -, hmessages⟩ := round_item hfits hread
  rw [reading_of_go sys hround]
  exact .behind (onlyReads_reading ..) hmessages hd hmsg

theorem Part.messages_item (p : Part) {keep : Bool} (hkeep : keep = true) (l : Locals) :
    p.item.messages keep l = [] ∨ ∃ d ∈ p.item.messages keep l, d.isSyntax := by
  cases p with
  | word w =>
    by_cases hroom : l.argv.length < MAXARG - 1
    · exact Or.inl (Item.messages_word_eq_nil_iff.mpr ⟨rfl, hroom, hkeep⟩)
    · refine Or.inr ⟨.tooManyArgs, ?_, rfl⟩
      rw [item, Item.messages, if_pos (not_lt.mp hroom)]
      exact List.mem_append_right _ List.mem_cons_self
  | source | dest => exact Or.inl rfl

theorem Tok.exists_terminator_or {tok : Tok} {toks : List Tok}
    (h : EndsAtFirst IsTerminator (tok :: toks)) :
    (∃ t : Terminator, tok = t.tok ∧ toks = []) ∨
      ¬ tok.IsTerminator ∧ EndsAtFirst IsTerminator toks := by
  by_cases ht : tok.IsTerminator
  · obtain ⟨t, rfl⟩ := ht
    exact Or.inl ⟨t, rfl, h.eq_nil_of_cons ⟨t, rfl⟩⟩
  · exact Or.inr ⟨ht, (EndsAtFirst.cons_iff_of_not ht).mp h⟩

theorem Tok.isWord_or {u : Tok} : (∃ f, u = .word f) ∨ u.lexed.token ≠ .word := by
  cases u with
  | word f => exact Or.inl ⟨f, rfl⟩
  | _ => exact Or.inr (by decide)

/-- Reading the tokens up to their terminator draws a message about them, unless they are written
in parts that draw none. -/
def Classified (sys : System) (makepipe : Bool) (l : Locals) (s : State) (toks : List Tok) :
    Prop :=
  ∀ rest, Reads (scan sys) s.stdin (toks.map Typed.ofTok) rest →
    EndsAtFirst Tok.IsTerminator toks → SyntaxMessage s (reading sys makepipe l s).2 ∨
      WrittenInParts sys makepipe ⟨l, s.mallocs⟩ toks

variable {toks : List Tok}

/-- A part that fits is read, and the rest decides. -/
theorem Classified.part (hmalloc : ∀ n, sys.malloc n = true) {p : Part}
    (hfits : p.item.Fits makepipe l) (hends : EndsAtFirst Tok.IsTerminator toks)
    (h : ∀ makepipe l s, Classified sys makepipe l s toks) :
    Classified sys makepipe l s (p.toks ++ toks) := by
  intro rest hread _
  rw [List.map_append, ← Part.typed_item] at hread
  obtain ⟨mid, hitem, hrest⟩ := Reads.append_iff.mp hread
  rcases p.messages_item (hmalloc s.mallocs) l with hquiet | ⟨d, hd, hmsg⟩
  · obtain ⟨s₁, hround, rfl, hmallocs, hmessages⟩ := round_item hfits hitem
    rw [reading_of_go sys hround]
    refine (h _ _ _ rest hrest hends).imp (.before hmessages) fun h => ?_
    rw [hmallocs] at h
    exact h.cons hfits hquiet
  · exact Or.inl (syntaxMessage_of_item hfits hitem hd hmsg)

/-- A redirection that fits is a part, or lacks its file and draws a message. -/
theorem Classified.redirection (hmalloc : ∀ n, sys.malloc n = true) {tok : Tok}
    (part : Bytes → Part) (item : Typed → Item)
    (hpart : ∀ f, (part f).toks = [tok, .word f] ∧ (part f).item = item (.ofTok (.word f)))
    (hitem : ∀ u, (item u).typed = [.ofTok tok, u] ∧ (item u).Fits makepipe l)
    (hmessage : ∀ keep u, u.lexed.token ≠ .word → ∃ d ∈ (item u).messages keep l, d.isSyntax)
    (hends : EndsAtFirst Tok.IsTerminator toks)
    (h : ∀ ts, ts.length < toks.length → ∀ makepipe l s, Classified sys makepipe l s ts) :
    Classified sys makepipe l s (tok :: toks) := by
  cases toks with
  | nil => exact hends.elim
  | cons u toks =>
    rcases u.isWord_or with ⟨f, rfl⟩ | hu
    · have htoks : tok :: .word f :: toks = (part f).toks ++ toks := by rw [(hpart f).1]; rfl
      rw [htoks]
      refine .part hmalloc ((hpart f).2 ▸ (hitem _).2) ?_ (h _ (Nat.lt_succ_self _))
      rcases Tok.exists_terminator_or hends with ⟨t, ht, -⟩ | ⟨-, hends'⟩
      · cases t <;> cases ht
      · exact hends'
    · intro rest hread _
      obtain ⟨mid, htyped, -⟩ := Reads.append_iff.mp
        (show Reads (scan sys) s.stdin ([.ofTok tok, .ofTok u] ++ toks.map Typed.ofTok) rest
          from hread)
      obtain ⟨d, hd, hmsg⟩ := hmessage (sys.malloc s.mallocs) (.ofTok u) hu
      rw [← (hitem _).1] at htyped
      exact Or.inl (syntaxMessage_of_item (hitem _).2 htyped hd hmsg)

/-- A token out of its place draws a message. -/
theorem Classified.misplaced {tok : Tok} (item : Item) {d : Diag}
    (htyped : item.typed = [.ofTok tok]) (hfits : item.Fits makepipe l)
    (hmessage : ∀ keep, d ∈ item.messages keep l) (hmsg : d.isSyntax) :
    Classified sys makepipe l s (tok :: toks) := by
  intro rest hread _
  obtain ⟨mid, hitem, -⟩ := Reads.append_iff.mp
    (show Reads (scan sys) s.stdin ([.ofTok tok] ++ toks.map Typed.ofTok) rest from hread)
  rw [← htyped] at hitem
  exact Or.inl (syntaxMessage_of_item hfits hitem (hmessage _) hmsg)

theorem Classified.gt (hmalloc : ∀ n, sys.malloc n = true) (append : Bool)
    (hends : EndsAtFirst Tok.IsTerminator toks)
    (h : ∀ ts, ts.length < toks.length → ∀ makepipe l s, Classified sys makepipe l s ts) :
    Classified sys makepipe l s ((if append then .gtgt else .gt) :: toks) := by
  have hgt : Typed.punct (Item.gtToken append) =
      Typed.ofTok (if append then .gtgt else .gt) := by
    cases append <;> rfl
  by_cases hdstfd : l.dstfd = 1
  · refine .redirection hmalloc (.dest append) (.dest append) (fun f => ⟨rfl, rfl⟩)
      (fun u => ⟨by rw [← hgt]; rfl, hdstfd⟩) (fun keep u hu => ?_) hends h
    rw [Item.messages, if_neg hu]
    exact ⟨_, List.mem_append_right _ List.mem_cons_self, rfl⟩
  · exact .misplaced (.extraDest append) (by rw [← hgt]; rfl) hdstfd
      (fun _ => List.mem_cons_self) rfl

theorem Classified.lt (hmalloc : ∀ n, sys.malloc n = true)
    (hends : EndsAtFirst Tok.IsTerminator toks)
    (h : ∀ ts, ts.length < toks.length → ∀ makepipe l s, Classified sys makepipe l s ts) :
    Classified sys makepipe l s (.lt :: toks) := by
  cases hstage : makepipe with
  | true => exact .misplaced .extraSource rfl rfl (fun _ => List.mem_cons_self) rfl
  | false =>
    refine .redirection hmalloc .source .source (fun f => ⟨rfl, rfl⟩) (fun u => ⟨rfl, rfl⟩)
      (fun keep u hu => ?_) hends h
    rw [Item.messages, if_neg hu]
    exact ⟨_, List.mem_append_right _ List.mem_cons_self, rfl⟩

theorem Classified.bar (h : ∀ makepipe l s, Classified sys makepipe l s toks)
    (hends : EndsAtFirst Tok.IsTerminator toks) :
    Classified sys makepipe l s (.bar :: toks) := by
  by_cases hdstfd : l.dstfd = 1
  · intro rest hread _
    obtain ⟨mid, hbar, hrest⟩ := Reads.cons_iff.mp hread
    obtain ⟨s₁, hround, rfl, hmallocs, hmessages⟩ := round_of_bar hdstfd hbar
    have hstate : (reading sys makepipe l s).2 = (reading sys true {} s₁).2 := by
      rw [reading_of_bar sys hround]
      rcases reading sys true {} s₁ with ⟨_ | _ | _ | _, s'⟩ <;> rfl
    rw [hstate]
    refine (h true {} s₁ rest hrest hends).imp
      (.before (by rw [hmessages, List.append_nil])) fun hparts => ?_
    obtain ⟨ps, qs, t, rfl, hfits, hquiet⟩ := hparts
    rw [hmallocs] at hfits hquiet
    exact ⟨[], ps :: qs, t, rfl, ⟨trivial, hdstfd, hfits⟩, hquiet⟩
  · exact .misplaced .conflict rfl hdstfd (fun _ => List.mem_cons_self) rfl

/-- Every sequence of tokens up to a terminator is classified. -/
theorem classified (hmalloc : ∀ n, sys.malloc n = true) (toks : List Tok) :
    ∀ makepipe l s, Classified sys makepipe l s toks := by
  induction hlen : toks.length using Nat.strong_induction_on generalizing toks with
  | _ n ih =>
    intro makepipe l s rest hread hends
    cases toks with
    | nil => exact hends.elim
    | cons tok toks =>
      rw [List.length_cons] at hlen
      have hshort ts (hts : ts.length ≤ toks.length) :
          ∀ makepipe l s, Classified sys makepipe l s ts :=
        ih ts.length (by omega) ts rfl
      rcases Tok.exists_terminator_or hends with ⟨t, rfl, rfl⟩ | ⟨htok, hends'⟩
      · exact Or.inr ⟨[], [], t, rfl, trivial, rfl⟩
      cases tok with
      | word w =>
        have hword : (Part.word w).item.Fits makepipe l := rfl
        exact Classified.part hmalloc hword hends' (hshort toks le_rfl) rest hread hends
      | lt => exact Classified.lt hmalloc hends' (fun ts h => hshort ts h.le) rest hread hends
      | gt => exact Classified.gt hmalloc false hends' (fun ts h => hshort ts h.le) rest hread hends
      | gtgt =>
        exact Classified.gt hmalloc true hends' (fun ts h => hshort ts h.le) rest hread hends
      | bar => exact Classified.bar (hshort toks le_rfl) hends' rest hread hends
      | amp => exact absurd ⟨.amp, rfl⟩ htok
      | semi => exact absurd ⟨.semi, rfl⟩ htok
      | nl => exact absurd ⟨.nl, rfl⟩ htok

end Reading

/-! ### The lines that are accepted -/

/-- `command` writes no syntax message. -/
def Accepts (sys : System) (s : State) : Prop :=
  ¬ ∃ e ∈ s.since (command sys false s).2, e.isSyntax

/-- The grammar: the blank line, and the well-formed pipelines. -/
def InGrammar (toks : List Tok) : Prop :=
  toks = [.nl] ∨ ∃ stages t, WellFormed stages ∧ toks = lineToks stages t

/-- A pipeline that `command` accepts: as the grammar has it, except that the first stage may have
any number of sources, and that the last one may be empty if a newline ends it and the source
passes over that. -/
structure IsTolerated (passedOver : Prop) (stages : List (List Part)) (t : Terminator) : Prop where
  nonempty : stages ≠ []
  room : ∀ ps ∈ stages, (Part.words ps).length ≤ MAXARG - 1
  commands : ∀ ps ∈ stages.dropLast, Part.words ps ≠ []
  last : ∀ ps ∈ stages.getLast?,
    Part.words ps ≠ [] ∨ t = .nl ∧ (stages.length = 1 ∨ passedOver)
  source_first : ∀ ps ∈ stages.tail, Part.sources ps = []
  dest_last : ∀ ps ∈ stages.dropLast, Part.dests ps = []
  dest_once : ∀ ps ∈ stages, (Part.dests ps).length ≤ 1

/-- The pipe for an empty last stage gives no descriptor above `1`. -/
def PassedOver (sys : System) (s : State) : Prop :=
  ¬ ((sys.calls s.stages).pipe = true ∧ 1 < s.fds.lowestFree)

theorem Line.stageItems_ofParts {stages : List (List Part)} (hne : stages ≠ [])
    (t : Terminator) : (Line.ofParts stages t).stageItems = stages.map (List.map Part.item) := by
  induction stages with
  | nil => exact absurd rfl hne
  | cons ps rest ih =>
    cases rest with
    | nil => rfl
    | cons qs rest => exact congrArg (_ :: ·) (ih (List.cons_ne_nil _ _))

theorem Part.typedWords_items (ps : List Part) : typedWords (ps.map Part.item) =
    (Part.words ps).map fun w => Typed.ofTok (.word w) := by
  rw [typedWords, words, List.filterMap_map, List.map_filterMap]
  refine List.filterMap_congr fun p _ => ?_
  cases p <;> rfl

theorem Part.isQuiet_item (p : Part) : p.item.IsQuiet := by
  cases p <;> first | rfl | exact ⟨rfl, rfl⟩

theorem Line.hasCommands_ofParts {passedOver : Prop} {stages : List (List Part)}
    (hne : stages ≠ []) (t : Terminator) :
    (Line.ofParts stages t).HasCommands passedOver ↔
      (∀ ps ∈ stages.dropLast, Part.words ps ≠ []) ∧
        ∀ ps ∈ stages.getLast?, Part.words ps ≠ [] ∨ t = .nl ∧ passedOver := by
  have hwords (ps : List Part) : typedWords (ps.map Part.item) ≠ [] ↔ Part.words ps ≠ [] := by
    rw [Part.typedWords_items, Ne, List.map_eq_nil_iff]
  induction stages with
  | nil => exact absurd rfl hne
  | cons ps rest ih =>
    cases rest with
    | nil => simp [ofParts, HasCommands, hwords]
    | cons qs rest =>
      refine (and_congr (hwords ps) (ih (List.cons_ne_nil _ _))).trans ?_
      rw [List.dropLast_cons_cons, List.getLast?_cons_cons, List.forall_mem_cons]
      exact and_assoc.symm

section Accepts

variable {sys : System} {s : State} {rest : Stdin}

/-- A line of parts that fits is accepted exactly if no stage has too many words or none. -/
theorem accepts_ofParts_iff (hmalloc : ∀ n, sys.malloc n = true) {stages : List (List Part)}
    (hne : stages ≠ []) {t : Terminator}
    (hfits : (Line.ofParts stages t).Fits sys false ⟨{}, s.mallocs⟩)
    (hlex : Lexes MAXWORD s.stdin (lineToks stages t) rest)
    (hroom : ∀ ps ∈ stages, (Part.words ps).length ≤ MAXARG - 1) :
    Accepts sys s ↔ (∀ ps ∈ stages.dropLast, Part.words ps ≠ []) ∧
      ∀ ps ∈ stages.getLast?,
        Part.words ps ≠ [] ∨ t = .nl ∧ (stages.length = 1 ∨ PassedOver sys s) := by
  have htyped : (Line.ofParts stages t).IsTyped sys s rest := by
    refine ⟨hfits, ?_⟩
    rw [Line.typed_ofParts]
    exact reads_scan_iff.mpr hlex
  have hquiet : (Line.ofParts stages t).messages sys ⟨{}, s.mallocs⟩ = [] := by
    rw [Line.messages_eq_nil_iff, Line.stageItems_ofParts hne]
    refine ⟨?_, ?_, fun k _ => hmalloc _⟩
    · intro items hitems i hi
      obtain ⟨ps, -, rfl⟩ := List.mem_map.mp hitems
      obtain ⟨p, -, rfl⟩ := List.mem_map.mp hi
      exact p.isQuiet_item
    · intro items hitems
      obtain ⟨ps, hps, rfl⟩ := List.mem_map.mp hitems
      rw [Part.typedWords_items, List.length_map]
      exact hroom ps hps
  rw [Accepts, htyped.exists_message_iff_of_quiet (fun _ => Event.isRejection_of_isSyntax) rfl
    hquiet, not_not, Line.stageItems_ofParts hne, List.length_map]
  exact Line.hasCommands_ofParts hne t

theorem trace_prefix_command (sys : System) (s : State) :
    (reading sys false {} s).2.trace <+: (command sys false s).2.trace := by
  rw [command_eq]
  rcases reading sys false {} s with ⟨⟨sts, t⟩ | _ | _ | _, s₁⟩
  · exact trace_prefix_runStages ..
  all_goals exact List.prefix_rfl

theorem not_accepts_of_syntaxMessage (h : SyntaxMessage s (reading sys false {} s).2) :
    ¬ Accepts sys s := by
  obtain ⟨ds, hds, d, hd, hmsg⟩ := h
  have honly := onlyReads_reading sys false {} s
  obtain ⟨e, he, hes⟩ := (honly.exists_message hds
    (p := Event.isSyntax) fun _ => Event.isRejection_of_isSyntax).mpr ⟨d, hd, hmsg⟩
  refine not_not.mpr ⟨e, ?_, hes⟩
  rw [State.since_trans honly.trace_le (trace_prefix_command sys s)]
  exact List.mem_append_left _ he

/-- **What the parser accepts.** -/
theorem accepts_iff (hmalloc : ∀ n, sys.malloc n = true) {toks : List Tok}
    (hlex : Lexes MAXWORD s.stdin toks rest) (hends : EndsAtFirst Tok.IsTerminator toks) :
    Accepts sys s ↔
      ∃ stages t, toks = lineToks stages t ∧ IsTolerated (PassedOver sys s) stages t := by
  constructor
  · intro haccepts
    have hread : Reads (scan sys) s.stdin (toks.map Typed.ofTok) rest := reads_scan_iff.mpr hlex
    obtain ⟨ps, qs, t, rfl, hfits, hquiet⟩ :=
      (classified hmalloc toks false {} s rest hread hends).resolve_left
        fun h => not_accepts_of_syntaxMessage h haccepts
    have hne : ps :: qs ≠ [] := List.cons_ne_nil _ _
    obtain ⟨-, hroom, -⟩ := (Line.messages_eq_nil_iff _ _).mp hquiet
    obtain ⟨-, hsources, hdests, honce⟩ := (Line.fits_ofParts_iff hne).mp hfits
    have hroom' : ∀ rs ∈ ps :: qs, (Part.words rs).length ≤ MAXARG - 1 := fun rs hrs => by
      have hlen := hroom (rs.map Part.item)
        (by rw [Line.stageItems_ofParts hne]; exact List.mem_map_of_mem hrs)
      rwa [Part.typedWords_items, List.length_map] at hlen
    obtain ⟨hcommands, hlast⟩ := (accepts_ofParts_iff hmalloc hne hfits hlex hroom').mp haccepts
    exact ⟨_, t, rfl, hne, hroom', hcommands, hlast, hsources, hdests, honce⟩
  · rintro ⟨stages, t, rfl, h⟩
    have hfits : (Line.ofParts stages t).Fits sys false ⟨{}, s.mallocs⟩ :=
      (Line.fits_ofParts_iff h.nonempty).mpr
        ⟨nofun, h.source_first, h.dest_last, h.dest_once⟩
    exact (accepts_ofParts_iff hmalloc h.nonempty hfits hlex h.room).mpr ⟨h.commands, h.last⟩

end Accepts

/-! ### The difference from the grammar -/

theorem IsTolerated.of_wellFormed {passedOver : Prop} {stages : List (List Part)}
    (h : WellFormed stages) (t : Terminator) : IsTolerated passedOver stages t := by
  have hwords : ∀ ps ∈ stages, Part.words ps ≠ [] := fun ps hps =>
    List.length_pos_iff.mp (h.words ps hps).1
  exact ⟨h.nonempty, fun ps hps => (h.words ps hps).2,
    fun ps hps => hwords ps (List.mem_of_mem_dropLast hps),
    fun ps hps => Or.inl (hwords ps (List.mem_of_getLast? hps)), h.source_first, h.dest_last,
    h.dest_once⟩

theorem IsTolerated.blank (passedOver : Prop) : IsTolerated passedOver [[]] .nl :=
  ⟨List.cons_ne_nil _ _, by simp [Part.words], by simp, by simp, by simp, by simp,
    by simp [Part.dests]⟩

/-- The line does not use what the grammar forbids: a second source, or an empty stage that is no
blank line. -/
def AvoidsSlips (stages : List (List Part)) : Prop :=
  (∀ ps ∈ stages, (Part.sources ps).length ≤ 1) ∧
    (stages = [[]] ∨ ∀ ps ∈ stages, Part.words ps ≠ [])

theorem IsTolerated.inGrammar {passedOver : Prop} {stages : List (List Part)} {t : Terminator}
    (h : IsTolerated passedOver stages t) (havoids : AvoidsSlips stages) :
    InGrammar (lineToks stages t) := by
  rcases havoids with ⟨honce, rfl | hwords⟩
  · have hlast := h.last [] rfl
    rw [(hlast.resolve_left fun h => h rfl).1]
    exact Or.inl rfl
  · exact Or.inr ⟨stages, t, ⟨h.nonempty,
      fun ps hps => ⟨List.length_pos_iff.mpr (hwords ps hps), h.room ps hps⟩, h.source_first, honce,
      h.dest_last, h.dest_once⟩, rfl⟩

theorem InGrammar.avoidsSlips {stages : List (List Part)} {t : Terminator} (hne : stages ≠ [])
    (h : InGrammar (lineToks stages t)) : AvoidsSlips stages := by
  rcases h with hblank | ⟨stages', t', hwf, htoks⟩
  · have hnl : lineToks stages t = lineToks [[]] .nl := hblank
    obtain ⟨rfl, -⟩ := lineToks_inj hne (List.cons_ne_nil _ _) hnl
    exact ⟨by simp [Part.sources], Or.inl rfl⟩
  · obtain ⟨rfl, -⟩ := lineToks_inj hne hwf.nonempty htoks
    exact ⟨hwf.source_once, Or.inr fun ps hps => List.length_pos_iff.mp (hwf.words ps hps).1⟩

/-- **When the parser accepts its grammar.** On the tokens up to the first terminator, `command`
writes no syntax message exactly for the lines of the grammar, unless they are a tolerated pipeline
with a second source in its first stage, or with an empty last stage that is passed over. -/
theorem accepts_iff_inGrammar_iff {sys : System} {s : State} {rest : Stdin}
    (hmalloc : ∀ n, sys.malloc n = true) {toks : List Tok}
    (hlex : Lexes MAXWORD s.stdin toks rest) (hends : EndsAtFirst Tok.IsTerminator toks) :
    (Accepts sys s ↔ InGrammar toks) ↔ ∀ stages t, toks = lineToks stages t →
      IsTolerated (PassedOver sys s) stages t → AvoidsSlips stages := by
  rw [accepts_iff hmalloc hlex hends]
  constructor
  · rintro h stages t rfl htol
    exact (h.mp ⟨stages, t, rfl, htol⟩).avoidsSlips htol.nonempty
  · refine fun h => ⟨?_, ?_⟩
    · rintro ⟨stages, t, rfl, htol⟩
      exact htol.inGrammar (h stages t rfl htol)
    · rintro (rfl | ⟨stages, t, hwf, rfl⟩)
      · exact ⟨[[]], .nl, rfl, .blank _⟩
      · exact ⟨stages, t, rfl, .of_wellFormed hwf t⟩

/-- On the input `a`, with a newline. -/
theorem accepts_iff_inGrammar_iff_word :
    (Accepts .obliging (.start [97, 10]) ↔ InGrammar [.word [97], .nl]) ↔
      ∀ stages t, [.word [97], .nl] = lineToks stages t →
        IsTolerated (PassedOver .obliging (.start [97, 10])) stages t → AvoidsSlips stages :=
  accepts_iff_inGrammar_iff (fun _ => rfl) (.cons rfl (.cons rfl (.nil _)))
    ⟨nofun, .nl, rfl⟩

/-- In `a<f<g` the second source draws no message. -/
theorem not_accepts_iff_inGrammar_sources :
    ¬ (Accepts .obliging (.start [97, 60, 102, 60, 103, 10]) ↔
      InGrammar [.word [97], .lt, .word [102], .lt, .word [103], .nl]) := by
  have haccepts : Accepts .obliging (.start [97, 60, 102, 60, 103, 10]) := by
    rw [Accepts]
    decide
  intro h
  have hline : InGrammar (lineToks [[.word [97], .source [102], .source [103]]] .nl) :=
    h.mp haccepts
  exact absurd ((hline.avoidsSlips (List.cons_ne_nil _ _)).1 _ List.mem_cons_self) (by decide)

end UnixStudy.Shell
