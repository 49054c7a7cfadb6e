import UnixStudy.Shell.Line
import UnixStudy.Shell.ProperWord
import Mathlib.Algebra.GroupWithZero.Nat

/-!
# Rejected commands are run all the same

The messages of `command` about a pipeline do not keep it from being run: the `break` behind each
of them leaves the `switch` and not the loop, and the result of `store_char` is not tested. So a
rejected pipeline is run whenever anything in it can be run (`rejectedNotRun_iff`).

A line draws no message exactly if it is clean (`Line.IsClean`): its words and names are short
enough for their buffers, there is memory and room for every word, every redirection is in its place
and has its file, and no stage is empty.

## Main definitions

* `Item.InPlace`, `Line.WordsFit`, `Line.IsClean` : lines that are in order, in terms of the input.
* `RejectedNotRun` : no stage of a rejected pipeline is run.

## Main results

* `Line.messages_eq_nil_iff` : the messages drawn while a line is read.
* `Line.IsTyped.forall_isQuiet_iff` : these messages and the input.
* `rejectedNotRun_iff` : when a rejected pipeline is not run.

## References

* `src/communication/shell.c`, lines 109–117 and 288–361.
-/

namespace UnixStudy.Shell

/-! ### Messages drawn while reading -/

/-- The item draws no message of its own. -/
def Item.IsQuiet : Item → Prop
  | .word w => w.lexed.diags = []
  | .source f => f.lexed.token = .word ∧ f.lexed.diags = []
  | .dest _ f => f.lexed.token = .word ∧ f.lexed.diags = []
  | _ => False

/-- The words among the items. -/
def typedWords (items : List Item) : List Typed :=
  items.filterMap fun | .word w => some w | _ => none

section Messages

variable {sys : System}

theorem Item.messages_source_eq_nil_iff {keep : Bool} {l : Locals} {f : Typed} :
    (Item.source f).messages keep l = [] ↔ (Item.source f).IsQuiet := by
  rw [messages, List.append_eq_nil_iff, IsQuiet, and_comm]
  simp

theorem Item.messages_dest_eq_nil_iff {keep : Bool} {l : Locals} {append : Bool} {f : Typed} :
    (Item.dest append f).messages keep l = [] ↔ (Item.dest append f).IsQuiet := by
  rw [messages, List.append_eq_nil_iff, IsQuiet, and_comm]
  simp

theorem itemsMessages_eq_nil_iff {c : Cursor} {items : List Item}
    (hroom : c.locals.argv.length ≤ MAXARG - 1) : itemsMessages sys c items = [] ↔
      (∀ i ∈ items, i.IsQuiet) ∧
        c.locals.argv.length + (typedWords items).length ≤ MAXARG - 1 ∧
        ∀ k < (typedWords items).length, sys.malloc (c.mallocs + k) := by
  induction items generalizing c with
  | nil => simpa [itemsMessages, typedWords] using hroom
  | cons i items ih =>
    rw [itemsMessages, List.append_eq_nil_iff, List.forall_mem_cons]
    cases i with
    | word w =>
      have hwords : typedWords (.word w :: items) = w :: typedWords items := rfl
      rw [Item.messages_word_eq_nil_iff, hwords, List.length_cons]
      constructor
      · rintro ⟨⟨hdiags, hlt, hkeep⟩, hrest⟩
        rw [Cursor.step_word sys w hlt hkeep, ih (by rwa [List.length_append]),
          List.length_append] at hrest
        obtain ⟨hquiet, hlen, hmalloc⟩ := hrest
        refine ⟨⟨hdiags, hquiet⟩, by rw [List.length_singleton] at hlen; omega, fun k hk => ?_⟩
        cases k with
        | zero => exact hkeep
        | succ k =>
          rw [Nat.add_comm k 1, ← Nat.add_assoc]
          exact hmalloc k (Nat.lt_of_succ_lt_succ hk)
      · rintro ⟨⟨hdiags, hquiet⟩, hlen, hmalloc⟩
        have hlt : c.locals.argv.length < MAXARG - 1 := by omega
        have hkeep : sys.malloc c.mallocs = true := hmalloc 0 (Nat.succ_pos _)
        refine ⟨⟨hdiags, hlt, hkeep⟩, ?_⟩
        rw [Cursor.step_word sys w hlt hkeep, ih (by rwa [List.length_append]), List.length_append]
        refine ⟨hquiet, by rw [List.length_singleton]; omega, fun k hk => ?_⟩
        have hsucc := hmalloc (k + 1) (Nat.succ_lt_succ hk)
        rwa [Nat.add_comm k 1, ← Nat.add_assoc] at hsucc
    | source f =>
      have hrest : itemsMessages sys (c.step sys (.source f)) items = [] ↔ _ := ih hroom
      rw [hrest, Item.messages_source_eq_nil_iff]
      exact and_assoc.symm
    | dest append f =>
      have hrest : itemsMessages sys (c.step sys (.dest append f)) items = [] ↔ _ := ih hroom
      rw [hrest, Item.messages_dest_eq_nil_iff]
      exact and_assoc.symm
    | extraSource | extraDest | conflict => simp [Item.messages, Item.IsQuiet]

/-- Where no message is drawn every word is stored. -/
theorem steps_of_messages_eq_nil {c : Cursor} {items : List Item}
    (h : itemsMessages sys c items = []) :
    (c.steps sys items).locals.argv =
        c.locals.argv ++ (typedWords items).map Typed.text ∧
      (c.steps sys items).mallocs = c.mallocs + (typedWords items).length := by
  induction items generalizing c with
  | nil => exact ⟨(List.append_nil _).symm, rfl⟩
  | cons i items ih =>
    rw [itemsMessages, List.append_eq_nil_iff] at h
    obtain ⟨hargv, hmallocs⟩ := ih h.2
    rw [Cursor.steps, List.foldl_cons, ← Cursor.steps, hargv, hmallocs]
    cases i with
    | word w =>
      have hwords : typedWords (.word w :: items) = w :: typedWords items := rfl
      obtain ⟨-, hroom, hkeep⟩ := Item.messages_word_eq_nil_iff.mp h.1
      rw [Cursor.step_word sys w hroom hkeep, hwords, List.map_cons, List.length_cons]
      exact ⟨List.append_assoc .., by dsimp only; omega⟩
    | source | dest => exact ⟨rfl, rfl⟩
    | extraSource | extraDest | conflict => exact absurd h.1 (List.cons_ne_nil _ _)

end Messages

namespace Line

variable {sys : System}

/-- The items of the stages of a line. -/
def stageItems : Line → List (List Item)
  | last items _ => [items]
  | bar items rest => items :: rest.stageItems

/-- The number of words of a line. -/
def wordCount (L : Line) : ℕ := (L.stageItems.map fun items => (typedWords items).length).sum

/-- No message is drawn while a line is read exactly if none is drawn by its items, no stage has too
many words, and `malloc` finds memory for all of them. -/
theorem messages_eq_nil_iff (L : Line) (m : ℕ) : L.messages sys ⟨{}, m⟩ = [] ↔
    (∀ items ∈ L.stageItems, ∀ i ∈ items, i.IsQuiet) ∧
      (∀ items ∈ L.stageItems, (typedWords items).length ≤ MAXARG - 1) ∧
      ∀ k < L.wordCount, sys.malloc (m + k) := by
  induction L generalizing m with
  | last items t =>
    rw [messages, itemsMessages_eq_nil_iff (Nat.zero_le _)]
    simp [stageItems, wordCount]
  | bar items rest ih =>
    rw [messages, List.append_eq_nil_iff]
    have hcount : (bar items rest).wordCount = (typedWords items).length + rest.wordCount := by
      simp [wordCount, stageItems]
    simp only [stageItems, List.forall_mem_cons, hcount]
    constructor
    · rintro ⟨hitems, hrest⟩
      rw [(steps_of_messages_eq_nil hitems).2, ih] at hrest
      rw [itemsMessages_eq_nil_iff (Nat.zero_le _)] at hitems
      obtain ⟨hquiet, hroom, hmalloc⟩ := hitems
      refine ⟨⟨hquiet, hrest.1⟩, ⟨by simpa using hroom, hrest.2.1⟩, fun k hk => ?_⟩
      rcases Nat.lt_or_ge k (typedWords items).length with hlt | hge
      · exact hmalloc k hlt
      · have hk' := hrest.2.2 (k - (typedWords items).length) (by omega)
        rwa [Nat.add_assoc, Nat.add_sub_cancel' hge] at hk'
    · rintro ⟨⟨hquiet, hquiet'⟩, ⟨hroom, hroom'⟩, hmalloc⟩
      have hitems : itemsMessages sys ⟨{}, m⟩ items = [] :=
        (itemsMessages_eq_nil_iff (Nat.zero_le _)).mpr
          ⟨hquiet, by simpa using hroom, fun k hk => hmalloc k (by omega)⟩
      refine ⟨hitems, ?_⟩
      rw [(steps_of_messages_eq_nil hitems).2, ih]
      refine ⟨hquiet', hroom', fun k hk => ?_⟩
      rw [Nat.add_assoc]
      exact hmalloc _ (by omega)

/-- Every stage has a word, but that the last one, ended by a newline, may be empty where the
source passes over that. -/
def HasCommands (passedOver : Prop) : Line → Prop
  | last items t => typedWords items ≠ [] ∨ t = .nl ∧ passedOver
  | bar items rest => typedWords items ≠ [] ∧ rest.HasCommands passedOver

/-- A line that draws no message has its empty stages reported. -/
theorem exists_isMissing_iff {L : Line} {m : ℕ} (h : L.messages sys ⟨{}, m⟩ = []) (srcfd : ℤ) :
    (∃ st ∈ L.stages sys ⟨{}, m⟩, isMissing st.locals.argv st.token srcfd) ↔
      ¬ L.HasCommands (srcfd ≤ 1) := by
  have hargv {m : ℕ} {items : List Item} (h : itemsMessages sys ⟨{}, m⟩ items = []) :
      (Cursor.steps sys ⟨{}, m⟩ items).locals.argv = (typedWords items).map Typed.text :=
    (steps_of_messages_eq_nil h).1
  induction L generalizing m with
  | last items t =>
    simp only [stages, List.mem_singleton, exists_eq_left, HasCommands, isMissing, hargv h]
    cases t <;> simp [Terminator.token]
  | bar items rest ih =>
    rw [messages, List.append_eq_nil_iff] at h
    simp only [stages, List.mem_cons, or_and_right, exists_or, exists_eq_left, ih h.2,
      HasCommands]
    rw [isMissing, hargv h.1]
    simp [imp_iff_not_or]

theorem lastSrcfd_onlyReads (sts : List Stage) {s s₁ : State} (h : OnlyReads s s₁) :
    lastSrcfd sys false sts s₁ = lastSrcfd sys false sts s := by
  have hpipe : (s₁.pipe sys).1 = (s.pipe sys).1 := by simp only [State.pipe, h.stages, h.fds]
  match sts with
  | [] => exact congrArg Prod.fst hpipe
  | [st] => rfl
  | st :: st' :: sts => exact congrArg Prod.fst hpipe

/-- The source of the last stage is no descriptor above `1` for a pipeline of one stage, and where
the pipe in front of it does not give one. -/
theorem lastSrcfd_le_one_iff (L : Line) (m : ℕ) (s : State) :
    lastSrcfd sys false (L.stages sys ⟨{}, m⟩) s ≤ 1 ↔
      L.stageItems.length = 1 ∨ ¬ ((sys.calls s.stages).pipe = true ∧ 1 < s.fds.lowestFree) := by
  cases L with
  | last items t =>
    have hsrcfd (c : Cursor) (hc : c.locals.srcfd ≤ 1) : (c.steps sys items).locals.srcfd ≤ 1 := by
      induction items generalizing c with
      | nil => exact hc
      | cons i items ih =>
        refine ih _ ?_
        cases i with
        | word =>
          simp only [Cursor.step, Item.locals]
          split_ifs <;> exact hc
        | source =>
          simp only [Cursor.step, Item.locals]
          split_ifs
          · decide
          · exact hc
        | _ => exact hc
    exact iff_of_true (hsrcfd _ Int.one_nonneg) (Or.inl rfl)
  | bar items rest =>
    have hne : (bar items rest).stageItems.length ≠ 1 := by
      cases rest <;> simp [stageItems]
    have hlast : lastSrcfd sys false ((bar items rest).stages sys ⟨{}, m⟩) s =
        (s.pipe sys).1.1 := by
      cases rest <;> rfl
    rw [hlast, or_iff_right hne, State.pipe, FdTable.sysPipe]
    cases (sys.calls s.stages).pipe
    · simp
    · simp only [↓reduceIte, true_and, not_lt]
      omega

end Line

/-! ### Messages and the input -/

/-- The item is a word, or a redirection in its place with a word behind it. -/
def Item.InPlace : Item → Prop
  | .word _ => True
  | .source f | .dest _ f => f.lexed.token = .word
  | _ => False

/-- Every word and every name on the line leaves room for its terminator in the buffer. -/
def Line.WordsFit (sys : System) (s : Stdin) (L : Line) : Prop :=
  ∀ ts t us u, L.typed = ts ++ t :: us → Reads (scan sys) s ts u →
    ∀ w, nextWord u.unread = some w → w.length < MAXWORD

/-- An item draws a message if it is not in its place, or a word in it does. -/
theorem Item.isQuiet_iff {makepipe : Bool} {l : Locals} {i : Item} (hfits : i.Fits makepipe l) :
    i.IsQuiet ↔ i.InPlace ∧ ∀ t ∈ i.typed, t.lexed.token = .word → t.lexed.diags = [] := by
  cases i with
  | word w =>
    have htoken : w.lexed.token = .word := hfits
    simp [IsQuiet, InPlace, typed, htoken]
  | source f | dest append f =>
    have hpunct (t : Token) : (Typed.punct t).lexed.diags = [] := rfl
    simp only [IsQuiet, InPlace, typed, List.mem_cons, List.not_mem_nil, or_false,
      forall_eq_or_imp, forall_eq, hpunct, implies_true, true_and]
    exact ⟨fun ⟨htoken, hdiags⟩ => ⟨htoken, fun _ => hdiags⟩,
      fun ⟨htoken, hdiags⟩ => ⟨htoken, hdiags htoken⟩⟩
  | extraSource | extraDest | conflict => simp [IsQuiet, InPlace]

/-- The items of a line fit where they are. -/
theorem Line.exists_fits {sys : System} {makepipe : Bool} {c : Cursor} {L : Line}
    (h : L.Fits sys makepipe c) :
    ∀ items ∈ L.stageItems, ∀ i ∈ items, ∃ makepipe l, i.Fits makepipe l := by
  have hitems {makepipe : Bool} {c : Cursor} {items : List Item}
      (h : ItemsFit sys makepipe c items) : ∀ i ∈ items, ∃ makepipe l, i.Fits makepipe l := by
    induction items generalizing c with
    | nil => exact fun i hi => absurd hi List.not_mem_nil
    | cons i items ih => exact List.forall_mem_cons.mpr ⟨⟨_, _, h.1⟩, ih h.2⟩
  induction L generalizing makepipe c with
  | last items t => exact List.forall_mem_singleton.mpr (hitems h)
  | bar items rest ih => exact List.forall_mem_cons.mpr ⟨hitems h.1, ih h.2.2⟩

/-- The words of a line are those of its items. -/
theorem Line.forall_word_iff {L : Line} {p : Typed → Prop} :
    (∀ t ∈ L.typed, t.lexed.token = .word → p t) ↔
      ∀ items ∈ L.stageItems, ∀ i ∈ items, ∀ t ∈ i.typed, t.lexed.token = .word → p t := by
  induction L with
  | last items t =>
    have hterm : (Typed.punct t.token).lexed.token ≠ .word := by cases t <;> decide
    simp only [typed, stageItems, List.forall_mem_append, List.forall_mem_singleton, hterm,
      false_implies, and_true, List.forall_mem_flatMap]
  | bar items rest ih =>
    have hbar : (Typed.punct .bar).lexed.token ≠ .word := by decide
    simp only [typed, stageItems, List.forall_mem_append, List.forall_mem_cons, hbar,
      false_implies, true_and, List.forall_mem_flatMap, ih]

/-- The words of a typed line draw no message exactly if they fit. -/
theorem Line.IsTyped.wordsFit_iff {sys : System} {s : State} {L : Line} {rest : Stdin}
    (h : L.IsTyped sys s rest) : L.WordsFit sys s.stdin ↔
      ∀ t ∈ L.typed, t.lexed.token = .word → t.lexed.diags = [] := by
  -- Where a token of the line begins, it is what is read next.
  have hnext {ts us : List Typed} {t : Typed} {u : Stdin} (hsplit : L.typed = ts ++ t :: us)
      (hread : Reads (scan sys) s.stdin ts u) : (gettoken MAXWORD u).1 = t.lexed := by
    obtain ⟨u', hread', hrest⟩ := Reads.append_iff.mp (hsplit ▸ h.2)
    obtain rfl := hread.unique hread'
    obtain ⟨_, hscan, -⟩ := Reads.cons_iff.mp hrest
    exact congrArg (fun r => r.1.lexed) hscan
  constructor
  · intro hfit t ht hword
    obtain ⟨ts, us, hsplit⟩ := List.mem_iff_append.mp ht
    obtain ⟨u, hread, -⟩ := Reads.append_iff.mp (hsplit ▸ h.2)
    have hlexed := hnext hsplit hread
    rw [← hlexed] at hword ⊢
    exact (gettoken_quiet_iff hword).mpr (hfit ts t us u hsplit hread)
  · intro hquiet ts t us u hsplit hread w hw
    have hlexed := hnext hsplit hread
    have hstored := gettoken_stored MAXWORD u
    rw [hw, hlexed] at hstored
    refine hstored.2.2.mp (hquiet t ?_ hstored.1)
    rw [hsplit]
    exact List.mem_append_right _ List.mem_cons_self

/-- **The items of a typed line draw no message** exactly if they are in their places, and all words
and names fit. -/
theorem Line.IsTyped.forall_isQuiet_iff {sys : System} {s : State} {L : Line} {rest : Stdin}
    (h : L.IsTyped sys s rest) : (∀ items ∈ L.stageItems, ∀ i ∈ items, i.IsQuiet) ↔
      (∀ items ∈ L.stageItems, ∀ i ∈ items, i.InPlace) ∧ L.WordsFit sys s.stdin := by
  rw [h.wordsFit_iff, Line.forall_word_iff]
  simp only [← forall_and]
  refine forall₂_congr fun items hitems => forall₂_congr fun i hi => ?_
  obtain ⟨makepipe, l, hfits⟩ := Line.exists_fits h.1 items hitems i hi
  exact Item.isQuiet_iff hfits

/-! ### Messages and rejections -/

/-- A nonempty list of messages has one that rejects the command. -/
def Rejects (ds : List Diag) : Prop := ds ≠ [] → ∃ d ∈ ds, d.isRejection

namespace Rejects

theorem of_forall {ds : List Diag} (h : ∀ d ∈ ds, d.isRejection) : Rejects ds := fun hne => by
  obtain ⟨d, hd⟩ := List.exists_mem_of_ne_nil ds hne
  exact ⟨d, hd, h d hd⟩

theorem append {ds es : List Diag} (hds : Rejects ds) (hes : Rejects es) : Rejects (ds ++ es) := by
  intro hne
  by_cases h : ds = []
  · obtain ⟨d, hd, hrej⟩ := hes fun he => hne (by rw [h, he]; rfl)
    exact ⟨d, List.mem_append_right ds hd, hrej⟩
  · obtain ⟨d, hd, hrej⟩ := hds h
    exact ⟨d, List.mem_append_left es hd, hrej⟩

theorem of_mem {ds : List Diag} {d : Diag} (hd : d ∈ ds) (h : d.isRejection) : Rejects ds :=
  fun _ => ⟨d, hd, h⟩

theorem lexed {t : Typed} {s : Stdin} (h : (Shell.gettoken MAXWORD s).1 = t.lexed)
    (herr : t.lexed.token ≠ .error) : Rejects t.lexed.diags :=
  of_forall fun d hd => by
    rw [← h] at hd herr
    rw [gettoken_diags herr d hd]
    rfl

theorem item {makepipe keep : Bool} {l : Locals} {i : Item} (hfits : i.Fits makepipe l)
    (htyped : ∀ t ∈ i.typed, ∃ s, (Shell.gettoken MAXWORD s).1 = t.lexed) :
    Rejects (i.messages keep l) := by
  cases i with
  | word w =>
    have htoken : w.lexed.token = .word := hfits
    obtain ⟨s, hs⟩ := htyped w List.mem_cons_self
    refine append (lexed hs (by rw [htoken]; decide)) (of_forall ?_)
    split_ifs <;> simp [Diag.isRejection]
  | source f | dest _ f =>
    obtain ⟨s, hs⟩ := htyped f (List.mem_cons_of_mem _ List.mem_cons_self)
    by_cases hword : f.lexed.token = .word
    · refine append (lexed hs (by rw [hword]; decide)) ?_
      rw [if_pos hword]
      exact of_forall (by simp)
    · simp only [Item.messages, if_neg hword]
      exact of_mem (List.mem_append_right _ List.mem_cons_self) rfl
  | extraSource | extraDest | conflict => exact of_mem List.mem_cons_self rfl

theorem items {sys : System} {makepipe : Bool} {c : Cursor} {is : List Item}
    (hfits : ItemsFit sys makepipe c is)
    (htyped : ∀ t ∈ is.flatMap Item.typed, ∃ s, (Shell.gettoken MAXWORD s).1 = t.lexed) :
    Rejects (itemsMessages sys c is) := by
  induction is generalizing c with
  | nil => exact of_forall nofun
  | cons i is ih =>
    rw [List.flatMap_cons, List.forall_mem_append] at htyped
    exact append (item hfits.1 htyped.1) (ih hfits.2 htyped.2)

theorem line {sys : System} {makepipe : Bool} {c : Cursor} {L : Line}
    (hfits : L.Fits sys makepipe c)
    (htyped : ∀ t ∈ L.typed, ∃ s, (Shell.gettoken MAXWORD s).1 = t.lexed) :
    Rejects (L.messages sys c) := by
  induction L generalizing makepipe c with
  | last is t => exact items hfits fun u hu => htyped u (List.mem_append_left _ hu)
  | bar is rest ih =>
    exact append (items hfits.1 fun u hu => htyped u (List.mem_append_left _ hu))
      (ih hfits.2.2 fun u hu => htyped u (List.mem_append_right _ (List.mem_cons_of_mem _ hu)))

end Rejects

/-! ### Rejected pipelines -/

section Rejected

variable (sys : System) (s : State)

/-- Every item of the line is in its place, its words and names fit, no stage has too many words,
there is memory for all of them, and no stage is empty. (An empty last stage that is ended by a
newline is passed over in a pipeline of one stage, and where the pipe in front of it gives no
descriptor above `1`.) -/
structure Line.IsClean (L : Line) : Prop where
  inPlace : ∀ items ∈ L.stageItems, ∀ i ∈ items, i.InPlace
  fits : L.WordsFit sys s.stdin
  room : ∀ items ∈ L.stageItems, (typedWords items).length ≤ MAXARG - 1
  memory : ∀ k < L.wordCount, sys.malloc (s.mallocs + k)
  commands : L.HasCommands
    (L.stageItems.length = 1 ∨ ¬ ((sys.calls s.stages).pipe = true ∧ 1 < s.fds.lowestFree))

/-- Something on the line can be run: a stage has a stored word and is a builtin, or its `fork`
succeeds. -/
def Line.Runs (L : Line) : Prop := AnyRuns sys s.stages (L.stages sys ⟨{}, s.mallocs⟩)

/-- If a message about the pipeline is written, then nothing of it is run. -/
def RejectedNotRun : Prop :=
  (∃ e ∈ s.since (command sys false s).2, e.isRejection) →
    ¬ ∃ e ∈ s.since (command sys false s).2, e.isRun

variable {sys s} {L : Line} {rest : Stdin}

theorem Line.IsTyped.rejects (h : L.IsTyped sys s rest) :
    Rejects (L.messages sys ⟨{}, s.mallocs⟩) := by
  refine Rejects.line h.1 fun t ht => ?_
  obtain ⟨u, hu⟩ := h.2.exists_next t ht
  exact ⟨u, congrArg Typed.lexed hu⟩

/-- Messages about a pipeline are written while it is read, and about its empty stages while it is
run. -/
theorem Line.IsTyped.exists_message_iff (h : L.IsTyped sys s rest) {p : Event → Bool}
    (hp : ∀ e, p e → e.isRejection) (hmissing : p (.diag .missingCommand)) :
    (∃ e ∈ s.since (command sys false s).2, p e) ↔
      (∃ d ∈ L.messages sys ⟨{}, s.mallocs⟩, p (.diag d)) ∨
        ∃ st ∈ L.stages sys ⟨{}, s.mallocs⟩, isMissing st.locals.argv st.token
          (lastSrcfd sys false (L.stages sys ⟨{}, s.mallocs⟩) s) := by
  obtain ⟨s₁, hreading, honly, -, hmessages⟩ := h.reading
  have hrun := @runStages_rejection sys L.term false (L.stages sys ⟨{}, s.mallocs⟩) s₁
    (L.endsWith_stages ⟨{}, s.mallocs⟩) p hp hmissing
  rw [lastSrcfd_onlyReads _ honly] at hrun
  simp only [since_command hreading, List.mem_append, or_and_right, exists_or,
    honly.exists_message hmessages hp, hrun]

/-- Where no message is drawn while the line is read, the empty stages remain. -/
theorem Line.IsTyped.exists_message_iff_of_quiet (h : L.IsTyped sys s rest) {p : Event → Bool}
    (hp : ∀ e, p e → e.isRejection) (hmissing : p (.diag .missingCommand))
    (hquiet : L.messages sys ⟨{}, s.mallocs⟩ = []) :
    (∃ e ∈ s.since (command sys false s).2, p e) ↔ ¬ L.HasCommands
      (L.stageItems.length = 1 ∨ ¬ ((sys.calls s.stages).pipe = true ∧ 1 < s.fds.lowestFree)) := by
  rw [h.exists_message_iff hp hmissing, hquiet, Line.exists_isMissing_iff hquiet,
    L.lastSrcfd_le_one_iff]
  simp

/-- A message about the pipeline is written unless the line is clean. -/
theorem Line.IsTyped.exists_rejection_iff (h : L.IsTyped sys s rest) :
    (∃ e ∈ s.since (command sys false s).2, e.isRejection) ↔ ¬ L.IsClean sys s := by
  by_cases hquiet : L.messages sys ⟨{}, s.mallocs⟩ = []
  · obtain ⟨hitems, hroom, hmemory⟩ := (L.messages_eq_nil_iff s.mallocs).mp hquiet
    obtain ⟨hinPlace, hfits⟩ := h.forall_isQuiet_iff.mp hitems
    rw [h.exists_message_iff_of_quiet (fun _ => id) rfl hquiet]
    exact not_congr ⟨fun hc => ⟨hinPlace, hfits, hroom, hmemory, hc⟩, fun hc => hc.commands⟩
  · rw [h.exists_message_iff (fun _ => id) rfl]
    refine iff_of_true (Or.inl (h.rejects hquiet)) fun hc => hquiet ?_
    exact (L.messages_eq_nil_iff s.mallocs).mpr
      ⟨h.forall_isQuiet_iff.mpr ⟨hc.inPlace, hc.fits⟩, hc.room, hc.memory⟩

theorem Line.IsTyped.exists_isRun_iff (h : L.IsTyped sys s rest) :
    (∃ e ∈ s.since (command sys false s).2, e.isRun) ↔ L.Runs sys s := by
  obtain ⟨s₁, hreading, honly, -⟩ := h.reading
  have hrun := runStages_isRun sys L.term false (L.stages sys ⟨{}, s.mallocs⟩) s₁
  rw [honly.stages] at hrun
  simp only [since_command hreading, List.mem_append, or_and_right, exists_or, hrun]
  exact or_iff_right honly.not_isRun

/-- **When a rejected pipeline is not run.** Nothing of a rejected pipeline is run exactly if there
is no complete pipeline on the input, or the one there is clean, or nothing on it can be run. -/
theorem rejectedNotRun_iff (sys : System) (s : State) : RejectedNotRun sys s ↔
    ∀ L rest, Line.IsTyped sys s L rest → L.IsClean sys s ∨ ¬ L.Runs sys s := by
  constructor
  · intro h L rest htyped
    rw [RejectedNotRun, htyped.exists_rejection_iff, htyped.exists_isRun_iff] at h
    exact or_iff_not_imp_left.mpr h
  · intro h hrejected
    by_cases hline : ∃ L rest, Line.IsTyped sys s L rest
    · obtain ⟨L, rest, htyped⟩ := hline
      rw [htyped.exists_rejection_iff] at hrejected
      rw [htyped.exists_isRun_iff]
      exact (h L rest htyped).resolve_left hrejected
    · exact (onlyReads_of_not_isTyped fun L rest htyped => hline ⟨L, rest, htyped⟩).not_isRun

/-- In `a|b<f` the second stage draws a message, and both stages are run. -/
theorem not_rejectedNotRun_extraLt :
    ¬ RejectedNotRun .obliging (.start [97, 124, 98, 60, 102, 10]) := by
  rw [RejectedNotRun]
  decide

end Rejected

end UnixStudy.Shell
