import UnixStudy.Shell.Turns

/-!
# Where a newline ends the command

A newline that the loop of `command` reads ends the call. A newline that is read where the name of a
redirection should stand does not: the redirection is reported, `break` leaves the `switch` only,
and the loop goes on with the next line. Whether this happens is decided by the tokens on the input
alone (`swallows`).

## Main definitions

* `kinds` : the tokens on the input, without their words.
* `swallows` : a newline stands where the name of a redirection is read.
* `NewlineEnds` : every newline ends the command.

## Main results

* `nl_mem_dropLast_reading` : the newlines that are read before the end of a command.
* `newlineEnds_iff` : the commands that every newline ends.

## References

* `src/communication/shell.c`, lines 119–140 and 302–355.
-/

namespace UnixStudy.Shell

/-! ### The tokens on the input -/

/-- The tokens in front of the end of the input, if there are not more than the fuel. -/
def kindsLoop : ℕ → Stdin → List Token
  | 0, _ => []
  | fuel + 1, s =>
    let r := gettoken MAXWORD s
    if r.1.token.IsEof then [] else r.1.token :: kindsLoop fuel r.2

/-- The tokens in front of the end of the input. -/
def kinds (s : Stdin) : List Token := kindsLoop (s.unread.length + 1) s

theorem kindsLoop_fuel {n m : ℕ} {s : Stdin} (hn : s.unread.length < n) (hm : s.unread.length < m) :
    kindsLoop n s = kindsLoop m s := by
  induction n generalizing m s with
  | zero => exact absurd hn (Nat.not_lt_zero _)
  | succ n ih =>
    obtain ⟨m, rfl⟩ := Nat.exists_eq_succ_of_ne_zero (Nat.ne_zero_of_lt hm)
    rw [kindsLoop, kindsLoop]
    split_ifs with hend
    · rfl
    · have hlt := gettoken_length_lt (not_or.mp hend).1 (not_or.mp hend).2
      rw [ih (m := m) (by omega) (by omega)]

theorem kinds_of_isEof {s : Stdin} (h : (gettoken MAXWORD s).1.token.IsEof) : kinds s = [] :=
  if_pos h

theorem kinds_of_not_isEof {s : Stdin} (h : ¬ (gettoken MAXWORD s).1.token.IsEof) :
    kinds s = (gettoken MAXWORD s).1.token :: kinds (gettoken MAXWORD s).2 := by
  have hlt := gettoken_length_lt (not_or.mp h).1 (not_or.mp h).2
  rw [kinds, kindsLoop, if_neg h, kindsLoop_fuel hlt (Nat.lt_succ_self _), ← kinds]

/-- Behind the end of the input there are no tokens. -/
theorem kinds_of_unread_nil {s : Stdin} (h : s.unread = []) : kinds s = [] := by
  refine kinds_of_isEof ?_
  rw [gettoken_of_unread_nil h, endOfInput]
  split_ifs
  · exact Or.inr rfl
  · exact Or.inl rfl

/-- The tokens behind a call of `gettoken`. -/
theorem kinds_of_reads {s s' : Stdin} {t : Lexed} (h : Reads (gettoken MAXWORD) s [t] s') :
    t.token.IsEof ∧ kinds s = [] ∧ kinds s' = [] ∨
      ¬ t.token.IsEof ∧ kinds s = t.token :: kinds s' := by
  obtain ⟨s₁, hnext, hnil⟩ := Reads.cons_iff.mp h
  obtain rfl := Reads.nil_iff.mp hnil
  obtain rfl : (gettoken MAXWORD s).1 = t := congrArg Prod.fst hnext
  obtain rfl : (gettoken MAXWORD s).2 = s' := congrArg Prod.snd hnext
  by_cases hend : (gettoken MAXWORD s).1.token.IsEof
  · exact Or.inl ⟨hend, kinds_of_isEof hend, kinds_of_unread_nil (gettoken_eq_nil hend)⟩
  · exact Or.inr ⟨hend, kinds_of_not_isEof hend⟩

/-- The tokens behind a call that returned a token proper. -/
theorem kinds_of_reads_proper {s s' : Stdin} {t : Lexed} (h : Reads (gettoken MAXWORD) s [t] s')
    (ht : ¬ t.token.IsEof) : kinds s = t.token :: kinds s' := by
  rcases kinds_of_reads h with ⟨hend, -⟩ | ⟨-, hkinds⟩
  · exact absurd hend ht
  · exact hkinds

/-- The tokens behind a redirection and the call for its name. -/
theorem kinds_of_reads_pair {s s' : Stdin} {g f : Lexed} (h : Reads (gettoken MAXWORD) s [g, f] s')
    (hg : ¬ g.token.IsEof) : f.token.IsEof ∧ kinds s = [g.token] ∧ kinds s' = [] ∨
      kinds s = g.token :: f.token :: kinds s' := by
  obtain ⟨s₁, hfirst, hsecond⟩ := Reads.cons_iff.mp h
  have hkinds := kinds_of_reads_proper (.singleton hfirst) hg
  rcases kinds_of_reads hsecond with ⟨hend, hnil, hnil'⟩ | ⟨-, hcons⟩
  · exact Or.inl ⟨hend, by rw [hkinds, hnil], hnil'⟩
  · exact Or.inr (by rw [hkinds, hcons])

/-- A newline stands where `command` reads the name of a redirection, before the command ends.
`makepipe` says that the stage stands behind a `|`, where `<` takes no name, and `redirected` that
its output is redirected, so that `>` takes no name and `|` ends no stage. -/
def swallows : Bool → Bool → List Token → Bool
  | _, _, [] => false
  | makepipe, redirected, t :: ts =>
    match t with
    | .word => swallows makepipe redirected ts
    | .lt =>
      if makepipe then swallows makepipe redirected ts
      else
        match ts with
        | [] => false
        | f :: ts => f == .nl || swallows makepipe redirected ts
    | .gt | .gtgt =>
      if redirected then swallows makepipe redirected ts
      else
        match ts with
        | [] => false
        | f :: ts => f == .nl || swallows makepipe (f == .word) ts
    | .bar => if redirected then swallows makepipe redirected ts else swallows true false ts
    | .amp | .semi | .nl | .eof | .error => false

theorem swallows_nil (makepipe redirected : Bool) : swallows makepipe redirected [] = false := rfl

theorem swallows_word (makepipe redirected : Bool) (ts : List Token) :
    swallows makepipe redirected (.word :: ts) = swallows makepipe redirected ts := rfl

theorem swallows_lt (redirected : Bool) (f : Token) (ts : List Token) :
    swallows false redirected (.lt :: f :: ts) = (f == .nl || swallows false redirected ts) := rfl

theorem swallows_lt_nil (redirected : Bool) : swallows false redirected [.lt] = false := rfl

theorem swallows_lt_of_makepipe (redirected : Bool) (ts : List Token) :
    swallows true redirected (.lt :: ts) = swallows true redirected ts := by
  cases ts <;> rfl

theorem swallows_gt {makepipe : Bool} {g : Token} (hg : g.IsGt) (f : Token) (ts : List Token) :
    swallows makepipe false (g :: f :: ts) = (f == .nl || swallows makepipe (f == .word) ts) := by
  rcases hg with rfl | rfl <;> rfl

theorem swallows_gt_nil {makepipe : Bool} {g : Token} (hg : g.IsGt) :
    swallows makepipe false [g] = false := by
  rcases hg with rfl | rfl <;> rfl

theorem swallows_gt_redirected {makepipe : Bool} {g : Token} (hg : g.IsGt) (ts : List Token) :
    swallows makepipe true (g :: ts) = swallows makepipe true ts := by
  rcases hg with rfl | rfl <;> cases ts <;> rfl

theorem swallows_bar (makepipe redirected : Bool) (ts : List Token) :
    swallows makepipe redirected (.bar :: ts) =
      if redirected then swallows makepipe redirected ts else swallows true false ts := rfl

/-- Nothing behind a terminator or the end of the input belongs to the command. -/
theorem swallows_term (makepipe redirected : Bool) (t : Terminator) (ts : List Token) :
    swallows makepipe redirected (t.token :: ts) = false := by
  cases t <;> rfl

theorem Token.IsGt.not_isEof {g : Token} (hg : g.IsGt) : ¬ g.IsEof := by
  rcases hg with rfl | rfl <;> decide

theorem Token.IsGt.ne_nl {g : Token} (hg : g.IsGt) : Token.nl ≠ g := by
  rcases hg with rfl | rfl <;> decide

/-! ### Newlines in a reading -/

section Reading

variable {sys : System} {makepipe : Bool} {l l' : Locals} {s s' : Stdin} {ts : List Lexed}

/-- The output of the stage is redirected. -/
def Locals.redirected (l : Locals) : Bool := l.dstfd != 1

theorem Locals.redirected_iff {l : Locals} : l.redirected = true ↔ l.dstfd ≠ 1 := bne_iff_ne

theorem Locals.redirected_of_eq {l : Locals} (h : l.dstfd = 1) : l.redirected = false := by
  rw [redirected, h, bne_self_eq_false]

theorem Locals.redirected_congr {l l' : Locals} (h : l'.dstfd = l.dstfd) :
    l'.redirected = l.redirected := by
  rw [redirected, redirected, h]

/-- A turn with one token that is no newline. -/
theorem swallows_of_one {t : Token} {later : Bool} (hreads : Reads (gettoken MAXWORD) s ts s')
    (hts : ts.map Lexed.token = [t]) (hend : ¬ t.IsEof) (hnl : Token.nl ≠ t)
    (hstep : swallows makepipe l.redirected (t :: kinds s') = later) :
    swallows makepipe l.redirected (kinds s) = true ↔
      .nl ∈ ts.map Lexed.token ∨ later = true := by
  obtain ⟨u, rfl, rfl⟩ := List.map_eq_singleton_iff.mp hts
  rw [kinds_of_reads_proper hreads hend, hstep, hts, List.mem_singleton]
  exact (or_iff_right hnl).symm

/-- A turn with a redirection and the token where its name should stand. -/
theorem swallows_of_two {g f : Token} (hreads : Reads (gettoken MAXWORD) s ts s')
    (hts : ts.map Lexed.token = [g, f]) (hend : ¬ g.IsEof) (hnl : Token.nl ≠ g)
    (hstep : ∀ ks, swallows makepipe l.redirected (g :: f :: ks) =
      (f == .nl || swallows makepipe l'.redirected ks))
    (hnil : swallows makepipe l.redirected [g] = false) :
    swallows makepipe l.redirected (kinds s) = true ↔
      .nl ∈ ts.map Lexed.token ∨ swallows makepipe l'.redirected (kinds s') = true := by
  obtain ⟨a, _, rfl, rfl, hrest⟩ := List.map_eq_cons_iff.mp hts
  obtain ⟨u, rfl, rfl⟩ := List.map_eq_singleton_iff.mp hrest
  have hmem : Token.nl ∈ [a.token, u.token] ↔ u.token = .nl := by
    rw [List.mem_cons, or_iff_right hnl, List.mem_singleton, eq_comm]
  rw [hts, hmem]
  rcases kinds_of_reads_pair hreads hend with ⟨hu, hkinds, hkinds'⟩ | hkinds
  · have hne : u.token ≠ .nl := by
      rintro heq
      rw [heq] at hu
      exact absurd hu (by decide)
    rw [hkinds, hkinds', hnil, swallows_nil]
    exact iff_of_false Bool.false_ne_true (not_or.mpr ⟨hne, Bool.false_ne_true⟩)
  · rw [hkinds, hstep, Bool.or_eq_true, beq_iff_eq]

/-- A turn that goes on swallows a newline, or leaves it to the turns behind. -/
theorem swallows_of_go (hreads : Reads (gettoken MAXWORD) s ts s')
    (hturn : Turn makepipe l (ts.map Lexed.token) (.go l')) :
    swallows makepipe l.redirected (kinds s) = true ↔
      .nl ∈ ts.map Lexed.token ∨ swallows makepipe l'.redirected (kinds s') = true := by
  generalize hus : ts.map Lexed.token = us at hturn
  rw [← hus]
  cases hturn with
  | word hdst =>
    refine swallows_of_one hreads hus (by decide) (by decide) ?_
    rw [swallows_word, Locals.redirected_congr hdst]
  | extraSource hpipe =>
    subst hpipe
    exact swallows_of_one hreads hus (by decide) (by decide) (swallows_lt_of_makepipe _ _)
  | source hpipe hdst =>
    subst hpipe
    refine swallows_of_two hreads hus (by decide) (by decide) (fun ks => ?_) (swallows_lt_nil _)
    rw [swallows_lt, Locals.redirected_congr hdst]
  | extraDest hg hdst =>
    refine swallows_of_one hreads hus hg.not_isEof hg.ne_nl ?_
    rw [Locals.redirected_iff.mpr hdst, swallows_gt_redirected hg]
  | @dest g f _ hg hdst hdst' =>
    have hredirected : l'.redirected = (f == .word) := by
      rw [Locals.redirected, hdst']
      cases f <;> rfl
    refine swallows_of_two hreads hus hg.not_isEof hg.ne_nl (fun ks => ?_) ?_
    · rw [Locals.redirected_of_eq hdst, swallows_gt hg, hredirected]
    · rw [Locals.redirected_of_eq hdst, swallows_gt_nil hg]
  | conflict hdst =>
    refine swallows_of_one hreads hus (by decide) (by decide) ?_
    rw [swallows_bar, if_pos (Locals.redirected_iff.mpr hdst)]

/-- A `|` that ends its stage leaves all newlines to the turns behind. -/
theorem swallows_of_bar (hreads : Reads (gettoken MAXWORD) s ts s')
    (hturn : Turn makepipe l (ts.map Lexed.token) .bar) :
    swallows makepipe l.redirected (kinds s) = true ↔
      .nl ∈ ts.map Lexed.token ∨
        swallows true (Locals.redirected {}) (kinds s') = true := by
  generalize hus : ts.map Lexed.token = us at hturn
  rw [← hus]
  cases hturn with
  | bar hdst =>
    refine swallows_of_one hreads hus (by decide) (by decide) ?_
    rw [swallows_bar, Locals.redirected_of_eq hdst, if_neg Bool.false_ne_true,
      Locals.redirected_of_eq rfl]

/-- A turn that ends the reading takes one token, and no newline stands in front of it. -/
theorem swallows_of_last {r : Round} (hreads : Reads (gettoken MAXWORD) s ts s')
    (hturn : Turn makepipe l (ts.map Lexed.token) r) (hgo : ∀ l', r ≠ .go l') (hbar : r ≠ .bar) :
    ts ≠ [] ∧ (.nl ∈ (ts.map Lexed.token).dropLast ↔
      swallows makepipe l.redirected (kinds s) = true) := by
  have hone {t : Token} (hts : ts.map Lexed.token = [t])
      (hstep : t.IsEof ∨ ∀ ks, swallows makepipe l.redirected (t :: ks) = false) :
      ts ≠ [] ∧ (.nl ∈ (ts.map Lexed.token).dropLast ↔
        swallows makepipe l.redirected (kinds s) = true) := by
    obtain ⟨u, rfl, rfl⟩ := List.map_eq_singleton_iff.mp hts
    have hfalse : swallows makepipe l.redirected (kinds s) = false := by
      rcases kinds_of_reads hreads with ⟨-, hnil, -⟩ | ⟨hend, hcons⟩
      · rw [hnil, swallows_nil]
      · rw [hcons, hstep.resolve_left hend]
    rw [hfalse]
    exact ⟨List.cons_ne_nil _ _, iff_of_false List.not_mem_nil Bool.false_ne_true⟩
  generalize hus : ts.map Lexed.token = us at hturn
  rw [← hus]
  cases hturn with
  | word | extraSource | source | extraDest | dest | conflict => exact absurd rfl (hgo _)
  | bar => exact absurd rfl hbar
  | term t => exact hone hus (Or.inr (swallows_term _ _ t))
  | exited => exact hone hus (Or.inl (Or.inl rfl))
  | error => exact hone hus (Or.inl (Or.inr rfl))

end Reading

/-- **The newlines that are read before the end of a command.** There is one exactly if a newline
stands where the name of a redirection is read. -/
theorem nl_mem_dropLast_reading (sys : System) (makepipe : Bool) (l : Locals) (s : State) :
    ∃ ts, Reads (gettoken MAXWORD) s.stdin ts (reading sys makepipe l s).2.stdin ∧
      (reading sys makepipe l s).2.tokens = s.tokens ++ ts ∧ ts ≠ [] ∧
      (.nl ∈ (ts.map Lexed.token).dropLast ↔
        swallows makepipe l.redirected (kinds s.stdin) = true) := by
  refine reading_induction sys (P := fun makepipe l s r =>
    ∃ ts, Reads (gettoken MAXWORD) s.stdin ts r.2.stdin ∧ r.2.tokens = s.tokens ++ ts ∧ ts ≠ [] ∧
      (.nl ∈ (ts.map Lexed.token).dropLast ↔
        swallows makepipe l.redirected (kinds s.stdin) = true)) ?_ ?_ ?_ ?_ ?_ makepipe l s
  · rintro makepipe l s l' s' hround ⟨us, hus, htokens, hne, hnl⟩
    obtain ⟨ts, hts, htokens', hturn⟩ := exists_turn hround
    refine ⟨ts ++ us, hts.append hus, ?_, List.append_ne_nil_of_right_ne_nil ts hne, ?_⟩
    · rw [htokens, htokens', List.append_assoc]
    · rw [swallows_of_go hts hturn, ← hnl, List.map_append,
        List.dropLast_append_of_ne_nil (mt List.map_eq_nil_iff.mp hne), List.mem_append]
  · rintro makepipe l s s' hround ⟨us, hus, htokens, hne, hnl⟩
    obtain ⟨ts, hts, htokens', hturn⟩ := exists_turn hround
    rw [Reading.cons_snd]
    refine ⟨ts ++ us, hts.append hus, ?_, List.append_ne_nil_of_right_ne_nil ts hne, ?_⟩
    · rw [htokens, htokens', List.append_assoc]
    · rw [swallows_of_bar hts hturn, ← hnl, List.map_append,
        List.dropLast_append_of_ne_nil (mt List.map_eq_nil_iff.mp hne), List.mem_append]
  all_goals
    intros
    rename_i hround
    obtain ⟨ts, hts, htokens, hturn⟩ := exists_turn hround
    exact ⟨ts, hts, htokens, swallows_of_last hts hturn nofun nofun⟩

/-! ### The command -/

/-- Every newline ends the command: behind a newline that a call of `gettoken` returned to `command`
there is no further call, and the input that is left begins behind the newline. -/
def NewlineEnds (sys : System) (s : State) : Prop :=
  ∀ us t vs, (command sys false s).2.tokens = s.tokens ++ us ++ t :: vs → t.token = .nl →
    vs = [] ∧ Reads (gettoken MAXWORD) s.stdin (us ++ [t]) (command sys false s).2.stdin

/-- The tokens of a command, and the newlines in front of its last one. -/
theorem nl_mem_dropLast_command (sys : System) (s : State) :
    ∃ ts, Reads (gettoken MAXWORD) s.stdin ts (command sys false s).2.stdin ∧
      (command sys false s).2.tokens = s.tokens ++ ts ∧ ts ≠ [] ∧
      (.nl ∈ (ts.map Lexed.token).dropLast ↔ swallows false false (kinds s.stdin) = true) := by
  have hreads := nl_mem_dropLast_reading sys false {} s
  rcases command_cases sys s with ⟨sts, t, s₁, hr, hc⟩ | ⟨s₁, hr, hc⟩ | ⟨s₁, hr, hc⟩ <;>
    rw [hr] at hreads <;> rw [hc]
  · rw [runStages_stdin, runStages_tokens]
    exact hreads
  · exact hreads
  · exact hreads

/-- **Where a newline ends the command.** Every newline that a call of `command` reads ends it if
and only if no newline stands, in the tokens on the input, where the name of a redirection is
read. -/
theorem newlineEnds_iff (sys : System) (s : State) :
    NewlineEnds sys s ↔ swallows false false (kinds s.stdin) = false := by
  obtain ⟨ts, hreads, htokens, -, hnl⟩ := nl_mem_dropLast_command sys s
  rw [← Bool.not_eq_true, ← hnl]
  constructor
  · intro h hmem
    rw [← List.map_dropLast] at hmem
    obtain ⟨t, ht, htoken⟩ := List.mem_map.mp hmem
    obtain ⟨us, vs, hsplit⟩ := List.append_of_mem ht
    have hne := List.ne_nil_of_mem (List.mem_of_mem_dropLast ht)
    have hts : ts = us ++ t :: (vs ++ [ts.getLast hne]) := by
      conv_lhs => rw [← List.dropLast_concat_getLast hne, hsplit]
      rw [List.append_assoc, List.cons_append]
    have hend := (h us t _ (by rw [htokens, List.append_assoc, ← hts]) htoken).1
    exact List.append_ne_nil_of_right_ne_nil vs (List.cons_ne_nil _ _) hend
  · intro h us t vs hsplit htoken
    obtain rfl : ts = us ++ t :: vs := by
      rw [htokens, List.append_assoc] at hsplit
      exact List.append_cancel_left hsplit
    cases vs with
    | nil => exact ⟨rfl, hreads⟩
    | cons v vs =>
      refine absurd ?_ h
      rw [List.map_append, List.map_cons, List.map_cons, List.dropLast_append_cons,
        List.dropLast_cons_cons, htoken]
      exact List.mem_append_right _ List.mem_cons_self

/-- The newline of the line `cat<` does not end the command, which takes the words of the next line
too. -/
theorem not_newlineEnds_source :
    ¬ NewlineEnds .obliging (.start [99, 97, 116, 60, 10, 108, 115, 10]) := by
  intro h
  have hsplit : (command .obliging false (.start [99, 97, 116, 60, 10, 108, 115, 10])).2.tokens =
      (State.start [99, 97, 116, 60, 10, 108, 115, 10]).tokens ++
        [⟨.word, [99, 97, 116, 0], []⟩, ⟨.lt, [], []⟩] ++
        ⟨.nl, [], []⟩ :: [⟨.word, [108, 115, 0], []⟩, ⟨.nl, [], []⟩] := by decide
  exact List.cons_ne_nil _ _ (h _ _ _ hsplit rfl).1

end UnixStudy.Shell
