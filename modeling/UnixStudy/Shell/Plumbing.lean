import UnixStudy.Foundations.Redirect
import UnixStudy.Shell.Line

/-!
# The descriptors of the shell and of its children

How the descriptor table changes while a pipeline is run. The shell makes the pipe in front of a
stage, passes both ends on, and closes the ends that a child has taken over; the child closes the
one it does not need and redirects its standard descriptors. The two redirections of a child are
instances of `FdTable.redirect`.

Between two stages the shell holds its standard descriptors and the write end of the last pipe
(`HoldsEnd`), whatever the calls for the stages so far returned (`wired_runStages`). What else it
may hold is the subject of later modules.

## Main definitions

* `Std` : the standard descriptors are open, on what the shell was started with.
* `HoldsEnd` : the write end of a pipe, as `*pipefdp` gives it.
* `Invocation.sourceSupply`, `Invocation.destSupply` : what a child is redirected to.

## Main results

* `exists_pipeEnds` : the ends of the `pipe` in front of a stage.
* `slot_redirect` : the table of a child.
* `slot_finish_of_forks` : the table of the shell after a stage.
* `wired_runStages` : the shell between two stages.
* `exists_stage_of_child` : every child is the child of a stage.
-/

namespace UnixStudy.Shell

/-- The three standard descriptors name what the shell was started with. -/
structure Std (t : FdTable Obj) : Prop where
  stdin : t.slot 0 = some .stdin
  stdout : t.slot 1 = some .stdout
  stderr : t.slot 2 = some .stderr

namespace Std

theorem isOpen {t : FdTable Obj} (h : Std t) : ∀ m < 3, t.IsOpen m := by
  intro m hm
  have hcases : m = 0 ∨ m = 1 ∨ m = 2 := by omega
  rcases hcases with rfl | rfl | rfl
  · exact t.isOpen_of_slot h.stdin
  · exact t.isOpen_of_slot h.stdout
  · exact t.isOpen_of_slot h.stderr

theorem of_slot_eq {t t' : FdTable Obj} (h : Std t) (hslot : ∀ m < 3, t'.slot m = t.slot m) :
    Std t' :=
  ⟨(hslot 0 (by decide)).trans h.stdin, (hslot 1 (by decide)).trans h.stdout,
    (hslot 2 (by decide)).trans h.stderr⟩

end Std

/-! ### The pipe in front of a stage -/

section Pipe

variable {sys : System} {makepipe : Bool} {s : State}

/-- The pipe in front of a stage is made. -/
def Piped (sys : System) (makepipe : Bool) (k : ℕ) : Prop :=
  makepipe = true ∧ (sys.calls k).pipe = true

instance (sys : System) (makepipe : Bool) (k : ℕ) : Decidable (Piped sys makepipe k) :=
  inferInstanceAs (Decidable (_ ∧ _))

theorem afterPipe_of_not_piped (h : ¬ Piped sys makepipe s.stages) :
    pipeEnds sys makepipe s = (-1, -1) ∧ (afterPipe sys makepipe s).fds = s.fds := by
  cases makepipe with
  | false => exact ⟨rfl, rfl⟩
  | true =>
    have hfail : (sys.calls s.stages).pipe = false :=
      Bool.eq_false_of_not_eq_true fun hok => h ⟨rfl, hok⟩
    simp [pipeEnds, afterPipe, State.pipe, hfail, FdTable.sysPipe]

/-- A pipe is made from two free descriptors. -/
theorem exists_pipeEnds (hstd : Std s.fds) (h : Piped sys makepipe s.stages) :
    ∃ r w : ℕ, pipeEnds sys makepipe s = ((r : ℤ), (w : ℤ)) ∧ 3 ≤ r ∧ 3 ≤ w ∧ r ≠ w ∧
      s.fds.slot r = none ∧ s.fds.slot w = none ∧
      ∀ m, (afterPipe sys makepipe s).fds.slot m = if m = w then some (.pipeWrite s.stages)
        else if m = r then some (.pipeRead s.stages) else s.fds.slot m := by
  obtain ⟨rfl, hok⟩ := h
  obtain ⟨r, w, hends, hr, hw, hne, hfree, hfree', hslot⟩ :=
    s.fds.exists_sysPipe (.pipeRead s.stages) (.pipeWrite s.stages) hstd.isOpen
  refine ⟨r, w, ?_, hr, hw, hne, hfree, hfree', fun m => ?_⟩
  · rw [pipeEnds, if_pos rfl, State.pipe, hok]
    exact hends
  · rw [afterPipe, if_pos rfl, State.pipe, hok]
    exact hslot m

theorem std_afterPipe (hstd : Std s.fds) : Std (afterPipe sys makepipe s).fds := by
  by_cases h : Piped sys makepipe s.stages
  · obtain ⟨r, w, -, hr, hw, -, -, -, hslot⟩ := exists_pipeEnds hstd h
    refine hstd.of_slot_eq fun m hm => ?_
    rw [hslot, if_neg (by omega), if_neg (by omega)]
  · rw [(afterPipe_of_not_piped h).2]
    exact hstd

end Pipe

/-! ### The names of a stage -/

namespace Stage

variable (sys : System) (st : Stage) (n : ℕ)

/-- The file that a stage reads from, when `n` bytes of the input were unread behind it. -/
def sourceName : Bytes := cString MAXFNAME st.locals.srcfile (sys.beyond .srcfile n)

/-- The file that a stage writes to, when `n` bytes of the input were unread behind it. -/
def destName : Bytes := cString MAXFNAME st.locals.dstfile (sys.beyond .dstfile n)

variable {sys st n}

theorem destName_eq_nil (h : st.locals.dstfile = []) : st.destName sys n = [] := by
  rw [destName, h]
  exact cString_nil (by decide) _

end Stage

theorem Locals.IsSet.dstfile_eq_nil {makepipe : Bool} {l : Locals} (h : l.IsSet makepipe)
    (hdstfd : l.dstfd = 1) : l.dstfile = [] := by
  rcases h.dest with ⟨-, h⟩ | ⟨h, -⟩
  · exact h
  · exact absurd (h.symm.trans hdstfd) (by decide)

/-! ### The child of a stage -/

namespace Invocation

variable (a : Invocation) (calls : Calls)

/-- What the standard input of a child is redirected to. -/
def sourceSupply : Supply Obj :=
  if a.srcfd = 0 ∧ a.bckgrnd = true then .file calls.openSrc (.source devNull)
  else if a.srcfile ≠ [] then .file calls.openSrc (.source a.srcfile)
  else .held a.srcfd

/-- What the standard output of a child is redirected to. -/
def destSupply : Supply Obj :=
  if a.dstfile ≠ [] then .file calls.openDst (.sink a.dstfile (a.append == some true))
  else .held a.dstfd

end Invocation

theorem redirect_eq (calls : Calls) (a : Invocation) (t : FdTable Obj) : redirect calls a t =
    (t.redirect (a.sourceSupply calls) calls.dupSrc 0).redirect (a.destSupply calls)
      calls.dupDst 1 := by
  have hdev : devNull ≠ [] := List.cons_ne_nil _ _
  simp only [redirect, Invocation.sourceSupply, Invocation.destSupply, FdTable.redirect,
    FdTable.sysMove]
  by_cases hnull : a.srcfd = 0 ∧ a.bckgrnd = true <;> by_cases hsrc : a.srcfile = [] <;>
    by_cases hdst : a.dstfile = [] <;> simp [hnull, hsrc, hdst, hdev, Supply.get]

/-- The source of a stage agrees with the descriptors: it is the standard input, a file, or a
descriptor that is held. -/
structure Invocation.IsPlumbed (a : Invocation) (t : FdTable Obj) : Prop where
  source : a.srcfd = 0 ∨ a.srcfd = -1 ∨
    a.srcfile = [] ∧ ∃ d : ℕ, a.srcfd = d ∧ 3 ≤ d ∧ t.IsOpen d
  dest : a.dstfd = 1 ∨ a.dstfd = -1 ∨
    a.dstfile = [] ∧ ∃ d : ℕ, a.dstfd = d ∧ 3 ≤ d ∧ t.IsOpen d
  disjoint : a.dstfd ≠ a.srcfd ∨ a.dstfd = -1

namespace Invocation.IsPlumbed

variable {a : Invocation} {t : FdTable Obj} (h : a.IsPlumbed t) (calls : Calls)

include h

theorem fd_sourceSupply : (a.sourceSupply calls).fd = a.srcfd ∨
    (a.sourceSupply calls).fd = -1 ∧ (a.srcfd = 0 ∨ a.srcfd = -1) := by
  rw [sourceSupply]
  split_ifs with hnull hfile
  · exact Or.inr ⟨rfl, Or.inl hnull.1⟩
  · refine Or.inr ⟨rfl, ?_⟩
    rcases h.source with h | h | ⟨hnil, -⟩
    · exact Or.inl h
    · exact Or.inr h
    · exact absurd hnil hfile
  · exact Or.inl rfl

theorem fd_destSupply : (a.destSupply calls).fd = a.dstfd ∨
    (a.destSupply calls).fd = -1 ∧ (a.dstfd = 1 ∨ a.dstfd = -1) := by
  rw [destSupply]
  split_ifs with hfile
  · refine Or.inr ⟨rfl, ?_⟩
    rcases h.dest with h | h | ⟨hnil, -⟩
    · exact Or.inl h
    · exact Or.inr h
    · exact absurd hnil hfile
  · exact Or.inl rfl

theorem held_source : (a.sourceSupply calls).fd = ((0 : ℕ) : ℤ) ∨
    (a.sourceSupply calls).fd = -1 ∨
      ∃ d : ℕ, (a.sourceSupply calls).fd = d ∧ 3 ≤ d ∧ t.IsOpen d := by
  rcases h.fd_sourceSupply calls with hfd | ⟨hfd, -⟩
  · rw [hfd]
    exact h.source.imp_right fun h => h.imp_right And.right
  · exact Or.inr (Or.inl hfd)

theorem held_dest : (a.destSupply calls).fd = ((1 : ℕ) : ℤ) ∨ (a.destSupply calls).fd = -1 ∨
    ∃ d : ℕ, (a.destSupply calls).fd = d ∧ 3 ≤ d ∧ t.IsOpen d := by
  rcases h.fd_destSupply calls with hfd | ⟨hfd, -⟩
  · rw [hfd]
    exact h.dest.imp_right fun h => h.imp_right And.right
  · exact Or.inr (Or.inl hfd)

end Invocation.IsPlumbed

/-- The slots of a table that `redirect` has arranged. -/
theorem slot_redirect {calls : Calls} {a : Invocation} {t : FdTable Obj} (hstd : Std t)
    (h : a.IsPlumbed t) (m : ℕ) : (redirect calls a t).slot m =
      if m = 0 then
        (if calls.dupSrc then (a.sourceSupply calls).object t 0 else none).or (some .stdin)
      else if m = 1 then
        (if calls.dupDst then (a.destSupply calls).object t 1 else none).or (some .stdout)
      else if (m : ℤ) = a.srcfd ∨ (m : ℤ) = a.dstfd then none
      else t.slot m := by
  have hsrc := t.slot_redirect (Nat.succ_pos 2) hstd.isOpen (h.held_source calls) calls.dupSrc
  rw [redirect_eq]
  generalize t.redirect (a.sourceSupply calls) calls.dupSrc 0 = t₁ at hsrc ⊢
  have hsrcfd (m : ℕ) (hm : m ≠ 0) :
      t₁.slot m = if (m : ℤ) = a.srcfd then none else t.slot m := by
    rw [hsrc, if_neg hm]
    refine if_congr ?_ rfl rfl
    rcases h.fd_sourceSupply calls with hfd | ⟨hfd, hlow⟩ <;> rw [hfd]
    exact iff_of_false (by omega) (by omega)
  have hkeep (m : ℕ) (hm : m ≠ 0) (hne : (m : ℤ) ≠ a.srcfd) : t₁.slot m = t.slot m := by
    rw [hsrcfd m hm, if_neg hne]
  have hlow (m : ℕ) (hm : m ≠ 0) (hm3 : m < 3) : (m : ℤ) ≠ a.srcfd := by
    rcases h.source with h | h | ⟨-, d, h, hd, -⟩ <;> omega
  have hstd₁ : ∀ m < 3, t₁.IsOpen m := fun m hm => by
    by_cases h0 : m = 0
    · rw [FdTable.IsOpen, hsrc, if_pos h0, h0, hstd.stdin, Option.isSome_or, Option.isSome_some,
        Bool.or_true]
    · rw [FdTable.IsOpen, hkeep m h0 (hlow m h0 hm)]
      exact hstd.isOpen m hm
  have hfd := h.fd_destSupply calls
  have hheld : (a.destSupply calls).fd = ((1 : ℕ) : ℤ) ∨ (a.destSupply calls).fd = -1 ∨
      ∃ d : ℕ, (a.destSupply calls).fd = d ∧ 3 ≤ d ∧ t₁.slot d = t.slot d ∧ t.IsOpen d := by
    rcases h.held_dest calls with hone | hnone | ⟨d, hd, hd3, hopen⟩
    · exact Or.inl hone
    · exact Or.inr (Or.inl hnone)
    have hdisjoint : (d : ℤ) ≠ a.srcfd := by
      rcases hfd with hfd | ⟨hfd, -⟩ <;> rcases h.disjoint with hne | hne <;> omega
    exact Or.inr (Or.inr ⟨d, hd, hd3, hkeep d (by omega) hdisjoint, hopen⟩)
  have hopen₁ : (a.destSupply calls).fd = ((1 : ℕ) : ℤ) ∨ (a.destSupply calls).fd = -1 ∨
      ∃ d : ℕ, (a.destSupply calls).fd = d ∧ 3 ≤ d ∧ t₁.IsOpen d := by
    rcases hheld with hone | hnone | ⟨d, hd, hd3, hslot, hopen⟩
    · exact Or.inl hone
    · exact Or.inr (Or.inl hnone)
    · exact Or.inr (Or.inr ⟨d, hd, hd3, by rwa [FdTable.IsOpen, hslot]⟩)
  rw [t₁.slot_redirect (Nat.lt_succ_of_lt Nat.one_lt_two) hstd₁ hopen₁,
    FdTable.object_congr hheld fun d _ hd => hd.2.1]
  by_cases h1 : m = 1
  · subst h1
    rw [if_pos rfl, if_neg Nat.one_ne_zero, if_pos rfl, hkeep 1 Nat.one_ne_zero
      (hlow 1 Nat.one_ne_zero (by decide)), hstd.stdout]
  rw [if_neg h1]
  by_cases h0 : m = 0
  · subst h0
    rw [if_pos rfl, if_neg (by omega), hsrc, if_pos rfl, hstd.stdin]
  rw [if_neg h0, if_neg h1, hsrcfd m h0]
  by_cases hs : (m : ℤ) = a.srcfd
  · rw [if_pos hs, if_pos (Or.inl hs), ite_self]
  · rw [if_neg hs]
    refine if_congr ?_ rfl rfl
    rcases hfd with hfd | ⟨hfd, hlow⟩ <;> rw [hfd]
    · exact (or_iff_right hs).symm
    · exact iff_of_false (by omega) (by omega)

section Child

variable {sys : System} {makepipe : Bool} {term : Token} {l : Locals} {s : State}

/-- The variables with which a stage is run: as they were read, but that the output may go to a
descriptor that the shell holds. -/
structure Locals.IsReady (makepipe : Bool) (t : FdTable Obj) (l : Locals) : Prop where
  source : l.srcfd = 0 ∧ l.srcfile = [] ∨ makepipe = false ∧ l.srcfd = -1
  dest : l.dstfd = 1 ∨ l.dstfd = -1 ∨
    l.dstfile = [] ∧ ∃ d : ℕ, l.dstfd = d ∧ 3 ≤ d ∧ t.IsOpen d

/-- The object that the standard input of a child is redirected to, if the calls for it succeed. -/
def suppliedSource (calls : Calls) (makepipe : Bool) (k : ℕ) (srcfd : ℤ) (name : Bytes)
    (bckgrnd : Bool) : Option Obj :=
  if makepipe then if calls.pipe then some (.pipeRead k) else none
  else if srcfd = -1 then if name ≠ [] ∧ calls.openSrc then some (.source name) else none
  else if bckgrnd ∧ calls.openSrc then some (.source devNull) else none

/-- The object that the standard output of a child is redirected to, if the calls for it succeed,
where the shell has the table `t`. -/
def suppliedDest (calls : Calls) (t : FdTable Obj) (dstfd : ℤ) (name : Bytes)
    (append : Option Bool) : Option Obj :=
  if name ≠ [] then if calls.openDst then some (.sink name (append == some true)) else none
  else if 3 ≤ dstfd then t.slot dstfd.toNat else none

/-- The table of a child when its redirections begin: it has closed the write end of the pipe it
reads from. -/
def childTable (sys : System) (makepipe : Bool) (s : State) : FdTable Obj :=
  if (pipeEnds sys makepipe s).2 ≠ -1 then
    (afterPipe sys makepipe s).fds.sysClose (pipeEnds sys makepipe s).2
  else (afterPipe sys makepipe s).fds

theorem nextChild_fds (pid : ℕ+) :
    (nextChild sys (finishArgs sys makepipe term l s) (afterPipe sys makepipe s) pid).fds =
      redirect (sys.calls s.stages) (finishArgs sys makepipe term l s)
        (childTable sys makepipe s) := by
  rw [nextChild, runChild, afterPipe_stages]
  rfl

theorem childTable_of_not_piped (h : ¬ Piped sys makepipe s.stages) :
    childTable sys makepipe s = s.fds := by
  obtain ⟨hends, hfds⟩ := afterPipe_of_not_piped h
  rw [childTable, hends, if_neg (not_not.mpr rfl), hfds]

/-- The child of a stage with a pipe in front of it holds the read end. -/
theorem exists_readEnd (hstd : Std s.fds) (h : Piped sys makepipe s.stages) :
    ∃ r : ℕ, (pipeEnds sys makepipe s).1 = r ∧ 3 ≤ r ∧ s.fds.slot r = none ∧
      ∀ m, (childTable sys makepipe s).slot m =
        if m = r then some (.pipeRead s.stages) else s.fds.slot m := by
  obtain ⟨r, w, hends, hr, hw, hne, hfree, hfree', hslot⟩ := exists_pipeEnds hstd h
  have hw' : ((w : ℕ) : ℤ) ≠ -1 := by omega
  refine ⟨r, by rw [hends], hr, hfree, fun m => ?_⟩
  rw [childTable, hends, if_pos hw', FdTable.sysClose_natCast, FdTable.slot_close, hslot]
  by_cases hm : m = w
  · rw [if_pos hm, hm, if_neg hne.symm, hfree']
  · rw [if_neg hm, if_neg hm]

theorem std_childTable (hstd : Std s.fds) : Std (childTable sys makepipe s) := by
  by_cases h : Piped sys makepipe s.stages
  · obtain ⟨r, -, hr, -, hslot⟩ := exists_readEnd hstd h
    exact hstd.of_slot_eq fun m hm => by rw [hslot, if_neg (by omega)]
  · rw [childTable_of_not_piped h]
    exact hstd

/-- A descriptor of the shell is the same in the child. -/
theorem slot_childTable (hstd : Std s.fds) {d : ℕ} (h : s.fds.IsOpen d) :
    (childTable sys makepipe s).slot d = s.fds.slot d := by
  by_cases hpiped : Piped sys makepipe s.stages
  · obtain ⟨r, -, -, hfree, hslot⟩ := exists_readEnd hstd hpiped
    rw [hslot, if_neg]
    rintro rfl
    exact s.fds.not_isOpen_iff.mpr hfree h
  · rw [childTable_of_not_piped hpiped]

theorem finishArgs_srcfd_of_not_piped (h : ¬ Piped sys makepipe s.stages) :
    (finishArgs sys makepipe term l s).srcfd = if makepipe then -1 else l.srcfd := by
  rw [finishArgs, stageArgs, (afterPipe_of_not_piped h).1]

theorem finishArgs_srcfd_cases (hready : l.IsReady makepipe s.fds)
    (h : ¬ Piped sys makepipe s.stages) : (finishArgs sys makepipe term l s).srcfd = 0 ∨
      (finishArgs sys makepipe term l s).srcfd = -1 := by
  rw [finishArgs_srcfd_of_not_piped h]
  cases makepipe with
  | true => exact Or.inr rfl
  | false => exact hready.source.imp And.left And.right

theorem finishArgs_srcfile_eq_nil (h : l.srcfile = []) :
    (finishArgs sys makepipe term l s).srcfile = [] := by
  rw [finishArgs, stageArgs, h]
  exact cString_nil (by decide) _

theorem finishArgs_dstfile_eq_nil (h : l.dstfile = []) :
    (finishArgs sys makepipe term l s).dstfile = [] := by
  rw [finishArgs, stageArgs, h]
  exact cString_nil (by decide) _

/-- The source of a stage with a pipe in front of it. -/
theorem Locals.IsReady.srcfile_eq_nil {t : FdTable Obj} (h : l.IsReady true t) :
    l.srcfile = [] := by
  rcases h.source with ⟨-, h⟩ | ⟨h, -⟩
  · exact h
  · exact absurd h (by decide)

theorem isPlumbed_finishArgs (hstd : Std s.fds) (hready : l.IsReady makepipe s.fds) :
    (finishArgs sys makepipe term l s).IsPlumbed (childTable sys makepipe s) := by
  have hdest : l.dstfd = 1 ∨ l.dstfd = -1 ∨
      (finishArgs sys makepipe term l s).dstfile = [] ∧ ∃ d : ℕ, l.dstfd = d ∧ 3 ≤ d ∧
        (childTable sys makepipe s).IsOpen d := by
    refine hready.dest.imp_right fun h => h.imp_right fun ⟨hfile, d, hd, hd3, hopen⟩ => ?_
    refine ⟨finishArgs_dstfile_eq_nil hfile, d, hd, hd3, ?_⟩
    rw [FdTable.IsOpen, slot_childTable hstd hopen]
    exact hopen
  by_cases hpiped : Piped sys makepipe s.stages
  · obtain ⟨r, hr, hr3, hfree, hslot⟩ := exists_readEnd hstd hpiped
    obtain ⟨rfl, hok⟩ := hpiped
    have hsrcfd : (finishArgs sys true term l s).srcfd = r := hr
    refine ⟨Or.inr (Or.inr ⟨finishArgs_srcfile_eq_nil hready.srcfile_eq_nil, r, hsrcfd, hr3, ?_⟩),
      hdest, ?_⟩
    · exact FdTable.isOpen_of_slot _ ((hslot r).trans (if_pos rfl))
    · rw [hsrcfd]
      rcases hready.dest with hd | hd | ⟨-, d, hd, hd3, hopen⟩
      · exact Or.inl (show l.dstfd ≠ r by omega)
      · exact Or.inr hd
      · refine Or.inl fun h => ?_
        have hdr : d = r := Int.natCast_inj.mp (hd.symm.trans h)
        exact s.fds.not_isOpen_iff.mpr (hdr ▸ hfree) hopen
  · have hsrcfd := @finishArgs_srcfd_cases sys makepipe term l s hready hpiped
    refine ⟨hsrcfd.imp_right Or.inl, hdest, ?_⟩
    rcases hready.dest with hd | hd | ⟨-, d, hd, hd3, -⟩
    · exact Or.inl (show l.dstfd ≠ _ by omega)
    · exact Or.inr hd
    · exact Or.inl (show l.dstfd ≠ _ by omega)

/-- What the standard input of the child of a stage is redirected to. -/
theorem object_sourceSupply (hstd : Std s.fds) (hready : l.IsReady makepipe s.fds) :
    ((finishArgs sys makepipe term l s).sourceSupply (sys.calls s.stages)).object
        (childTable sys makepipe s) 0 =
      suppliedSource (sys.calls s.stages) makepipe s.stages l.srcfd
        (finishArgs sys makepipe term l s).srcfile (term == .amp) := by
  by_cases hpiped : Piped sys makepipe s.stages
  · obtain ⟨r, hr, hr3, -, hslot⟩ := exists_readEnd hstd hpiped
    obtain ⟨rfl, hok⟩ := hpiped
    have hsrcfd : (finishArgs sys true term l s).srcfd = r := hr
    have hfile : (finishArgs sys true term l s).srcfile = [] :=
      finishArgs_srcfile_eq_nil hready.srcfile_eq_nil
    have hzero : ¬ ((r : ℤ) = 0 ∧ (finishArgs sys true term l s).bckgrnd = true) := by omega
    have hheld : ¬ ((r : ℤ) = ((0 : ℕ) : ℤ) ∨ (r : ℤ) < 0) := by omega
    rw [Invocation.sourceSupply, hsrcfd, if_neg hzero, if_neg (not_not.mpr hfile), Supply.object,
      if_neg hheld, Int.toNat_natCast, hslot, if_pos rfl, suppliedSource, if_pos rfl, if_pos hok]
  · rw [Invocation.sourceSupply, finishArgs_srcfd_of_not_piped hpiped, suppliedSource]
    cases makepipe with
    | true =>
      have hfile : (finishArgs sys true term l s).srcfile = [] :=
        finishArgs_srcfile_eq_nil hready.srcfile_eq_nil
      have hok : ¬ (sys.calls s.stages).pipe = true := fun h => hpiped ⟨rfl, h⟩
      simp [hfile, hok, Supply.object]
    | false =>
      rcases hready.source with ⟨hsrcfd, hnil⟩ | ⟨-, hsrcfd⟩
      · have hfile : (finishArgs sys false term l s).srcfile = [] :=
          finishArgs_srcfile_eq_nil hnil
        have hbg : (finishArgs sys false term l s).bckgrnd = (term == .amp) := rfl
        rw [hsrcfd, hfile, hbg]
        cases term == .amp <;> simp [Supply.object]
      · by_cases hfile : (finishArgs sys false term l s).srcfile = [] <;>
          simp [hsrcfd, hfile, Supply.object]

/-- What the standard output of the child of a stage is redirected to. -/
theorem object_destSupply (hstd : Std s.fds) (hready : l.IsReady makepipe s.fds) :
    ((finishArgs sys makepipe term l s).destSupply (sys.calls s.stages)).object
        (childTable sys makepipe s) 1 =
      suppliedDest (sys.calls s.stages) s.fds l.dstfd (finishArgs sys makepipe term l s).dstfile
        l.append := by
  have hdstfd : (finishArgs sys makepipe term l s).dstfd = l.dstfd := rfl
  have happend : (finishArgs sys makepipe term l s).append = l.append := rfl
  rw [Invocation.destSupply, suppliedDest, hdstfd, happend]
  split_ifs with hfile hopen hd
  · simp [Supply.object, hopen]
  · simp [Supply.object, hopen]
  · rcases hready.dest with h | h | ⟨-, d, h, hd3, hopen⟩
    · omega
    · omega
    · have hheld : ¬ ((d : ℤ) = ((1 : ℕ) : ℤ) ∨ (d : ℤ) < 0) := by omega
      rw [h, Supply.object, if_neg hheld, Int.toNat_natCast, slot_childTable hstd hopen]
  · refine if_pos ?_
    rcases hready.dest with h | h | ⟨-, d, h, hd3, -⟩ <;> omega

/-- **The descriptors of a child.** A child has its standard descriptors, redirected as far as the
calls for that succeeded, and what else the shell held, but not the descriptor its output goes
to. -/
theorem slot_nextChild (hstd : Std s.fds) (hready : l.IsReady makepipe s.fds) (pid : ℕ+) (m : ℕ) :
    (nextChild sys (finishArgs sys makepipe term l s) (afterPipe sys makepipe s) pid).fds.slot m =
      if m = 0 then
        (if (sys.calls s.stages).dupSrc then
          suppliedSource (sys.calls s.stages) makepipe s.stages l.srcfd
            (finishArgs sys makepipe term l s).srcfile (term == .amp)
        else none).or (some .stdin)
      else if m = 1 then
        (if (sys.calls s.stages).dupDst then
          suppliedDest (sys.calls s.stages) s.fds l.dstfd
            (finishArgs sys makepipe term l s).dstfile l.append
        else none).or (some .stdout)
      else if (m : ℤ) = l.dstfd then none else s.fds.slot m := by
  have hplumbed := @isPlumbed_finishArgs sys makepipe term l s hstd hready
  rw [nextChild_fds, slot_redirect (std_childTable hstd) hplumbed, object_sourceSupply hstd hready,
    object_destSupply hstd hready]
  refine if_ctx_congr Iff.rfl (fun _ => rfl) fun h0 => if_congr Iff.rfl rfl ?_
  have hdstfd : (finishArgs sys makepipe term l s).dstfd = l.dstfd := rfl
  rw [hdstfd]
  by_cases hpiped : Piped sys makepipe s.stages
  · obtain ⟨r, hr, hr3, hfree, hslot⟩ := exists_readEnd hstd hpiped
    have hsrcfd : (finishArgs sys makepipe term l s).srcfd = r := by
      rw [finishArgs, stageArgs, if_pos hpiped.1]
      exact hr
    rw [hsrcfd, hslot]
    by_cases hm : m = r
    · rw [if_pos (Or.inl (congrArg _ hm)), hm, hfree, ite_self]
    · rw [if_neg hm]
      exact if_congr (or_iff_right (mt Int.natCast_inj.mp hm)) rfl rfl
  · rw [childTable_of_not_piped hpiped]
    refine if_congr (or_iff_right ?_) rfl rfl
    rcases finishArgs_srcfd_cases hready hpiped with hsrcfd | hsrcfd <;> rw [hsrcfd] <;> omega

end Child

/-! ### The shell after a stage -/

theorem Invocation.slot_closeEnds (a : Invocation) (t : FdTable Obj) (m : ℕ) :
    (a.closeEnds t).slot m =
      if 1 < a.srcfd ∧ (m : ℤ) = a.srcfd ∨ 1 < a.dstfd ∧ (m : ℤ) = a.dstfd then none
      else t.slot m := by
  simp only [closeEnds]
  by_cases hs : 1 < a.srcfd <;> by_cases hd : 1 < a.dstfd <;>
    simp only [hs, hd, ↓reduceIte, FdTable.slot_sysClose, true_and, false_and, or_false, false_or]
  split_ifs <;> tauto

/-- The descriptor is the write end of pipe `k`, or `-1` where there is no such pipe. -/
def HoldsEnd (sys : System) (t : FdTable Obj) (k : ℕ) (fd : Option ℤ) : Prop :=
  if (sys.calls k).pipe then ∃ n : ℕ, fd = some (n : ℤ) ∧ 3 ≤ n ∧ t.slot n = some (.pipeWrite k)
  else fd = some (-1)

section Finish

variable {sys : System} {makepipe : Bool} {token term : Token} {l : Locals} {s : State}

theorem finish_fds_of_forks_eq_none
    (h : (finishArgs sys makepipe term l s).forks (sys.calls s.stages) = none) :
    (finish sys makepipe token term l s).2.fds = (afterPipe sys makepipe s).fds := by
  rw [finish_fds, invoke_fds, afterPipe_stages, h]
  rfl

/-- After a stage that was run in a child the shell has closed what the child has taken over, and
holds the write end of the new pipe. -/
theorem slot_finish_of_forks (hstd : Std s.fds) (hready : l.IsReady makepipe s.fds)
    (h : ((finishArgs sys makepipe term l s).forks (sys.calls s.stages)).isSome) (m : ℕ) :
    (finish sys makepipe token term l s).2.fds.slot m =
      if Piped sys makepipe s.stages ∧ (m : ℤ) = (pipeEnds sys makepipe s).2 then
        some (.pipeWrite s.stages)
      else if 3 ≤ m ∧ (m : ℤ) = l.dstfd then none else s.fds.slot m := by
  have hdstfd : (finishArgs sys makepipe term l s).dstfd = l.dstfd := rfl
  have hdst : 1 < l.dstfd ∧ (m : ℤ) = l.dstfd ↔ 3 ≤ m ∧ (m : ℤ) = l.dstfd := by
    rcases hready.dest with hd | hd | ⟨-, d, hd, hd3, -⟩ <;> rw [hd] <;> omega
  rw [finish_fds, invoke_fds, afterPipe_stages, if_pos h, Invocation.slot_closeEnds, hdstfd,
    if_congr (or_congr_right hdst) rfl rfl]
  by_cases hpiped : Piped sys makepipe s.stages
  · obtain ⟨r, w, hends, hr, hw, hne, hfree, hfree', hslot⟩ := exists_pipeEnds hstd hpiped
    have hsrcfd : (finishArgs sys makepipe term l s).srcfd = r := by
      rw [finishArgs, stageArgs, if_pos hpiped.1, hends]
    have hwd : (w : ℤ) ≠ l.dstfd := by
      rcases hready.dest with hd | hd | ⟨-, d, hd, -, hopen⟩
      · omega
      · omega
      · intro hwd
        have hdw : d = w := Int.natCast_inj.mp (hd.symm.trans hwd.symm)
        exact s.fds.not_isOpen_iff.mpr (hdw ▸ hfree') hopen
    rw [hends, hsrcfd, hslot]
    by_cases hmw : m = w
    · subst hmw
      have hmr : ¬ (1 < (r : ℤ) ∧ (m : ℤ) = r ∨ 3 ≤ m ∧ (m : ℤ) = l.dstfd) := by
        rintro (⟨-, h⟩ | ⟨-, h⟩)
        · exact hne (Int.natCast_inj.mp h).symm
        · exact hwd h
      rw [if_neg hmr, if_pos rfl, if_pos ⟨hpiped, rfl⟩]
    · have hmw' : ¬ (Piped sys makepipe s.stages ∧ (m : ℤ) = w) := fun h =>
        hmw (Int.natCast_inj.mp h.2)
      rw [if_neg hmw, if_neg hmw']
      by_cases hmr : m = r
      · subst hmr
        have hclosed : 1 < (m : ℤ) ∧ (m : ℤ) = m := ⟨by omega, rfl⟩
        rw [if_pos (Or.inl hclosed), hfree, ite_self]
      · rw [if_neg hmr]
        exact if_congr (or_iff_right fun h => hmr (Int.natCast_inj.mp h.2)) rfl rfl
  · have hnone : ¬ (Piped sys makepipe s.stages ∧ (m : ℤ) = (pipeEnds sys makepipe s).2) :=
      fun h => hpiped h.1
    have hsrc : ¬ (1 < (finishArgs sys makepipe term l s).srcfd ∧
        (m : ℤ) = (finishArgs sys makepipe term l s).srcfd) := by
      rcases @finishArgs_srcfd_cases sys makepipe term l s hready hpiped with h | h <;>
        rw [h] <;> omega
    rw [if_neg hnone, (afterPipe_of_not_piped hpiped).2]
    exact if_congr (or_iff_right hsrc) rfl rfl

theorem std_finish (hstd : Std s.fds) (hready : l.IsReady makepipe s.fds) :
    Std (finish sys makepipe token term l s).2.fds := by
  cases h : (finishArgs sys makepipe term l s).forks (sys.calls s.stages) with
  | none =>
    rw [finish_fds_of_forks_eq_none h]
    exact std_afterPipe hstd
  | some pid =>
    refine hstd.of_slot_eq fun m hm => ?_
    rw [slot_finish_of_forks hstd hready (by rw [h]; rfl), if_neg, if_neg (by omega)]
    rintro ⟨hpiped, hmw⟩
    obtain ⟨r, w, hends, -, hw, -⟩ := exists_pipeEnds hstd hpiped
    rw [hends] at hmw
    exact absurd (Int.natCast_inj.mp hmw) (by omega)

/-- A stage hands on the write end of the pipe in front of it. -/
theorem holdsEnd_finish (hstd : Std s.fds) (hready : l.IsReady true s.fds) :
    HoldsEnd sys (finish sys true token term l s).2.fds s.stages
      (finish sys true token term l s).1 := by
  rw [HoldsEnd, finish_fst, if_pos rfl]
  split_ifs with hok
  · have hpiped : Piped sys true s.stages := ⟨rfl, hok⟩
    obtain ⟨r, w, hends, -, hw, hne, -, -, hslot⟩ := exists_pipeEnds hstd hpiped
    refine ⟨w, by rw [hends], hw, ?_⟩
    cases h : (finishArgs sys true term l s).forks (sys.calls s.stages) with
    | none => rw [finish_fds_of_forks_eq_none h, hslot, if_pos rfl]
    | some pid =>
      rw [slot_finish_of_forks hstd hready (by rw [h]; rfl), hends, if_pos ⟨hpiped, rfl⟩]
  · rw [(afterPipe_of_not_piped fun h => hok h.2).1]

end Finish

/-! ### The shell between two stages -/

section RunStages

variable {sys : System} {term : Terminator} {s : State}

/-- A stage is ready to be run when the stages behind it have handed on the pipe end. -/
theorem isReady_runLocals {makepipe : Bool} {st : Stage} {sts : List Stage}
    (hset : StagesSet makepipe (st :: sts))
    (hend : ∀ st' sts', sts = st' :: sts' →
      HoldsEnd sys (runStages sys term true sts s).2.fds (s.stages + sts'.length)
        (runStages sys term true sts s).1) :
    (runLocals sys term st sts s).IsReady makepipe (runStages sys term true sts s).2.fds := by
  obtain ⟨hst, hbar, -⟩ := hset
  refine ⟨hst.source, ?_⟩
  cases sts with
  | nil => exact hst.dest.imp And.left fun h => Or.inl h.1
  | cons st' sts' =>
    have hdstfile := hst.dstfile_eq_nil (hbar (List.cons_ne_nil _ _))
    have hholds := hend st' sts' rfl
    rw [HoldsEnd] at hholds
    rw [runLocals]
    split_ifs at hholds with hok
    · obtain ⟨n, hn, hn3, hslot⟩ := hholds
      exact Or.inr (Or.inr ⟨hdstfile, n, by rw [hn]; rfl, hn3, FdTable.isOpen_of_slot _ hslot⟩)
    · exact Or.inr (Or.inl (by rw [hholds]; rfl))

/-- **Between two stages** the shell has its standard descriptors, and the write end of the last
pipe. -/
theorem wired_runStages (sys : System) (term : Terminator) {makepipe : Bool} {sts : List Stage}
    (hstd : Std s.fds) (hset : StagesSet makepipe sts) :
    Std (runStages sys term makepipe sts s).2.fds ∧
      ∀ st sts', sts = st :: sts' → makepipe = true →
        HoldsEnd sys (runStages sys term makepipe sts s).2.fds (s.stages + sts'.length)
          (runStages sys term makepipe sts s).1 := by
  induction sts generalizing makepipe with
  | nil => exact ⟨hstd, nofun⟩
  | cons st sts ih =>
    obtain ⟨hstd', hend⟩ := ih hset.2.2
    have hready := isReady_runLocals hset fun st' sts' h => hend st' sts' h rfl
    rw [runStages_cons]
    refine ⟨std_finish hstd' hready, ?_⟩
    rintro st' sts' h rfl
    obtain ⟨-, rfl⟩ := List.cons.inj h
    have hholds := @holdsEnd_finish sys st.token term.token _ _ hstd' hready
    rwa [runStages_stages] at hholds

/-! ### Every child is the child of a stage -/

theorem children_finish (sys : System) (makepipe : Bool) (token term : Token) (l : Locals)
    (s : State) :
    (s.since (finish sys makepipe token term l s).2).filterMap Event.toChild =
      (((finishArgs sys makepipe term l s).forks (sys.calls s.stages)).map
        (nextChild sys (finishArgs sys makepipe term l s) (afterPipe sys makepipe s))).toList := by
  obtain ⟨es, hes, htrace⟩ := exists_finishRecord sys makepipe token term l s
  have hchildren := hes.children
  rw [afterPipe_stages] at hchildren
  rw [State.since_eq htrace, missingEvents, ← hchildren]
  split_ifs <;> simp [List.filterMap_cons, Event.toChild]

/-- The child of the stage between `pre` and `post`. -/
structure IsChildOf (sys : System) (term : Terminator) (makepipe : Bool) (s : State)
    (pre : List Stage) (st : Stage) (post : List Stage) (c : Child) : Prop where
  stage : c.stage = s.stages + post.length
  child : ∃ pid, st.forks (sys.calls (s.stages + post.length)) = some pid ∧
    c = nextChild sys
      (finishArgs sys (makepipe || !pre.isEmpty) term.token (runLocals sys term st post s)
        (runStages sys term true post s).2)
      (afterPipe sys (makepipe || !pre.isEmpty) (runStages sys term true post s).2) pid

theorem IsChildOf.cons {pre post : List Stage} {st st' : Stage} {c : Child}
    (h : IsChildOf sys term true s pre st post c) :
    IsChildOf sys term makepipe s (st' :: pre) st post c := by
  refine ⟨h.stage, ?_⟩
  have hchild := h.child
  rw [Bool.true_or] at hchild
  rwa [List.isEmpty_cons, Bool.not_false, Bool.or_true]

/-- Every child that is forked while a pipeline is run is the child of one of its stages. -/
theorem exists_stage_of_child {makepipe : Bool} {sts : List Stage} {c : Child}
    (hc : c ∈ (s.since (runStages sys term makepipe sts s).2).filterMap Event.toChild) :
    ∃ pre st post, sts = pre ++ st :: post ∧ IsChildOf sys term makepipe s pre st post c := by
  induction sts generalizing makepipe with
  | nil =>
    rw [runStages, State.since_self] at hc
    exact absurd hc List.not_mem_nil
  | cons st sts ih =>
    rw [since_runStages_cons, List.filterMap_append, List.mem_append] at hc
    rcases hc with hc | hc
    · obtain ⟨pre, st', post, rfl, hchild⟩ := ih hc
      exact ⟨st :: pre, st', post, rfl, hchild.cons⟩
    · rw [runStages_cons, children_finish, finishArgs_forks, runStages_stages] at hc
      obtain ⟨pid, hpid, rfl⟩ := by simpa using hc
      refine ⟨[], st, sts, rfl, ?_, pid, hpid, ?_⟩
      · rw [nextChild, runChild, afterPipe_stages, runStages_stages]
      · rw [List.isEmpty_nil, Bool.not_true, Bool.or_false]

/-- The children of different stages have different numbers. -/
theorem IsChildOf.unique {makepipe : Bool} {pre pre' post post' : List Stage} {st st' : Stage}
    {c : Child} (h : IsChildOf sys term makepipe s pre st post c)
    (hsts : pre ++ st :: post = pre' ++ st' :: post') (hstage : c.stage = s.stages + post'.length) :
    pre = pre' ∧ st = st' ∧ post = post' := by
  have hlen : post.length = post'.length := by
    have hnum := h.stage
    omega
  obtain ⟨hpre, hcons⟩ := List.append_inj' hsts (congrArg (· + 1) hlen)
  obtain ⟨hst, hpost⟩ := List.cons.inj hcons
  exact ⟨hpre, hst, hpost⟩

theorem StagesSet.append {makepipe : Bool} {pre sts : List Stage}
    (h : StagesSet makepipe (pre ++ sts)) : StagesSet (makepipe || !pre.isEmpty) sts := by
  induction pre generalizing makepipe with
  | nil =>
    rw [List.isEmpty_nil, Bool.not_true, Bool.or_false]
    exact h
  | cons st pre ih =>
    have hrest := ih h.2.2
    rw [List.isEmpty_cons, Bool.not_false, Bool.or_true]
    rwa [Bool.true_or] at hrest

/-- **The descriptors of the child of a stage.** -/
theorem IsChildOf.slot {makepipe : Bool} {pre post : List Stage} {st : Stage} {c : Child}
    (h : IsChildOf sys term makepipe s pre st post c) (hstd : Std s.fds)
    (hset : StagesSet makepipe (pre ++ st :: post)) (m : ℕ) : c.fds.slot m =
      if m = 0 then
        (if (sys.calls c.stage).dupSrc then
          suppliedSource (sys.calls c.stage) (makepipe || !pre.isEmpty) c.stage st.locals.srcfd
            (st.sourceName sys s.stdin.unread.length) (term.token == .amp)
        else none).or (some .stdin)
      else if m = 1 then
        (if (sys.calls c.stage).dupDst then
          suppliedDest (sys.calls c.stage) (runStages sys term true post s).2.fds
            ((runStages sys term true post s).1.getD st.locals.dstfd)
            (st.destName sys s.stdin.unread.length) st.locals.append
        else none).or (some .stdout)
      else if (m : ℤ) = (runStages sys term true post s).1.getD st.locals.dstfd then none
      else (runStages sys term true post s).2.fds.slot m := by
  have hset' := hset.append
  obtain ⟨hstd', hend⟩ := wired_runStages sys term hstd hset'.2.2
  have hready := isReady_runLocals hset' fun st' sts' h => hend st' sts' h rfl
  obtain ⟨hstage, pid, -, rfl⟩ := h
  rw [slot_nextChild hstd' hready, hstage, runStages_stages]
  simp only [finishArgs, stageArgs, runStages_stdin]
  rfl

end RunStages

/-- The children of a typed line are those forked while its stages are run. -/
theorem Line.IsTyped.since_children {L : Line} {rest : Stdin} (h : L.IsTyped sys s rest) :
    ∃ s₁, OnlyReads s s₁ ∧ s₁.stdin = rest ∧
      (s.since (command sys false s).2).filterMap Event.toChild =
        (s₁.since (runStages sys L.term false (L.stages sys ⟨{}, s.mallocs⟩) s₁).2).filterMap
          Event.toChild := by
  obtain ⟨s₁, hreading, honly, hstdin, -⟩ := h.reading
  refine ⟨s₁, honly, hstdin, ?_⟩
  rw [since_command hreading, List.filterMap_append, honly.toChild, List.nil_append]

end UnixStudy.Shell
