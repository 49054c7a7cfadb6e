import UnixStudy.Shell.Plumbing

/-!
# Which pipelines leave a descriptor open

The ends of the pipes are opened by `command` and closed by `invoke`, which returns early for an
empty stage, for a builtin and when `fork` fails. Each of these leaves the ends that the stage was
to use open, for good: no later call closes them. So the shell has the same descriptors as before
exactly if every such stage has no pipe at either side (`leaksNothing_iff`). When it has more,
`fd_check` ends the shell.

The pending end of a pipe is the one thing that is rightly open between two stages, so the invariant
of the run speaks about the descriptors other than this (`Tidy`).

## Main definitions

* `Tidy` : nothing is open but the standard descriptors and the pending end.
* `Sealed` : a stage that is not run in a child has no pipe at either side.
* `LeaksNothing` : the shell has the same descriptors open as before.

## Main results

* `tidy_finish_iff`, `tidy_runStages_iff` : one stage, and a pipeline.
* `leaksNothing_iff` : when no descriptor is left open.

## References

* `src/communication/shell.c`, lines 86–107, 233–275, 326–355 and 364–387.
-/

namespace UnixStudy.Shell

/-- Nothing is open but the standard descriptors and the descriptor `fd`. -/
def Tidy (t : FdTable Obj) (fd : ℤ) : Prop := ∀ m, t.IsOpen m → m < 3 ∨ (m : ℤ) = fd

namespace Tidy

variable {t : FdTable Obj} {fd fd' : ℤ}

/-- A descriptor below `3` is a standard one, or none. -/
theorem congr_of_lt (h : fd < 3) (h' : fd' < 3) : Tidy t fd ↔ Tidy t fd' := by
  have hlow {fd : ℤ} (hfd : fd < 3) : Tidy t fd ↔ ∀ m, t.IsOpen m → m < 3 :=
    forall₂_congr fun m _ => or_iff_left_of_imp fun hm => by omega
  rw [hlow h, hlow h']

theorem of_openSet_eq (h : t.openSet = {0, 1, 2}) : Tidy t 1 := by
  intro m hm
  rw [← FdTable.mem_openSet, h] at hm
  simp only [Finset.mem_insert, Finset.mem_singleton] at hm
  omega

theorem openSet_eq (hstd : Std t) : Tidy t 1 ↔ t.openSet = {0, 1, 2} := by
  refine ⟨fun h => ?_, of_openSet_eq⟩
  ext m
  rw [FdTable.mem_openSet]
  simp only [Finset.mem_insert, Finset.mem_singleton]
  constructor
  · intro hm
    rcases h m hm with hlt | heq <;> omega
  · intro hm
    exact hstd.isOpen m (by omega)

/-- `fd_check` finds nothing. -/
theorem fdCheck (h : Tidy t 1) : fdCheck t = true := by
  simp only [Shell.fdCheck, List.all_eq_true, Bool.not_eq_true', decide_eq_false_iff_not]
  intro m hm hopen
  have hge : 3 ≤ m := (List.mem_range'_1.mp hm).1
  rcases h m hopen with hlt | heq <;> omega

end Tidy

/-! ### One stage -/

section Finish

variable {sys : System} {makepipe : Bool} {token term : Token} {l : Locals} {s : State}

/-- The value of `*pipefdp`, or a standard descriptor where there is none. -/
theorem finish_fst_getD : (finish sys makepipe token term l s).1.getD 1 =
    if makepipe then (pipeEnds sys makepipe s).2 else 1 := by
  rw [finish_fst]
  split_ifs <;> rfl

/-- **Leaks of one stage.** A stage leaves nothing open but its own pending end, if nothing else was
open and either it is run in a child or it has no pipe at either side. -/
theorem tidy_finish_iff (hstd : Std s.fds) (hready : l.IsReady makepipe s.fds) :
    Tidy (finish sys makepipe token term l s).2.fds
        ((finish sys makepipe token term l s).1.getD 1) ↔
      Tidy s.fds l.dstfd ∧
        (((finishArgs sys makepipe term l s).forks (sys.calls s.stages)).isSome ∨
          ¬ Piped sys makepipe s.stages ∧ l.dstfd < 3) := by
  rw [finish_fst_getD]
  have hone : (1 : ℤ) < 3 := by decide
  have hend : ¬ Piped sys makepipe s.stages →
      (if makepipe then (pipeEnds sys makepipe s).2 else 1) < 3 := fun hpiped => by
    rw [(afterPipe_of_not_piped hpiped).1]
    split_ifs <;> decide
  cases hforks : (finishArgs sys makepipe term l s).forks (sys.calls s.stages) with
  | none =>
    rw [finish_fds_of_forks_eq_none hforks, Option.isSome_none,
      or_iff_right Bool.false_ne_true]
    by_cases hpiped : Piped sys makepipe s.stages
    · -- the read end stays open, and nothing stands for it
      obtain ⟨r, w, hends, hr, hw, hne, -, -, hslot⟩ := exists_pipeEnds hstd hpiped
      refine iff_of_false (fun htidy => ?_) fun h => h.2.1 hpiped
      have hopen : (afterPipe sys makepipe s).fds.IsOpen r := by
        rw [FdTable.IsOpen, hslot, if_neg hne, if_pos rfl]
        rfl
      rw [if_pos hpiped.1, hends] at htidy
      rcases htidy r hopen with hlt | heq
      · omega
      · exact hne (Int.natCast_inj.mp heq)
    · rw [(afterPipe_of_not_piped hpiped).2, Tidy.congr_of_lt (hend hpiped) hone]
      constructor
      · intro htidy
        have hlow : l.dstfd < 3 := by
          rcases hready.dest with hd | hd | ⟨-, d, hd, hd3, hopen⟩
          · omega
          · omega
          · rcases htidy d hopen with hlt | heq <;> omega
        exact ⟨(Tidy.congr_of_lt hone hlow).mp htidy, hpiped, hlow⟩
      · rintro ⟨htidy, -, hlow⟩
        exact (Tidy.congr_of_lt hlow hone).mp htidy
  | some pid =>
    rw [Option.isSome_some, and_iff_left (Or.inl rfl)]
    have hslot := @slot_finish_of_forks sys makepipe token term l s hstd hready
      (Option.isSome_of_eq_some hforks)
    refine forall_congr' fun m => ?_
    rw [FdTable.IsOpen, hslot]
    by_cases hpend : Piped sys makepipe s.stages ∧ (m : ℤ) = (pipeEnds sys makepipe s).2
    · -- the new end, which was free
      obtain ⟨r, w, hends, -, -, -, -, hfree, -⟩ := exists_pipeEnds hstd hpend.1
      have hmw : m = w := by
        rw [hends] at hpend
        exact Int.natCast_inj.mp hpend.2
      rw [if_pos hpend, if_pos hpend.1.1, FdTable.IsOpen, hmw, hfree]
      exact iff_of_true (fun _ => Or.inr (by rw [hends])) fun h => absurd h Bool.false_ne_true
    · rw [if_neg hpend]
      have hnone : m < 3 ∨ (m : ℤ) = (if makepipe then (pipeEnds sys makepipe s).2 else 1) ↔
          m < 3 := by
        refine or_iff_left_of_imp fun hm => ?_
        by_cases hpiped : Piped sys makepipe s.stages
        · rw [if_pos hpiped.1] at hm
          exact absurd ⟨hpiped, hm⟩ hpend
        · have hlt := hend hpiped
          omega
      rw [hnone]
      by_cases hd : 3 ≤ m ∧ (m : ℤ) = l.dstfd
      · rw [if_pos hd]
        exact iff_of_true (fun h => absurd h Bool.false_ne_true) fun _ => Or.inr hd.2
      · rw [if_neg hd]
        refine imp_congr_right fun _ => ?_
        omega

end Finish

/-! ### A whole pipeline -/

/-- Every stage that is not run in a child, being empty or a builtin or for want of a process, has
no pipe in front of it and none behind it, where the stages run so far are `k`. -/
def Sealed (sys : System) (k : ℕ) : Bool → List Stage → Prop
  | _, [] => True
  | makepipe, st :: sts => Sealed sys k true sts ∧
      ((st.forks (sys.calls (k + sts.length))).isSome ∨
        ¬ Piped sys makepipe (k + sts.length) ∧
          (sts = [] ∨ (sys.calls (k + sts.length - 1)).pipe = false))

section RunStages

variable {sys : System} {term : Terminator} {s : State}

/-- The output of a stage goes to a pipe if there is a stage behind it and the pipe was made. -/
theorem runLocals_dstfd_lt {makepipe : Bool} {st : Stage} {sts : List Stage}
    (hset : StagesSet makepipe (st :: sts))
    (hend : ∀ st' sts', sts = st' :: sts' →
      HoldsEnd sys (runStages sys term true sts s).2.fds (s.stages + sts'.length)
        (runStages sys term true sts s).1) :
    (runLocals sys term st sts s).dstfd < 3 ↔
      sts = [] ∨ (sys.calls (s.stages + sts.length - 1)).pipe = false := by
  cases sts with
  | nil =>
    refine iff_of_true ?_ (Or.inl rfl)
    rw [runLocals_dstfd, runStages, Option.getD_none]
    rcases hset.1.dest with ⟨hd, -⟩ | ⟨hd, -⟩ <;> rw [hd] <;> decide
  | cons st' sts' =>
    have hholds := hend st' sts' rfl
    have hnum : s.stages + (st' :: sts').length - 1 = s.stages + sts'.length := rfl
    rw [or_iff_right (List.cons_ne_nil _ _), hnum, runLocals_dstfd]
    rw [HoldsEnd] at hholds
    split_ifs at hholds with hpipe
    · obtain ⟨d, hd, hd3, -⟩ := hholds
      rw [hd, hpipe, Option.getD_some]
      exact iff_of_false (by omega) Bool.noConfusion
    · rw [hholds, Option.getD_some]
      exact iff_of_true (by omega) (Bool.eq_false_of_not_eq_true hpipe)

theorem tidy_runLocals_iff {makepipe : Bool} {st : Stage} {sts : List Stage} {t : FdTable Obj}
    (hset : StagesSet makepipe (st :: sts)) :
    Tidy t (runLocals sys term st sts s).dstfd ↔
      Tidy t ((runStages sys term true sts s).1.getD 1) := by
  cases sts with
  | nil =>
    refine Tidy.congr_of_lt ?_ (by decide : (1 : ℤ) < 3)
    rw [runLocals_dstfd, runStages, Option.getD_none]
    rcases hset.1.dest with ⟨hd, -⟩ | ⟨hd, -⟩ <;> rw [hd] <;> decide
  | cons st' sts' =>
    rw [runLocals_dstfd, runStages_cons, finish_fst, if_pos rfl, Option.getD_some,
      Option.getD_some]

/-- **Leaks of a pipeline.** A pipeline leaves nothing open but its pending end exactly if it is
sealed. -/
theorem tidy_runStages_iff (sys : System) (term : Terminator) {makepipe : Bool}
    {sts : List Stage} (hstd : Std s.fds) (htidy : Tidy s.fds 1)
    (hset : StagesSet makepipe sts) :
    Tidy (runStages sys term makepipe sts s).2.fds
        ((runStages sys term makepipe sts s).1.getD 1) ↔ Sealed sys s.stages makepipe sts := by
  induction sts generalizing makepipe with
  | nil => exact iff_of_true htidy trivial
  | cons st sts ih =>
    obtain ⟨hstd', hend⟩ := wired_runStages sys term hstd hset.2.2
    have hend' := fun st' sts' h => hend st' sts' h rfl
    rw [runStages_cons, tidy_finish_iff hstd' (isReady_runLocals hset hend'), finishArgs_forks,
      runStages_stages, tidy_runLocals_iff hset, ih hset.2.2, runLocals_dstfd_lt hset hend', Sealed]

end RunStages

/-! ### The outermost call -/

section Outermost

variable {sys : System} {s : State}

/-- If the call of `command` returns to `start_shell`, then the shell has the same descriptors open
as before, and `fd_check` does not end it. -/
def LeaksNothing (sys : System) (s : State) : Prop :=
  ∀ t fd, (command sys false s).1 = .returned t fd →
    (command sys false s).2.fds.openSet = s.fds.openSet ∧ fdCheck (command sys false s).2.fds

/-- The shell keeps its standard descriptors. -/
theorem std_command (hstd : Std s.fds) : Std (command sys false s).2.fds := by
  by_cases hline : ∃ L rest, Line.IsTyped sys s L rest
  · obtain ⟨L, rest, htyped⟩ := hline
    obtain ⟨s₁, hreading, honly, -⟩ := htyped.reading
    rw [command_of_reading hreading]
    exact (wired_runStages sys L.term (by rwa [honly.fds]) htyped.stagesSet).1
  · rwa [(onlyReads_of_not_isTyped fun L rest h => hline ⟨L, rest, h⟩).fds]

/-- The shell has nothing but its standard descriptors open after a line exactly if the line is
sealed. -/
theorem Line.IsTyped.openSet_command {L : Line} {rest : Stdin} (h : L.IsTyped sys s rest)
    (hstd : Std s.fds) (hopen : s.fds.openSet = {0, 1, 2}) :
    (command sys false s).2.fds.openSet = {0, 1, 2} ↔
      Sealed sys s.stages false (L.stages sys ⟨{}, s.mallocs⟩) := by
  obtain ⟨s₁, hreading, honly, -⟩ := h.reading
  have hstd₁ : Std s₁.fds := by rwa [honly.fds]
  have htidy : Tidy s₁.fds 1 := by rwa [honly.fds, Tidy.openSet_eq hstd]
  have hrun := tidy_runStages_iff sys L.term hstd₁ htidy h.stagesSet
  rw [runStages_fst_false, honly.stages] at hrun
  rw [← Tidy.openSet_eq (std_command hstd), command_of_reading hreading]
  exact hrun

/-- **When no descriptor is left open.** A call of `command` leaves the descriptors of the shell as
they were exactly if every stage that is not run in a child has no pipe at either side. -/
theorem leaksNothing_iff (hstd : Std s.fds) (hopen : s.fds.openSet = {0, 1, 2}) :
    LeaksNothing sys s ↔ ∀ L rest, Line.IsTyped sys s L rest →
      Sealed sys s.stages false (L.stages sys ⟨{}, s.mallocs⟩) := by
  constructor
  · intro h L rest htyped
    obtain ⟨s₁, hreading, -⟩ := htyped.reading
    rw [← htyped.openSet_command hstd hopen, ← hopen]
    exact (h L.term.token none (congrArg Prod.fst (command_of_reading hreading))).1
  · intro h t fd _
    have hsame : (command sys false s).2.fds.openSet = s.fds.openSet := by
      by_cases hline : ∃ L rest, Line.IsTyped sys s L rest
      · obtain ⟨L, rest, htyped⟩ := hline
        rw [(htyped.openSet_command hstd hopen).mpr (h L rest htyped), hopen]
      · rw [(onlyReads_of_not_isTyped fun L rest h => hline ⟨L, rest, h⟩).fds]
    refine ⟨hsame, Tidy.fdCheck ((Tidy.openSet_eq (std_command hstd)).mpr ?_)⟩
    rw [hsame, hopen]

/-- Before `ls` the shell has its standard descriptors open and nothing else. -/
theorem leaksNothing_iff_ls : LeaksNothing .obliging (.start [108, 115, 10]) ↔
    ∀ L rest, Line.IsTyped .obliging (.start [108, 115, 10]) L rest →
      Sealed .obliging 0 false (L.stages .obliging ⟨{}, 0⟩) :=
  leaksNothing_iff ⟨rfl, rfl, rfl⟩ (by decide)

/-- `set|cat` leaves the end of its pipe open that is written to. -/
theorem not_leaksNothing_builtin :
    ¬ LeaksNothing .obliging (.start [115, 101, 116, 124, 99, 97, 116, 10]) := by
  intro h
  have hleak : (command .obliging false
      (.start [115, 101, 116, 124, 99, 97, 116, 10])).1 = .returned .nl none ∧
      ¬ fdCheck (command .obliging false
        (.start [115, 101, 116, 124, 99, 97, 116, 10])).2.fds := by decide
  exact hleak.2 (h _ _ hleak.1).2

end Outermost

end UnixStudy.Shell
