import UnixStudy.Shell.Plumbing

/-!
# Redirections that could not be set up

The child of a stage does not look at the results of `open` and `dup2`, the shell does not look at
that of `pipe`, and an empty file name is taken for none. So a program is started on the descriptors
that were asked for exactly if all calls for them succeeded and no name is empty; otherwise it is
started on those of the shell (`redirection_iff`).

## Main definitions

* `Stage.requestedSource`, `Stage.requestedDest` : what a stage asks its descriptors to be.
* `Stage.SourceArranged`, `Stage.DestArranged` : the calls for that succeed.
* `Child.HasRequested`, `RedirectionsReach` : a child, and all children, have what was asked for.

## Main results

* `redirection_iff` : when a program is started on what was asked for.

## References

* `src/communication/shell.c`, lines 199–265 and 302–348.
-/

namespace UnixStudy.Shell

namespace Stage

variable (sys : System) (term : Terminator) (st : Stage)

/-- The source that is asked for by stage number `k`: the pipe in front of it, the file behind a
`<`, `/dev/null` in the background, or the standard input of the shell. -/
def requestedSource (n : ℕ) (makepipe : Bool) (k : ℕ) : Obj :=
  if makepipe then .pipeRead k
  else if st.locals.srcfd = -1 then .source (st.sourceName sys n)
  else if term = .amp then .source devNull
  else .stdin

/-- The destination that is asked for by stage number `k`: the pipe behind it, the file behind a
`>` or `>>`, or the standard output of the shell. -/
def requestedDest (n : ℕ) (hasNext : Bool) (k : ℕ) : Obj :=
  if hasNext then .pipeWrite (k - 1)
  else if st.locals.dstfd = -1 then .sink (st.destName sys n) (st.locals.append == some true)
  else .stdout

/-- The calls for the source succeed, and its name is not empty. -/
def SourceArranged (n : ℕ) (makepipe : Bool) (k : ℕ) : Prop :=
  if makepipe then (sys.calls k).pipe = true ∧ (sys.calls k).dupSrc = true
  else if st.locals.srcfd = -1 then
    st.sourceName sys n ≠ [] ∧ (sys.calls k).openSrc = true ∧ (sys.calls k).dupSrc = true
  else term = .amp → (sys.calls k).openSrc = true ∧ (sys.calls k).dupSrc = true

/-- The calls for the destination succeed, and its name is not empty. -/
def DestArranged (n : ℕ) (hasNext : Bool) (k : ℕ) : Prop :=
  if hasNext then (sys.calls (k - 1)).pipe = true ∧ (sys.calls k).dupDst = true
  else if st.locals.dstfd = -1 then
    st.destName sys n ≠ [] ∧ (sys.calls k).openDst = true ∧ (sys.calls k).dupDst = true
  else True

end Stage

/-- The child gets as far as `execvp`: `fd_check` has not ended it. -/
def Child.ReachesExec (c : Child) : Prop := c.stopped = false

/-- The child is that of the stage between `pre` and `post` on the line `L` that was typed. -/
structure Child.IsOf (sys : System) (s : State) (L : Line) (rest : Stdin) (pre : List Stage)
    (st : Stage) (post : List Stage) (c : Child) : Prop where
  typed : L.IsTyped sys s rest
  stages : L.stages sys ⟨{}, s.mallocs⟩ = pre ++ st :: post
  stage : c.stage = s.stages + post.length

/-- The standard descriptors of the child are what its stage asks for, when `n` bytes of the input
were unread behind the pipeline. -/
structure Child.HasRequested (sys : System) (term : Terminator) (n : ℕ) (pre : List Stage)
    (st : Stage) (post : List Stage) (c : Child) : Prop where
  source : c.fds.slot 0 = some (st.requestedSource sys term n (!pre.isEmpty) c.stage)
  dest : c.fds.slot 1 = some (st.requestedDest sys n (!post.isEmpty) c.stage)

/-- Every program that the call of `command` starts has the standard descriptors that were asked
for. -/
def RedirectionsReach (sys : System) (s : State) : Prop :=
  ∀ c ∈ (s.since (command sys false s).2).filterMap Event.toChild, ∀ L rest pre st post,
    c.IsOf sys s L rest pre st post → c.ReachesExec →
      c.HasRequested sys L.term rest.unread.length pre st post

section Requested

variable {sys : System} {term : Terminator} {st : Stage} {n k : ℕ}

/-- The standard input of a child is what was asked for exactly if it was arranged. -/
theorem source_iff {makepipe : Bool} (hset : st.locals.IsSet makepipe) :
    (if (sys.calls k).dupSrc then suppliedSource (sys.calls k) makepipe k st.locals.srcfd
        (st.sourceName sys n) (term.token == .amp) else none).or (some .stdin) =
      some (st.requestedSource sys term n makepipe k) ↔
    st.SourceArranged sys term n makepipe k := by
  have hbg : (term.token == .amp) = true ↔ term = .amp := by cases term <;> decide
  rw [suppliedSource, Stage.requestedSource, Stage.SourceArranged]
  cases makepipe with
  | true => cases (sys.calls k).dupSrc <;> cases (sys.calls k).pipe <;> simp
  | false =>
    rcases hset.source with ⟨hsrcfd, -⟩ | ⟨-, hsrcfd⟩
    · simp only [hbg]
      by_cases hamp : term = .amp <;> cases (sys.calls k).dupSrc <;>
        cases (sys.calls k).openSrc <;> simp [hsrcfd, hamp]
    · by_cases hname : st.sourceName sys n = [] <;> cases (sys.calls k).dupSrc <;>
        cases (sys.calls k).openSrc <;> simp [hsrcfd, hname]

/-- The standard output of the last child of a pipeline is what was asked for exactly if it was
arranged. -/
theorem dest_iff_of_last {makepipe : Bool} (hset : st.locals.IsSet makepipe) (t : FdTable Obj) :
    (if (sys.calls k).dupDst then suppliedDest (sys.calls k) t st.locals.dstfd
        (st.destName sys n) st.locals.append else none).or (some .stdout) =
      some (st.requestedDest sys n false k) ↔ st.DestArranged sys n false k := by
  rw [suppliedDest, Stage.requestedDest, Stage.DestArranged]
  rcases hset.dest with ⟨hdstfd, hfile⟩ | ⟨hdstfd, -⟩
  · simp [hdstfd, Stage.destName_eq_nil hfile]
  · by_cases hname : st.destName sys n = [] <;> cases (sys.calls k).dupDst <;>
      cases (sys.calls k).openDst <;> simp [hdstfd, hname]

/-- So it is for a child with a pipe behind it, when the shell holds the write end as far as there
is one. -/
theorem dest_iff_of_pipe {t : FdTable Obj} {fd : Option ℤ} (hfile : st.locals.dstfile = [])
    (hholds : HoldsEnd sys t (k - 1) fd) :
    (if (sys.calls k).dupDst then suppliedDest (sys.calls k) t (fd.getD st.locals.dstfd)
        (st.destName sys n) st.locals.append else none).or (some .stdout) =
      some (st.requestedDest sys n true k) ↔ st.DestArranged sys n true k := by
  have hname : st.destName sys n = [] := Stage.destName_eq_nil hfile
  rw [suppliedDest, if_neg (not_not.mpr hname), Stage.requestedDest, Stage.DestArranged]
  rw [HoldsEnd] at hholds
  split_ifs at hholds with hpipe
  · obtain ⟨d, rfl, hd3, hslot⟩ := hholds
    have hd : 3 ≤ (d : ℤ) := by omega
    cases (sys.calls k).dupDst <;> simp [hslot, hpipe, hd]
  · simp [hholds, hpipe]

end Requested

section Redirection

variable {sys : System} {s : State}

/-- The child of a stage has what was asked for exactly if it was arranged. -/
theorem IsChildOf.hasRequested_iff {term : Terminator} {pre post : List Stage} {st : Stage}
    {c : Child} (h : IsChildOf sys term false s pre st post c) (hstd : Std s.fds)
    (hset : StagesSet false (pre ++ st :: post)) :
    c.HasRequested sys term s.stdin.unread.length pre st post ↔
      st.SourceArranged sys term s.stdin.unread.length (!pre.isEmpty) c.stage ∧
        st.DestArranged sys s.stdin.unread.length (!post.isEmpty) c.stage := by
  have hset' := hset.append
  rw [Bool.false_or] at hset'
  obtain ⟨-, hend⟩ := wired_runStages sys term hstd hset'.2.2
  refine Iff.trans ⟨fun hc => And.intro hc.source hc.dest, fun hc => ⟨hc.1, hc.2⟩⟩ ?_
  rw [h.slot hstd hset, h.slot hstd hset, if_pos rfl, if_neg Nat.one_ne_zero, if_pos rfl,
    Bool.false_or]
  refine and_congr (source_iff hset'.1) ?_
  cases post with
  | nil => exact dest_iff_of_last hset'.1 _
  | cons st' post =>
    have hfile := hset'.1.dstfile_eq_nil (hset'.2.1 (List.cons_ne_nil _ _))
    have hnum : c.stage - 1 = s.stages + post.length := by
      rw [h.stage, List.length_cons]
      rfl
    exact dest_iff_of_pipe hfile (hnum ▸ hend st' post rfl rfl)

/-- Every child is that of a stage of the line that was typed. -/
theorem exists_isOf_of_child {c : Child}
    (hc : c ∈ (s.since (command sys false s).2).filterMap Event.toChild) :
    ∃ L rest pre st post, c.IsOf sys s L rest pre st post := by
  by_cases hline : ∃ L rest, Line.IsTyped sys s L rest
  · obtain ⟨L, rest, htyped⟩ := hline
    obtain ⟨s₁, honly, -, hchildren⟩ := htyped.since_children
    rw [hchildren] at hc
    obtain ⟨pre, st, post, hsts, hof⟩ := exists_stage_of_child hc
    exact ⟨L, rest, pre, st, post, htyped, hsts, by rw [hof.stage, honly.stages]⟩
  · rw [(onlyReads_of_not_isTyped fun L rest h => hline ⟨L, rest, h⟩).toChild] at hc
    exact absurd hc List.not_mem_nil

/-- **The standard descriptors of a program.** A child that reaches `execvp` has the source and the
destination that were asked for exactly if all calls for them succeeded and their names are not
empty. -/
theorem redirection_iff {c : Child} (hstd : Std s.fds)
    (hc : c ∈ (s.since (command sys false s).2).filterMap Event.toChild) :
    (∃ L rest pre st post, c.IsOf sys s L rest pre st post) ∧
      ∀ L rest pre st post, c.IsOf sys s L rest pre st post → c.ReachesExec →
        (c.HasRequested sys L.term rest.unread.length pre st post ↔
          st.SourceArranged sys L.term rest.unread.length (!pre.isEmpty) c.stage ∧
            st.DestArranged sys rest.unread.length (!post.isEmpty) c.stage) := by
  refine ⟨exists_isOf_of_child hc, fun L rest pre st post hof _ => ?_⟩
  obtain ⟨s₁, honly, hstdin, hchildren⟩ := hof.typed.since_children
  have hset := hof.typed.stagesSet
  rw [hchildren] at hc
  rw [hof.stages] at hc hset
  obtain ⟨pre', st', post', hsts, hchild⟩ := exists_stage_of_child hc
  obtain ⟨rfl, rfl, rfl⟩ := hchild.unique hsts.symm (by rw [hof.stage, honly.stages])
  rw [← hstdin]
  exact hchild.hasRequested_iff (by rwa [honly.fds]) hset

/-- The first child of `cat<f`, which reads from the file. -/
theorem redirection_iff_source : ∃ c : Child,
    (∃ L rest pre st post,
      c.IsOf .obliging (.start [99, 97, 116, 60, 102, 10]) L rest pre st post) ∧
      ∀ L rest pre st post,
        c.IsOf .obliging (.start [99, 97, 116, 60, 102, 10]) L rest pre st post → c.ReachesExec →
          (c.HasRequested .obliging L.term rest.unread.length pre st post ↔
            st.SourceArranged .obliging L.term rest.unread.length (!pre.isEmpty) c.stage ∧
              st.DestArranged .obliging rest.unread.length (!post.isEmpty) c.stage) := by
  obtain ⟨c, hc⟩ := List.exists_mem_of_ne_nil (((State.start [99, 97, 116, 60, 102, 10]).since
    (command .obliging false (.start [99, 97, 116, 60, 102, 10])).2).filterMap Event.toChild)
    (by decide)
  exact ⟨c, redirection_iff ⟨rfl, rfl, rfl⟩ hc⟩

/-- A system in which no file can be opened for reading. -/
def System.sourceless : System where
  malloc := System.obliging.malloc
  calls k := { System.obliging.calls k with openSrc := false }
  chdir := System.obliging.chdir
  beyond := System.obliging.beyond

/-- Where `f` cannot be opened, `cat<f` is run on the standard input of the shell. -/
theorem not_redirectionsReach_sourceless :
    ¬ RedirectionsReach .sourceless (.start [99, 97, 116, 60, 102, 10]) := by
  intro h
  have hrun : ∃ c ∈ ((State.start [99, 97, 116, 60, 102, 10]).since
      (command .sourceless false (.start [99, 97, 116, 60, 102, 10])).2).filterMap Event.toChild,
      c.stopped = false ∧ c.fds.slot 0 = some .stdin := by decide
  have hread : (reading .sourceless false {} (.start [99, 97, 116, 60, 102, 10])).1 =
      .stages [⟨{ argv := [[99, 97, 116]], srcfd := -1, srcfile := [102, 0] }, .nl⟩] .nl := by
    decide
  obtain ⟨c, hc, hexec, hslot⟩ := hrun
  obtain ⟨L, rest, pre, st, post, hof⟩ := exists_isOf_of_child hc
  obtain ⟨s₁, hreading, -⟩ := hof.typed.reading
  rw [hreading] at hread
  obtain ⟨hsts, hterm⟩ := Reading.stages.inj hread
  obtain ⟨rfl, rfl, rfl⟩ : pre = [] ∧ st = _ ∧ post = [] := by
    rw [hof.stages] at hsts
    simpa [List.append_eq_singleton_iff] using hsts
  have hsource := (h c hc L rest [] _ [] hof hexec).source
  rw [hslot, Stage.requestedSource] at hsource
  simp at hsource

end Redirection

end UnixStudy.Shell
