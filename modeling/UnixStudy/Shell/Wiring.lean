import UnixStudy.Shell.Leak
import UnixStudy.Shell.Pipeline
import UnixStudy.Shell.Redirection

/-!
# The wiring of a pipeline

When every stage is run in a child and no call fails, `command` leaves the descriptors of the shell
as they were, every child reaches `execvp` with its three standard descriptors and nothing else, and
these are connected as the pipeline says: each pipe has one child at its write end and the next one
at its read end (`pipeline_wired`).

## Main definitions

* `Calls.Succeed`, `Stage.IsNamed` : no call fails, and no file name is empty.
* `Wired` : the descriptors of the shell and of its children.

## Main results

* `exists_children` : every stage has a child.
* `IsChildOf.openSet` : a child has nothing but its standard descriptors.
* `card_toTable_le` : the shell holds at most three more descriptors.
* `pipeline_wired` : the wiring of a pipeline.

## References

* `src/communication/shell.c`, lines 34–47, 199–275 and 277–362.
-/

namespace UnixStudy.Shell

/-- No call for the stage fails. -/
structure Calls.Succeed (calls : Calls) : Prop where
  pipe : calls.pipe = true
  fork : calls.fork.isSome
  openSrc : calls.openSrc = true
  dupSrc : calls.dupSrc = true
  openDst : calls.openDst = true
  dupDst : calls.dupDst = true

/-- The names of the files that the stage is redirected to are not empty. -/
structure Stage.IsNamed (sys : System) (n : ℕ) (st : Stage) : Prop where
  source : st.locals.srcfd = -1 → st.sourceName sys n ≠ []
  dest : st.locals.dstfd = -1 → st.destName sys n ≠ []

/-! ### The children -/

section Children

variable {sys : System} {term : Terminator} {s : State} {makepipe : Bool} {sts : List Stage}

/-- Where every stage is run in a child, the children are forked from the last one to the first. -/
theorem exists_children (hext : ∀ st ∈ sts, st.IsExternal)
    (hfork : ∀ k < sts.length, (sys.calls (s.stages + k)).fork.isSome) :
    ∃ cs : List Child,
      (s.since (runStages sys term makepipe sts s).2).filterMap Event.toChild = cs.reverse ∧
        cs.length = sts.length ∧ ∀ pre st post, sts = pre ++ st :: post →
          ∃ c, cs[pre.length]? = some c ∧ IsChildOf sys term makepipe s pre st post c := by
  induction sts generalizing makepipe with
  | nil => exact ⟨[], by rw [runStages, State.since_self]; rfl, rfl, by simp⟩
  | cons st sts ih =>
    obtain ⟨cs, hcs, hlen, hof⟩ := @ih true
      (fun st' hst' => hext st' (List.mem_cons_of_mem _ hst'))
      fun k hk => hfork k (Nat.lt_succ_of_lt hk)
    obtain ⟨pid, hpid⟩ := Option.isSome_iff_exists.mp (hfork sts.length (Nat.lt_succ_self _))
    have hforks : st.forks (sys.calls (s.stages + sts.length)) = some pid := by
      rw [Stage.forks, if_pos (hext st List.mem_cons_self), hpid]
    obtain ⟨c, hc, hchild⟩ : ∃ c, (State.since (runStages sys term true sts s).2
        (runStages sys term makepipe (st :: sts) s).2).filterMap Event.toChild = [c] ∧
          IsChildOf sys term makepipe s [] st sts c := by
      rw [runStages_cons, children_finish, finishArgs_forks, runStages_stages, hforks]
      refine ⟨_, rfl, ?_, pid, hforks, ?_⟩
      · rw [nextChild, runChild, afterPipe_stages, runStages_stages]
      · rw [List.isEmpty_nil, Bool.not_true, Bool.or_false]
    refine ⟨c :: cs, ?_, congrArg (· + 1) hlen, fun pre st' post h => ?_⟩
    · rw [since_runStages_cons, List.filterMap_append, hcs, hc, List.reverse_cons]
    · cases pre with
      | nil =>
        obtain ⟨rfl, rfl⟩ := List.cons.inj h
        exact ⟨c, rfl, hchild⟩
      | cons st'' pre =>
        obtain ⟨c', hc', hof'⟩ := hof pre st' post (List.cons.inj h).2
        exact ⟨c', hc', hof'.cons⟩

/-- A sealed pipeline is one whose stages are all run in children. -/
theorem sealed_of_isExternal {k : ℕ} (hext : ∀ st ∈ sts, st.IsExternal)
    (hfork : ∀ i < sts.length, (sys.calls (k + i)).fork.isSome) : Sealed sys k makepipe sts := by
  induction sts generalizing makepipe with
  | nil => trivial
  | cons st sts ih =>
    refine ⟨ih (fun st' hst' => hext st' (List.mem_cons_of_mem _ hst'))
      fun i hi => hfork i (Nat.lt_succ_of_lt hi), Or.inl ?_⟩
    rw [Stage.forks, if_pos (hext st List.mem_cons_self)]
    exact hfork sts.length (Nat.lt_succ_self _)

theorem IsChildOf.stderr {pre post : List Stage} {st : Stage} {c : Child}
    (h : IsChildOf sys term makepipe s pre st post c) (hstd : Std s.fds)
    (hset : StagesSet makepipe (pre ++ st :: post)) : c.fds.slot 2 = some .stderr := by
  have hset' := hset.append
  obtain ⟨hstd', hend⟩ := wired_runStages sys term hstd hset'.2.2
  have hready := isReady_runLocals hset' fun st' sts' h => hend st' sts' h rfl
  have hdest : ¬ ((2 : ℕ) : ℤ) = (runLocals sys term st post s).dstfd := by
    rcases hready.dest with hd | hd | ⟨-, d, hd, hd3, -⟩ <;> omega
  rw [h.slot hstd hset, ← runLocals_dstfd, if_neg (by decide), if_neg (by decide), if_neg hdest,
    hstd'.stderr]

theorem IsChildOf.stopped {pre post : List Stage} {st : Stage} {c : Child}
    (h : IsChildOf sys term makepipe s pre st post c) : c.stopped = !fdCheck c.fds := by
  obtain ⟨-, pid, -, rfl⟩ := h
  rfl

/-- **A child has nothing but its standard descriptors**, if the stages behind it have left nothing
open. -/
theorem IsChildOf.openSet {pre post : List Stage} {st : Stage} {c : Child}
    (h : IsChildOf sys term makepipe s pre st post c) (hstd : Std s.fds) (htidy : Tidy s.fds 1)
    (hset : StagesSet makepipe (pre ++ st :: post)) (hsealed : Sealed sys s.stages true post) :
    c.fds.openSet = {0, 1, 2} := by
  have hset' := hset.append
  obtain ⟨hstd', hend⟩ := wired_runStages sys term hstd hset'.2.2
  have hready := isReady_runLocals hset' fun st' sts' h => hend st' sts' h rfl
  have htidy' := (tidy_runLocals_iff hset').mpr
    ((tidy_runStages_iff sys term hstd htidy hset'.2.2).mpr hsealed)
  have herr := h.stderr hstd hset
  ext m
  rw [FdTable.mem_openSet, FdTable.IsOpen]
  simp only [Finset.mem_insert, Finset.mem_singleton]
  by_cases h2 : m = 2
  · rw [h2, herr]
    exact iff_of_true rfl (Or.inr (Or.inr rfl))
  rw [h.slot hstd hset, ← runLocals_dstfd]
  by_cases h0 : m = 0
  · simp [h0]
  by_cases h1 : m = 1
  · simp [h1]
  rw [if_neg h0, if_neg h1]
  refine iff_of_false (fun hopen => ?_) (by omega)
  split_ifs at hopen with hd
  · exact Bool.noConfusion hopen
  · rcases htidy' m hopen with hlt | heq
    · omega
    · exact hd heq

/-- No redirection of the stage fails. -/
theorem arranged_of_succeed {pre post : List Stage} {st : Stage} {n k : ℕ}
    (hcalls : (sys.calls k).Succeed) (hnext : post ≠ [] → (sys.calls (k - 1)).Succeed)
    (hnamed : st.IsNamed sys n) : st.SourceArranged sys term n (!pre.isEmpty) k ∧
      st.DestArranged sys n (!post.isEmpty) k := by
  constructor
  · rw [Stage.SourceArranged]
    split_ifs with hpipe hfile
    · exact ⟨hcalls.pipe, hcalls.dupSrc⟩
    · exact ⟨hnamed.source hfile, hcalls.openSrc, hcalls.dupSrc⟩
    · exact fun _ => ⟨hcalls.openSrc, hcalls.dupSrc⟩
  · rw [Stage.DestArranged]
    split_ifs with hpipe hfile
    · exact ⟨(hnext (by simpa using hpipe)).pipe, hcalls.dupDst⟩
    · exact ⟨hnamed.dest hfile, hcalls.openDst, hcalls.dupDst⟩

end Children

/-! ### The tables of the shell -/

section Tables

variable {sys : System} {term : Terminator} {s : State} {makepipe : Bool}

/-- The shell never has more open than after the `pipe` in front of a stage. -/
theorem isOpen_toTable_finish {token term : Token} {l : Locals} {e : Event} {t : FdTable Obj}
    (he : e ∈ s.since (finish sys makepipe token term l s).2) (ht : e.toTable = some t) {m : ℕ}
    (hm : t.IsOpen m) : (afterPipe sys makepipe s).fds.IsOpen m := by
  obtain ⟨es, hes, htrace⟩ := exists_finishRecord sys makepipe token term l s
  rw [State.since_eq htrace, missingEvents] at he
  simp only [List.append_assoc, List.cons_append, List.mem_append, List.mem_cons] at he
  rcases he with he | rfl | he | he
  · split_ifs at he
    · obtain rfl := List.mem_singleton.mp he
      rwa [Option.some.inj ht]
    · exact absurd he List.not_mem_nil
  · exact absurd ht (Option.some_ne_none t).symm
  · rcases hes.table e he t ht with rfl | rfl
    · exact (FdTable.isOpen_sysClose _).mp hm |>.2
    · rw [FdTable.IsOpen, Invocation.slot_closeEnds] at hm
      split_ifs at hm
      · exact Bool.noConfusion hm
      · exact hm
  · split_ifs at he
    · obtain rfl := List.mem_singleton.mp he
      exact absurd ht (Option.some_ne_none t).symm
    · exact absurd he List.not_mem_nil

/-- A pipe adds two descriptors to the pending one. -/
theorem card_afterPipe_le {fd : ℤ} (hstd : Std s.fds) (htidy : Tidy s.fds fd) :
    ((afterPipe sys makepipe s).fds.openSet \ {0, 1, 2}).card ≤ 3 := by
  obtain ⟨r, w, hsub⟩ : ∃ r w : ℕ,
      (afterPipe sys makepipe s).fds.openSet \ {0, 1, 2} ⊆ {fd.toNat, r, w} := by
    have hpending (m : ℕ) (h : s.fds.IsOpen m) (hm : m ∉ ({0, 1, 2} : Finset ℕ)) :
        m = fd.toNat := by
      simp only [Finset.mem_insert, Finset.mem_singleton] at hm
      rcases htidy m h with hlt | heq <;> omega
    by_cases hpiped : Piped sys makepipe s.stages
    · obtain ⟨r, w, -, -, -, -, -, -, hslot⟩ := exists_pipeEnds hstd hpiped
      refine ⟨r, w, fun m hm => ?_⟩
      obtain ⟨hopen, hm⟩ := Finset.mem_sdiff.mp hm
      rw [FdTable.mem_openSet, FdTable.IsOpen, hslot] at hopen
      simp only [Finset.mem_insert, Finset.mem_singleton]
      split_ifs at hopen with hw hr
      · exact Or.inr (Or.inr hw)
      · exact Or.inr (Or.inl hr)
      · exact Or.inl (hpending m hopen hm)
    · refine ⟨0, 0, fun m hm => ?_⟩
      obtain ⟨hopen, hm⟩ := Finset.mem_sdiff.mp hm
      rw [FdTable.mem_openSet, (afterPipe_of_not_piped hpiped).2] at hopen
      exact Finset.mem_insert.mpr (Or.inl (hpending m hopen hm))
  exact (Finset.card_le_card hsub).trans Finset.card_le_three

/-- **The shell holds at most three more descriptors** at any moment: the pending end and the two of
the new pipe. -/
theorem card_toTable_le {sts : List Stage} (hstd : Std s.fds) (htidy : Tidy s.fds 1)
    (hset : StagesSet makepipe sts) (hsealed : Sealed sys s.stages makepipe sts) {e : Event}
    {t : FdTable Obj} (he : e ∈ s.since (runStages sys term makepipe sts s).2)
    (ht : e.toTable = some t) : (t.openSet \ {0, 1, 2}).card ≤ 3 := by
  induction sts generalizing makepipe with
  | nil =>
    rw [runStages, State.since_self] at he
    exact absurd he List.not_mem_nil
  | cons st sts ih =>
    rw [since_runStages_cons, List.mem_append] at he
    rcases he with he | he
    · exact ih hset.2.2 hsealed.1 he
    · have hstd' := (wired_runStages sys term hstd hset.2.2).1
      have htidy' := (tidy_runStages_iff sys term hstd htidy hset.2.2).mpr hsealed.1
      refine le_trans (Finset.card_le_card fun m hm => ?_)
        (@card_afterPipe_le sys _ makepipe _ hstd' htidy')
      obtain ⟨hopen, hm⟩ := Finset.mem_sdiff.mp hm
      rw [FdTable.mem_openSet] at hopen
      rw [Finset.mem_sdiff, FdTable.mem_openSet]
      exact ⟨isOpen_toTable_finish he ht hopen, hm⟩

end Tables

/-! ### The wiring -/

/-- The descriptors while a pipeline of the stages `sts` is run in the children `cs`, which are
listed from the first stage to the last, with `n` bytes of the input unread behind it. -/
structure Wired (sys : System) (s s' : State) (term : Terminator) (n : ℕ) (sts : List Stage)
    (cs : List Child) : Prop where
  length : cs.length = sts.length
  children : (s.since s').filterMap Event.toChild = cs.reverse
  final : s'.fds.openSet = {0, 1, 2}
  tables : ∀ e ∈ s.since s', ∀ t, e.toTable = some t → (t.openSet \ {0, 1, 2}).card ≤ 3
  reaches : ∀ c ∈ cs, c.ReachesExec ∧ c.fds.openSet = {0, 1, 2}
  pipes : ∀ i c c', cs[i]? = some c → cs[i + 1]? = some c' → ∃ k,
    c.fds.slot 1 = some (.pipeWrite k) ∧ c'.fds.slot 0 = some (.pipeRead k) ∧
      ∀ j d m, cs[j]? = some d →
        (d.fds.slot m = some (.pipeWrite k) → j = i ∧ m = 1) ∧
        (d.fds.slot m = some (.pipeRead k) → j = i + 1 ∧ m = 0)
  source : ∀ c st, cs.head? = some c → sts.head? = some st → c.fds.slot 0 = some
    (if st.locals.srcfd = -1 then .source (st.sourceName sys n)
      else if term = .amp then .source devNull
      else .stdin)
  dest : ∀ c st, cs.getLast? = some c → sts.getLast? = some st → c.fds.slot 1 = some
    (if st.locals.dstfd = -1 then .sink (st.destName sys n) (st.locals.append == some true)
      else .stdout)

section Wired

variable {sys : System} {term : Terminator} {s : State} {sts : List Stage}

/-- Which ends of pipes a child has. -/
theorem pipeEnd_of_hasRequested {n : ℕ} {pre post : List Stage} {st : Stage} {c : Child} {k m : ℕ}
    (h : c.HasRequested sys term n pre st post) (hopen : c.fds.openSet = {0, 1, 2})
    (herr : c.fds.slot 2 = some .stderr) :
    (c.fds.slot m = some (.pipeWrite k) → post ≠ [] ∧ c.stage - 1 = k ∧ m = 1) ∧
      (c.fds.slot m = some (.pipeRead k) → pre ≠ [] ∧ c.stage = k ∧ m = 0) := by
  have hlow {o : Obj} (hm : c.fds.slot m = some o) : m = 0 ∨ m = 1 ∨ m = 2 := by
    have hmem := c.fds.mem_openSet.mpr (c.fds.isOpen_of_slot hm)
    rw [hopen] at hmem
    simpa using hmem
  constructor
  · intro hm
    rcases hlow hm with rfl | rfl | rfl
    · rw [h.source, Stage.requestedSource] at hm
      split_ifs at hm <;> simp at hm
    · rw [h.dest, Stage.requestedDest] at hm
      split_ifs at hm with hpost hfile
      · exact ⟨by simpa using hpost, Obj.pipeWrite.inj (Option.some.inj hm), rfl⟩
      · simp at hm
      · simp at hm
    · rw [herr] at hm
      simp at hm
  · intro hm
    rcases hlow hm with rfl | rfl | rfl
    · rw [h.source, Stage.requestedSource] at hm
      split_ifs at hm with hpre hfile
      · exact ⟨by simpa using hpre, Obj.pipeRead.inj (Option.some.inj hm), rfl⟩
      all_goals simp at hm
    · rw [h.dest, Stage.requestedDest] at hm
      split_ifs at hm <;> simp at hm
    · rw [herr] at hm
      simp at hm

/-- **The children of a pipeline** have what was asked for and nothing else. -/
theorem exists_wiredChildren (hstd : Std s.fds) (htidy : Tidy s.fds 1) (hset : StagesSet false sts)
    (hext : ∀ st ∈ sts, st.IsExternal)
    (hcalls : ∀ k < sts.length, (sys.calls (s.stages + k)).Succeed)
    (hnamed : ∀ st ∈ sts, st.IsNamed sys s.stdin.unread.length) :
    ∃ cs : List Child,
      (s.since (runStages sys term false sts s).2).filterMap Event.toChild = cs.reverse ∧
        cs.length = sts.length ∧ ∀ pre st post, sts = pre ++ st :: post →
          ∃ c, cs[pre.length]? = some c ∧ c.stage = s.stages + post.length ∧
            c.HasRequested sys term s.stdin.unread.length pre st post ∧
            c.fds.slot 2 = some .stderr ∧ c.ReachesExec ∧ c.fds.openSet = {0, 1, 2} := by
  obtain ⟨cs, hcs, hlen, hof⟩ := @exists_children sys term s false sts hext
    fun k hk => (hcalls k hk).fork
  refine ⟨cs, hcs, hlen, ?_⟩
  rintro pre st post rfl
  obtain ⟨c, hc, hchild⟩ := hof pre st post rfl
  rw [List.length_append, List.length_cons] at hcalls
  have hst : st ∈ pre ++ st :: post := List.mem_append_right _ List.mem_cons_self
  have hopen := hchild.openSet hstd htidy hset (sealed_of_isExternal
    (fun st' hst' => hext st' (List.mem_append_right _ (List.mem_cons_of_mem _ hst')))
    fun k hk => (hcalls k (by omega)).fork)
  refine ⟨c, hc, hchild.stage, ?_, hchild.stderr hstd hset, ?_, hopen⟩
  · refine (hchild.hasRequested_iff hstd hset).mpr
      (arranged_of_succeed (hchild.stage ▸ hcalls _ (by omega)) (fun hpost => ?_) (hnamed st hst))
    have hpos := List.length_pos_iff.mpr hpost
    have hnum : c.stage - 1 = s.stages + (post.length - 1) := by
      rw [hchild.stage]
      omega
    rw [hnum]
    exact hcalls _ (by omega)
  · rw [Child.ReachesExec, hchild.stopped, Tidy.fdCheck (Tidy.of_openSet_eq hopen)]
    rfl

theorem exists_split {i : ℕ} (h : i < sts.length) :
    ∃ pre st post, sts = pre ++ st :: post ∧ pre.length = i :=
  ⟨sts.take i, sts[i], sts.drop (i + 1), by simp, by simp [h.le]⟩

/-- **The wiring of the stages that were read.** -/
theorem wired_of_runStages (hstd : Std s.fds) (htidy : Tidy s.fds 1) (hset : StagesSet false sts)
    (hext : ∀ st ∈ sts, st.IsExternal)
    (hcalls : ∀ k < sts.length, (sys.calls (s.stages + k)).Succeed)
    (hnamed : ∀ st ∈ sts, st.IsNamed sys s.stdin.unread.length) :
    ∃ cs, Wired sys s (runStages sys term false sts s).2 term s.stdin.unread.length sts cs := by
  obtain ⟨cs, hcs, hlen, hof⟩ := @exists_wiredChildren sys term s sts hstd htidy hset
    hext hcalls hnamed
  have hsealed : Sealed sys s.stages false sts :=
    sealed_of_isExternal hext fun k hk => (hcalls k hk).fork
  have hlength (pre : List Stage) (st : Stage) (post : List Stage) (h : sts = pre ++ st :: post) :
      sts.length = pre.length + (post.length + 1) := by
    rw [h, List.length_append, List.length_cons]
  -- a child by its number
  have hchild (i : ℕ) (c : Child) (hc : cs[i]? = some c) : ∃ pre st post,
      sts = pre ++ st :: post ∧ pre.length = i ∧ c.stage = s.stages + post.length ∧
        c.HasRequested sys term s.stdin.unread.length pre st post ∧
        c.fds.slot 2 = some .stderr ∧ c.ReachesExec ∧ c.fds.openSet = {0, 1, 2} := by
    have hi := (List.getElem?_eq_some_iff.mp hc).1
    obtain ⟨pre, st, post, hsts, rfl⟩ := exists_split (hlen ▸ hi)
    obtain ⟨c', hc', h⟩ := hof pre st post hsts
    obtain rfl : c = c' := Option.some.inj (hc.symm.trans hc')
    exact ⟨pre, st, post, hsts, rfl, h⟩
  refine ⟨cs, hlen, hcs, ?_, fun e he t ht => card_toTable_le hstd htidy hset hsealed he ht, ?_, ?_,
    ?_, ?_⟩
  · have hfinal := (tidy_runStages_iff sys term hstd htidy hset).mpr hsealed
    rw [runStages_fst_false] at hfinal
    exact (Tidy.openSet_eq (wired_runStages sys term hstd hset).1).mp hfinal
  · intro c hc
    obtain ⟨i, hi⟩ := List.mem_iff_getElem?.mp hc
    obtain ⟨-, -, -, -, -, -, -, -, h⟩ := hchild i c hi
    exact h
  · intro i c c' hc hc'
    obtain ⟨pre, st, post, hsts, hi, hstage, hreq, -⟩ := hchild i c hc
    obtain ⟨pre', st', post', hsts', hi', hstage', hreq', -⟩ := hchild (i + 1) c' hc'
    have hlen' := hlength _ _ _ hsts
    have hlen'' := hlength _ _ _ hsts'
    have hpost : (!post.isEmpty) = true := by
      rw [Bool.not_eq_true', List.isEmpty_eq_false_iff, ← List.length_pos_iff]
      omega
    have hpre : (!pre'.isEmpty) = true := by
      rw [Bool.not_eq_true', List.isEmpty_eq_false_iff, ← List.length_pos_iff]
      omega
    have hnum : c.stage - 1 = c'.stage := by omega
    refine ⟨c'.stage, ?_, ?_, fun j d m hd => ?_⟩
    · rw [hreq.dest, Stage.requestedDest, if_pos hpost, hnum]
    · rw [hreq'.source, Stage.requestedSource, if_pos hpre]
    · obtain ⟨pre₁, st₁, post₁, hsts₁, hj, hstage₁, hreq₁, herr, -, hopen⟩ := hchild j d hd
      have hlen₁ := hlength _ _ _ hsts₁
      obtain ⟨hwrite, hread⟩ := pipeEnd_of_hasRequested (k := c'.stage) (m := m) hreq₁ hopen herr
      refine ⟨fun hm => ?_, fun hm => ?_⟩
      · obtain ⟨hne, hk, rfl⟩ := hwrite hm
        have hpos := List.length_pos_iff.mpr hne
        exact ⟨by omega, rfl⟩
      · obtain ⟨-, hk, rfl⟩ := hread hm
        exact ⟨by omega, rfl⟩
  · intro c st hc hst
    rw [List.head?_eq_getElem?] at hc hst
    obtain ⟨pre, st', post, rfl, hi, -, hreq, -⟩ := hchild 0 c hc
    obtain rfl := List.length_eq_zero_iff.mp hi
    obtain rfl : st' = st := Option.some.inj hst
    exact hreq.source
  · intro c st hc hst
    rw [List.getLast?_eq_getElem?, hlen] at hc
    rw [List.getLast?_eq_getElem?] at hst
    obtain ⟨pre, st', post, hsts, hi, -, hreq, -⟩ := hchild _ c hc
    have hlen' := hlength _ _ _ hsts
    obtain rfl : post = [] := List.length_eq_zero_iff.mp (by omega)
    rw [← hi, hsts, List.getElem?_concat_length] at hst
    obtain rfl : st' = st := Option.some.inj hst
    exact hreq.dest

/-- **The wiring of a pipeline.** If every stage on the typed line is stored with a word that is no
builtin, no call fails and no name is empty, then `command` returns the terminator and the stages
are wired. The names are those that were written where these fit their buffers. -/
theorem pipeline_wired {L : Line} {rest : Stdin} (hstd : Std s.fds)
    (hopen : s.fds.openSet = {0, 1, 2}) (htyped : L.IsTyped sys s rest)
    (hext : ∀ st ∈ L.stages sys ⟨{}, s.mallocs⟩, st.IsExternal)
    (hcalls : ∀ k < (L.stages sys ⟨{}, s.mallocs⟩).length, (sys.calls (s.stages + k)).Succeed)
    (hnamed : ∀ st ∈ L.stages sys ⟨{}, s.mallocs⟩, st.IsNamed sys rest.unread.length) :
    (command sys false s).1 = .returned L.term.token none ∧
      (∃ cs, Wired sys s (command sys false s).2 L.term rest.unread.length
        (L.stages sys ⟨{}, s.mallocs⟩) cs) ∧
      ∀ P : Pipeline, L = P.line → (∀ n, sys.malloc n = true) →
        (L.stages sys ⟨{}, s.mallocs⟩).map (fun st => st.request sys rest.unread.length P.term) =
          P.requests := by
  obtain ⟨s₁, hreading, honly, hstdin, -⟩ := htyped.reading
  have hstd₁ : Std s₁.fds := by rwa [honly.fds]
  have htidy₁ : Tidy s₁.fds 1 := Tidy.of_openSet_eq (by rw [honly.fds, hopen])
  rw [← honly.stages] at hcalls
  rw [← hstdin] at hnamed
  obtain ⟨cs, hwired⟩ := @wired_of_runStages sys L.term s₁ _ hstd₁ htidy₁ htyped.stagesSet hext
    hcalls hnamed
  rw [hstdin] at hwired
  have hsince := since_command hreading
  rw [command_of_reading hreading] at hsince ⊢
  refine ⟨rfl, ⟨cs, { hwired with children := ?_, tables := fun e he t ht => ?_ }⟩, ?_⟩
  · rw [hsince, List.filterMap_append, honly.toChild, hwired.children]
    rfl
  · rw [hsince, List.mem_append] at he
    rcases he with he | he
    · have hreads := honly.isReading e he
      cases e <;> simp_all [Event.isReading, Event.toTable]
    · exact hwired.tables e he t ht
  · rintro P rfl hmalloc
    exact Line.requests_ofParts hmalloc P.wellFormed.nonempty P.textsFit
      (fun ps hps => (P.wellFormed.words ps hps).2) P.wellFormed.source_once P.wellFormed.dest_once
      _ _ _ _

/-- The wiring of `a<f|b>>g&`. -/
theorem pipeline_wired_sample :
    (command .obliging false (.start [97, 60, 102, 124, 98, 62, 62, 103, 38, 10])).1 =
        .returned .amp none ∧
      (∃ cs, Wired .obliging (.start [97, 60, 102, 124, 98, 62, 62, 103, 38, 10])
        (command .obliging false (.start [97, 60, 102, 124, 98, 62, 62, 103, 38, 10])).2 .amp 1
        (Pipeline.sample.line.stages .obliging ⟨{}, 0⟩) cs) ∧
      ∀ P : Pipeline, Pipeline.sample.line = P.line → (∀ n, System.obliging.malloc n = true) →
        (Pipeline.sample.line.stages .obliging ⟨{}, 0⟩).map
          (fun st => st.request .obliging 1 P.term) = P.requests := by
  have hlex : Lexes MAXWORD (State.start [97, 60, 102, 124, 98, 62, 62, 103, 38, 10]).stdin
      Pipeline.sample.toks ⟨[10], false⟩ :=
    .cons rfl (.cons rfl (.cons rfl (.cons rfl (.cons rfl (.cons rfl (.cons rfl (.cons rfl
      (.nil _))))))))
  have hnamed : ∀ st ∈ Pipeline.sample.line.stages .obliging ⟨{}, 0⟩,
      (st.locals.srcfd = -1 → st.sourceName .obliging 1 ≠ []) ∧
        (st.locals.dstfd = -1 → st.destName .obliging 1 ≠ []) := by decide
  exact pipeline_wired ⟨rfl, rfl, rfl⟩ (by decide) (Pipeline.sample.isTyped_line hlex) (by decide)
    (fun _ _ => ⟨rfl, rfl, rfl, rfl, rfl, rfl⟩) fun st hst => ⟨(hnamed st hst).1, (hnamed st hst).2⟩

end Wired

end UnixStudy.Shell
