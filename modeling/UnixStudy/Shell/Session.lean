import UnixStudy.Foundations.Processes
import UnixStudy.Shell.Line

/-!
# A session of the shell

`start_shell` calls `command` for one pipeline after another. After a pipeline in the foreground
whose last stage was forked, it waits: `wait_and_display` reaps whatever child has terminated until
it has reaped that one. Children of earlier pipelines terminate at any time and are reaped on the
way.

The step relation `Session.Step` takes one call of `command`, one termination of a child or one turn
of the loop in `wait_and_display` at a time, in any order that is possible. `command` does not look
at children that have terminated, so a termination during a call is one before or after it. The
children of the shell are `Processes`, and every step of a session is one of theirs, so what holds
of them in every run holds of the session (`Session.Inv`).

## Main definitions

* `Spawned` : the children that a call of `command` has forked.
* `Mode`, `Session`, `Session.processes` : the state of a session.
* `Session.Label`, `Session.Step` : its steps.
* `Session.Inv` : what holds in every reachable state.

## Main results

* `exists_spawned_command`, `exists_wpid_command` : the children of a command, and the one that is
  waited for.
* `Session.Inv.step` : every step keeps the invariant.
* `Session.waits_for_unreaped` : the shell waits for children it has not reaped.

## References

* `src/communication/shell.c`, lines 74–84, 233–275, 347–355 and 364–387.
-/

namespace UnixStudy.Shell

/-! ### The children of a command -/

/-- Between the two states the children `cs` were forked, one for each of some stages, in the order
in which these were run. -/
structure Spawned (s s' : State) (cs : List Child) : Prop where
  children : s'.children = s.children ++ cs
  stages : s.stages ≤ s'.stages
  bounds : ∀ c ∈ cs, s.stages ≤ c.stage ∧ c.stage < s'.stages
  ordered : cs.Pairwise fun c d => c.stage < d.stage

theorem Spawned.trans {s s' s'' : State} {cs ds : List Child} (h : Spawned s s' cs)
    (h' : Spawned s' s'' ds) : Spawned s s'' (cs ++ ds) where
  children := by rw [h'.children, h.children, List.append_assoc]
  stages := h.stages.trans h'.stages
  bounds c hc := by
    have hs := h.stages
    have hs' := h'.stages
    rcases List.mem_append.mp hc with hc | hc
    · have hb := h.bounds c hc
      omega
    · have hb := h'.bounds c hc
      omega
  ordered := List.pairwise_append.mpr ⟨h.ordered, h'.ordered, fun c hc d hd =>
    (h.bounds c hc).2.trans_le (h'.bounds d hd).1⟩

theorem OnlyReads.spawned {s s' : State} (h : OnlyReads s s') : Spawned s s' [] :=
  ⟨by rw [h.children, List.append_nil], h.stages.ge, nofun, .nil⟩

section Spawned

variable {sys : System} {s : State}

theorem spawned_finish (sys : System) (makepipe : Bool) (token term : Token) (l : Locals)
    (s : State) : Spawned s (finish sys makepipe token term l s).2
      (((finishArgs sys makepipe term l s).forks (sys.calls s.stages)).map
        (nextChild sys (finishArgs sys makepipe term l s) (afterPipe sys makepipe s))).toList := by
  refine ⟨finish_children .., by simp, fun c hc => ?_, ?_⟩
  · obtain ⟨pid, -, rfl⟩ := by simpa using hc
    rw [nextChild_stage, afterPipe_stages, finish_stages]
    exact ⟨le_rfl, Nat.lt_succ_self _⟩
  · cases (finishArgs sys makepipe term l s).forks (sys.calls s.stages) <;> simp

theorem exists_spawned_runStages (sys : System) (term : Terminator) (makepipe : Bool)
    (sts : List Stage) (s : State) : ∃ cs, Spawned s (runStages sys term makepipe sts s).2 cs := by
  induction sts generalizing makepipe with
  | nil => exact ⟨[], (List.append_nil _).symm, le_rfl, nofun, .nil⟩
  | cons st sts ih =>
    obtain ⟨cs, hcs⟩ := ih true
    exact ⟨_, hcs.trans (spawned_finish ..)⟩

/-- The variable behind `wpid` holds the pid of the child of the last stage, which was run first, or
`0` if there is none. -/
structure WpidSet (s s' : State) (cs : List Child) : Prop where
  forked : ∀ c ∈ cs, c.stage = s.stages → s'.pid = ((c.pid : ℕ) : ℤ)
  zero : (∀ c ∈ cs, c.stage ≠ s.stages) → s'.pid = 0

theorem wpidSet_finish {makepipe : Bool} {token term : Token} {l : Locals} (hbar : token ≠ .bar) :
    WpidSet s (finish sys makepipe token term l s).2
      (((finishArgs sys makepipe term l s).forks (sys.calls s.stages)).map
        (nextChild sys (finishArgs sys makepipe term l s) (afterPipe sys makepipe s))).toList := by
  have hpid := finish_pid sys makepipe token term l s
  rw [if_pos hbar, invoke_fst, afterPipe_stages] at hpid
  cases hforks : (finishArgs sys makepipe term l s).forks (sys.calls s.stages) with
  | none =>
    rw [hforks] at hpid
    exact ⟨nofun, fun _ => hpid⟩
  | some pid =>
    rw [hforks] at hpid
    refine ⟨fun c hc _ => ?_, fun h => absurd ?_ (h _ List.mem_cons_self)⟩
    · rw [List.mem_singleton.mp hc]
      exact hpid
    · rw [nextChild_stage, afterPipe_stages]

/-- The variable is written for the last stage only. -/
theorem exists_wpid_runStages {term : Terminator} {makepipe : Bool} {sts : List Stage}
    (hends : EndsWith term sts) : ∃ cs, Spawned s (runStages sys term makepipe sts s).2 cs ∧
      WpidSet s (runStages sys term makepipe sts s).2 cs := by
  induction sts generalizing makepipe with
  | nil => exact hends.elim
  | cons st sts ih =>
    rw [runStages_cons]
    cases sts with
    | nil =>
      have hbar : st.token ≠ .bar := by
        rw [show st.token = term.token from hends]
        exact term.token_ne_bar
      exact ⟨_, spawned_finish .., wpidSet_finish hbar⟩
    | cons st' sts' =>
      obtain ⟨cs, hcs, hwpid⟩ := @ih true hends.2
      have hfinish := spawned_finish sys makepipe st.token term.token
        (runLocals sys term st (st' :: sts') s) (runStages sys term true (st' :: sts') s).2
      have hpid : (finish sys makepipe st.token term.token (runLocals sys term st (st' :: sts') s)
          (runStages sys term true (st' :: sts') s).2).2.pid =
            (runStages sys term true (st' :: sts') s).2.pid := by
        rw [finish_pid, if_neg (not_not.mpr hends.1)]
      refine ⟨_, hcs.trans hfinish, fun c hc hstage => ?_, fun h => ?_⟩
      · rw [hpid]
        refine hwpid.forked c ((List.mem_append.mp hc).resolve_right fun hc => ?_) hstage
        have hb := (hfinish.bounds c hc).1
        rw [runStages_stages, List.length_cons] at hb
        omega
      · rw [hpid]
        exact hwpid.zero fun c hc => h c (List.mem_append_left _ hc)

/-- The children of a command. -/
theorem exists_spawned_command (sys : System) (s : State) :
    ∃ cs, Spawned s (command sys false s).2 cs := by
  by_cases hline : ∃ L rest, Line.IsTyped sys s L rest
  · obtain ⟨L, rest, htyped⟩ := hline
    obtain ⟨s₁, hreading, honly, -⟩ := htyped.reading
    obtain ⟨cs, hcs⟩ := exists_spawned_runStages sys L.term false
      (L.stages sys ⟨{}, s.mallocs⟩) s₁
    rw [command_of_reading hreading]
    exact ⟨[] ++ cs, honly.spawned.trans hcs⟩
  · exact ⟨[], (onlyReads_of_not_isTyped fun L rest h => hline ⟨L, rest, h⟩).spawned⟩

/-- **The child that is waited for.** A command that returns with a terminator has set the variable
behind `wpid`. -/
theorem exists_wpid_command {t : Token} {fd : Option ℤ}
    (h : (command sys false s).1 = .returned t fd) (ht : t ≠ .error) :
    ∃ cs, Spawned s (command sys false s).2 cs ∧ WpidSet s (command sys false s).2 cs := by
  rcases hr : reading sys false {} s with ⟨⟨sts, term⟩ | _ | _ | _, s₁⟩
  · have honly := onlyReads_of_reading hr
    obtain ⟨L, -, -, rfl, rfl, -⟩ := exists_line hr
    obtain ⟨cs, hcs, hwpid⟩ := @exists_wpid_runStages sys s₁ L.term false _
      (L.endsWith_stages ⟨{}, s.mallocs⟩)
    rw [command_of_reading hr]
    exact ⟨[] ++ cs, honly.spawned.trans hcs, honly.stages ▸ hwpid.forked,
      honly.stages ▸ hwpid.zero⟩
  all_goals
    rw [command_eq, hr, afterReading] at h
    cases h
  exact absurd rfl ht

end Spawned

/-! ### Sessions -/

/-- The pid of a child, as `waitpid` returns it. -/
def Child.wpid (c : Child) : ℤ := ((c.pid : ℕ) : ℤ)

/-- The children that were forked between two states. -/
def newChildren (s s' : State) : List Child := s'.children.drop s.children.length

theorem Spawned.newChildren {s s' : State} {cs : List Child} (h : Spawned s s' cs) :
    newChildren s s' = cs := by
  rw [Shell.newChildren, h.children, List.drop_left]

/-- Where `start_shell` is: in front of a command, in the loop of `wait_and_display`, or at its end.
With the pid that the loop waits for come the number of unreaped children it began with and the
number of turns it has made. -/
inductive Mode
  | reading
  | waiting (pid : ℤ) (start n : ℕ)
  | ended
  deriving DecidableEq, Repr

/-- The `fd_check` at the end of each round of `start_shell`. -/
def checked (s : State) : Mode := if fdCheck s.fds then .reading else .ended

/-- What `start_shell` does after a call of `command`. -/
def afterCommand : Outcome × State → Mode
  | (.returned term _, s) =>
    if term = .error then .ended
    else if term ≠ .amp ∧ s.pid > 0 then .waiting s.pid s.children.length 0
    else checked s
  | _ => .ended

/-- The end of a turn of the loop in `wait_and_display`, after `waitpid` has returned `wpid`. -/
def afterWait (wpid : ℤ) (s : State) (pid : ℤ) (start n : ℕ) : Mode :=
  if wpid ≠ pid then .waiting pid start (n + 1) else checked s

/-- A session: the shell, with the children it has not reaped, where it is, the children that have
terminated so far, and those it has reaped, in order. -/
structure Session where
  shell : State
  mode : Mode
  exited : List Child
  reaped : List Child

namespace Session

/-- The children of the shell. -/
def processes (S : Session) : Processes Child := ⟨S.shell.children, S.exited, S.reaped⟩

/-- What can happen in a session: a command is read and run, a child terminates, `waitpid` reaps a
child, or it fails as there is none. -/
inductive Label
  | command
  | exit (c : Child)
  | reap (c : Child)
  | noChild

/-- The steps of a session. -/
inductive Step (sys : System) : Session → Label → Session → Prop
  | command {S : Session} (hmode : S.mode = .reading)
      (hfresh : FreshPids Child.wpid S.shell.children
        (newChildren S.shell (command sys false S.shell).2)) :
      Step sys S .command { S with
        shell := (command sys false S.shell).2
        mode := afterCommand (command sys false S.shell) }
  | exit {S : Session} {c : Child} (hc : c ∈ S.shell.children) (hexited : c ∉ S.exited) :
      Step sys S (.exit c) { S with exited := S.exited ++ [c] }
  | reap {S : Session} {c : Child} {pid : ℤ} {start n : ℕ} (hmode : S.mode = .waiting pid start n)
      (hc : c ∈ S.shell.children) (hexited : c ∈ S.exited) :
      Step sys S (.reap c) { S with
        shell := { S.shell with children := S.shell.children.erase c }
        mode := afterWait c.wpid S.shell pid start n
        reaped := S.reaped ++ [c] }
  | noChild {S : Session} {pid : ℤ} {start n : ℕ} (hmode : S.mode = .waiting pid start n)
      (hnone : S.shell.children = []) :
      Step sys S .noChild { S with mode := afterWait (-1) S.shell pid start n }

/-- One state of a session leads to another in some steps. -/
def Reaches (sys : System) : Session → Session → Prop :=
  Relation.ReflTransGen fun S S' => ∃ l, Step sys S l S'

/-- The shell has just been started: it has no children. -/
structure IsStart (S : Session) : Prop where
  mode : S.mode = .reading
  children : S.shell.children = []
  exited : S.exited = []
  reaped : S.reaped = []

/-- What holds in every reachable state. -/
structure Inv (S : Session) : Prop where
  sound : S.processes.Sound Child.wpid
  numbers : ∀ c ∈ S.reaped ++ S.shell.children, c.stage < S.shell.stages
  awaited : ∀ pid start n, S.mode = .waiting pid start n →
    S.processes.Awaits Child.wpid pid start n

section Inv

variable {sys : System} {S S' : Session}

theorem IsStart.inv (h : S.IsStart) : S.Inv := by
  refine ⟨⟨?_, ?_, ?_⟩, ?_, fun pid start n hmode => ?_⟩
  · rw [processes, h.children]
    exact List.nodup_nil
  · rw [processes, h.children, h.reaped]
    exact List.nodup_nil
  · rw [processes, h.reaped]
    exact nofun
  · rw [h.reaped, h.children]
    exact nofun
  · rw [h.mode] at hmode
    exact Mode.noConfusion hmode

theorem checked_ne_waiting (s : State) (pid : ℤ) (start n : ℕ) :
    checked s ≠ .waiting pid start n := by
  rw [checked]
  split_ifs <;> exact nofun

/-- Where the shell waits after a command, it waits for the child of the last stage. -/
theorem exists_of_afterCommand {s : State} {pid : ℤ} {start n : ℕ} {cs : List Child}
    (hcs : Spawned s (Shell.command sys false s).2 cs)
    (h : afterCommand (Shell.command sys false s) = .waiting pid start n) :
    (∃ c ∈ cs, c.wpid = pid) ∧ start = (Shell.command sys false s).2.children.length ∧ n = 0 := by
  rcases hr : Shell.command sys false s with ⟨⟨term, fd⟩ | _ | _, s'⟩ <;> rw [hr] at h hcs <;>
    simp only [afterCommand] at h
  · split_ifs at h with herr hpid
    · obtain ⟨rfl, rfl, rfl⟩ := Mode.waiting.inj h
      obtain ⟨ds, hds, hwpid⟩ := exists_wpid_command (congrArg Prod.fst hr) herr
      rw [hr] at hds hwpid
      obtain rfl : ds = cs := List.append_cancel_left (hds.children.symm.trans hcs.children)
      refine ⟨?_, rfl, rfl⟩
      by_contra hnone
      simp only [not_exists, not_and] at hnone
      refine hpid.2.ne' (hwpid.zero fun c hc hstage => hnone c hc ?_)
      exact (hwpid.forked c hc hstage).symm
    · exact absurd h (checked_ne_waiting _ _ _ _)
  all_goals cases h

/-- **Every step keeps the invariant.** -/
theorem Inv.step {l : Label} (h : S.Inv) (hstep : Step sys S l S') : S'.Inv := by
  cases hstep with
  | command hmode hfresh =>
    obtain ⟨cs, hcs⟩ := exists_spawned_command sys S.shell
    rw [hcs.newChildren] at hfresh
    have hnew : ∀ c ∈ cs, c ∉ S.reaped := fun c hc hreaped =>
      absurd (h.numbers c (List.mem_append_left _ hreaped)) (hcs.bounds c hc).1.not_gt
    have hproc : S.processes.spawn cs =
        ⟨(Shell.command sys false S.shell).2.children, S.exited, S.reaped⟩ := by
      rw [hcs.children]
      rfl
    refine ⟨?_, fun c hc => ?_, fun pid start n hwait => ?_⟩
    · have hsound := h.sound.spawn hfresh hnew
      rwa [hproc] at hsound
    · dsimp only at hc ⊢
      rw [hcs.children, ← List.append_assoc] at hc
      rcases List.mem_append.mp hc with hc | hc
      · exact (h.numbers c hc).trans_le hcs.stages
      · exact (hcs.bounds c hc).2
    · obtain ⟨⟨c, hc, hpid⟩, rfl, rfl⟩ := exists_of_afterCommand hcs hwait
      refine ⟨⟨c, ?_, hpid⟩, Nat.zero_add _⟩
      dsimp only [processes]
      rw [hcs.children]
      exact List.mem_append_right _ hc
  | exit hc hexited =>
    exact ⟨h.sound.exit _, h.numbers, fun pid start n hwait =>
      have hawaits := h.awaited pid start n hwait
      ⟨hawaits.unreaped, hawaits.turns⟩⟩
  | @reap c pid start n hmode hc hexited =>
    refine ⟨h.sound.reap hc hexited, fun d hd => h.numbers d ?_, fun pid' start' n' hwait => ?_⟩
    · simp only [List.append_assoc, List.singleton_append, List.mem_append, List.mem_cons] at hd
      rcases hd with hd | rfl | hd
      · exact List.mem_append_left _ hd
      · exact List.mem_append_right _ hc
      · exact List.mem_append_right _ (List.mem_of_mem_erase hd)
    · dsimp only [afterWait] at hwait
      split_ifs at hwait with hne
      · obtain ⟨rfl, rfl, rfl⟩ := Mode.waiting.inj hwait
        exact (h.awaited _ _ _ hmode).reap hc hne
      · exact absurd hwait (checked_ne_waiting _ _ _ _)
  | noChild hmode hnone => exact absurd hnone (h.awaited _ _ _ hmode).unreaped_ne_nil

theorem Inv.reaches (h : S.Inv) (hrun : Reaches sys S S') : S'.Inv :=
  invariant_of_reachable Inv (fun _ _ h ⟨_, hstep⟩ => h.step hstep) hrun h

/-- The child is reaped, or the shell waits for it, or has ended. -/
def Tracked (c : Child) (S : Session) : Prop :=
  c ∈ S.reaped ∨ S.mode = .ended ∨
    c ∈ S.shell.children ∧ ∃ start n, S.mode = .waiting c.wpid start n

theorem Tracked.reaped {c : Child} (h : Tracked c S) (hmode : S.mode = .reading) :
    c ∈ S.reaped := by
  rcases h with h | h | ⟨-, start, n, h⟩
  · exact h
  · exact Mode.noConfusion (hmode.symm.trans h)
  · exact Mode.noConfusion (hmode.symm.trans h)

theorem Tracked.step {c : Child} {l : Label} (h : Tracked c S) (hinv : S.Inv)
    (hstep : Step sys S l S') : Tracked c S' := by
  cases hstep with
  | command hmode => exact Or.inl (h.reaped hmode)
  | exit => exact h
  | @reap d pid start n hmode hd hexited =>
    rcases h with hreaped | hended | ⟨hc, start', n', hwait⟩
    · exact Or.inl (List.mem_append_left _ hreaped)
    · exact Mode.noConfusion (hmode.symm.trans hended)
    · obtain ⟨rfl, rfl, rfl⟩ := Mode.waiting.inj (hwait.symm.trans hmode)
      by_cases hdc : d.wpid = c.wpid
      · rw [hinv.sound.eq_of_pid_eq hd hc hdc]
        exact Or.inl (List.mem_append_right _ List.mem_cons_self)
      · refine Or.inr (Or.inr ⟨?_, start', n' + 1, if_pos hdc⟩)
        exact (List.mem_erase_of_ne fun hcd : c = d => hdc (hcd ▸ rfl)).mpr hc
  | noChild hmode hnone => exact absurd hnone (hinv.awaited _ _ _ hmode).unreaped_ne_nil

/-- **A child that is waited for is reaped** before the next command is read. -/
theorem Tracked.reaches {c : Child} (h : Tracked c S) (hinv : S.Inv) (hrun : Reaches sys S S') :
    Tracked c S' :=
  (invariant_of_reachable (fun S => S.Inv ∧ Tracked c S)
    (fun _ _ h ⟨_, hstep⟩ => ⟨h.1.step hstep, h.2.step h.1 hstep⟩) hrun ⟨hinv, h⟩).2

/-- After a command in the foreground the shell waits for the child of the last stage. -/
theorem tracked_of_command {c : Child} {term : Token} {fd : Option ℤ} (hinv : S.Inv)
    (hstep : Step sys S .command S')
    (hret : (Shell.command sys false S.shell).1 = .returned term fd)
    (hfore : term = .nl ∨ term = .semi) (hc : c ∈ S'.shell.children)
    (hstage : c.stage = S.shell.stages) : Tracked c S' := by
  cases hstep with
  | command hmode hfresh =>
    have herr : term ≠ .error := by rcases hfore with rfl | rfl <;> decide
    have hamp : term ≠ .amp := by rcases hfore with rfl | rfl <;> decide
    obtain ⟨cs, hcs, hwpid⟩ := exists_wpid_command hret herr
    have hnew : c ∈ cs := by
      dsimp only at hc
      rw [hcs.children] at hc
      refine (List.mem_append.mp hc).resolve_left fun hold => ?_
      exact (hinv.numbers c (List.mem_append_right _ hold)).ne hstage
    have hpid := hwpid.forked c hnew hstage
    refine Or.inr (Or.inr ⟨hc, (Shell.command sys false S.shell).2.children.length, 0, ?_⟩)
    dsimp only
    rw [← Prod.mk.eta (p := Shell.command sys false S.shell), hret, afterCommand, if_neg herr,
      if_pos ⟨hamp, hpid ▸ Int.natCast_pos.mpr c.pid.2⟩, hpid, Child.wpid]

end Inv

variable {sys : System}

/-- **Waiting is always for an unreaped child.** In every reachable state of a session:
while the shell is in the loop of `wait_and_display`, the awaited child is unreaped, and the turns
that were made and the unreaped children add up to those it began with; `waitpid` does not fail for
lack of children; no child is reaped twice, or before it has terminated; a turn of the loop is the
last one exactly if it reaps the awaited child; and the next command after one in the foreground is
read when the child of its last stage, the one with the first new number, has been reaped. -/
theorem waits_for_unreaped {S₀ S : Session} (hstart : S₀.IsStart) (hrun : Reaches sys S₀ S) :
    (∀ pid start n, S.mode = .waiting pid start n →
      (∃ c ∈ S.shell.children, c ∉ S.reaped ∧ c.wpid = pid) ∧
        n + S.shell.children.length = start) ∧
    (∀ S', ¬ Step sys S .noChild S') ∧
    S.reaped.Nodup ∧ (∀ c ∈ S.reaped, c ∈ S.exited ∧ c ∉ S.shell.children) ∧
    (∀ c S', Step sys S (.reap c) S' → c ∉ S.reaped ∧ ∃ pid start n,
      S.mode = .waiting pid start n ∧ n + 1 ≤ start ∧
        ((∀ start' n', S'.mode ≠ .waiting pid start' n') ↔ c.wpid = pid)) ∧
    ∀ S₁ S₂ term fd, Step sys S .command S₁ →
      (Shell.command sys false S.shell).1 = .returned term fd → term = .nl ∨ term = .semi →
        ∀ c ∈ S₁.shell.children, c.stage = S.shell.stages → Reaches sys S₁ S₂ →
          S₂.mode = .reading → c ∈ S₂.exited ∧ c ∈ S₂.reaped := by
  have hinv := hstart.inv.reaches hrun
  refine ⟨fun pid start n hmode => ?_, fun S' hstep => ?_,
    (List.nodup_append.mp hinv.sound.once).1,
    fun c hc => ⟨hinv.sound.exited c hc, hinv.sound.not_mem_unreaped hc⟩,
    fun c S' hstep => ?_, ?_⟩
  · have hawaits := hinv.awaited pid start n hmode
    obtain ⟨c, hc, hpid⟩ := hawaits.unreaped
    exact ⟨⟨c, hc, fun h => hinv.sound.not_mem_unreaped h hc, hpid⟩, hawaits.turns⟩
  · cases hstep with
    | noChild hmode hnone => exact (hinv.awaited _ _ _ hmode).unreaped_ne_nil hnone
  · cases hstep with
    | @reap _ pid start n hmode hc hexited =>
      refine ⟨fun h => hinv.sound.not_mem_unreaped h hc, pid, start, n, hmode,
        (hinv.awaited _ _ _ hmode).turn_le, ?_⟩
      dsimp only [afterWait]
      split_ifs with hne
      · exact iff_of_false (fun h => h _ _ rfl) hne
      · exact iff_of_true (fun _ _ => checked_ne_waiting _ _ _ _) (not_not.mp hne)
  · intro S₁ S₂ term fd hstep hterm hfore c hc hstage hrun' hreading
    have hinv₁ := hinv.step hstep
    have htracked := tracked_of_command hinv hstep hterm hfore hc hstage
    have hreaped := (htracked.reaches hinv₁ hrun').reaped hreading
    exact ⟨(hinv₁.reaches hrun').sound.exited c hreaped, hreaped⟩

/-- A session that starts with `ls` waits for its child. -/
theorem waits_for_unreaped_ls :
    (∃ c ∈ (Shell.command .obliging false (.start [108, 115, 10])).2.children,
        c ∉ ([] : List Child) ∧ c.wpid = 1) ∧
      0 + (Shell.command .obliging false (.start [108, 115, 10])).2.children.length = 1 := by
  have hstep : Step .obliging ⟨.start [108, 115, 10], .reading, [], []⟩ .command _ :=
    .command rfl (by decide)
  have hrun := waits_for_unreaped ⟨rfl, rfl, rfl, rfl⟩ (.single ⟨_, hstep⟩)
  exact hrun.1 1 1 0 (by decide)

end Session

end UnixStudy.Shell
