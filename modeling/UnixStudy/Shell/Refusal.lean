import UnixStudy.Shell.Invoke

/-!
# Builtins that are refused after they were run

A builtin is refused when it has too many arguments, when it is no proper assignment, and when it
has a redirection or stands in a pipeline. The first two refusals are decided before the variable is
set. The third one is decided by the last lines of `builtin`, for all builtins at once, when `asg`
or `chdir` has taken effect.

## Main definitions

* `RefusedUnchanged` : a refusal leaves the environment and the working directory as they were.
* `Harmless` : the builtin changes neither of them.

## Main results

* `setenv_eq_self_iff` : the assignments that change nothing.
* `refusedUnchanged_checkPlain_iff` : a refusal that is decided last.
* `refusals_change_nothing_iff` : the builtins, and the stages, whose refusals change nothing.

## References

* `src/communication/shell.c`, lines 59–72, 86–107 and 238.
-/

namespace UnixStudy.Shell

/-! ### What the builtins change -/

/-- An assignment changes nothing exactly if the variable has this value. -/
theorem setenv_eq_self_iff {env : List (Bytes × Bytes)} {name val : Bytes} :
    setenv env name val = env ↔ getenv env name = some val := by
  induction env with
  | nil => exact iff_of_false (List.cons_ne_nil _ _) fun h => Option.some_ne_none val h.symm
  | cons e env ih =>
    rw [setenv, getenv, List.find?_cons]
    by_cases hname : e.1 = name
    · rw [if_pos (beq_iff_eq.mpr hname), beq_iff_eq.mpr hname, List.cons_eq_cons,
        and_iff_left rfl, Option.map_some, Option.some_inj, Prod.ext_iff, eq_comm (a := val)]
      exact and_iff_right hname.symm
    · rw [if_neg (mt beq_iff_eq.mp hname), beq_false_of_ne hname, List.cons_inj_right, ih, getenv]

/-- What `asg` sets, if it sets a variable. -/
def assignment (argv : List Bytes) : Option (Bytes × Bytes) :=
  if argv.length ≠ 1 then none
  else (strtokEquals (argv0 argv)).bind fun t => (strtokRest t.2).map (t.1, ·)

/-- `asg` sets a variable, or refuses. -/
theorem asg_eq (argv : List Bytes) (s : State) : asg argv s =
    match assignment argv with
    | some a => { s with env := setenv s.env a.1 a.2 }
    | none => s.diag (if argv.length ≠ 1 then .extraArgs else .badAssignment) := by
  simp only [asg, assignment]
  split_ifs
  · rfl
  · rcases strtokEquals (argv0 argv) with _ | ⟨name, rest⟩
    · rfl
    · cases hrest : strtokRest rest <;> simp [hrest]

/-- The directory that `cd` changes to. -/
def cdPath (argv : List Bytes) (env : List (Bytes × Bytes)) : Bytes :=
  argv[1]?.getD ((getenv env homeName).getD dot)

/-- The builtin changes neither the environment nor the working directory. -/
def Harmless (sys : System) (argv : List Bytes) (s : State) : Prop :=
  if (argv0 argv).contains equals then
    ∀ a, assignment argv = some a → getenv s.env a.1 = some a.2
  else if argv0 argv == setName then True
  else if argv0 argv == cdName then
    ∀ cwd, sys.chdir s.cwd (cdPath argv s.env) = some cwd → cwd = s.cwd
  else True

/-! ### Refusals -/

/-- The messages with which a builtin is refused. -/
def Diag.isRefusal : Diag → Bool
  | .extraArgs | .badAssignment | .illegalRedirection => true
  | _ => false

/-- A refusal was written between the two states. -/
def Refused (s s' : State) : Prop := ∃ d, d.isRefusal = true ∧ .diag d ∈ s.since s'

/-- If a refusal was written between the two states, then the environment and the working directory
are the same in both. -/
def RefusedUnchanged (s s' : State) : Prop := Refused s s' → s'.env = s.env ∧ s'.cwd = s.cwd

section Refused

variable {s s' : State}

theorem refused_of_trace {es : List Event} (h : s'.trace = s.trace ++ es) :
    Refused s s' ↔ ∃ d, d.isRefusal = true ∧ .diag d ∈ es := by
  rw [Refused, State.since_eq h]

/-- A refusal that is decided last is written whether the builtin has changed something or not. -/
theorem refused_checkPlain (h : s.trace <+: s'.trace) (srcfd dstfd : ℤ) :
    Refused s (checkPlain srcfd dstfd s') ↔ Refused s s' ∨ ¬ (srcfd = 0 ∧ dstfd = 1) := by
  rw [not_and_or, checkPlain]
  split_ifs with hplain
  · refine iff_of_true ?_ (Or.inr hplain)
    have htrace : (s'.diag .illegalRedirection).trace =
        s.trace ++ (s.since s' ++ [.diag .illegalRedirection]) := by
      rw [← List.append_assoc, ← State.trace_eq h]
      rfl
    exact (refused_of_trace htrace).mpr
      ⟨.illegalRedirection, rfl, List.mem_append_right _ List.mem_cons_self⟩
  · exact (or_iff_left hplain).symm

theorem checkPlain_env (srcfd dstfd : ℤ) (s : State) : (checkPlain srcfd dstfd s).env = s.env := by
  rw [checkPlain]
  split_ifs <;> rfl

theorem checkPlain_cwd (srcfd dstfd : ℤ) (s : State) : (checkPlain srcfd dstfd s).cwd = s.cwd := by
  rw [checkPlain]
  split_ifs <;> rfl

/-- **A refusal that is decided last.** Where the refusals in front of it change nothing, it changes
nothing exactly if it is not drawn, or there is nothing to change. -/
theorem refusedUnchanged_checkPlain_iff (h : s.trace <+: s'.trace) (hearly : RefusedUnchanged s s')
    (srcfd dstfd : ℤ) : RefusedUnchanged s (checkPlain srcfd dstfd s') ↔
      (srcfd = 0 ∧ dstfd = 1) ∨ (s'.env = s.env ∧ s'.cwd = s.cwd) := by
  rw [RefusedUnchanged, refused_checkPlain h, checkPlain_env, checkPlain_cwd]
  constructor
  · intro hlate
    by_cases hplain : srcfd = 0 ∧ dstfd = 1
    · exact Or.inl hplain
    · exact Or.inr (hlate (Or.inr hplain))
  · rintro (hplain | hsame) hrefused
    · exact hearly (hrefused.resolve_right (not_not.mpr hplain))
    · exact hsame

end Refused

/-! ### The builtins one by one -/

section Builtins

variable (sys : System) (argv : List Bytes) (s : State)

/-- A state in which a builtin is about to do its work. -/
theorem not_refused_log : ¬ ∃ d, d.isRefusal = true ∧ Event.diag d ∈ [Event.builtin argv] := by
  rintro ⟨d, -, hd⟩
  exact Event.noConfusion (List.mem_singleton.mp hd)

theorem refusedUnchanged_asg : RefusedUnchanged s (asg argv (s.log (.builtin argv))) := by
  rw [asg_eq]
  cases assignment argv with
  | none => exact fun _ => ⟨rfl, rfl⟩
  | some a => exact fun h => absurd ((refused_of_trace rfl).mp h) (not_refused_log argv)

theorem unchanged_asg_iff : ((asg argv (s.log (.builtin argv))).env = s.env ∧
    (asg argv (s.log (.builtin argv))).cwd = s.cwd) ↔
      ∀ a, assignment argv = some a → getenv s.env a.1 = some a.2 := by
  rw [asg_eq]
  cases assignment argv with
  | none => exact iff_of_true ⟨rfl, rfl⟩ fun a ha => absurd ha.symm (Option.some_ne_none a)
  | some a =>
    have hall (p : Bytes × Bytes → Prop) : (∀ b, some a = some b → p b) ↔ p a :=
      ⟨fun h => h a rfl, fun h b hb => Option.some.inj hb ▸ h⟩
    rw [hall fun a => getenv s.env a.1 = some a.2, ← setenv_eq_self_iff]
    exact and_iff_left rfl

theorem set_unchanged : (set argv (s.log (.builtin argv))).env = s.env ∧
    (set argv (s.log (.builtin argv))).cwd = s.cwd := by
  rw [set]
  split_ifs <;> exact ⟨rfl, rfl⟩

variable {sys argv s} in
theorem cd_of_some {cwd : Bytes} (h : sys.chdir s.cwd (cdPath argv s.env) = some cwd) :
    cd sys argv s = { s with cwd := cwd } := by
  rw [cdPath] at h
  simp only [cd, h]

variable {sys argv s} in
theorem cd_of_none (h : sys.chdir s.cwd (cdPath argv s.env) = none) :
    cd sys argv s = s.diag (.badDirectory (cdPath argv s.env)) := by
  rw [cdPath] at h
  simp only [cd, h, cdPath]

theorem refusedUnchanged_cd : RefusedUnchanged s (cd sys argv (s.log (.builtin argv))) := by
  rw [cd]
  split
  · exact fun h => absurd ((refused_of_trace rfl).mp h) (not_refused_log argv)
  · exact fun _ => ⟨rfl, rfl⟩

theorem unchanged_cd_iff : ((cd sys argv (s.log (.builtin argv))).env = s.env ∧
    (cd sys argv (s.log (.builtin argv))).cwd = s.cwd) ↔
      ∀ cwd, sys.chdir s.cwd (cdPath argv s.env) = some cwd → cwd = s.cwd := by
  cases hchdir : sys.chdir s.cwd (cdPath argv s.env) with
  | none =>
    rw [cd_of_none (s := s.log (.builtin argv)) hchdir]
    exact iff_of_true ⟨rfl, rfl⟩ fun cwd h => absurd h.symm (Option.some_ne_none cwd)
  | some cwd =>
    rw [cd_of_some (s := s.log (.builtin argv)) hchdir]
    constructor
    · rintro ⟨-, hcwd⟩ cwd' h
      exact (Option.some.inj h) ▸ hcwd
    · exact fun h => ⟨rfl, h cwd rfl⟩

end Builtins

/-- A command that is no builtin is not refused. -/
theorem refusedUnchanged_self (s : State) : RefusedUnchanged s s := fun _ => ⟨rfl, rfl⟩

/-- **The builtins whose refusals change nothing** are those without a redirection and a pipe, and
those that have nothing to change. -/
theorem refusedUnchanged_builtin_iff (sys : System) (argv : List Bytes) (srcfd dstfd : ℤ)
    (s : State) : RefusedUnchanged s (builtin sys argv srcfd dstfd s).2 ↔
      (srcfd = 0 ∧ dstfd = 1) ∨ Harmless sys argv s := by
  have hkeeps (s' : State) (h : OnlyTalks (s.log (.builtin argv)) s') : s.trace <+: s'.trace := by
    obtain ⟨es, hes, -⟩ := h.trace
    exact ⟨.builtin argv :: es, by rw [hes, State.log_trace, List.append_assoc]; rfl⟩
  simp only [builtin, Harmless]
  split_ifs
  · rw [refusedUnchanged_checkPlain_iff (hkeeps _ (.asg ..)) (refusedUnchanged_asg argv s),
      unchanged_asg_iff]
  · rw [refusedUnchanged_checkPlain_iff (hkeeps _ (.set ..)) fun _ => set_unchanged argv s]
    exact or_congr_right (iff_true_intro (set_unchanged argv s))
  · rw [refusedUnchanged_checkPlain_iff (hkeeps _ (.cd ..)) (refusedUnchanged_cd sys argv s),
      unchanged_cd_iff]
  · exact iff_of_true (refusedUnchanged_self s) (Or.inr trivial)

/-! ### Stages -/

theorem harmless_of_not_isBuiltin {argv : List Bytes} (h : isBuiltin (argv0 argv) = false)
    (sys : System) (s : State) : Harmless sys argv s := by
  rw [isBuiltin, Bool.or_eq_false_iff, Bool.or_eq_false_iff] at h
  obtain ⟨⟨hequals, hset⟩, hcd⟩ := h
  rw [Harmless, hequals, hset, hcd]
  trivial

/-- What `invoke` records itself is no refusal. -/
theorem refused_builtin_iff {sys : System} {a : Invocation} {s : State}
    (hb : isBuiltin (argv0 a.argv) = true) :
    Refused s (builtin sys a.argv a.srcfd a.dstfd (s.log (.invoke a))).2.nextStage ↔
      Refused (s.log (.invoke a)) (builtin sys a.argv a.srcfd a.dstfd (s.log (.invoke a))).2 := by
  obtain ⟨es, hes, -⟩ := (builtin_frame hb sys a.srcfd a.dstfd (s.log (.invoke a))).trace
  have hlog : (builtin sys a.argv a.srcfd a.dstfd (s.log (.invoke a))).2.trace =
      (s.log (.invoke a)).trace ++ .builtin a.argv :: es := by
    rw [hes, State.log_trace, List.append_assoc, List.singleton_append]
  have hstart : (builtin sys a.argv a.srcfd a.dstfd (s.log (.invoke a))).2.nextStage.trace =
      s.trace ++ .invoke a :: .builtin a.argv :: es := by
    rw [State.nextStage, hlog, State.log_trace, List.append_assoc, List.singleton_append]
  rw [refused_of_trace hlog, refused_of_trace hstart]
  refine exists_congr fun d => and_congr_right fun _ => ?_
  exact List.mem_cons.trans (or_iff_right Event.noConfusion)

/-- The same of the stages: a stage is run with the descriptors of its place in the pipeline and of
its redirections. -/
theorem refusedUnchanged_stage_iff (sys : System) (a : Invocation) (s : State) :
    RefusedUnchanged s (invoke sys a s).2 ↔
      (a.srcfd = 0 ∧ a.dstfd = 1) ∨ Harmless sys a.argv s := by
  rcases invoke_cases sys a s with ⟨hnil, h⟩ | ⟨-, hb, h⟩ | ⟨hext, -, h⟩ | ⟨pid, hforks, h⟩ <;>
    rw [h]
  · refine iff_of_true (fun _ => ⟨rfl, rfl⟩) (Or.inr (harmless_of_not_isBuiltin ?_ sys s))
    rw [hnil]
    decide
  · rw [RefusedUnchanged, refused_builtin_iff hb]
    exact refusedUnchanged_builtin_iff sys a.argv a.srcfd a.dstfd (s.log (.invoke a))
  · exact iff_of_true (fun _ => ⟨rfl, rfl⟩) (Or.inr (harmless_of_not_isBuiltin hext.2 sys s))
  · refine iff_of_true (fun _ => ⟨rfl, rfl⟩) (Or.inr (harmless_of_not_isBuiltin ?_ sys s))
    by_contra hb
    rw [Invocation.forks_of_isBuiltin (Bool.eq_true_of_not_eq_false hb)] at hforks
    exact absurd hforks.symm (Option.some_ne_none pid)

/-- **The builtins whose refusals change nothing.** For every call of `builtin`, and so for every
stage of a pipeline: a refusal leaves the environment and the working directory as they were if and
only if the builtin has neither a redirection nor a pipe, or has nothing to change. -/
theorem refusals_change_nothing_iff (sys : System) :
    (∀ argv srcfd dstfd s, RefusedUnchanged s (builtin sys argv srcfd dstfd s).2 ↔
      (srcfd = 0 ∧ dstfd = 1) ∨ Harmless sys argv s) ∧
    ∀ a s, RefusedUnchanged s (invoke sys a s).2 ↔
      (a.srcfd = 0 ∧ a.dstfd = 1) ∨ Harmless sys a.argv s :=
  ⟨refusedUnchanged_builtin_iff sys, refusedUnchanged_stage_iff sys⟩

/-- The shell sets the variable `a` although the assignment has its output redirected. -/
theorem not_refusedUnchanged_redirected :
    ¬ RefusedUnchanged (.start []) (builtin .obliging [[97, 61, 98]] 0 (-1) (.start [])).2 := by
  intro h
  have henv := (h ⟨.illegalRedirection, rfl, by decide⟩).1
  revert henv
  decide

end UnixStudy.Shell
