import UnixStudy.Cl.Getargs
import UnixStudy.Shell.Refusal

/-!
# What an assignment assigns

`asg` is given a word with an equals sign. The name of the variable should be what is in front of
the first equals sign, and the value what is behind it. But `strtok` skips the delimiters in front
of what it returns, and so the equals signs at the beginning of the word: `=a=b` is no bad command,
but sets `a`. The two programs have the same `asg`.

## Main definitions

* `nameOf`, `valueOf` : the text in front of the first equals sign, and behind it.
* `FollowsLaw` : what an assignment should do to an environment.
* `Regular` : the commands for which `asg` does it.

## Main results

* `getenv_setenv` : a variable that is set has its value, and the others have theirs.
* `followsLaw_iff` : when `asg` does what it should.

## References

* `src/communication/shell.c`, lines 59–72 and 89–90.
* `src/process/cl.c`, lines 35–48 and 170–177.
-/

namespace UnixStudy.Cl

open Shell (Byte Bytes equals argv0 setenv getenv strtokEquals strtokRest assignment)

/-- The text in front of the first equals sign. -/
def nameOf (w : Bytes) : Bytes := w.takeWhile (· != equals)

/-- The text behind the first equals sign. -/
def valueOf (w : Bytes) : Bytes := (w.dropWhile (· != equals)).drop 1

/-- A word without the equals signs that it begins with. -/
def unlead (w : Bytes) : Bytes := w.dropWhile (· == equals)

/-- A word with a name and a value sets the variable and leaves the others; all other words, and
commands of more than one word, leave the environment as it is. -/
def FollowsLaw (argv : List Bytes) (env env' : Env) : Prop :=
  match argv with
  | [w] =>
    if nameOf w ≠ [] ∧ valueOf w ≠ [] then
      getenv env' (nameOf w) = some (valueOf w) ∧
        ∀ name, name ≠ nameOf w → getenv env' name = getenv env name
    else env' = env
  | _ => env' = env

/-- The word does not begin with an equals sign; or it has no value without the equals signs that it
begins with; or the variable has this value already. -/
def Regular (argv : List Bytes) (env : Env) : Prop :=
  ∀ w, argv = [w] → w.head? = some equals → valueOf (unlead w) ≠ [] →
    getenv env (nameOf (unlead w)) = some (valueOf (unlead w))

/-! ### Variables -/

/-- **A variable that is set** has its value, and the others have theirs. -/
theorem getenv_setenv (env : Env) (name val name' : Bytes) :
    getenv (setenv env name val) name' = if name' = name then some val else getenv env name' := by
  induction env with
  | nil =>
    rw [setenv, getenv, List.find?_singleton]
    by_cases hname : name' = name
    · rw [if_pos hname, hname, beq_self_eq_true]
      rfl
    · rw [if_neg hname, beq_false_of_ne (Ne.symm hname)]
      rfl
  | cons e env ih =>
    rw [setenv]
    by_cases he : e.1 = name
    · rw [if_pos (beq_iff_eq.mpr he), getenv, getenv, List.find?_cons, List.find?_cons, he]
      by_cases hname : name' = name
      · rw [if_pos hname, hname, beq_self_eq_true]
        rfl
      · rw [if_neg hname, beq_false_of_ne (Ne.symm hname)]
    · rw [if_neg (mt beq_iff_eq.mp he)]
      rw [getenv, getenv, List.find?_cons, List.find?_cons]
      rw [getenv, getenv] at ih
      by_cases hname : e.1 = name'
      · rw [beq_iff_eq.mpr hname, if_neg fun heq => he (hname.trans heq)]
      · rw [beq_false_of_ne hname]
        exact ih

/-! ### The two calls of `strtok` -/

/-- What a word sets: the equals signs that it begins with are skipped. -/
theorem assignment_singleton (w : Bytes) : assignment [w] =
    if valueOf (unlead w) = [] then none else some (nameOf (unlead w), valueOf (unlead w)) := by
  have hlength : ¬ [w].length ≠ 1 := fun h => h rfl
  rw [assignment, if_neg hlength, argv0, List.headD_cons, strtokEquals]
  change (if unlead w = [] then none else some (nameOf (unlead w), valueOf (unlead w))).bind _ = _
  by_cases hnil : unlead w = []
  · rw [hnil]
    rfl
  · rw [if_neg hnil, Option.bind_some, strtokRest]
    split_ifs <;> rfl

theorem assignment_of_length_ne {argv : List Bytes} (h : argv.length ≠ 1) :
    assignment argv = none :=
  if_pos h

/-- A word that does not begin with an equals sign. -/
theorem unlead_of_head {w : Bytes} (h : w.head? ≠ some equals) : unlead w = w := by
  cases w with
  | nil => rfl
  | cons c w => exact List.dropWhile_cons_of_neg fun hc => h (congrArg some (eq_of_beq hc))

/-- A word that begins with an equals sign has no name. -/
theorem nameOf_of_head {w : Bytes} (h : w.head? = some equals) : nameOf w = [] := by
  cases w with
  | nil => rfl
  | cons c w =>
    obtain rfl := Option.some.inj h
    exact List.takeWhile_cons_of_neg (by decide)

/-- A word with a value that does not begin with an equals sign has a name. -/
theorem nameOf_ne_nil {w : Bytes} (h : w.head? ≠ some equals) (hval : valueOf w ≠ []) :
    nameOf w ≠ [] := by
  cases w with
  | nil => exact absurd rfl hval
  | cons c w =>
    have hc : (c != equals) = true := bne_iff_ne.mpr fun hc => h (congrArg some hc)
    rw [nameOf, List.takeWhile_cons, if_pos hc]
    exact List.cons_ne_nil _ _

/-! ### The law -/

/-- **What is assigned.** -/
theorem followsLaw_assignment_iff (argv : List Bytes) (env : Env) :
    FollowsLaw argv env ((assignment argv).elim env fun a => setenv env a.1 a.2) ↔
      Regular argv env := by
  by_cases hlength : argv.length = 1
  · obtain ⟨w, rfl⟩ := List.length_eq_one_iff.mp hlength
    have hregular : Regular [w] env ↔ (w.head? = some equals → valueOf (unlead w) ≠ [] →
        getenv env (nameOf (unlead w)) = some (valueOf (unlead w))) :=
      ⟨fun h => h w rfl, fun h w' hw' => (List.singleton_inj.mp hw') ▸ h⟩
    rw [hregular, FollowsLaw, assignment_singleton]
    by_cases hhead : w.head? = some equals
    · rw [if_neg fun h => h.1 (nameOf_of_head hhead), imp_iff_right hhead]
      split_ifs with hval
      · exact iff_of_true rfl fun h => absurd hval h
      · rw [imp_iff_right hval, ← Shell.setenv_eq_self_iff]
        rfl
    · refine iff_of_true ?_ fun h => absurd h hhead
      rw [unlead_of_head hhead]
      by_cases hval : valueOf w = []
      · rw [if_pos hval, if_neg fun h => h.2 hval]
        rfl
      · rw [if_neg hval, if_pos ⟨nameOf_ne_nil hhead hval, hval⟩]
        refine ⟨?_, fun name hname => ?_⟩
        · exact (getenv_setenv ..).trans (if_pos rfl)
        · exact (getenv_setenv ..).trans (if_neg hname)
  · rw [assignment_of_length_ne hlength]
    refine iff_of_true ?_ fun w hw => absurd (congrArg List.length hw) hlength
    match argv with
    | [] => rfl
    | [_] => exact absurd rfl hlength
    | _ :: _ :: _ => rfl

/-- `asg` of the command-line application. -/
theorem asg_fst (argv : List Bytes) (env : Env) :
    (asg argv env).1 = (assignment argv).elim env fun a => setenv env a.1 a.2 := by
  rw [asg, assignment]
  split_ifs
  · rfl
  · rcases strtokEquals (argv0 argv) with _ | ⟨name, rest⟩
    · rfl
    · dsimp only
      rw [Option.bind_some]
      cases strtokRest rest <;> rfl

/-- `asg` of the shell. -/
theorem env_asg (argv : List Bytes) (s : Shell.State) :
    (Shell.asg argv s).env = (assignment argv).elim s.env fun a => setenv s.env a.1 a.2 := by
  rw [Shell.asg_eq]
  cases assignment argv <;> rfl

/-- **When `asg` does what it should**, in the shell and in the command-line application: if and
only if the word does not begin with an equals sign, or has no value without the ones that it begins
with, or the variable has that value already. -/
theorem followsLaw_iff (argv : List Bytes) (s : Shell.State) :
    (FollowsLaw argv s.env (Shell.asg argv s).env ↔ Regular argv s.env) ∧
      (FollowsLaw argv s.env (asg argv s.env).1 ↔ Regular argv s.env) := by
  rw [asg_fst, env_asg]
  exact ⟨followsLaw_assignment_iff argv s.env, followsLaw_assignment_iff argv s.env⟩

/-- **The word `=a=b`** has nothing in front of its first equals sign, and sets the variable `a`. -/
theorem not_followsLaw_lead :
    (asg [[61, 97, 61, 98]] []).1 = [([97], [98])] ∧
      ¬ FollowsLaw [[61, 97, 61, 98]] [] (asg [[61, 97, 61, 98]] []).1 ∧
      ∀ s : Shell.State, s.env = [] →
        ¬ FollowsLaw [[61, 97, 61, 98]] s.env (Shell.asg [[61, 97, 61, 98]] s).env := by
  have hassigns : (asg [[61, 97, 61, 98]] []).1 = [([97], [98])] := by decide
  have hlaw (env' : Env) (h : FollowsLaw [[61, 97, 61, 98]] [] env') : env' = [] := by
    rwa [FollowsLaw, if_neg (by decide)] at h
  have hcl : ¬ FollowsLaw [[61, 97, 61, 98]] [] (asg [[61, 97, 61, 98]] []).1 := by
    rw [hassigns]
    exact fun h => absurd (hlaw _ h) (List.cons_ne_nil _ _)
  refine ⟨hassigns, hcl, fun s henv => ?_⟩
  rw [env_asg, henv, ← asg_fst]
  exact hcl

end UnixStudy.Cl
