import UnixStudy.Foundations.Mutex
import UnixStudy.Ec.Trace

/-!
# The statements under the mutex

Any number of threads call `ec_push`, `ec_print` and `ec_reinit`. Here each statement that reads or
writes the list, memory or the static variables is a step of its own: the two calls of `calloc`, the
test for the emergency array and that for the emergency node, the two assignments that link a node,
each turn of the loop of `ec_print`, and for each turn of the loop of `ec_reinit` the reading of the
next node and the calls of `free`. `ec_mutex` locks and unlocks the mutex around them.

`atexit` is called after the mutex is unlocked, by the thread that has found that this was not done.
If it fails, the thread calls `ec_push` again, and `ec_print`.

## Main definitions

* `Call`, `Place`, `Control` : the calls, and where a thread is in one.
* `inside`, `sections` : the statements.

## References

* `src/common/ec.c`, lines 24–43, 65–108, 110–129 and 131–147.
-/

namespace UnixStudy.Ec

open Smi (Bytes)

/-! ### Assignments -/

namespace State

variable (s : State)

/-- The string of a text is assigned to: that of a block, of the array, or of the literal. -/
def setText (a : ℕ) (t : Bytes) : Option State :=
  if a = emergencyText then some { s with ec_s_emergency := t }
  else if a = question then some { s with literal := t, literalWritten := true }
  else (s.mem.store a (.text t)).map fun mem => { s with mem := mem }

/-- A node is assigned to. -/
def setNode (a : ℕ) (n : Node) : Option State :=
  if a = emergencyNode then some { s with ec_node_emergency := n }
  else (s.mem.store a (.node n)).map fun mem => { s with mem := mem }

/-- `calloc` is called: it fails, or returns a block of zeros. -/
def callCalloc (zeros : Block) : Option ℕ → Option State
  | none => some s
  | some a => s.calloc a zeros

end State

/-! ### Calls -/

/-- A call. -/
inductive Call
  | push (e : Error)
  | print
  | reinit

/-- Where a thread is in a call, with the variables that it has there. -/
inductive Place
  | idle
  | lock (c : Call)
  | callocText (e : Error)
  | testText (e : Error) (text : Option ℕ)
  | snprintf (e : Error) (text : Option ℕ) (len context : ℕ)
  | callocNode (e : Error) (text : Option ℕ) (context : ℕ)
  | testNode (p : Push) (context : ℕ)
  | setNext (p : Push) (context : ℕ) (place : Option ℕ)
  | setHead (p : Push) (context place : ℕ) (ec_next : Option ℕ)
  | setNode (p : Push) (context place : ℕ) (ec_next : Option ℕ)
  | testAtexit (p : Push)
  | unlockPush (p : Push) (first : Bool)
  | atexit (e : Error)
  | printInit
  | printLoop (e : Option ℕ) (level : ℕ) (shown : List Bytes)
  | unlockPrint (shown : List Bytes)
  | reinitInit
  | reinitLoop (e : Option ℕ)
  | freeContext (e : ℕ) (e_next : Option ℕ)
  | freeNode (e : ℕ) (e_next : Option ℕ)
  | resetHead
  | resetNode
  | resetText
  | unlockReinit

/-- Where a thread is, and the calls that are to follow. -/
structure Control where
  place : Place
  todo : List Call

/-- What the environment chooses for a statement: the next call, what `calloc` returns, or the error
number if `atexit` fails. -/
inductive Choice
  | call (c : Call)
  | calloc (a : Option ℕ)
  | atexit (err : Option ℤ)
  | go

/-- What `calloc` returns, where it is called. -/
def Choice.block : Choice → Option ℕ
  | calloc a => a
  | _ => none

/-- `"atexit failed"`. -/
def atexitFailed : CString where
  chars := [97, 116, 101, 120, 105, 116, 32, 102, 97, 105, 108, 101, 100]
  noNul := by decide

namespace Place

/-- The places in the sections. -/
def within : Place → Bool
  | .idle | .lock _ | .atexit _ => false
  | _ => true

/-- The mutex is locked. -/
def enter : Place → Option Place
  | .lock (.push e) => some (.callocText e)
  | .lock .print => some .printInit
  | .lock .reinit => some .reinitInit
  | _ => none

/-- The mutex is unlocked. -/
def leave : Place → Option Place
  | .unlockPush p first => some (if first then .atexit p.error else .idle)
  | .unlockPrint _ | .unlockReinit => some .idle
  | _ => none

/-- The statements of `ec_push` in its section. -/
def insidePush (b : Choice) : Place → State → Option (Place × State)
  | .callocText e, s => (s.callCalloc (.text []) b.block).map (.testText e b.block, ·)
  | .testText e (some a), s => some (.snprintf e (some a) e.len a, s)
  | .testText e none, s =>
    some (.snprintf e none 100 (if s.ec_s_emergency = [] then emergencyText else question), s)
  | .snprintf e text len context, s =>
    (s.setText context (UnixStudy.snprintf len e.context).2).map (.callocNode e text context, ·)
  | .callocNode e text context, s =>
    (s.callCalloc (.node .zero) b.block).map (.testNode ⟨e, text, b.block⟩ context, ·)
  | .testNode p context, s =>
    some (.setNext p context
      (if p.node = none ∧ s.ec_node_emergency.ec_context = none then some emergencyNode
        else p.node), s)
  | .setNext p _ none, s => some (.testAtexit p, s)
  | .setNext p context (some a), s => some (.setHead p context a s.ec_head, s)
  | .setHead p context a ec_next, s =>
    some (.setNode p context a ec_next, { s with ec_head := some a })
  | .setNode p context a ec_next, s =>
    (s.setNode a ⟨ec_next, p.error.errno_arg, p.error.type, some context⟩).map (.testAtexit p, ·)
  | .testAtexit p, s => some (.unlockPush p (!s.attexit_called), { s with attexit_called := true })
  | _, _ => none

/-- The statements of `ec_print` in its section. -/
def insidePrint (syserrmsgtype : ℕ → Bytes → ℤ → ErrType → Bytes) :
    Place → State → Option (Place × State)
  | .printInit, s => some (.printLoop s.ec_head 0 [], s)
  | .printLoop none _ shown, s => some (.unlockPrint shown, s)
  | .printLoop (some a) level shown, s => do
    let e ← s.nodeAt a
    let context ← e.ec_context.bind s.textAt
    let buf := syserrmsgtype 200 context (if e.ec_next = none then e.ec_errno else 0) e.ec_type
    some (.printLoop e.ec_next (level + 1) (shown ++
      ((if a = emergencyNode then [incomplete] else []) ++
        [(UnixStudy.snprintf 225 (levelText level buf)).2])), s)
  | _, _ => none

/-- The statements of `ec_reinit` in its section. -/
def insideReinit : Place → State → Option (Place × State)
  | .reinitInit, s => some (.reinitLoop s.ec_head, s)
  | .reinitLoop none, s => some (.resetHead, s)
  | .reinitLoop (some a), s => do
    let e ← s.nodeAt a
    some (.freeContext a e.ec_next, s)
  | .freeContext a e_next, s => do
    let e ← s.nodeAt a
    some (.freeNode a e_next,
      if e.ec_context ≠ some emergencyText then s.free e.ec_context else s)
  | .freeNode a e_next, s =>
    some (.reinitLoop e_next, if a ≠ emergencyNode then s.free (some a) else s)
  | .resetHead, s => some (.resetNode, { s with ec_head := none })
  | .resetNode, s => some (.resetText, { s with ec_node_emergency := .zero })
  | .resetText, s => some (.unlockReinit, { s with ec_s_emergency := [] })
  | _, _ => none

/-- The statements in the sections. -/
def inside (syserrmsgtype : ℕ → Bytes → ℤ → ErrType → Bytes) (c : Place) (b : Choice) (s : State) :
    Option (Place × State) :=
  match c with
  | .printInit | .printLoop .. => insidePrint syserrmsgtype c s
  | .reinitInit | .reinitLoop _ | .freeContext .. | .freeNode .. | .resetHead | .resetNode
  | .resetText => insideReinit c s
  | _ => insidePush b c s

end Place

namespace Control

/-- The statements that are not in a section; how often `atexit` was called. -/
def outside : Control → Choice → ℕ → Option (Control × ℕ)
  | ⟨.idle, []⟩, .call c, n => some (⟨.lock c, []⟩, n)
  | ⟨.idle, c :: todo⟩, .go, n => some (⟨.lock c, todo⟩, n)
  | ⟨.atexit _, todo⟩, .atexit none, n => some (⟨.idle, todo⟩, n + 1)
  | ⟨.atexit e, todo⟩, .atexit (some err), n =>
    some (⟨.idle,
      .push { e with str := some atexitFailed, errno_arg := err, type := .EC_ERRNO } ::
        .print :: todo⟩, n + 1)
  | _, _, _ => none

end Control

/-! ### The program -/

namespace Place

variable {c c' : Place}

theorem within_of_enter (h : c.enter = some c') : c.within = false ∧ c'.within = true := by
  cases c with
  | lock call =>
    cases call <;>
      · obtain rfl := Option.some.inj h
        exact ⟨rfl, rfl⟩
  | _ => exact absurd h.symm (Option.some_ne_none c')

theorem within_of_leave (h : c.leave = some c') : c.within = true ∧ c'.within = false := by
  cases c with
  | unlockPush p first =>
    obtain rfl := Option.some.inj h
    cases first <;> exact ⟨rfl, rfl⟩
  | unlockPrint | unlockReinit =>
    obtain rfl := Option.some.inj h
    exact ⟨rfl, rfl⟩
  | _ => exact absurd h.symm (Option.some_ne_none c')

theorem within_of_insidePush {b : Choice} {s : State} {r : Place × State}
    (h : c.insidePush b s = some r) : c.within = true ∧ r.1.within = true := by
  cases c with
  | callocText | callocNode | snprintf | setNode =>
    obtain ⟨_, -, rfl⟩ := Option.map_eq_some_iff.mp h
    exact ⟨rfl, rfl⟩
  | testText e text =>
    cases text <;>
      · obtain rfl := Option.some.inj h
        exact ⟨rfl, rfl⟩
  | setNext p context place =>
    cases place <;>
      · obtain rfl := Option.some.inj h
        exact ⟨rfl, rfl⟩
  | testNode | setHead | testAtexit =>
    obtain rfl := Option.some.inj h
    exact ⟨rfl, rfl⟩
  | _ => exact absurd h.symm (Option.some_ne_none r)

theorem within_of_inside {syserrmsgtype : ℕ → Bytes → ℤ → ErrType → Bytes} {b : Choice}
    {s : State} {r : Place × State} (h : c.inside syserrmsgtype b s = some r) :
    c.within = true ∧ r.1.within = true := by
  cases c with
  | printInit | reinitInit | freeNode | resetHead | resetNode | resetText =>
    obtain rfl := Option.some.inj h
    exact ⟨rfl, rfl⟩
  | printLoop e level shown =>
    cases e with
    | none =>
      obtain rfl := Option.some.inj h
      exact ⟨rfl, rfl⟩
    | some a =>
      obtain ⟨_, -, h⟩ := Option.bind_eq_some_iff.mp h
      obtain ⟨_, -, h⟩ := Option.bind_eq_some_iff.mp h
      obtain rfl := Option.some.inj h
      exact ⟨rfl, rfl⟩
  | reinitLoop e =>
    cases e with
    | none =>
      obtain rfl := Option.some.inj h
      exact ⟨rfl, rfl⟩
    | some a =>
      obtain ⟨_, -, h⟩ := Option.bind_eq_some_iff.mp h
      obtain rfl := Option.some.inj h
      exact ⟨rfl, rfl⟩
  | freeContext =>
    obtain ⟨_, -, h⟩ := Option.bind_eq_some_iff.mp h
    obtain rfl := Option.some.inj h
    exact ⟨rfl, rfl⟩
  | _ => exact within_of_insidePush (b := b) (s := s) h

end Place

theorem Control.within_of_outside {c : Control} {b : Choice} {n : ℕ} {r : Control × ℕ}
    (h : c.outside b n = some r) : c.place.within = false ∧ r.1.place.within = false := by
  obtain ⟨place, todo⟩ := c
  cases place with
  | idle =>
    cases todo <;> cases b <;> simp [outside] at h <;> subst h <;> exact ⟨rfl, rfl⟩
  | atexit e =>
    cases b with
    | atexit err => cases err <;> simp [outside] at h <;> subst h <;> exact ⟨rfl, rfl⟩
    | _ => simp [outside] at h
  | _ => simp [outside] at h

/-- The program that every thread runs. -/
def sections (syserrmsgtype : ℕ → Bytes → ℤ → ErrType → Bytes) :
    Sections State ℕ Control Choice where
  within c := c.place.within
  enter c := c.place.enter.map (⟨·, c.todo⟩)
  inside c b s := (c.place.inside syserrmsgtype b s).map fun r => (⟨r.1, c.todo⟩, r.2)
  leave c := c.place.leave.map (⟨·, c.todo⟩)
  outside := Control.outside
  within_enter _ _ h := by
    obtain ⟨_, hc, rfl⟩ := Option.map_eq_some_iff.mp h
    exact Place.within_of_enter hc
  within_inside _ _ _ _ h := by
    obtain ⟨_, hc, rfl⟩ := Option.map_eq_some_iff.mp h
    exact Place.within_of_inside hc
  within_leave _ _ h := by
    obtain ⟨_, hc, rfl⟩ := Option.map_eq_some_iff.mp h
    exact Place.within_of_leave hc
  within_outside _ _ _ _ h := Control.within_of_outside h

end UnixStudy.Ec
