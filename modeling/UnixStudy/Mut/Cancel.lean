import UnixStudy.Mut.Atomic

/-!
# What the cleanup handler frees

When the thread is cancelled, its handler is to free the node that the thread has unlinked and not
freed, if there is one, and to unlock the mutex. It frees what was passed to it when it was pushed,
before the loop; that is what `p` happened to hold then, and is the same in every turn of the loop.

## Main definitions

* `Program.CleansUp` : no wrong call of `free` in a run, and nothing left at its end.
* `Program.Fits` : what `p` happened to hold is right for the place where the thread is cancelled.

## Main results

* `Program.owns` : what the thread has unlinked, and what is in use, in every run.
* `Program.cleansUp_iff` : when a run cleans up.

## References

* `src/process/mut.c`, lines 15–37 and 57–59.
-/

namespace UnixStudy.Mut.Program

variable {n : ℕ} {p : Option ℕ} {s s' : Program} {ls : List Choice}

/-- Every pointer that was passed to `free` was returned by `malloc`, no node was freed twice, the
handler has freed the node that the thread had unlinked, and has unlocked the mutex which the thread
had locked; it is not locked by the thread when that has ended. -/
structure CleansUp (s : Program) : Prop where
  returned : FreesReturned s.calls
  once : FreesOnce s.calls
  unlinked : s.thread = .ended → s.unlinked = none
  handled : ∀ held, s.handled = some held → held = true
  released : s.thread = .ended → s.mtx ≠ some .thread_func

/-- At `printf`, `p` is the address of the node that the thread has unlinked. In the wait, `p` is
the address of a node. -/
def Fits (p : Option ℕ) (s : Program) : Prop :=
  if s.thread = .print then p = s.p else ∃ a, p = some a ∧ s.mem.cell a ≠ none

/-! ### What is in use -/

/-- What is in use after a call of `free`. -/
theorem callFree_cell_ne_none (a : ℕ) :
    (s.callFree p).mem.cell a ≠ none ↔ s.mem.cell a ≠ none ∧ p ≠ some a := by
  cases p with
  | none => exact (and_iff_left (Option.some_ne_none a).symm).symm
  | some b =>
    dsimp only [callFree]
    rw [Option.bind_some, Ne, Ne, Ne, Option.some_inj]
    cases hmem : s.mem.free b with
    | some mem =>
      rw [Option.getD_some, eq_comm (a := b)]
      exact Allocations.free_cell_ne_none hmem a
    | none =>
      refine (and_iff_left_of_imp fun ha heq => ?_).symm
      obtain ⟨mem, hfree⟩ := Allocations.exists_free (heq ▸ ha)
      exact Option.some_ne_none _ (hfree.symm.trans hmem)

/-- What the thread has unlinked and not freed is its node, which is its `p`. The calls of `malloc`
and `free` say what is in use, and the handler has unlocked a mutex that was locked. -/
structure Owns (p : Option ℕ) (s : Program) : Prop where
  arg : s.arg = p
  inUse : ∀ a, s.mem.cell a ≠ none ↔ InUse s.calls a
  unlinked : s.thread ≠ .ended → s.unlinked = if s.thread.hasNode then s.p else none
  handled : ∀ held, s.handled = some held → held = true

namespace Owns

theorem start (p : Option ℕ) : (Program.start p).Owns p where
  arg := rfl
  inUse _ := iff_of_false (fun h => h rfl) not_inUse_nil
  unlinked _ := rfl
  handled _ h := absurd h.symm (Option.some_ne_none _)

/-- The main thread has no part in it. -/
theorem leaves (h : s.Owns p) (hleaves : Leaves s s')
    (hinUse : ∀ a, s'.mem.cell a ≠ none ↔ InUse s'.calls a) : s'.Owns p where
  arg := hleaves.arg.trans h.arg
  inUse := hinUse
  unlinked hended := by
    have hthread : s.thread ≠ .ended := fun h => hended (hleaves.thread_eq_ended_iff.mpr h)
    rw [hleaves.unlinked, h.unlinked hthread, hleaves.p]
    rcases hleaves.thread with hsame | ⟨hblocked, hwoken⟩
    · rw [hsame]
    · rw [hblocked, hwoken]
      rfl
  handled := hleaves.handled ▸ h.handled

/-- What is in use when a pointer has been passed to `free`. -/
theorem inUse_callFree (h : s.Owns p) (q : Option ℕ) (a : ℕ) :
    (s.callFree q).mem.cell a ≠ none ↔ InUse (s.callFree q).calls a :=
  (callFree_cell_ne_none a).trans ((and_congr_left' (h.inUse a)).trans inUse_free.symm)

/-- **A statement of the thread.** -/
theorem threadStep (h : s.Owns p) (hs : s.threadStep = some s') : s'.Owns p := by
  have hunlinked := h.unlinked (of_threadStep hs).1
  cases threadSteps hs with
  | lock hpc hmtx =>
    refine { h with unlinked := fun _ => hunlinked.trans ?_ }
    rcases hpc with hpc | hpc <;> rw [hpc] <;> rfl
  | next hpc => exact { h with unlinked := fun _ => rfl }
  | empty hpc | found hpc | wait hpc | take hpc | print hpc | unlock hpc =>
    refine { h with unlinked := fun _ => hunlinked.trans ?_ }
    rw [hpc]
    rfl
  | free hpc =>
    rw [hpc] at hunlinked
    exact
      { h with
        inUse := h.inUse_callFree s.p
        unlinked := fun _ => if_pos hunlinked.symm }

/-- The handler runs, and the thread has locked the mutex. -/
theorem cleanupHandler (h : s.Owns p) (hmtx : s.mtx = some .thread_func) :
    s.cleanupHandler.Owns p where
  arg := h.arg
  inUse := h.inUse_callFree s.arg
  unlinked hended := absurd rfl hended
  handled _ hheld := (Option.some.inj hheld).symm.trans (decide_eq_true hmtx)

/-- **Every step keeps it.** -/
theorem step (h : s.Owns p) (hlocked : s.Locked) {l : Choice} (hs : Step n s l s') :
    s'.Owns p := by
  cases l with
  | malloc a node =>
    obtain ⟨-, mem, hmem, rfl⟩ := of_malloc hs
    refine h.leaves { Leaves.refl s with } fun b => ?_
    rw [Allocations.malloc_cell_ne_none hmem, h.inUse b, inUse_malloc]
  | main =>
    obtain ⟨hleaves, hcalls, hmem⟩ := of_mainStep (of_step hs).2
    exact h.leaves hleaves fun a => by rw [hmem, hcalls, h.inUse a]
  | thread_func => exact h.threadStep (of_step hs).2
  | wake =>
    obtain ⟨hpc, rfl⟩ := of_wake hs
    exact h.leaves { Leaves.refl s with thread := .inr ⟨hpc, rfl⟩ } h.inUse
  | cancel =>
    obtain ⟨-, ⟨-, hmtx, rfl⟩ | ⟨hpc, rfl⟩⟩ := of_cancel (of_step hs).2
    · exact cleanupHandler { h with } rfl
    · exact h.cleanupHandler (hlocked.thread.mpr (by rw [hpc]; rfl))

end Owns

theorem locked (hrun : Run (Step n) (start p) ls s) : s.Locked :=
  hrun.invariant (Locked.start p) fun _ _ _ h hs => h.step hs

/-- What the thread has unlinked, and what is in use, in every run. -/
theorem owns (hrun : Run (Step n) (start p) ls s) : s.Owns p := by
  induction hrun with
  | refl => exact .start p
  | tail hrun hs ih => exact ih.step (locked hrun) hs

/-- What the thread has unlinked is in use. -/
theorem exists_inUse (hrun : Run (Step n) (start p) ls s) (hthread : s.thread.hasNode) :
    ∃ a, s.p = some a ∧ InUse s.calls a := by
  have hended : s.thread ≠ .ended := fun h => by
    rw [h] at hthread
    exact Bool.noConfusion hthread
  obtain ⟨-, t, nodes, -, h, ht⟩ := exists_atomic hrun hended
  obtain ⟨a, node, -, -, ha, hcell, -⟩ := h.exists_unlinked ht hthread
  exact ⟨a, ha, ((owns hrun).inUse a).mp (hcell ▸ Option.some_ne_none _)⟩

/-! ### The calls of `free` -/

/-- The mutex is unlocked in any case. -/
theorem cleansUp_iff_frees (hrun : Run (Step n) (start p) ls s) : s.CleansUp ↔
    (FreesReturned s.calls ∧ FreesOnce s.calls) ∧ (s.thread = .ended → s.unlinked = none) := by
  refine ⟨fun h => ⟨⟨h.returned, h.once⟩, h.unlinked⟩, fun ⟨⟨hreturned, honce⟩, hunlinked⟩ =>
    ⟨hreturned, honce, hunlinked, (owns hrun).handled, fun hended hmtx => ?_⟩⟩
  have hin := (locked hrun).thread.mp hmtx
  rw [hended] at hin
  exact Bool.noConfusion hin

/-- A step of the main thread makes no wrong call. -/
theorem cleansUp_leaves (hrun : Run (Step n) (start p) ls s) {l : Choice} (hs : Step n s l s')
    (hleaves : Leaves s s') (hcalls : FreesReturned s'.calls ∧ FreesOnce s'.calls ↔
      FreesReturned s.calls ∧ FreesOnce s.calls) : s'.CleansUp ↔ s.CleansUp := by
  rw [cleansUp_iff_frees (hrun.tail hs), cleansUp_iff_frees hrun, hcalls,
    hleaves.thread_eq_ended_iff, hleaves.unlinked]

/-- The thread frees what is in use. -/
theorem cleansUp_threadStep (hrun : Run (Step n) (start p) ls s)
    (hs : Step n s .thread_func s') : s'.CleansUp ↔ s.CleansUp := by
  have hthread : s.threadStep = some s' := (of_step hs).2
  obtain ⟨hold, hnew⟩ := of_threadStep hthread
  have hrun' : Run (Step n) (start p) (ls ++ [.thread_func]) s' := hrun.tail hs
  rw [cleansUp_iff_frees hrun', cleansUp_iff_frees hrun]
  refine and_congr ?_ (iff_of_true (fun h => absurd h hnew) fun h => absurd h hold)
  rcases calls_of_threadStep hthread with hcalls | ⟨hpc, hcalls⟩
  · rw [hcalls]
  · rw [hcalls, frees_free_iff]
    exact and_iff_left (exists_inUse hrun (by rw [hpc]; rfl))

/-- What the handler does to the pointer that was passed to it. -/
theorem of_cancel_owns (h : s.Owns p) (hs : s.cancel = some s') : s'.calls = s.calls ++ [.free p] ∧
    s'.thread = .ended ∧ s'.unlinked = if p = s.unlinked then none else s.unlinked := by
  obtain ⟨-, ⟨-, -, rfl⟩ | ⟨-, rfl⟩⟩ := of_cancel hs
  · rw [← h.arg]
    exact ⟨rfl, rfl, rfl⟩
  · rw [← h.arg]
    exact ⟨rfl, rfl, rfl⟩

/-- The handler frees what `p` happened to hold. -/
theorem cleansUp_cancel (hrun : Run (Step n) (start p) ls s) (hs : Step n s .cancel s') :
    s'.CleansUp ↔ s.CleansUp ∧ s.Fits p := by
  have howns := owns hrun
  have hcancel : s.cancel = some s' := (of_step hs).2
  obtain ⟨hcalls, hended', hunlinked⟩ := of_cancel_owns howns hcancel
  have hrun' : Run (Step n) (start p) (ls ++ [.cancel]) s' := hrun.tail hs
  rw [cleansUp_iff_frees hrun', cleansUp_iff_frees hrun, hcalls, frees_free_iff,
    forall_prop_of_true hended', hunlinked, Fits]
  obtain ⟨-, ⟨hpc, -, -⟩ | ⟨hpc, -⟩⟩ := of_cancel hcancel
  · -- in the wait the thread has unlinked nothing
    have hended : s.thread ≠ .ended := by rcases hpc with hpc | hpc <;> simp [hpc]
    have hprint : s.thread ≠ .print := by rcases hpc with hpc | hpc <;> simp [hpc]
    have hnone : s.unlinked = none := by
      rw [howns.unlinked hended]
      rcases hpc with hpc | hpc <;> rw [hpc] <;> rfl
    simp only [hnone, ite_self, if_neg hprint, howns.inUse, implies_true, and_true]
  · have hended : s.thread ≠ .ended := by simp [hpc]
    obtain ⟨a, ha, huse⟩ := exists_inUse hrun (by rw [hpc]; rfl)
    have hunlinked : s.unlinked = s.p := by rw [howns.unlinked hended, hpc]; rfl
    rw [hunlinked, if_pos hpc]
    constructor
    · rintro ⟨⟨h, -⟩, hnone⟩
      refine ⟨⟨h, fun h => absurd h hended⟩, ?_⟩
      by_contra hne
      rw [if_neg hne, ha] at hnone
      exact Option.some_ne_none a hnone
    · rintro ⟨⟨h, -⟩, rfl⟩
      exact ⟨⟨h, a, ha, huse⟩, if_pos rfl⟩

/-- The other steps make no wrong call. -/
theorem cleansUp_of_ne (hrun : Run (Step n) (start p) ls s) {l : Choice} (hs : Step n s l s')
    (hl : l ≠ .cancel) : s'.CleansUp ↔ s.CleansUp := by
  cases l with
  | malloc a node =>
    obtain ⟨-, mem, -, rfl⟩ := of_malloc hs
    exact cleansUp_leaves hrun hs { Leaves.refl s with } frees_malloc_iff
  | main =>
    obtain ⟨hleaves, hcalls, -⟩ := of_mainStep (of_step hs).2
    exact cleansUp_leaves hrun hs hleaves (by rw [hcalls])
  | thread_func => exact cleansUp_threadStep hrun hs
  | wake =>
    obtain ⟨hpc, rfl⟩ := of_wake hs
    exact cleansUp_leaves hrun hs { Leaves.refl s with thread := .inr ⟨hpc, rfl⟩ } Iff.rfl
  | cancel => exact absurd rfl hl

/-- **The calls of `free` are right** if and only if the cancellation takes effect where what `p`
happened to hold fits, if it takes effect at all. -/
theorem cleansUp_iff (hrun : Run (Step n) (start p) ls s) : s.CleansUp ↔
    ∀ as₁ l as₂, ls = as₁ ++ l :: as₂ → ∀ s₁, Run (Step n) (start p) as₁ s₁ →
      l = .cancel → s₁.Fits p := by
  refine hrun.iff_forall (fun s => ∃ ls, Run (Step n) (start p) ls s) CleansUp
    (fun s l => l = .cancel → s.Fits p) ⟨[], .refl⟩ ?_ ?_ ?_
  · have hrefl : Run (Step n) (start p) [] (start p) := .refl
    exact (cleansUp_iff_frees hrefl).mpr ⟨⟨freesReturned_nil, freesOnce_nil⟩, fun _ => rfl⟩
  · exact fun s l s' ⟨ls, hrun⟩ hs => ⟨ls ++ [l], hrun.tail hs⟩
  · rintro s l s' ⟨ls, hrun⟩ hs
    by_cases hl : l = .cancel
    · subst hl
      rw [cleansUp_cancel hrun hs, forall_prop_of_true rfl]
    · rw [cleansUp_of_ne hrun hs hl, forall_prop_of_false hl, and_true]

/-- There are ten nodes, and `p` happened to hold an address that is not in use. The thread has
unlinked the last node when it is cancelled at `printf`. -/
def atPrintf : List Choice :=
  (List.range 10).flatMap (fun i => turn (8 * i)) ++ [.main, .main] ++
    List.replicate 4 .thread_func ++ [.cancel]

theorem foldlM_atPrintf : (atPrintf.foldlM (step 10) (start (some 3))).map
    (fun s => (s.thread, s.unlinked, s.calls)) = some (.ended, some 72,
      (List.range 10).map (fun i => .malloc (8 * i)) ++ [.free (some 3)]) := rfl

theorem exists_atPrintf : ∃ s, Run (Step 10) (start (some 3)) atPrintf s ∧ s.thread = .ended ∧
    s.unlinked = some 72 ∧
      s.calls = (List.range 10).map (fun i => .malloc (8 * i)) ++ [.free (some 3)] := by
  obtain ⟨s, hs, hshows⟩ := Option.map_eq_some_iff.mp foldlM_atPrintf
  simp only [Prod.mk.injEq] at hshows
  exact ⟨s, .of_foldlM hs, hshows⟩

/-- The last node is not freed, but an address that `malloc` has not returned. -/
theorem not_cleansUp : ∃ s, Run (Step 10) (start (some 3)) atPrintf s ∧ s.unlinked = some 72 ∧
    s.calls = (List.range 10).map (fun i => .malloc (8 * i)) ++ [.free (some 3)] ∧
      ¬ s.CleansUp := by
  obtain ⟨s, hrun, hended, hunlinked, hcalls⟩ := exists_atPrintf
  refine ⟨s, hrun, hunlinked, hcalls, fun h => ?_⟩
  exact Option.some_ne_none 72 (hunlinked.symm.trans (h.unlinked hended))

theorem cleansUp_iff_atPrintf : ∃ s, Run (Step 10) (start (some 3)) atPrintf s ∧ (s.CleansUp ↔
    ∀ as₁ l as₂, atPrintf = as₁ ++ l :: as₂ → ∀ s₁, Run (Step 10) (start (some 3)) as₁ s₁ →
      l = .cancel → s₁.Fits (some 3)) := by
  obtain ⟨s, hrun, -⟩ := exists_atPrintf
  exact ⟨s, hrun, cleansUp_iff hrun⟩

end UnixStudy.Mut.Program
