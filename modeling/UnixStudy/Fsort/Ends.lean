import UnixStudy.Fsort.Coprocess

/-!
# Who has which end open

The statements of the two processes say which ends of the pipes they have open: each process closes
what it does not use before it reads or writes anything, and the parent closes its end of the first
pipe before it reads from the second one.

## Main definitions

* `ParentPc.Holds`, `ChildPc.Holds` : the ends that a process has open in front of a statement.

## Main results

* `Env.names_parentTable_iff`, `Env.names_childTable_iff` : the tables have these ends.
* `Env.hasOpen_iff` : an end is open in one of the processes.

## References

* `src/communication/fsort.c`, lines 14–29 and 42–55.
-/

namespace UnixStudy.Fsort

open FdTable

/-- The ends that the parent has open. -/
def ParentPc.Holds (p : Pipe) (e : FifoEnd) : ParentPc → Prop
  | .closeOut0 => True
  | .closeIn1 => ¬ (p = .pfdout ∧ e = .reading)
  | .openFile | .readFile | .writePipe _ | .closeFile | .closeOut1 =>
    p = .pfdout ∧ e = .writing ∨ p = .pfdin ∧ e = .reading
  | .readPipe | .writeStdout _ | .closeIn0 => p = .pfdin ∧ e = .reading
  | .waitpid | .returned | .killed => False

/-- The ends that the child has open. -/
def ChildPc.Holds (p : Pipe) (e : FifoEnd) : ChildPc → Prop
  | .dupIn | .closeOut0 | .closeOut1 => True
  | .dupOut | .closeIn0 => ¬ (p = .pfdout ∧ e = .writing)
  | .closeIn1 | .execlp | .reading _ | .writing _ =>
    p = .pfdout ∧ e = .reading ∨ p = .pfdin ∧ e = .writing
  | .absent | .exited => False

namespace Env

variable (env : Env) {p p' : Pipe} {e e' : FifoEnd}

theorem fd_eq_iff : env.fd p e = env.fd p' e' ↔ p = p' ∧ e = e' :=
  ⟨env.fd_inj p e p' e', fun h => by rw [h.1, h.2]⟩

theorem slot_table (p : Pipe) (e : FifoEnd) : env.table.slot (env.fd p e) = some (.pipe p e) :=
  mem_named.mp (env.named p e ▸ Set.mem_singleton _)

/-- One descriptor less. -/
theorem singleton_sdiff_fd : ({env.fd p e} : Set ℕ) \ {env.fd p' e'} =
    if p = p' ∧ e = e' then ∅ else {env.fd p e} := by
  split_ifs with h
  · rw [h.1, h.2, Set.sdiff_self]
  · exact Set.sdiff_singleton_eq_self fun hmem => h (env.fd_eq_iff.mp hmem.symm)

/-- The standard input and output are none of the descriptors. -/
theorem std_ne_fd {n : ℕ} (hn : n < 2) : n ≠ env.fd p e :=
  (hn.trans_le (env.two_le p e)).ne

theorem singleton_sdiff_std {n : ℕ} (hn : n < 2) :
    ({env.fd p e} : Set ℕ) \ {n} = {env.fd p e} :=
  Set.sdiff_singleton_eq_self fun hmem => env.std_ne_fd hn (Set.mem_singleton_iff.mp hmem)

/-! ### The parent -/

theorem named_parentEnds : env.parentEnds.named (.pipe p e) =
    if p = .pfdout ∧ e = .writing ∨ p = .pfdin ∧ e = .reading then {env.fd p e} else ∅ := by
  rw [parentEnds, named_sysClose, named_sysClose, env.named]
  cases p <;> cases e <;> simp [singleton_sdiff_fd]

theorem named_parentOpened : env.parentOpened.2.named (.pipe p e) =
    env.parentEnds.named (.pipe p e) := named_sysOpen Object.noConfusion

theorem named_parentClosed : env.parentClosed.named (.pipe p e) =
    env.parentEnds.named (.pipe p e) := named_sysClose_sysOpen Object.noConfusion

theorem named_parentWritten : env.parentWritten.named (.pipe p e) =
    if p = .pfdin ∧ e = .reading then {env.fd p e} else ∅ := by
  rw [parentWritten, named_sysClose, named_parentClosed, named_parentEnds]
  cases p <;> cases e <;> simp [singleton_sdiff_fd]

theorem named_empty (a : Object) : (⟨[]⟩ : FdTable Object).named a = ∅ :=
  Set.eq_empty_of_forall_notMem fun _ h => Option.some_ne_none a h.symm

/-- The parent has these ends open. -/
theorem names_parentTable_iff (pc : ParentPc) :
    (env.parentTable pc).Names (.pipe p e) ↔ pc.Holds p e := by
  rw [names_iff_nonempty]
  cases pc with
  | closeOut0 => simp [parentTable, ParentPc.Holds, env.named]
  | closeIn1 =>
    rw [parentTable, named_sysClose, env.named, singleton_sdiff_fd]
    cases p <;> cases e <;> simp [ParentPc.Holds]
  | openFile =>
    rw [parentTable, named_parentEnds]
    cases p <;> cases e <;> simp [ParentPc.Holds]
  | readFile | writePipe | closeFile =>
    rw [parentTable, named_parentOpened, named_parentEnds]
    cases p <;> cases e <;> simp [ParentPc.Holds]
  | closeOut1 =>
    rw [parentTable, named_parentClosed, named_parentEnds]
    cases p <;> cases e <;> simp [ParentPc.Holds]
  | readPipe | writeStdout | closeIn0 =>
    rw [parentTable, named_parentWritten]
    cases p <;> cases e <;> simp [ParentPc.Holds]
  | waitpid | returned =>
    rw [parentTable, named_sysClose, named_parentWritten]
    cases p <;> cases e <;> simp [ParentPc.Holds]
  | killed => simp [parentTable, ParentPc.Holds, named_empty]

/-! ### The child -/

theorem named_childStdin : env.childStdin.named (.pipe p e) =
    if p = .pfdout ∧ e = .reading then {0, env.fd p e} else {env.fd p e} := by
  have hslot := env.slot_table .pfdout .reading
  split_ifs with h
  · rw [h.1, h.2, childStdin, named_sysDup2_self hslot, env.named]
  · have hne : Object.pipe p e ≠ .pipe .pfdout .reading := fun heq => h (Object.pipe.inj heq)
    rw [childStdin, named_sysDup2_of_ne hslot hne, env.named,
      env.singleton_sdiff_std (Nat.succ_pos 1)]

theorem std_sdiff_fd {n : ℕ} (hn : n < 2) : ({n} : Set ℕ) \ {env.fd p e} = {n} :=
  Set.sdiff_singleton_eq_self fun hmem =>
    env.std_ne_fd hn (Set.mem_singleton_iff.mp hmem).symm

theorem insert_sdiff_fd {n : ℕ} (hn : n < 2) (a : Set ℕ) :
    insert n a \ {env.fd p e} = insert n (a \ {env.fd p e}) :=
  Set.insert_sdiff_of_notMem _ fun hmem => env.std_ne_fd hn (Set.mem_singleton_iff.mp hmem)

theorem named_childOut : env.childOut.named (.pipe p e) =
    if p = .pfdout then if e = .reading then {0} else ∅ else {env.fd p e} := by
  rw [childOut, named_sysClose, named_sysClose, named_childStdin]
  cases p <;> cases e <;> simp [singleton_sdiff_fd, std_ne_fd]

theorem slot_childOut : env.childOut.slot (env.fd .pfdin .writing) = some (.pipe .pfdin .writing) :=
  mem_named.mp (env.named_childOut ▸ Set.mem_singleton _)

theorem named_childStdout : env.childStdout.named (.pipe p e) =
    if p = .pfdin ∧ e = .writing then {1, env.fd p e}
    else env.childOut.named (.pipe p e) := by
  have hslot := env.slot_childOut
  split_ifs with h
  · rw [h.1, h.2, childStdout, named_sysDup2_self hslot, named_childOut]
    rfl
  · have hne : Object.pipe p e ≠ .pipe .pfdin .writing := fun heq => h (Object.pipe.inj heq)
    rw [childStdout, named_sysDup2_of_ne hslot hne, named_childOut]
    cases p <;> cases e <;> simp [singleton_sdiff_std]

theorem named_childEnds : env.childEnds.named (.pipe p e) =
    if p = .pfdout ∧ e = .reading then {0}
    else if p = .pfdin ∧ e = .writing then {1} else ∅ := by
  rw [childEnds, named_sysClose, named_sysClose, named_childStdout, named_childOut]
  cases p <;> cases e <;> simp [singleton_sdiff_fd, insert_sdiff_fd, std_sdiff_fd]

/-- The child has these ends open. -/
theorem names_childTable_iff (pc : ChildPc) :
    (env.childTable pc).Names (.pipe p e) ↔ pc.Holds p e := by
  rw [names_iff_nonempty]
  cases pc with
  | absent | exited => simp [childTable, ChildPc.Holds, named_empty]
  | dupIn => simp [childTable, ChildPc.Holds, env.named]
  | closeOut0 =>
    rw [childTable, named_childStdin]
    split_ifs <;> simp [ChildPc.Holds]
  | closeOut1 =>
    rw [childTable, named_sysClose, named_childStdin]
    cases p <;> cases e <;> simp [ChildPc.Holds, singleton_sdiff_fd, insert_sdiff_fd]
  | dupOut =>
    rw [childTable, named_childOut]
    cases p <;> cases e <;> simp [ChildPc.Holds]
  | closeIn0 =>
    rw [childTable, named_childStdout, named_childOut]
    cases p <;> cases e <;> simp [ChildPc.Holds]
  | closeIn1 =>
    rw [childTable, named_sysClose, named_childStdout, named_childOut]
    cases p <;> cases e <;> simp [ChildPc.Holds, insert_sdiff_fd, std_sdiff_fd]
  | execlp | reading | writing =>
    rw [childTable, named_childEnds]
    cases p <;> cases e <;> simp [ChildPc.Holds]

/-- An end is open in one of the processes. -/
theorem hasOpen_iff {s : System} :
    env.HasOpen s p e ↔ s.parent.Holds p e ∨ s.child.Holds p e :=
  or_congr (env.names_parentTable_iff s.parent) (env.names_childTable_iff s.child)

/-! ### The descriptors that are read from and written to -/

/-- The parent writes to the first pipe. -/
theorem slot_parentOpened :
    env.parentOpened.2.slot (env.fd .pfdout .writing) = some (.pipe .pfdout .writing) :=
  mem_named.mp (by rw [named_parentOpened, named_parentEnds]; exact Set.mem_singleton _)

/-- The parent reads from the second pipe. -/
theorem slot_parentWritten :
    env.parentWritten.slot (env.fd .pfdin .reading) = some (.pipe .pfdin .reading) :=
  mem_named.mp (by rw [named_parentWritten]; exact Set.mem_singleton _)

/-- The standard input of the child is the first pipe. -/
theorem slot_childEnds_zero : env.childEnds.slot 0 = some (.pipe .pfdout .reading) :=
  mem_named.mp (by rw [named_childEnds]; exact Set.mem_singleton _)

/-- The standard output of the child is the second pipe. -/
theorem slot_childEnds_one : env.childEnds.slot 1 = some (.pipe .pfdin .writing) :=
  mem_named.mp (by rw [named_childEnds]; exact Set.mem_singleton _)

/-! ### The calls of `pipe` -/

/-- What the two calls of `pipe` give is as it has to be, if the standard input and output are
open. -/
theorem exists_env (t : FdTable Object) (hlow : ∀ m < 2, t.IsOpen m)
    (hnone : ∀ p e, ¬ t.Names (.pipe p e)) (opens : Bool) (sort : List UInt8 → List UInt8)
    (capacity : Pipe → ℕ) (hcapacity : ∀ p, 0 < capacity p) :
    ∃ env : Env,
      let pfdout := t.sysPipe true (.pipe .pfdout .reading) (.pipe .pfdout .writing)
      let pfdin := pfdout.2.sysPipe true (.pipe .pfdin .reading) (.pipe .pfdin .writing)
      pfdout.1 = ((env.fd .pfdout .reading : ℤ), (env.fd .pfdout .writing : ℤ)) ∧
      pfdin.1 = ((env.fd .pfdin .reading : ℤ), (env.fd .pfdin .writing : ℤ)) ∧
      env.table = pfdin.2 ∧ env.opens = opens ∧ env.sort = sort ∧ env.capacity = capacity := by
  obtain ⟨r, w, heq, hr, hw, hrw, -, -, hslot⟩ :=
    t.exists_sysPipe (.pipe .pfdout .reading) (.pipe .pfdout .writing) hlow
  have hlow' : ∀ m < 2, (t.sysPipe true (.pipe .pfdout .reading)
      (.pipe .pfdout .writing)).2.IsOpen m := fun m hm => by
    obtain ⟨a, ha⟩ := t.isOpen_iff.mp (hlow m hm)
    exact isOpen_of_slot _ (by rw [hslot, if_neg (by omega), if_neg (by omega), ha])
  obtain ⟨r', w', heq', hr', hw', hrw', hfree, hfree', hslot'⟩ :=
    FdTable.exists_sysPipe _ (.pipe .pfdin .reading) (.pipe .pfdin .writing) hlow'
  -- The second call gives descriptors that the first one has left free.
  rw [hslot] at hfree hfree'
  split_ifs at hfree hfree' with h₁ h₂ h₃ h₄
  have hnone' : ∀ p e m, t.slot m ≠ some (.pipe p e) := fun p e m h =>
    hnone p e (t.names_iff.mpr ⟨m, h⟩)
  refine ⟨⟨fun p e => match p, e with
    | .pfdout, .reading => r | .pfdout, .writing => w
    | .pfdin, .reading => r' | .pfdin, .writing => w', _, opens, sort, capacity, ?_, ?_, ?_,
    hcapacity⟩, heq, heq', rfl, rfl, rfl, rfl⟩
  · rintro (_ | _) (_ | _) (_ | _) (_ | _) h <;> simp at h ⊢ <;> omega
  · rintro (_ | _) (_ | _) <;> assumption
  · intro p e
    ext m
    rw [mem_named, hslot', hslot, Set.mem_singleton_iff]
    have := hnone' p e m
    cases p <;> cases e <;> simp <;> grind

end Env

end UnixStudy.Fsort
