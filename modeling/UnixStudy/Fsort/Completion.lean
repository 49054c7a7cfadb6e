import UnixStudy.Fsort.Ends

/-!
# `fsort` comes to its end

The bytes of the file are, in this order, in what `sort` has read, in the first pipe, in what the
parent has to write, and in the file; when `sort` has come to the end of its input it has all of
them. What it writes is then on the standard output, in what the parent has to write, in the second
pipe, and in what `sort` has still to write. Each byte on its way makes the rest of the way shorter,
and one of the two processes can always go on.

## Main definitions

* `System.Feeding`, `System.Draining` : where the bytes are.
* `Env.Sound`, `System.Alone` : what holds in every state, with a child and without one.
* `System.measure` : what is left to be done.

## Main results

* `Env.parentStep_sound`, `Env.childStep_sound` : what a step does.
* `Env.exists_step` : a step is possible.
* `sorts_datafile` : with a child `fsort` sorts the file.
* `killed_without_child` : without a child it is killed, unless the file is empty.
* `endless_without_datafile` : if the file cannot be opened, it has no end.

## References

* `src/communication/fsort.c`.
-/

namespace UnixStudy.Fsort

/-! ### Where the bytes are -/

/-- What the parent has to write to the first pipe. -/
def ParentPc.toPipe : ParentPc → List UInt8
  | .writePipe buf => buf
  | _ => []

/-- What the parent has to write to the standard output. -/
def ParentPc.toStdout : ParentPc → List UInt8
  | .writeStdout buf => buf
  | _ => []

/-- The parent has not closed its end of the first pipe, or has read nothing since. -/
def ParentPc.IsFeeding : ParentPc → Prop
  | .closeOut0 | .closeIn1 | .openFile | .readFile | .writePipe _ | .closeFile | .closeOut1
  | .readPipe => True
  | _ => False

/-- The parent has come to the end of the file. -/
def ParentPc.IsPastFile : ParentPc → Prop
  | .closeFile | .closeOut1 | .readPipe | .writeStdout _ | .closeIn0 | .waitpid | .returned => True
  | _ => False

/-- The parent copies what `sort` writes. -/
def ParentPc.IsDraining : ParentPc → Prop
  | .readPipe | .writeStdout _ => True
  | _ => False

/-- The parent has come to the end of what `sort` writes. -/
def ParentPc.IsPastPipe : ParentPc → Prop
  | .closeIn0 | .waitpid | .returned => True
  | _ => False

/-- The child has read `input`. -/
structure System.Feeding (data input : List UInt8) (s : System) : Prop where
  parent : s.parent.IsFeeding
  bytes : input ++ s.queue .pfdout ++ s.parent.toPipe ++ s.unread = data
  unread : s.parent.IsPastFile → s.unread = []
  queue : s.queue .pfdin = []
  stdout : s.stdout = []

/-- The child has `output` still to write. -/
structure System.Draining (sorted output : List UInt8) (s : System) : Prop where
  parent : s.parent.IsDraining ∨ s.parent.IsPastPipe ∧ s.child = .exited ∧ s.queue .pfdin = []
  bytes : s.stdout ++ s.parent.toStdout ++ s.queue .pfdin ++ output = sorted

/-- There is no child. -/
structure System.Alone (data : List UInt8) (s : System) : Prop where
  child : s.child = .absent
  queue : ∀ p, s.queue p = []
  bytes : s.parent ≠ .killed → s.parent.toPipe ++ s.unread = data
  unread : s.parent.IsPastFile → s.unread = []
  toStdout : s.parent.toStdout = []
  stdout : s.stdout = []
  killed : s.parent = .killed → data ≠ []

namespace Env

variable (env : Env)

/-- What holds in every state, if there is a child. -/
def Sound (data : List UInt8) (s : System) : Prop :=
  match s.child with
  | .absent => False
  | .reading input => s.Feeding data input
  | .writing output => s.Draining (env.sort data) output
  | .exited => s.Draining (env.sort data) []
  | _ => s.Feeding data []

end Env

/-- What is left to be done, in statements. -/
def ParentPc.rank : ParentPc → ℕ
  | .closeOut0 => 11 | .closeIn1 => 10 | .openFile => 9 | .writePipe _ => 8 | .readFile => 7
  | .closeFile => 6 | .closeOut1 => 5 | .writeStdout _ => 4 | .readPipe => 3 | .closeIn0 => 2
  | .waitpid => 1 | .returned | .killed => 0

/-- What is left to be done by the child, if `sort` writes `n` bytes. -/
def ChildPc.rank (n : ℕ) : ChildPc → ℕ
  | .dupIn => 3 * n + 9 | .closeOut0 => 3 * n + 8 | .closeOut1 => 3 * n + 7
  | .dupOut => 3 * n + 6 | .closeIn0 => 3 * n + 5 | .closeIn1 => 3 * n + 4
  | .execlp => 3 * n + 3 | .reading _ => 3 * n + 2 | .writing output => 3 * output.length + 1
  | .exited | .absent => 0

/-- What is left to be done. Each byte counts for what will be done with it. -/
def System.measure (n : ℕ) (s : System) : ℕ :=
  s.parent.rank + s.child.rank n + 4 * s.unread.length + 2 * s.parent.toPipe.length +
    (s.queue .pfdout).length + 2 * (s.queue .pfdin).length

/-! ### The calls of `read` and `write` -/

namespace Env

variable {env : Env} {s s' : System} {t : FdTable Object} {fd k : ℕ} {p : Pipe}
  {queue : Pipe → List UInt8} {buf taken rest : List UInt8}

/-- What a call of `read` does. -/
theorem sysReadPipe_eq_some (hslot : t.slot fd = some (.pipe p .reading))
    (h : env.sysReadPipe s t fd k = some (taken, queue)) :
    (∃ rest, s.queue p = taken ++ rest ∧ queue = Function.update s.queue p rest) ∧
      (taken = [] → s.queue p = [] ∧ ¬ env.HasOpen s p .writing) := by
  rw [sysReadPipe, hslot, Option.bind_eq_bind, Option.bind_some] at h
  obtain ⟨⟨taken, rest⟩, hread, h⟩ := Option.bind_eq_some_iff.mp h
  obtain ⟨rfl, rfl⟩ := Prod.mk.inj (Option.some.inj h)
  obtain ⟨hqueue, hend⟩ := pipeRead_eq_some hread
  exact ⟨⟨rest, hqueue, rfl⟩, fun hnil =>
    ⟨(hend hnil).1, of_decide_eq_false (hend hnil).2⟩⟩

theorem exists_sysReadPipe (hslot : t.slot fd = some (.pipe p .reading))
    (h : s.queue p ≠ [] ∨ ¬ env.HasOpen s p .writing) :
    ∃ k ≤ 1, ∃ r, env.sysReadPipe s t fd k = some r := by
  obtain ⟨k, hk, r, hr⟩ := exists_pipeRead (h.imp_right decide_eq_false)
  refine ⟨k, hk, (r.1, Function.update s.queue p r.2), ?_⟩
  rw [sysReadPipe, hslot, Option.bind_eq_bind, Option.bind_some]
  exact Option.bind_eq_some_iff.mpr ⟨r, hr, rfl⟩

/-- What a part of a call of `write` does. -/
theorem sysWritePipe_eq_some (hslot : t.slot fd = some (.pipe p .writing))
    (h : env.sysWritePipe s t fd buf k = some (some (queue, rest))) :
    env.HasOpen s p .reading ∧ ∃ written, written ≠ [] ∧ buf = written ++ rest ∧
      queue = Function.update s.queue p (s.queue p ++ written) := by
  rw [sysWritePipe, hslot, Option.bind_eq_bind, Option.bind_some] at h
  by_cases hopen : env.HasOpen s p .reading
  · obtain ⟨⟨q, rest⟩, hwrite, h⟩ := Option.bind_eq_some_iff.mp ((if_pos hopen).symm.trans h)
    obtain ⟨rfl, rfl⟩ := Prod.mk.inj (Option.some.inj (Option.some.inj h))
    obtain ⟨written, hne, hbuf, rfl⟩ := pipeWrite_eq_some hwrite
    exact ⟨hopen, written, hne, hbuf, rfl⟩
  · exact absurd ((if_neg hopen).symm.trans h) (by simp)

/-- The process is killed if nobody can read. -/
theorem sysWritePipe_eq_none (hslot : t.slot fd = some (.pipe p .writing))
    (h : env.sysWritePipe s t fd buf k = some none) : ¬ env.HasOpen s p .reading := by
  rw [sysWritePipe, hslot, Option.bind_eq_bind, Option.bind_some] at h
  intro hopen
  obtain ⟨_, _, h⟩ := Option.bind_eq_some_iff.mp ((if_pos hopen).symm.trans h)
  exact absurd h (by simp)

theorem exists_sysWritePipe (hslot : t.slot fd = some (.pipe p .writing)) (hbuf : buf ≠ [])
    (h : (s.queue p).length < env.capacity p ∨ ¬ env.HasOpen s p .reading) :
    ∃ k r, env.sysWritePipe s t fd buf k = some r := by
  by_cases hopen : env.HasOpen s p .reading
  · obtain ⟨k, r, hr⟩ := exists_pipeWrite hbuf (h.resolve_right (not_not.mpr hopen))
    refine ⟨k, some (Function.update s.queue p r.1, r.2), ?_⟩
    rw [sysWritePipe, hslot, Option.bind_eq_bind, Option.bind_some]
    exact (if_pos hopen).trans (Option.bind_eq_some_iff.mpr ⟨r, hr, rfl⟩)
  · refine ⟨0, none, ?_⟩
    rw [sysWritePipe, hslot, Option.bind_eq_bind, Option.bind_some]
    exact if_neg hopen

end Env

/-! ### Steps while `sort` reads -/

namespace System.Feeding

variable {env : Env} {s s' : System} {data input : List UInt8} {n k : ℕ}

/-- The parent makes a step that moves no byte. -/
theorem move {pc : ParentPc} (h : s.Feeding data input) (hpc : pc.IsFeeding)
    (hbuf : pc.toPipe = s.parent.toPipe) (hpast : pc.IsPastFile → s.unread = []) :
    System.Feeding data input { s with parent := pc } where
  parent := hpc
  bytes := by rw [← h.bytes, hbuf]
  unread := hpast
  queue := h.queue
  stdout := h.stdout

/-- A step of the parent, while somebody has the other ends open. -/
theorem parentStep (h : s.Feeding data input) (hopens : env.opens = true)
    (hreader : env.HasOpen s .pfdout .reading) (hwriter : env.HasOpen s .pfdin .writing)
    (hs : env.parentStep s k = some s') :
    s'.Feeding data input ∧ s'.child = s.child ∧ s'.measure n < s.measure n := by
  have hparent := h.parent
  have hbytes := h.bytes
  cases hp : s.parent with
  | closeOut0 | closeIn1 | openFile =>
    simp only [Env.parentStep, hp, Option.some.injEq] at hs
    subst hs
    exact ⟨h.move trivial (by rw [hp]; rfl) False.elim, rfl,
      by simp [measure, hp, ParentPc.rank, ParentPc.toPipe]⟩
  | closeFile | closeOut1 =>
    simp only [Env.parentStep, hp, Option.some.injEq] at hs
    subst hs
    exact ⟨h.move trivial (by rw [hp]; rfl) fun _ => h.unread (by rw [hp]; trivial), rfl,
      by simp [measure, hp, ParentPc.rank, ParentPc.toPipe]⟩
  | readFile =>
    simp only [Env.parentStep, hp] at hs
    simp only [hp, ParentPc.toPipe, List.append_nil] at hbytes
    rw [hopens, if_neg Bool.true_eq_false.mp] at hs
    split_ifs at hs with hend hk
    · obtain rfl := Option.some.inj hs
      exact ⟨h.move trivial (by rw [hp]; rfl) fun _ => hend, rfl,
        by simp [measure, hp, ParentPc.rank, ParentPc.toPipe]⟩
    · obtain rfl := Option.some.inj hs
      have hpos := List.length_pos_iff.mpr hend
      refine ⟨⟨trivial, ?_, False.elim, h.queue, h.stdout⟩, rfl, ?_⟩
      · rw [← hbytes]
        simp [ParentPc.toPipe]
      · simp only [measure, hp, ParentPc.rank, ParentPc.toPipe, List.length_take, List.length_drop,
          List.length_nil]
        omega
  | writePipe buf =>
    simp only [Env.parentStep, hp] at hs
    rw [hp, ParentPc.toPipe] at hbytes
    split_ifs at hs with hend
    · obtain rfl := Option.some.inj hs
      exact ⟨h.move trivial (by rw [hp, hend]; rfl) False.elim, rfl,
        by simp [measure, hp, hend, ParentPc.rank, ParentPc.toPipe]⟩
    · obtain ⟨r, hwrite, hs⟩ := Option.bind_eq_some_iff.mp hs
      cases r with
      | none => exact absurd hreader (Env.sysWritePipe_eq_none env.slot_parentOpened hwrite)
      | some r =>
        obtain ⟨queue, rest⟩ := r
        obtain rfl := Option.some.inj hs
        obtain ⟨-, written, hne, rfl, rfl⟩ := Env.sysWritePipe_eq_some env.slot_parentOpened hwrite
        have hpos := List.length_pos_iff.mpr hne
        refine ⟨⟨trivial, ?_, False.elim, ?_, h.stdout⟩, rfl, ?_⟩
        · rw [← hbytes]
          simp [ParentPc.toPipe]
        · simpa using h.queue
        · simp [measure, hp, ParentPc.rank, ParentPc.toPipe]
          omega
  | readPipe =>
    simp only [Env.parentStep, hp] at hs
    split_ifs at hs with hk
    obtain ⟨⟨taken, queue⟩, hread, hs⟩ := Option.bind_eq_some_iff.mp hs
    obtain ⟨⟨rest, hqueue, rfl⟩, hend⟩ := Env.sysReadPipe_eq_some env.slot_parentWritten hread
    -- There is nothing in the pipe, and the child has the other end open.
    rw [h.queue] at hqueue
    exact absurd hwriter (hend (List.append_eq_nil_iff.mp hqueue.symm).1).2
  | writeStdout | closeIn0 | waitpid | returned | killed =>
    rw [hp] at hparent
    exact hparent.elim

/-- If the parent has closed its end, then `sort` has read the file. -/
theorem input_eq (h : s.Feeding data input) (hqueue : s.queue .pfdout = [])
    (hclosed : ¬ s.parent.Holds .pfdout .writing) : s.parent = .readPipe ∧ input = data := by
  have hparent := h.parent
  have hbytes := h.bytes
  cases hp : s.parent with
  | readPipe =>
    rw [h.unread (by rw [hp]; trivial), hqueue] at hbytes
    exact ⟨rfl, by simpa [hp, ParentPc.toPipe] using hbytes⟩
  | closeOut0 | closeIn1 | openFile | readFile | writePipe | closeFile | closeOut1 =>
    rw [hp] at hclosed
    exact absurd (by simp [ParentPc.Holds]) hclosed
  | writeStdout | closeIn0 | waitpid | returned | killed =>
    rw [hp] at hparent
    exact hparent.elim

/-- A step of the program `sort` while it reads. -/
theorem readStep (h : s.Feeding data input) (hchild : s.child = .reading input)
    (hs : env.childStep s k = some s') :
    ((∃ input', s'.child = .reading input' ∧ s'.Feeding data input') ∨
      s'.child = .writing (env.sort data) ∧ s'.Draining (env.sort data) (env.sort data)) ∧
    s'.measure (env.sort data).length < s.measure (env.sort data).length := by
  have hbytes := h.bytes
  simp only [Env.childStep, hchild] at hs
  obtain ⟨⟨taken, queue⟩, hread, hs⟩ := Option.bind_eq_some_iff.mp hs
  obtain ⟨⟨rest, hqueue, rfl⟩, hend⟩ := Env.sysReadPipe_eq_some env.slot_childEnds_zero hread
  dsimp only at hs
  split_ifs at hs with hnil
  · obtain rfl := Option.some.inj hs
    obtain ⟨hempty, hwriter⟩ := hend hnil
    rw [Env.hasOpen_iff, not_or] at hwriter
    obtain ⟨hp, rfl⟩ := h.input_eq hempty hwriter.1
    obtain ⟨-, rfl⟩ := List.append_eq_nil_iff.mp (hqueue.symm.trans hempty)
    refine ⟨Or.inr ⟨rfl, Or.inl ?_, ?_⟩, ?_⟩
    · rw [hp]
      trivial
    · simp [hp, ParentPc.toStdout, h.queue, h.stdout]
    · simp [measure, hchild, ChildPc.rank, h.queue, hempty]
  · obtain rfl := Option.some.inj hs
    have hpos := List.length_pos_iff.mpr hnil
    refine ⟨Or.inl ⟨_, rfl, h.parent, ?_, h.unread, ?_, h.stdout⟩, ?_⟩
    · rw [← hbytes, hqueue]
      simp
    · simpa using h.queue
    · simp [measure, hchild, ChildPc.rank, hqueue, h.queue]
      omega

end System.Feeding

/-! ### Steps while `sort` writes -/

theorem ParentPc.IsDraining.holds {pc : ParentPc} (h : pc.IsDraining) :
    pc.Holds .pfdin .reading := by
  cases pc with
  | readPipe | writeStdout => exact ⟨rfl, rfl⟩
  | _ => exact h.elim

namespace System.Draining

variable {env : Env} {s s' : System} {sorted output : List UInt8} {n k : ℕ}

/-- A step of the parent. It comes to the end of the pipe only after the program `sort`. -/
theorem parentStep (h : s.Draining sorted output)
    (hend : ¬ env.HasOpen s .pfdin .writing → s.child = .exited ∧ output = [])
    (hs : env.parentStep s k = some s') :
    s'.Draining sorted output ∧ s'.child = s.child ∧ s'.measure n < s.measure n := by
  have hbytes := h.bytes
  have hparent := h.parent
  cases hp : s.parent with
  | readPipe =>
    simp only [Env.parentStep, hp] at hs
    split_ifs at hs with hk
    obtain ⟨⟨taken, queue⟩, hread, hs⟩ := Option.bind_eq_some_iff.mp hs
    obtain ⟨⟨rest, hqueue, rfl⟩, hnone⟩ := Env.sysReadPipe_eq_some env.slot_parentWritten hread
    simp only [hp, ParentPc.toStdout, List.append_nil, hqueue] at hbytes
    dsimp only at hs
    split_ifs at hs with hnil
    · obtain rfl := Option.some.inj hs
      obtain ⟨hempty, hwriter⟩ := hnone hnil
      obtain ⟨rfl, rfl⟩ := List.append_eq_nil_iff.mp (hqueue.symm.trans hempty)
      refine ⟨⟨Or.inr ⟨trivial, (hend hwriter).1, by simp⟩, ?_⟩, rfl, ?_⟩
      · simpa [ParentPc.toStdout] using hbytes
      · simp [measure, hp, ParentPc.rank, ParentPc.toPipe, hempty]
    · obtain rfl := Option.some.inj hs
      have hpos := List.length_pos_iff.mpr hnil
      refine ⟨⟨Or.inl trivial, ?_⟩, rfl, ?_⟩
      · simpa [ParentPc.toStdout] using hbytes
      · simp [measure, hp, ParentPc.rank, ParentPc.toPipe, hqueue]
        omega
  | writeStdout buf =>
    simp only [Env.parentStep, hp, Option.some.injEq] at hs
    subst hs
    refine ⟨⟨Or.inl trivial, ?_⟩, rfl, ?_⟩
    · simpa [hp, ParentPc.toStdout] using hbytes
    · simp [measure, hp, ParentPc.rank, ParentPc.toPipe]
  | closeIn0 =>
    simp only [Env.parentStep, hp, Option.some.injEq] at hs
    subst hs
    rw [hp] at hparent
    refine ⟨⟨Or.inr ⟨trivial, (hparent.resolve_left False.elim).2⟩, ?_⟩, rfl, ?_⟩
    · simpa [hp, ParentPc.toStdout] using hbytes
    · simp [measure, hp, ParentPc.rank, ParentPc.toPipe]
  | waitpid =>
    rw [hp] at hparent
    obtain ⟨-, hchild, hempty⟩ := hparent.resolve_left False.elim
    simp only [Env.parentStep, hp, hchild, Option.some.injEq] at hs
    subst hs
    refine ⟨⟨Or.inr ⟨trivial, rfl, hempty⟩, ?_⟩, hchild.symm, ?_⟩
    · simpa [hp, ParentPc.toStdout] using hbytes
    · simp [measure, hp, hchild, ParentPc.rank, ParentPc.toPipe]
  | returned => simp [Env.parentStep, hp] at hs
  | closeOut0 | closeIn1 | openFile | readFile | writePipe | closeFile | closeOut1 | killed =>
    rw [hp] at hparent
    exact (hparent.elim False.elim fun h => h.1.elim)

/-- A step of the program `sort` while it writes. -/
theorem writeStep (h : s.Draining sorted output) (hchild : s.child = .writing output)
    (hs : env.childStep s k = some s') :
    ((∃ output', s'.child = .writing output' ∧ s'.Draining sorted output') ∨
      s'.child = .exited ∧ s'.Draining sorted []) ∧ s'.measure n < s.measure n := by
  have hdraining : s.parent.IsDraining :=
    h.parent.resolve_right fun h => by simp [hchild] at h
  have hbytes := h.bytes
  simp only [Env.childStep, hchild] at hs
  split_ifs at hs with hend
  · obtain rfl := Option.some.inj hs
    refine ⟨Or.inr ⟨rfl, Or.inl hdraining, hend ▸ hbytes⟩, ?_⟩
    simp [measure, hchild, ChildPc.rank, hend]
  · obtain ⟨r, hwrite, hs⟩ := Option.bind_eq_some_iff.mp hs
    cases r with
    | none =>
      refine absurd ?_ (Env.sysWritePipe_eq_none env.slot_childEnds_one hwrite)
      rw [Env.hasOpen_iff]
      exact Or.inl hdraining.holds
    | some r =>
      obtain ⟨queue, rest⟩ := r
      obtain rfl := Option.some.inj hs
      obtain ⟨-, written, hne, rfl, rfl⟩ := Env.sysWritePipe_eq_some env.slot_childEnds_one hwrite
      have hpos := List.length_pos_iff.mpr hne
      refine ⟨Or.inl ⟨rest, rfl, Or.inl hdraining, ?_⟩, ?_⟩
      · simpa using hbytes
      · simp [measure, hchild, ChildPc.rank]
        omega

end System.Draining

/-! ### Steps and runs -/

namespace Env

variable {env : Env} {s s' : System} {data : List UInt8} {k : ℕ}

/-- A step of the parent keeps what holds, and leaves less to be done. -/
theorem parentStep_sound (hopens : env.opens = true) (h : env.Sound data s)
    (hs : env.parentStep s k = some s') :
    env.Sound data s' ∧
      s'.measure (env.sort data).length < s.measure (env.sort data).length := by
  have hopen : ∀ p e, s.child.Holds p e → env.HasOpen s p e := fun p e h =>
    env.hasOpen_iff.mpr (Or.inr h)
  cases hchild : s.child with
  | absent => simp [Sound, hchild] at h
  | exited =>
    rw [Sound, hchild] at h
    obtain ⟨h', heq, hlt⟩ := h.parentStep (fun _ => ⟨hchild, rfl⟩) hs
    exact ⟨by rwa [Sound, heq, hchild], hlt⟩
  | writing output =>
    rw [Sound, hchild] at h
    have hwriter := hopen .pfdin .writing (by rw [hchild]; exact Or.inr ⟨rfl, rfl⟩)
    obtain ⟨h', heq, hlt⟩ := h.parentStep (fun hnot => absurd hwriter hnot) hs
    exact ⟨by rwa [Sound, heq, hchild], hlt⟩
  | dupIn | closeOut0 | closeOut1 | dupOut | closeIn0 | closeIn1 | execlp | reading =>
    rw [Sound, hchild] at h
    have hreader := hopen .pfdout .reading (by simp [hchild, ChildPc.Holds])
    have hwriter := hopen .pfdin .writing (by simp [hchild, ChildPc.Holds])
    obtain ⟨h', heq, hlt⟩ := h.parentStep hopens hreader hwriter hs
    exact ⟨by rwa [Sound, heq, hchild], hlt⟩

/-- A step of the child keeps what holds, and leaves less to be done. -/
theorem childStep_sound (h : env.Sound data s) (hs : env.childStep s k = some s') :
    env.Sound data s' ∧
      s'.measure (env.sort data).length < s.measure (env.sort data).length := by
  cases hchild : s.child with
  | absent | exited => simp [childStep, hchild] at hs
  | reading input =>
    rw [Sound, hchild] at h
    obtain ⟨⟨input', heq, h'⟩ | ⟨heq, h'⟩, hlt⟩ := h.readStep hchild hs
    · exact ⟨by rwa [Sound, heq], hlt⟩
    · exact ⟨by rwa [Sound, heq], hlt⟩
  | writing output =>
    rw [Sound, hchild] at h
    obtain ⟨⟨output', heq, h'⟩ | ⟨heq, h'⟩, hlt⟩ := h.writeStep hchild hs
    · exact ⟨by rwa [Sound, heq], hlt⟩
    · exact ⟨by rwa [Sound, heq], hlt⟩
  | dupIn | closeOut0 | closeOut1 | dupOut | closeIn0 | closeIn1 | execlp =>
    rw [Sound, hchild] at h
    simp only [childStep, hchild, Option.some.injEq] at hs
    subst hs
    exact ⟨⟨h.parent, h.bytes, h.unread, h.queue, h.stdout⟩,
      by simp [System.measure, hchild, ChildPc.rank]⟩

theorem step_sound {l : Label} (hopens : env.opens = true) (h : env.Sound data s)
    (hs : env.Step s l s') :
    env.Sound data s' ∧
      s'.measure (env.sort data).length < s.measure (env.sort data).length := by
  cases l with
  | parent k => exact parentStep_sound hopens h hs
  | child k => exact childStep_sound h hs

theorem sound_start (env : Env) (data : List UInt8) :
    env.Sound data (System.start true data) :=
  ⟨trivial, by simp [System.start, ParentPc.toPipe], False.elim, rfl, rfl⟩

/-! ### A step is possible -/

variable (env s) in
/-- The parent can go on, if its call of `read` or `write` returns, and it does not wait for the
child. -/
theorem exists_parentStep (hreturned : s.parent ≠ .returned) (hkilled : s.parent ≠ .killed)
    (hread : s.parent = .readPipe → s.queue .pfdin ≠ [] ∨ ¬ env.HasOpen s .pfdin .writing)
    (hwrite : s.parent.toPipe ≠ [] →
      (s.queue .pfdout).length < env.capacity .pfdout ∨ ¬ env.HasOpen s .pfdout .reading)
    (hwait : s.parent = .waitpid → s.child = .exited ∨ s.child = .absent) :
    ∃ k s', env.parentStep s k = some s' := by
  cases hp : s.parent with
  | closeOut0 | closeIn1 | openFile | closeFile | closeOut1 | writeStdout | closeIn0 =>
    exact ⟨0, _, by simp only [parentStep, hp]; rfl⟩
  | readFile =>
    simp only [parentStep, hp]
    cases env.opens with
    | false => exact ⟨0, s, rfl⟩
    | true =>
      by_cases hend : s.unread = []
      · exact ⟨1, _, if_pos hend⟩
      · exact ⟨1, _, if_neg hend⟩
  | writePipe buf =>
    by_cases hend : buf = []
    · exact ⟨0, _, by simp only [parentStep, hp]; exact if_pos hend⟩
    · rw [hp] at hwrite
      obtain ⟨k, r, hr⟩ := exists_sysWritePipe env.slot_parentOpened hend (hwrite hend)
      refine ⟨k, ?_⟩
      simp only [parentStep, hp, if_neg hend]
      cases r with
      | some r => exact ⟨_, Option.bind_eq_some_iff.mpr ⟨_, hr, rfl⟩⟩
      | none => exact ⟨_, Option.bind_eq_some_iff.mpr ⟨_, hr, rfl⟩⟩
  | readPipe =>
    obtain ⟨k, hk, ⟨taken, queue⟩, hr⟩ := exists_sysReadPipe env.slot_parentWritten (hread hp)
    refine ⟨k, ?_⟩
    simp only [parentStep, hp]
    rw [if_neg (by omega)]
    by_cases hnil : taken = []
    · exact ⟨_, Option.bind_eq_some_iff.mpr ⟨_, hr, if_pos hnil⟩⟩
    · exact ⟨_, Option.bind_eq_some_iff.mpr ⟨_, hr, if_neg hnil⟩⟩
  | waitpid =>
    refine ⟨0, { s with parent := .returned }, ?_⟩
    rcases hwait hp with hchild | hchild <;> simp only [parentStep, hp, hchild]
  | returned => exact absurd hp hreturned
  | killed => exact absurd hp hkilled

variable (env s) in
/-- The child can go on while `sort` has nothing in front of it that it must wait for. -/
theorem exists_childStep (habsent : s.child ≠ .absent) (hexited : s.child ≠ .exited)
    (hread : ∀ input, s.child = .reading input →
      s.queue .pfdout ≠ [] ∨ ¬ env.HasOpen s .pfdout .writing)
    (hwrite : ∀ output, s.child = .writing output →
      (s.queue .pfdin).length < env.capacity .pfdin) :
    ∃ k s', env.childStep s k = some s' := by
  cases hchild : s.child with
  | absent => exact absurd hchild habsent
  | exited => exact absurd hchild hexited
  | dupIn | closeOut0 | closeOut1 | dupOut | closeIn0 | closeIn1 | execlp =>
    exact ⟨0, _, by simp only [childStep, hchild]; rfl⟩
  | reading input =>
    obtain ⟨k, -, ⟨taken, queue⟩, hr⟩ :=
      exists_sysReadPipe env.slot_childEnds_zero (hread input hchild)
    refine ⟨k, ?_⟩
    simp only [childStep, hchild]
    by_cases hnil : taken = []
    · exact ⟨_, Option.bind_eq_some_iff.mpr ⟨_, hr, if_pos hnil⟩⟩
    · exact ⟨_, Option.bind_eq_some_iff.mpr ⟨_, hr, if_neg hnil⟩⟩
  | writing output =>
    by_cases hend : output = []
    · exact ⟨0, _, by simp only [childStep, hchild]; exact if_pos hend⟩
    · obtain ⟨k, r, hr⟩ :=
        exists_sysWritePipe env.slot_childEnds_one hend (Or.inl (hwrite output hchild))
      refine ⟨k, ?_⟩
      simp only [childStep, hchild, if_neg hend]
      cases r with
      | some r => exact ⟨_, Option.bind_eq_some_iff.mpr ⟨_, hr, rfl⟩⟩
      | none => exact ⟨_, Option.bind_eq_some_iff.mpr ⟨_, hr, rfl⟩⟩

/-- One of the two processes can go on, before both have come to their end. -/
theorem exists_step (h : env.Sound data s) (hend : ¬ (s.parent = .returned ∧ s.child = .exited)) :
    ∃ l s', env.Step s l s' := by
  cases hchild : s.child with
  | absent => simp [Sound, hchild] at h
  | dupIn | closeOut0 | closeOut1 | dupOut | closeIn0 | closeIn1 | execlp =>
    obtain ⟨k, s', hs⟩ := env.exists_childStep s (by simp [hchild]) (by simp [hchild])
      (by simp [hchild]) (by simp [hchild])
    exact ⟨.child k, s', hs⟩
  | reading input =>
    rw [Sound, hchild] at h
    by_cases hread : s.queue .pfdout ≠ [] ∨ ¬ env.HasOpen s .pfdout .writing
    · obtain ⟨k, s', hs⟩ := env.exists_childStep s (by simp [hchild]) (by simp [hchild])
        (fun _ _ => hread) (by simp [hchild])
      exact ⟨.child k, s', hs⟩
    -- The pipe is empty, and the parent has its end open: it has not come to read.
    · rw [not_or, not_not, not_not] at hread
      have hnot : s.parent ≠ .readPipe ∧ s.parent ≠ .returned ∧ s.parent ≠ .killed ∧
          s.parent ≠ .waitpid := by
        have hparent := h.parent
        have hholds := env.hasOpen_iff.mp hread.2
        refine ⟨?_, ?_, ?_, ?_⟩ <;> intro hp <;>
          simp [hp, hchild, ParentPc.IsFeeding, ParentPc.Holds, ChildPc.Holds] at hparent hholds
      obtain ⟨k, s', hs⟩ := env.exists_parentStep s hnot.2.1 hnot.2.2.1 (absurd · hnot.1)
        (fun _ => Or.inl (by rw [hread.1]; exact env.capacity_pos .pfdout))
        (absurd · hnot.2.2.2)
      exact ⟨.parent k, s', hs⟩
  | writing output =>
    rw [Sound, hchild] at h
    by_cases hwrite : (s.queue .pfdin).length < env.capacity .pfdin
    · obtain ⟨k, s', hs⟩ := env.exists_childStep s (by simp [hchild]) (by simp [hchild])
        (by simp [hchild]) (fun _ _ => hwrite)
      exact ⟨.child k, s', hs⟩
    -- The pipe is full, and the parent reads from it.
    · have hqueue : s.queue .pfdin ≠ [] := fun hnil =>
        hwrite (by rw [hnil]; exact env.capacity_pos .pfdin)
      have hdraining : s.parent.IsDraining :=
        h.parent.resolve_right fun h => by simp [hchild] at h
      cases hp : s.parent with
      | readPipe | writeStdout =>
        obtain ⟨k, s', hs⟩ := env.exists_parentStep s (by simp [hp]) (by simp [hp])
          (fun _ => Or.inl hqueue) (by simp [hp, ParentPc.toPipe]) (by simp [hp])
        exact ⟨.parent k, s', hs⟩
      | _ =>
        rw [hp] at hdraining
        exact hdraining.elim
  | exited =>
    rw [Sound, hchild] at h
    have hclosed : s.parent = .readPipe → ¬ env.HasOpen s .pfdin .writing := fun hp => by
      simp [hasOpen_iff, hp, hchild, ParentPc.Holds, ChildPc.Holds]
    have hparent := h.parent
    cases hp : s.parent with
    | readPipe | writeStdout | closeIn0 | waitpid =>
      obtain ⟨k, s', hs⟩ := env.exists_parentStep s (by simp [hp]) (by simp [hp])
        (fun hp => Or.inr (hclosed hp)) (by simp [hp, ParentPc.toPipe])
        (fun _ => Or.inl hchild)
      exact ⟨.parent k, s', hs⟩
    | returned => exact absurd ⟨hp, hchild⟩ hend
    | _ =>
      rw [hp] at hparent
      exact hparent.elim False.elim fun h => h.1.elim

end Env

/-! ### Without a child -/

namespace System.Alone

variable {env : Env} {s s' : System} {data : List UInt8} {n k : ℕ}

/-- The parent makes a step that moves no byte. -/
theorem move {pc : ParentPc} (h : s.Alone data) (hkilled : s.parent ≠ .killed)
    (hpc : pc ≠ .killed) (hbuf : pc.toPipe = s.parent.toPipe) (hout : pc.toStdout = [])
    (hpast : pc.IsPastFile → s.unread = []) : System.Alone data { s with parent := pc } where
  child := h.child
  queue := h.queue
  bytes := fun _ => by rw [← h.bytes hkilled, hbuf]
  unread := hpast
  toStdout := hout
  stdout := h.stdout
  killed := fun hp => absurd hp hpc

/-- A step of the parent. Nobody can read what it writes. -/
theorem parentStep (hopens : env.opens = true) (h : s.Alone data)
    (hs : env.parentStep s k = some s') :
    s'.Alone data ∧ s'.measure n < s.measure n := by
  have hopen : ∀ p e, env.HasOpen s p e ↔ s.parent.Holds p e := fun p e => by
    simp [Env.hasOpen_iff, h.child, ChildPc.Holds]
  cases hp : s.parent with
  | closeOut0 | closeIn1 | openFile =>
    simp only [Env.parentStep, hp, Option.some.injEq] at hs
    subst hs
    exact ⟨h.move (by simp [hp]) ParentPc.noConfusion (by rw [hp]; rfl) rfl False.elim,
      by simp [measure, hp, ParentPc.rank, ParentPc.toPipe]⟩
  | closeFile | closeOut1 | closeIn0 =>
    simp only [Env.parentStep, hp, Option.some.injEq] at hs
    subst hs
    exact ⟨h.move (by simp [hp]) ParentPc.noConfusion (by rw [hp]; rfl) rfl
      fun _ => h.unread (by rw [hp]; trivial),
      by simp [measure, hp, ParentPc.rank, ParentPc.toPipe]⟩
  | readFile =>
    simp only [Env.parentStep, hp] at hs
    have hbytes := h.bytes (by simp [hp])
    simp only [hp, ParentPc.toPipe, List.nil_append] at hbytes
    rw [hopens, if_neg Bool.true_eq_false.mp] at hs
    split_ifs at hs with hend hk
    · obtain rfl := Option.some.inj hs
      exact ⟨h.move (by simp [hp]) ParentPc.noConfusion (by rw [hp]; rfl) rfl fun _ => hend,
        by simp [measure, hp, ParentPc.rank, ParentPc.toPipe]⟩
    · obtain rfl := Option.some.inj hs
      have hpos := List.length_pos_iff.mpr hend
      refine ⟨⟨h.child, h.queue, fun _ => ?_, False.elim, rfl, h.stdout, by simp⟩, ?_⟩
      · rw [← hbytes]
        exact List.take_append_drop k s.unread
      · simp only [measure, hp, ParentPc.rank, ParentPc.toPipe, List.length_take, List.length_drop,
          List.length_nil]
        omega
  | writePipe buf =>
    simp only [Env.parentStep, hp] at hs
    split_ifs at hs with hend
    · obtain rfl := Option.some.inj hs
      exact ⟨h.move (by simp [hp]) ParentPc.noConfusion (by rw [hp, hend]; rfl) rfl False.elim,
        by simp [measure, hp, hend, ParentPc.rank, ParentPc.toPipe]⟩
    · obtain ⟨r, hwrite, hs⟩ := Option.bind_eq_some_iff.mp hs
      have hnone : ¬ env.HasOpen s .pfdout .reading := by
        simp [hopen, hp, ParentPc.Holds]
      cases r with
      | some r =>
        obtain ⟨queue, rest⟩ := r
        exact absurd (Env.sysWritePipe_eq_some env.slot_parentOpened hwrite).1 hnone
      | none =>
        obtain rfl := Option.some.inj hs
        have hbytes := h.bytes (by simp [hp])
        refine ⟨⟨h.child, h.queue, absurd rfl, False.elim, rfl, h.stdout, fun _ hnil => ?_⟩, ?_⟩
        · rw [hnil, hp] at hbytes
          exact hend (List.append_eq_nil_iff.mp hbytes).1
        · simp [measure, hp, ParentPc.rank, ParentPc.toPipe]
          omega
  | readPipe =>
    simp only [Env.parentStep, hp] at hs
    split_ifs at hs with hk
    obtain ⟨⟨taken, queue⟩, hread, hs⟩ := Option.bind_eq_some_iff.mp hs
    obtain ⟨⟨rest, hqueue, rfl⟩, -⟩ := Env.sysReadPipe_eq_some env.slot_parentWritten hread
    rw [h.queue] at hqueue
    obtain ⟨rfl, rfl⟩ := List.append_eq_nil_iff.mp hqueue.symm
    obtain rfl := Option.some.inj hs
    have hbytes := h.bytes (by simp [hp])
    have hempty := h.unread (by rw [hp]; trivial)
    refine ⟨⟨h.child, fun p => ?_, fun _ => ?_, fun _ => hempty, rfl, h.stdout, by simp⟩, ?_⟩
    · cases p with
      | pfdout => simpa using h.queue .pfdout
      | pfdin => simp
    · simpa [hp, ParentPc.toPipe] using hbytes
    · simp [measure, hp, ParentPc.rank, ParentPc.toPipe, h.queue]
  | writeStdout buf =>
    have hnil : buf = [] := by simpa [hp, ParentPc.toStdout] using h.toStdout
    simp only [Env.parentStep, hp, hnil, List.append_nil, Option.some.injEq] at hs
    subst hs
    exact ⟨h.move (by simp [hp]) ParentPc.noConfusion (by rw [hp]; rfl) rfl
      fun _ => h.unread (by rw [hp]; trivial),
      by simp [measure, hp, ParentPc.rank, ParentPc.toPipe]⟩
  | waitpid =>
    simp only [Env.parentStep, hp, h.child, Option.some.injEq] at hs
    subst hs
    rw [← h.child]
    exact ⟨h.move (by simp [hp]) ParentPc.noConfusion (by rw [hp]; rfl) rfl
      fun _ => h.unread (by rw [hp]; trivial),
      by simp [measure, hp, ParentPc.rank, ParentPc.toPipe]⟩
  | returned | killed => simp [Env.parentStep, hp] at hs

theorem step {l : Label} (hopens : env.opens = true) (h : s.Alone data)
    (hs : env.Step s l s') : s'.Alone data ∧ s'.measure n < s.measure n := by
  cases l with
  | parent k => exact h.parentStep hopens hs
  | child k => simp [Env.Step, Env.step, Env.childStep, h.child] at hs

/-- The parent can go on, before it returns or is killed. -/
theorem exists_step (h : s.Alone data) (hreturned : s.parent ≠ .returned)
    (hkilled : s.parent ≠ .killed) : ∃ l s', env.Step s l s' := by
  have hread : s.parent = .readPipe → ¬ env.HasOpen s .pfdin .writing := fun hp => by
    simp [Env.hasOpen_iff, hp, h.child, ParentPc.Holds, ChildPc.Holds]
  obtain ⟨k, s', hs⟩ := env.exists_parentStep s hreturned hkilled (fun hp => Or.inr (hread hp))
    (fun _ => Or.inl (by rw [h.queue]; exact env.capacity_pos .pfdout)) (fun _ => Or.inr h.child)
  exact ⟨.parent k, s', hs⟩

theorem start (data : List UInt8) : (System.start false data).Alone data :=
  ⟨rfl, fun _ => rfl, fun _ => rfl, False.elim, rfl, rfl, by simp [System.start]⟩

end System.Alone

/-! ### Runs -/

/-- `fsort` has returned. -/
theorem Env.Sound.returned {env : Env} {data : List UInt8} {s : System} (h : env.Sound data s)
    (hp : s.parent = .returned) : s.child = .exited ∧ s.stdout = env.sort data := by
  cases hchild : s.child with
  | absent => simp [Sound, hchild] at h
  | exited | writing =>
    rw [Sound, hchild] at h
    have hparent := h.parent
    have hbytes := h.bytes
    rw [hp] at hparent
    obtain ⟨-, hexited, hqueue⟩ := hparent.resolve_left id
    simp_all [ParentPc.toStdout]
  | _ =>
    rw [Sound, hchild] at h
    have hparent := h.parent
    rw [hp] at hparent
    exact hparent.elim

/-- **With a child `fsort` sorts the file**, whatever the order of the steps, and however little the
pipes hold: the run has a bounded length and can go on until `fsort` returns, and then the child has
exited, and all that it has written is on the standard output. -/
theorem sorts_datafile (env : Env) (hopens : env.opens = true) (data : List UInt8) (as : List Label)
    (s : System) (hrun : Run env.Step (System.start true data) as s) :
    as.length ≤ 4 * data.length + 3 * (env.sort data).length + 20 ∧
    (s.parent = .returned → s.child = .exited ∧ s.stdout = env.sort data) ∧
    ∃ as' s', Run env.Step s as' s' ∧ s'.parent = .returned := by
  have hstart := env.sound_start data
  have hinv : ∀ s a s', env.Sound data s → env.Step s a s' → env.Sound data s' :=
    fun _ _ _ h hs => (Env.step_sound hopens h hs).1
  have hmeasure : ∀ s a s', env.Sound data s → env.Step s a s' →
      s'.measure (env.sort data).length < s.measure (env.sort data).length :=
    fun _ _ _ h hs => (Env.step_sound hopens h hs).2
  have h := hrun.invariant hstart hinv
  refine ⟨?_, fun hp => ?_, ?_⟩
  · have hle := hrun.length_add_le hstart hinv hmeasure
    simp only [System.measure, System.start, ParentPc.rank, ChildPc.rank, ParentPc.toPipe] at hle
    simp at hle
    omega
  · exact h.returned hp
  · obtain ⟨as', s', hrun', hend⟩ := Run.exists_completion h hinv hmeasure
      fun _ h hnot => Env.exists_step h hnot
    exact ⟨as', s', hrun', hend.1⟩

/-- The standard descriptors are open, and no pipe. -/
def sampleTable : FdTable Object := ⟨[some (.other 0), some (.other 1), some (.other 2)]⟩

theorem sampleTable_isOpen : ∀ m < 2, sampleTable.IsOpen m := by decide

theorem not_names_sampleTable (p : Pipe) (e : FifoEnd) : ¬ sampleTable.Names (.pipe p e) := by
  cases p <;> cases e <;> decide

/-- Three bytes, and pipes that hold one. -/
theorem sorts_datafile_sample : ∃ (env : Env) (as : List Label) (s : System),
    (∀ p, env.capacity p = 1) ∧ Run env.Step (System.start true [3, 1, 2]) as s ∧
      s.parent = .returned ∧ s.stdout = [1, 2, 3] := by
  obtain ⟨env, -, -, -, hopens, hsort, hcapacity⟩ := Env.exists_env sampleTable sampleTable_isOpen
    not_names_sampleTable true (fun input => input.mergeSort) (fun _ => 1) fun _ => Nat.one_pos
  obtain ⟨-, -, as, s, hrun, hp⟩ := sorts_datafile env hopens [3, 1, 2] [] _ .refl
  have hstdout := ((sorts_datafile env hopens [3, 1, 2] as s hrun).2.1 hp).2
  refine ⟨env, as, s, fun p => by rw [hcapacity], hrun, hp, ?_⟩
  rw [hstdout, hsort]
  simp [List.mergeSort, List.MergeSort.Internal.splitInTwo]

/-- **Without a child `fsort` is killed**, since nobody can read what it writes, unless the file is
empty. -/
theorem killed_without_child (env : Env) (hopens : env.opens = true) (data : List UInt8)
    (as : List Label) (s : System) (hrun : Run env.Step (System.start false data) as s) :
    as.length ≤ 4 * data.length + 11 ∧ s.stdout = [] ∧
    (s.parent = .returned → data = []) ∧ (s.parent = .killed → data ≠ []) ∧
    ∃ as' s', Run env.Step s as' s' ∧ (s'.parent = .returned ∨ s'.parent = .killed) := by
  have hinv : ∀ s a s', s.Alone data → env.Step s a s' → s'.Alone data :=
    fun _ _ _ h hs => (h.step (n := 0) hopens hs).1
  have hmeasure : ∀ s a s', s.Alone data → env.Step s a s' → s'.measure 0 < s.measure 0 :=
    fun _ _ _ h hs => (h.step hopens hs).2
  have hstart := System.Alone.start data
  have h := hrun.invariant hstart hinv
  refine ⟨?_, h.stdout, fun hp => ?_, h.killed, ?_⟩
  · have hle := hrun.length_add_le hstart hinv hmeasure
    simp only [System.measure, System.start, ParentPc.rank, ChildPc.rank, ParentPc.toPipe] at hle
    simp at hle
    omega
  · have hbytes := h.bytes (by simp [hp])
    rw [h.unread (by rw [hp]; trivial)] at hbytes
    simpa [hp, ParentPc.toPipe] using hbytes.symm
  · refine Run.exists_completion h hinv hmeasure fun s h hnot => ?_
    exact h.exists_step (fun hp => hnot (Or.inl hp)) fun hp => hnot (Or.inr hp)

/-- An empty file, and one with a byte. -/
theorem killed_without_child_sample : ∃ env : Env,
    (∃ as s, Run env.Step (System.start false []) as s ∧ s.parent = .returned) ∧
    ∃ as s, Run env.Step (System.start false [7]) as s ∧ s.parent = .killed := by
  obtain ⟨env, -, -, -, hopens, -⟩ := Env.exists_env sampleTable sampleTable_isOpen
    not_names_sampleTable true (fun input => input.mergeSort) (fun _ => 1) fun _ => Nat.one_pos
  obtain ⟨-, -, -, -, as, s, hrun, hp⟩ := killed_without_child env hopens [] [] _ .refl
  obtain ⟨-, -, -, -, as', s', hrun', hp'⟩ := killed_without_child env hopens [7] [] _ .refl
  refine ⟨env, ⟨as, s, hrun, hp.resolve_right fun hp => ?_⟩,
    as', s', hrun', hp'.resolve_left fun hp' => ?_⟩
  · exact (killed_without_child env hopens [] as s hrun).2.2.2.1 hp rfl
  · exact absurd ((killed_without_child env hopens [7] as' s' hrun').2.2.1 hp')
      (List.cons_ne_nil _ _)

/-! ### Without the file -/

/-- The parent has not come behind the loop that reads the file. -/
def ParentPc.IsBeforeFile : ParentPc → Prop
  | .closeOut0 | .closeIn1 | .openFile | .readFile => True
  | _ => False

theorem ParentPc.IsBeforeFile.toPipe_eq {pc : ParentPc} (h : pc.IsBeforeFile) : pc.toPipe = [] := by
  cases pc with
  | writePipe buf => exact h.elim
  | _ => rfl

/-- A step of the child is none of the parent. -/
theorem Env.parent_of_childStep {env : Env} {s s' : System} {k : ℕ}
    (hs : env.childStep s k = some s') : s'.parent = s.parent := by
  cases hchild : s.child with
  | absent | exited => simp [childStep, hchild] at hs
  | dupIn | closeOut0 | closeOut1 | dupOut | closeIn0 | closeIn1 | execlp =>
    simp only [childStep, hchild, Option.some.injEq] at hs
    subst hs
    rfl
  | reading input =>
    simp only [childStep, hchild] at hs
    obtain ⟨r, -, hs⟩ := Option.bind_eq_some_iff.mp hs
    split_ifs at hs <;> obtain rfl := Option.some.inj hs <;> rfl
  | writing output =>
    simp only [childStep, hchild] at hs
    split_ifs at hs
    · obtain rfl := Option.some.inj hs
      rfl
    · obtain ⟨r, -, hs⟩ := Option.bind_eq_some_iff.mp hs
      cases r <;> obtain rfl := Option.some.inj hs <;> rfl

/-- **Without the file `fsort` has no end**: it neither returns nor is killed, and it can always go
on, whether there is a child or not. -/
theorem endless_without_datafile (env : Env) (hopens : env.opens = false) (forked : Bool)
    (data : List UInt8) (as : List Label) (s : System)
    (hrun : Run env.Step (System.start forked data) as s) :
    s.parent.IsBeforeFile ∧ ∃ k s', env.Step s (.parent k) s' := by
  have hinv : ∀ s a s', s.parent.IsBeforeFile → env.Step s a s' → s'.parent.IsBeforeFile := by
    rintro s (k | k) s' h hs
    · cases hp : s.parent with
      | closeOut0 | closeIn1 | openFile | readFile =>
        simp only [Env.Step, Env.step, Env.parentStep, hp, hopens, if_true, Option.some.injEq] at hs
        subst hs
        simp only [ParentPc.IsBeforeFile, hp]
      | _ =>
        rw [hp] at h
        exact h.elim
    · rwa [Env.parent_of_childStep hs]
  have h : s.parent.IsBeforeFile := hrun.invariant trivial hinv
  refine ⟨h, ?_⟩
  obtain ⟨k, s', hs⟩ := env.exists_parentStep s (fun hp => by simp [hp, ParentPc.IsBeforeFile] at h)
    (fun hp => by simp [hp, ParentPc.IsBeforeFile] at h)
    (fun hp => by simp [hp, ParentPc.IsBeforeFile] at h)
    (fun hne => absurd h.toPipe_eq hne)
    (fun hp => by simp [hp, ParentPc.IsBeforeFile] at h)
  exact ⟨k, s', hs⟩

end UnixStudy.Fsort
