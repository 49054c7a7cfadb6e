import UnixStudy.Smi.Names

/-!
# Clients and their FIFOs

A client makes its own FIFO, nobody else touches the name of it, and the client has it open for
reading until it ends. So at any time a name stands for the last FIFO that was made by a client with
its pid, or for none; clients with different pids have different FIFOs; and the FIFO of a client
that is open has a reader.

## Main definitions

* `ClientProcess.Ok` : what holds of a client process.
* `ClientProcess.Opens` : the calls of `smi_open`.
* `ClientProcess.Goes` : what a step of a client does to the FIFOs.
* `System.Wf` : what holds of the system in every run.

## Main results

* `ClientProcess.Ok.opens`, `ClientProcess.Ok.sends`, `ClientProcess.Ok.receives`,
  `ClientProcess.Ok.closes`, `ClientProcess.Ok.exits` : the steps of a client.
* `System.ClientStep.wf` : a step of a client keeps the system well formed.

## References

* `src/ad_comm/smi_server.c`, lines 96–149.
-/

namespace UnixStudy.Smi

namespace ClientPhase

/-- The process has made its FIFO, and not removed it. -/
def hasFifo : ClientPhase → Bool
  | created | reading | ready | closing | disconnected => true
  | _ => false

/-- The process has its FIFO open for reading. -/
def hasReader : ClientPhase → Bool
  | reading | ready | closing | disconnected | closed => true
  | _ => false

/-- The process has the FIFO of the server open. -/
def isConnected : ClientPhase → Bool
  | connected | unlinked | created | reading | ready | closing => true
  | _ => false

end ClientPhase

/-! ### A client process -/

namespace ClientProcess

/-- What holds of a client process: the name of its FIFO stands for the last FIFO that was made with
this name, or for none; and its descriptors are open on this FIFO and on that of the server. -/
structure Ok (pid : Pid) (F : SmiFifos) (c : ClientProcess) : Prop where
  next : c.fifo < F.next
  named : ∀ n, F.dir (fifoOf pid) = some n → n = c.fifo ∧ n ≠ 0
  unlinked : c.phase = .unlinked → F.dir (fifoOf pid) = none
  made : c.phase.hasFifo → F.dir (fifoOf pid) = some c.fifo ∧ c.fifo ≠ 0
  connecting : ∀ fd seen, c.phase = .connecting fd seen → fd = ⟨0, .writing⟩
  connected : c.phase.isConnected → c.sq_fd_server = some ⟨0, .writing⟩
  server : ∀ fd, c.sq_fd_server = some fd → fd = ⟨0, .writing⟩
  cl_fd : ∀ fd, c.cl_fd = some fd → fd.mode = .writing
  noReader : c.phase.hasReader = false → c.reader = none
  reads : c.phase.hasReader → c.reader = some ⟨c.fifo, .reading⟩ ∧ c.fifo ≠ 0 ∧
    0 < F.readers c.fifo

/-- A request of a client: it has the pid of the client, and its data ends with a `NUL`. -/
structure Requests (pid : Pid) (c : ClientProcess) (p : Parcel) : Prop where
  terminated : nul ∈ p.msg.smi_data
  pid : p.msg.smi_client.pid = pid
  owner : p.owner = c.fifo

/-- What a step of a client does: it leaves the other names, and the readers of the FIFOs of the
others; it writes to no FIFO but that of the server, and there a request; if it has made a FIFO,
this is a new one; and the only FIFO it opens for reading is the one it has just made. -/
structure Goes (pid : Pid) (c : ClientProcess) (F : SmiFifos) (c' : ClientProcess)
    (F' : SmiFifos) : Prop where
  ok : c'.Ok pid F'
  next : F.next ≤ F'.next
  dir : ∀ name, name ≠ fifoOf pid → F'.dir name = F.dir name
  readers : ∀ n, n ≠ c.fifo ∨ n = 0 → F.readers n ≤ F'.readers n
  queue : ∀ n, F'.queue n = F.queue n ∨
    n = 0 ∧ ∃ p, F'.queue 0 = F.queue 0 ++ [p] ∧ c.Requests pid p
  fifo : c'.fifo = c.fifo ∨ c'.fifo = F.next
  owned : c'.phase.hasFifo → c'.fifo = c.fifo → c.phase.hasFifo
  openings : ∀ n, F.openings n ≤ F'.openings n
  opened : ∀ n, F'.openings n ≠ F.openings n → c.phase = .created ∧ c.fifo = n
  created : c'.phase = .created → c'.fifo = F.next

/-- The calls of `smi_open`: the FIFO of the server is opened, and the call waits or not, or it has
waited; then the process removes a FIFO with its name, makes its own, and opens it for reading and
for writing. -/
inductive Opens (pid : Pid) (c : ClientProcess) (F : SmiFifos) : ClientProcess → SmiFifos → Prop
  | waits (hphase : c.phase = .started) (seen : ℕ) :
      Opens pid c F { c with phase := .connecting ⟨0, .writing⟩ seen } (F.attach ⟨0, .writing⟩)
  | connects (hphase : c.phase = .started) :
      Opens pid c F { c with phase := .connected, sq_fd_server := some ⟨0, .writing⟩ }
        (F.attach ⟨0, .writing⟩)
  | resumes {seen : ℕ} (hphase : c.phase = .connecting ⟨0, .writing⟩ seen) :
      Opens pid c F { c with phase := .connected, sq_fd_server := some ⟨0, .writing⟩ } F
  | unlinks (hphase : c.phase = .connected) :
      Opens pid c F { c with phase := .unlinked } (F.unlink (fifoOf pid))
  | makes (hphase : c.phase = .unlinked) (hnone : F.dir (fifoOf pid) = none) :
      Opens pid c F { c with phase := .created, fifo := F.next } (F.mkfifo (fifoOf pid))
  | opensReader (hphase : c.phase = .created) :
      Opens pid c F { c with phase := .reading, reader := some ⟨c.fifo, .reading⟩ }
        (F.attach ⟨c.fifo, .reading⟩)
  | opensWriter (hphase : c.phase = .reading) :
      Opens pid c F { c with phase := .ready, cl_fd := some ⟨c.fifo, .writing⟩ }
        (F.attach ⟨c.fifo, .writing⟩)

variable {pid : Pid} {F F' : SmiFifos} {c c' : ClientProcess}

/-- A step that changes no FIFO. -/
theorem Goes.of_eq (hok : c'.Ok pid F) (hfifo : c'.fifo = c.fifo)
    (howned : c'.phase.hasFifo → c.phase.hasFifo) (hcreated : c'.phase ≠ .created) :
    c.Goes pid F c' F where
  ok := hok
  next := le_rfl
  dir _ _ := rfl
  readers _ _ := le_rfl
  queue _ := Or.inl rfl
  fifo := Or.inl hfifo
  owned h _ := howned h
  openings _ := le_rfl
  opened _ h := absurd rfl h
  created h := absurd h hcreated

/-- A step that opens a FIFO for writing. -/
theorem Goes.attach_writing (n : ℕ) (hok : c'.Ok pid (F.attach ⟨n, .writing⟩))
    (hfifo : c'.fifo = c.fifo) (howned : c'.phase.hasFifo → c.phase.hasFifo)
    (hcreated : c'.phase ≠ .created) : c.Goes pid F c' (F.attach ⟨n, .writing⟩) where
  ok := hok
  next := le_rfl
  dir _ _ := rfl
  readers _ _ := (F.readers_attach_writing n _).ge
  queue _ := Or.inl (F.queue_attach _ _)
  fifo := Or.inl hfifo
  owned h _ := howned h
  openings m := (F.openings_attach_writing n m).ge
  opened m h := absurd (F.openings_attach_writing n m) h
  created h := absurd h hcreated

namespace Ok

/-- The steps of others leave a client as it is. -/
theorem frame (h : c.Ok pid F) (hnext : F.next ≤ F'.next)
    (hdir : F'.dir (fifoOf pid) = F.dir (fifoOf pid))
    (hreaders : c.phase.hasReader → F.readers c.fifo ≤ F'.readers c.fifo) : c.Ok pid F' where
  next := h.next.trans_le hnext
  named n hn := h.named n (hdir ▸ hn)
  unlinked hphase := hdir.trans (h.unlinked hphase)
  made hphase := ⟨hdir.trans (h.made hphase).1, (h.made hphase).2⟩
  connecting := h.connecting
  connected := h.connected
  server := h.server
  cl_fd := h.cl_fd
  noReader := h.noReader
  reads hphase := ⟨(h.reads hphase).1, (h.reads hphase).2.1,
    (h.reads hphase).2.2.trans_le (hreaders hphase)⟩

/-- The reader of a client is that of its FIFO. -/
theorem reader (h : c.Ok pid F) {fd : FifoFd} (hfd : c.reader = some fd) :
    fd = ⟨c.fifo, .reading⟩ ∧ c.fifo ≠ 0 := by
  cases hphase : c.phase.hasReader with
  | false => exact absurd ((h.noReader hphase).symm.trans hfd) (Option.some_ne_none fd).symm
  | true =>
    obtain ⟨hreader, hfifo, -⟩ := h.reads hphase
    exact ⟨Option.some.inj (hfd.symm.trans hreader), hfifo⟩

/-- **The calls of `smi_open`.** -/
theorem opens_cases (h : c.Ok pid F) (hserver : F.dir serverFifo = some 0)
    {r : ClientProcess × SmiFifos} (hstep : c.opens pid F = some r) : c.Opens pid F r.1 r.2 := by
  rw [ClientProcess.opens] at hstep
  cases hphase : c.phase with
  | started =>
    rw [hphase] at hstep
    dsimp only at hstep
    rcases F.sysOpen_cases serverFifo .writing with ⟨hnone, -⟩ | ⟨n, hn, hopen⟩
    · exact absurd (hnone.symm.trans hserver) (Option.some_ne_none 0).symm
    obtain rfl := Option.some.inj (hn.symm.trans hserver)
    rw [hopen] at hstep
    split_ifs at hstep
    · obtain rfl := Option.some.inj hstep
      exact .waits hphase _
    · obtain rfl := Option.some.inj hstep
      exact .connects hphase
  | connecting fd seen =>
    rw [hphase] at hstep
    dsimp only at hstep
    split_ifs at hstep
    obtain rfl := Option.some.inj hstep
    obtain rfl := h.connecting fd seen hphase
    exact .resumes hphase
  | connected =>
    rw [hphase] at hstep
    obtain rfl := Option.some.inj hstep
    exact .unlinks hphase
  | unlinked =>
    rw [hphase] at hstep
    obtain rfl := Option.some.inj hstep
    have hnone := h.unlinked hphase
    dsimp only
    rw [F.dir_mkfifo_self hnone]
    exact .makes hphase hnone
  | created =>
    rw [hphase] at hstep
    obtain rfl := Option.some.inj hstep
    have hopen : F.sysOpenNonblock (fifoOf pid) =
        (some ⟨c.fifo, .reading⟩, F.attach ⟨c.fifo, .reading⟩) := by
      rw [Fifos.sysOpenNonblock, (h.made (by rw [hphase]; rfl)).1]
    dsimp only
    rw [hopen]
    exact .opensReader hphase
  | reading =>
    rw [hphase] at hstep
    dsimp only at hstep
    have hdir := (h.made (by rw [hphase]; rfl)).1
    have hreads := h.reads (by rw [hphase]; rfl)
    rcases F.sysOpen_cases (fifoOf pid) .writing with ⟨hnone, -⟩ | ⟨n, hn, hopen⟩
    · exact absurd (hnone.symm.trans hdir) (Option.some_ne_none c.fifo).symm
    obtain rfl := Option.some.inj (hn.symm.trans hdir)
    have husers : (F.fifo c.fifo).users FifoEnd.writing.other ≠ 0 := hreads.2.2.ne'
    rw [hopen, if_neg husers] at hstep
    obtain rfl := Option.some.inj hstep
    exact .opensWriter hphase
  | absent | ready | closing | disconnected | closed =>
    rw [hphase] at hstep
    exact absurd hstep.symm (Option.some_ne_none r)

/-- A process that has its FIFO not open yet. -/
theorem reader_eq_none (h : c.Ok pid F) {phase : ClientPhase} (hphase : c.phase = phase)
    (hreader : phase.hasReader = false) : c.reader = none :=
  h.noReader (hphase ▸ hreader)

/-- A FIFO is opened for writing. -/
theorem attach_writing (h : c.Ok pid F) (n : ℕ) : c.Ok pid (F.attach ⟨n, .writing⟩) :=
  h.frame le_rfl rfl fun _ => (F.readers_attach_writing n _).ge

/-- The FIFO of the server is opened, now or after a while. -/
theorem connect (h : c.Ok pid F) (hreader : c.reader = none) :
    Ok pid F { c with phase := .connected, sq_fd_server := some ⟨0, .writing⟩ } :=
  { h with
    unlinked := fun h => ClientPhase.noConfusion h
    made := fun h => Bool.noConfusion h
    connecting := fun _ _ h => ClientPhase.noConfusion h
    connected := fun _ => rfl
    server := fun _ h => (Option.some.inj h).symm
    noReader := fun _ => hreader
    reads := fun h => Bool.noConfusion h }

/-- The process makes its FIFO. -/
theorem make (h : c.Ok pid F) (hphase : c.phase = .unlinked) (hnone : F.dir (fifoOf pid) = none) :
    Ok pid (F.mkfifo (fifoOf pid)) { c with phase := .created, fifo := F.next } := by
  have hdir := F.dir_mkfifo_self hnone
  have hpos : F.next ≠ 0 := (Nat.zero_lt_of_lt h.next).ne'
  exact {
    next := (F.next_mkfifo hnone).symm ▸ Nat.lt_succ_self F.next
    named := fun n hn => by
      obtain rfl := Option.some.inj (hdir.symm.trans hn)
      exact ⟨rfl, hpos⟩
    unlinked := fun h => ClientPhase.noConfusion h
    made := fun _ => ⟨hdir, hpos⟩
    connecting := fun _ _ h => ClientPhase.noConfusion h
    connected := fun _ => h.connected (by rw [hphase]; rfl)
    server := h.server
    cl_fd := h.cl_fd
    noReader := fun _ => h.reader_eq_none hphase rfl
    reads := fun h => Bool.noConfusion h }

/-- The process opens its FIFO for reading. -/
theorem openReader (h : c.Ok pid F) (hphase : c.phase = .created) :
    Ok pid (F.attach ⟨c.fifo, .reading⟩)
      { c with phase := .reading, reader := some ⟨c.fifo, .reading⟩ } := by
  obtain ⟨hdir, hpos⟩ := h.made (by rw [hphase]; rfl)
  have hreaders : (F.attach ⟨c.fifo, .reading⟩).readers c.fifo = F.readers c.fifo + 1 := by
    rw [F.readers_attach, if_pos rfl]
  have hframe : c.Ok pid (F.attach ⟨c.fifo, .reading⟩) :=
    h.frame le_rfl rfl fun _ => (Nat.le_succ _).trans_eq hreaders.symm
  exact { hframe with
    unlinked := fun h => ClientPhase.noConfusion h
    made := fun _ => ⟨hdir, hpos⟩
    connecting := fun _ _ h => ClientPhase.noConfusion h
    connected := fun _ => h.connected (by rw [hphase]; rfl)
    noReader := fun h => Bool.noConfusion h
    reads := fun _ => ⟨rfl, hpos, hreaders ▸ Nat.succ_pos _⟩ }

/-- The process opens its FIFO for writing. -/
theorem openWriter (h : c.Ok pid F) (hphase : c.phase = .reading) :
    Ok pid F { c with phase := .ready, cl_fd := some ⟨c.fifo, .writing⟩ } :=
  { h with
    unlinked := fun h => ClientPhase.noConfusion h
    made := fun _ => h.made (by rw [hphase]; rfl)
    connecting := fun _ _ h => ClientPhase.noConfusion h
    connected := fun _ => h.connected (by rw [hphase]; rfl)
    cl_fd := fun fd hfd => by
      obtain rfl := Option.some.inj hfd
      rfl
    noReader := fun h => Bool.noConfusion h
    reads := fun _ => h.reads (by rw [hphase]; rfl) }

/-- A step of `smi_open`. -/
theorem opens (h : c.Ok pid F) (hopens : c.Opens pid F c' F') : c.Goes pid F c' F' := by
  cases hopens with
  | waits hphase seen =>
    refine .attach_writing 0 ?_ rfl (fun hfifo => Bool.noConfusion hfifo)
      fun h => ClientPhase.noConfusion h
    exact { h.attach_writing 0 with
      unlinked := fun h => ClientPhase.noConfusion h
      made := fun h => Bool.noConfusion h
      connecting := fun _ _ h => (ClientPhase.connecting.inj h).1.symm
      connected := fun h => Bool.noConfusion h
      noReader := fun _ => h.reader_eq_none hphase rfl
      reads := fun h => Bool.noConfusion h }
  | connects hphase =>
    exact .attach_writing 0 ((h.attach_writing 0).connect (h.reader_eq_none hphase rfl)) rfl
      (fun hfifo => Bool.noConfusion hfifo) fun h => ClientPhase.noConfusion h
  | resumes hphase =>
    exact .of_eq (h.connect (h.reader_eq_none hphase rfl)) rfl (fun hfifo => Bool.noConfusion hfifo)
      fun h => ClientPhase.noConfusion h
  | unlinks hphase =>
    refine ⟨?_, le_rfl, fun _ hname => F.dir_unlink_of_ne hname, fun _ _ => le_rfl,
      fun _ => Or.inl rfl, Or.inl rfl, fun hfifo => Bool.noConfusion hfifo, fun _ => le_rfl,
      fun _ h => absurd rfl h, fun h => ClientPhase.noConfusion h⟩
    exact { h with
      named := fun n hn => absurd ((F.dir_unlink_self _).symm.trans hn) (Option.some_ne_none n).symm
      unlinked := fun _ => F.dir_unlink_self _
      made := fun h => Bool.noConfusion h
      connecting := fun _ _ h => ClientPhase.noConfusion h
      connected := fun _ => h.connected (by rw [hphase]; rfl)
      noReader := fun _ => h.reader_eq_none hphase rfl
      reads := fun h => Bool.noConfusion h }
  | makes hphase hnone =>
    exact ⟨h.make hphase hnone, (F.next_mkfifo hnone).symm ▸ Nat.le_succ _,
      fun _ hname => F.dir_mkfifo_of_ne hname, fun n _ => (F.readers_mkfifo _ n).ge,
      fun n => Or.inl (F.queue_mkfifo _ n), Or.inr rfl, fun _ hsame => absurd hsame h.next.ne',
      fun n => (F.openings_mkfifo _ n).ge, fun n h => absurd (F.openings_mkfifo _ n) h,
      fun _ => rfl⟩
  | opensReader hphase =>
    refine ⟨h.openReader hphase, le_rfl, fun _ _ => rfl, fun n _ => ?_,
      fun n => Or.inl (F.queue_attach _ n), Or.inl rfl, fun _ _ => by rw [hphase]; rfl,
      fun n => ?_, fun n hn => ⟨hphase, ?_⟩, fun h => ClientPhase.noConfusion h⟩
    · rw [F.readers_attach]
      exact Nat.le_add_right _ _
    · rw [F.openings_attach]
      exact Nat.le_add_right _ _
    · rw [F.openings_attach] at hn
      by_contra hne
      exact hn (by rw [if_neg fun hfd => hne (congrArg FifoFd.fifo hfd), Nat.add_zero])
  | opensWriter hphase =>
    exact .attach_writing c.fifo ((h.attach_writing c.fifo).openWriter hphase) rfl
      (fun _ => by rw [hphase]; rfl) fun h => ClientPhase.noConfusion h

/-- A process without descriptors, of which the last FIFO is known. -/
theorem idle (h : c.Ok pid F) (hdir : F'.dir = F.dir) (hnext : F'.next = F.next)
    {phase : ClientPhase} (hphase : phase = .absent ∨ phase = .started) :
    ClientProcess.Ok pid F' (blank phase c.fifo) where
  next := h.next.trans_eq hnext.symm
  named n hn := h.named n (hdir ▸ hn)
  unlinked hunlinked := by rcases hphase with rfl | rfl <;> exact ClientPhase.noConfusion hunlinked
  made hmade := by rcases hphase with rfl | rfl <;> exact Bool.noConfusion hmade
  connecting _ _ h := by rcases hphase with rfl | rfl <;> exact ClientPhase.noConfusion h
  connected h := by rcases hphase with rfl | rfl <;> exact Bool.noConfusion h
  server fd hfd := absurd hfd (Option.some_ne_none fd).symm
  cl_fd fd hfd := absurd hfd (Option.some_ne_none fd).symm
  noReader _ := rfl
  reads h := by rcases hphase with rfl | rfl <;> exact Bool.noConfusion h

/-- The start of a process. -/
theorem start (h : c.Ok pid F) : c.Goes pid F (blank .started c.fifo) F :=
  .of_eq (h.idle rfl rfl (Or.inr rfl)) rfl (fun hfifo => Bool.noConfusion hfifo)
    fun h => ClientPhase.noConfusion h

/-- A descriptor that is open for writing is closed. -/
theorem readers_close_writing {fd : Option FifoFd} (h : ∀ fd', fd = some fd' → fd'.mode = .writing)
    (F : SmiFifos) (n : ℕ) : (F.sysClose fd).readers n = F.readers n :=
  F.readers_sysClose fun hfd => FifoEnd.noConfusion (h _ hfd)

theorem server_writing (h : c.Ok pid F) (fd : FifoFd) (hfd : c.sq_fd_server = some fd) :
    fd.mode = .writing := by
  rw [h.server fd hfd]

/-- The end of a process. -/
theorem exits (h : c.Ok pid F) {r : ClientProcess × SmiFifos} (hstep : c.exits F = some r) :
    c.Goes pid F r.1 r.2 := by
  have hclose : c.Goes pid F (blank .absent c.fifo)
      (((F.sysClose c.sq_fd_server).sysClose c.reader).sysClose c.cl_fd) := by
    refine ⟨h.idle ?_ ?_ (Or.inl rfl), ?_, fun _ _ => ?_, fun n hn => ?_,
      fun n => Or.inl ?_, Or.inl rfl, fun hfifo => Bool.noConfusion hfifo, fun n => ?_,
      fun n hn => absurd ?_ hn, fun h => ClientPhase.noConfusion h⟩
    · simp only [Fifos.dir_sysClose]
    · simp only [Fifos.next_sysClose]
    · simp only [Fifos.next_sysClose, le_refl]
    · simp only [Fifos.dir_sysClose]
    · rw [readers_close_writing h.cl_fd, Fifos.readers_sysClose,
        readers_close_writing h.server_writing]
      intro hreader
      obtain ⟨hfd, hfifo⟩ := h.reader hreader
      have hn' : n = c.fifo := congrArg FifoFd.fifo hfd
      exact hn.elim (· hn') fun hzero => hfifo (hn'.symm.trans hzero)
    · simp only [Fifos.queue_sysClose]
    · simp only [Fifos.openings_sysClose, le_refl]
    · simp only [Fifos.openings_sysClose]
  rw [ClientProcess.exits] at hstep
  cases hphase : c.phase with
  | absent =>
    rw [hphase] at hstep
    exact absurd hstep.symm (Option.some_ne_none r)
  | connecting fd seen =>
    rw [hphase] at hstep
    obtain rfl := Option.some.inj hstep
    obtain rfl := h.connecting fd seen hphase
    dsimp only
    refine ⟨h.idle (F.dir_sysClose _) (F.next_sysClose _) (Or.inl rfl), (F.next_sysClose _).ge,
      fun _ _ => by rw [F.dir_sysClose], fun n _ => (readers_close_writing ?_ F n).ge,
      fun n => Or.inl (F.queue_sysClose _ n), Or.inl rfl, fun hfifo => Bool.noConfusion hfifo,
      fun n => (F.openings_sysClose _ n).ge, fun n h => absurd (F.openings_sysClose _ n) h,
      fun h => ClientPhase.noConfusion h⟩
    exact fun fd hfd => by rw [← Option.some.inj hfd]
  | started | connected | unlinked | created | reading | ready | closing | disconnected | closed =>
    rw [hphase] at hstep
    obtain rfl := Option.some.inj hstep
    exact hclose

/-- **How a client sends**: nobody reads the FIFO of the server, and then the process ends; or the
message is in that FIFO. -/
theorem sends_cases (h : c.Ok pid F) {m : SmiMsg} {r : ClientProcess × SmiFifos}
    (hstep : c.sends pid F m = some r) : c.phase = .ready ∧
      (F.readers 0 = 0 ∧ c.exits F = some r ∨
      F.readers 0 ≠ 0 ∧ r = ({ c with
        sq_msg := m.setPid pid
        sent := c.sent ++ [m.setPid pid] }, F.push 0 ⟨m.setPid pid, c.fifo⟩)) := by
  rw [ClientProcess.sends] at hstep
  split_ifs at hstep with hready
  have hwrite : F.sysWrite ⟨m.setPid pid, c.fifo⟩ c.sq_fd_server =
      if F.readers 0 = 0 then (.killed, F) else (.written, F.push 0 ⟨m.setPid pid, c.fifo⟩) := by
    rw [h.connected (by rw [hready]; rfl), F.sysWrite_writing]
  dsimp only at hstep
  rw [hwrite] at hstep
  refine ⟨hready, ?_⟩
  split_ifs at hstep with hreaders
  · exact Or.inl ⟨hreaders, hstep⟩
  · exact Or.inr ⟨hreaders, (Option.some.inj hstep).symm⟩

/-- `smi_send_release`. -/
theorem sends (h : c.Ok pid F) {m : SmiMsg} (hm : nul ∈ m.smi_data) {r : ClientProcess × SmiFifos}
    (hstep : c.sends pid F m = some r) : c.Goes pid F r.1 r.2 := by
  obtain ⟨hphase, ⟨-, hexits⟩ | ⟨-, rfl⟩⟩ := h.sends_cases hstep
  · exact h.exits hexits
  · have hframe : c.Ok pid (F.push 0 ⟨m.setPid pid, c.fifo⟩) :=
      h.frame le_rfl rfl fun _ => (F.readers_push _ _ _).ge
    refine ⟨{ hframe with }, le_rfl, fun _ _ => rfl, fun n _ => (F.readers_push _ _ n).ge,
      fun n => ?_, Or.inl rfl, fun hfifo _ => hfifo, fun n => (F.openings_push _ _ n).ge,
      fun n h => absurd (F.openings_push _ _ n) h,
      fun h => ClientPhase.noConfusion (hphase.symm.trans h)⟩
    dsimp only
    rw [F.queue_push]
    split_ifs with hn
    · refine Or.inr ⟨hn, _, F.queue_push 0 _ 0, ?_, m.pid_setPid pid, rfl⟩
      rwa [m.smi_data_setPid]
    · exact Or.inl (List.append_nil _)

/-- `smi_receive_getaddr`, which fails. -/
theorem receives_eq (h : c.Ok pid F) {r : ClientProcess × SmiFifos}
    (hstep : c.receives F = some r) : c.phase = .ready ∧ r = (c.obtain_msg c.sq_msg, F) := by
  rw [ClientProcess.receives] at hstep
  split_ifs at hstep with hready
  have hread : F.sysRead c.cl_fd = (.failed, F) := by
    cases hfd : c.cl_fd with
    | none => rfl
    | some fd =>
      obtain ⟨n, mode⟩ := fd
      obtain rfl : mode = .writing := h.cl_fd _ hfd
      rfl
  rw [hread] at hstep
  exact ⟨hready, (Option.some.inj hstep).symm⟩

theorem receives (h : c.Ok pid F) {r : ClientProcess × SmiFifos}
    (hstep : c.receives F = some r) : c.Goes pid F r.1 r.2 := by
  obtain ⟨hphase, rfl⟩ := h.receives_eq hstep
  exact .of_eq { h with } rfl id fun h => ClientPhase.noConfusion (hphase.symm.trans h)

/-- A step of `smi_close`. -/
theorem closes (h : c.Ok pid F) {r : ClientProcess × SmiFifos} (hstep : c.closes pid F = some r) :
    c.Goes pid F r.1 r.2 := by
  rw [ClientProcess.closes] at hstep
  cases hphase : c.phase with
  | ready =>
    rw [hphase] at hstep
    obtain rfl := Option.some.inj hstep
    have hreaders := readers_close_writing h.cl_fd F
    have hframe : c.Ok pid (F.sysClose c.cl_fd) :=
      h.frame (F.next_sysClose _).ge (by rw [F.dir_sysClose]) fun _ => (hreaders _).ge
    refine ⟨?_, (F.next_sysClose _).ge, fun _ _ => by rw [F.dir_sysClose],
      fun n _ => (hreaders n).ge, fun n => Or.inl (F.queue_sysClose _ n), Or.inl rfl,
      fun _ _ => by rw [hphase]; rfl, fun n => (F.openings_sysClose _ n).ge,
      fun n h => absurd (F.openings_sysClose _ n) h, fun h => ClientPhase.noConfusion h⟩
    exact { hframe with
      unlinked := fun h => ClientPhase.noConfusion h
      made := fun _ => hframe.made (by rw [hphase]; rfl)
      connecting := fun _ _ h => ClientPhase.noConfusion h
      connected := fun _ => h.connected (by rw [hphase]; rfl)
      cl_fd := fun fd hfd => absurd hfd (Option.some_ne_none fd).symm
      noReader := fun h => Bool.noConfusion h
      reads := fun _ => hframe.reads (by rw [hphase]; rfl) }
  | closing =>
    rw [hphase] at hstep
    obtain rfl := Option.some.inj hstep
    have hreaders := readers_close_writing h.server_writing F
    have hframe : c.Ok pid (F.sysClose c.sq_fd_server) :=
      h.frame (F.next_sysClose _).ge (by rw [F.dir_sysClose]) fun _ => (hreaders _).ge
    refine ⟨?_, (F.next_sysClose _).ge, fun _ _ => by rw [F.dir_sysClose],
      fun n _ => (hreaders n).ge, fun n => Or.inl (F.queue_sysClose _ n), Or.inl rfl,
      fun _ _ => by rw [hphase]; rfl, fun n => (F.openings_sysClose _ n).ge,
      fun n h => absurd (F.openings_sysClose _ n) h, fun h => ClientPhase.noConfusion h⟩
    exact { hframe with
      unlinked := fun h => ClientPhase.noConfusion h
      made := fun _ => hframe.made (by rw [hphase]; rfl)
      connecting := fun _ _ h => ClientPhase.noConfusion h
      connected := fun h => Bool.noConfusion h
      server := fun fd hfd => absurd hfd (Option.some_ne_none fd).symm
      noReader := fun h => Bool.noConfusion h
      reads := fun _ => hframe.reads (by rw [hphase]; rfl) }
  | disconnected =>
    rw [hphase] at hstep
    obtain rfl := Option.some.inj hstep
    refine ⟨?_, le_rfl, fun _ hname => F.dir_unlink_of_ne hname, fun _ _ => le_rfl,
      fun _ => Or.inl rfl, Or.inl rfl, fun hfifo => Bool.noConfusion hfifo, fun _ => le_rfl,
      fun _ h => absurd rfl h, fun h => ClientPhase.noConfusion h⟩
    exact { h with
      named := fun n hn => absurd ((F.dir_unlink_self _).symm.trans hn) (Option.some_ne_none n).symm
      unlinked := fun h => ClientPhase.noConfusion h
      made := fun h => Bool.noConfusion h
      connecting := fun _ _ h => ClientPhase.noConfusion h
      connected := fun h => Bool.noConfusion h
      noReader := fun h => Bool.noConfusion h
      reads := fun _ => h.reads (by rw [hphase]; rfl) }
  | absent | started | connecting | connected | unlinked | created | reading | closed =>
    rw [hphase] at hstep
    exact absurd hstep.symm (Option.some_ne_none r)

end Ok

end ClientProcess

/-! ### The system -/

/-- The client whose step it is. -/
def SystemLabel.pid : SystemLabel → Option Pid
  | .serves => none
  | .starts pid | .opens pid | .sends pid _ | .receives pid | .closes pid | .exits pid => some pid

namespace System

variable {s s' : System} {pid : Pid}

/-- What holds of the system in every run. -/
structure Wf (s : System) : Prop where
  main : s.main.Inv
  alive : s.alive → 0 < s.fifos.readers 0
  name : s.fifos.dir serverFifo = some 0
  clients : ∀ pid, (s.clients pid).Ok pid s.fifos
  distinct : ∀ pid pid', pid ≠ pid' → (s.clients pid).fifo = (s.clients pid').fifo →
    (s.clients pid).fifo = 0
  requests : ∀ p ∈ s.fifos.queue 0, nul ∈ p.msg.smi_data ∧
    p.owner ≤ (s.clients p.msg.smi_client.pid).fifo

/-- A step of a client: the rest of the system is what it was. -/
structure ClientStep (pid : Pid) (s s' : System) : Prop where
  goes : (s.clients pid).Goes pid s.fifos (s'.clients pid) s'.fifos
  eq : s' = { s with
    clients := Function.update s.clients pid (s'.clients pid)
    fifos := s'.fifos }

theorem eq_of_client {r : Option (ClientProcess × SmiFifos)} (h : s.client pid r = some s') :
    r = some (s'.clients pid, s'.fifos) ∧ s' = { s with
      clients := Function.update s.clients pid (s'.clients pid)
      fifos := s'.fifos } := by
  obtain ⟨r', hr', rfl⟩ := Option.map_eq_some_iff.mp h
  have hself : Function.update s.clients pid r'.1 pid = r'.1 := Function.update_self ..
  dsimp only
  rw [hself]
  exact ⟨hr', rfl⟩

/-- **A step is one of the server or of a client.** -/
theorem Wf.step_cases (h : s.Wf) {l : SystemLabel} (hstep : s.Step l s') :
    l = .serves ∧ s.serves = some s' ∨ ∃ pid, l.pid = some pid ∧ ClientStep pid s s' := by
  have hclient {pid : Pid} {r : Option (ClientProcess × SmiFifos)} (hl : l.pid = some pid)
      (hstep : s.client pid r = some s')
      (hr : ∀ r', r = some r' → (s.clients pid).Goes pid s.fifos r'.1 r'.2) :
      ∃ pid, l.pid = some pid ∧ ClientStep pid s s' :=
    ⟨pid, hl, hr _ (eq_of_client hstep).1, (eq_of_client hstep).2⟩
  cases l with
  | serves => exact Or.inl ⟨rfl, hstep⟩
  | starts pid =>
    refine Or.inr (hclient rfl hstep fun r hr => ?_)
    split_ifs at hr
    obtain rfl := Option.some.inj hr
    exact (h.clients pid).start
  | opens pid =>
    refine Or.inr (hclient rfl hstep fun r hr => ?_)
    exact (h.clients pid).opens ((h.clients pid).opens_cases h.name hr)
  | sends pid m =>
    exact Or.inr (hclient rfl hstep fun r hr => (h.clients pid).sends m.terminated hr)
  | receives pid => exact Or.inr (hclient rfl hstep fun r hr => (h.clients pid).receives hr)
  | closes pid => exact Or.inr (hclient rfl hstep fun r hr => (h.clients pid).closes hr)
  | exits pid => exact Or.inr (hclient rfl hstep fun r hr => (h.clients pid).exits hr)

namespace ClientStep

theorem of_ne (h : ClientStep pid s s') {pid' : Pid} (hne : pid' ≠ pid) :
    s'.clients pid' = s.clients pid' := by
  rw [h.eq]
  exact Function.update_of_ne hne ..

/-- The server lives on, and waits as before. -/
theorem server (h : ClientStep pid s s') : s'.alive = s.alive ∧ s'.pending = s.pending := by
  rw [h.eq]
  exact ⟨rfl, rfl⟩

/-- The FIFOs of a pid have increasing numbers. -/
theorem fifo_le (h : ClientStep pid s s') (hs : s.Wf) (pid' : Pid) :
    (s.clients pid').fifo ≤ (s'.clients pid').fifo := by
  by_cases hpid : pid' = pid
  · subst hpid
    rcases h.goes.fifo with heq | heq
    · exact heq.ge
    · exact (hs.clients pid').next.le.trans_eq heq.symm
  · rw [h.of_ne hpid]

/-- **A step of a client** keeps the system well formed. -/
theorem wf (h : ClientStep pid s s') (hs : s.Wf) : s'.Wf where
  main := by
    rw [h.eq]
    exact hs.main
  alive := by
    intro halive
    have halive' : s.alive := by
      rw [h.eq] at halive
      exact halive
    exact (hs.alive halive').trans_le (h.goes.readers 0 (Or.inr rfl))
  name := (h.goes.dir _ (fifoOf_ne_serverFifo pid).symm).trans hs.name
  clients pid' := by
    by_cases hpid : pid' = pid
    · subst hpid
      exact h.goes.ok
    · rw [h.of_ne hpid]
      refine (hs.clients pid').frame h.goes.next ?_ fun hreader => h.goes.readers _ ?_
      · exact h.goes.dir _ fun hname => hpid (fifoOf_injective hname)
      · -- A FIFO with a reader is not that of another client.
        exact Or.inl fun hfifo =>
          ((hs.clients pid').reads hreader).2.1 (hs.distinct pid' pid hpid hfifo)
  distinct := by
    have hfresh (pid' : Pid) (hne : pid' ≠ pid) :
        (s'.clients pid').fifo = (s'.clients pid).fifo → (s'.clients pid').fifo = 0 := by
      rw [h.of_ne hne]
      intro hfifo
      rcases h.goes.fifo with heq | heq
      · exact hs.distinct pid' pid hne (hfifo.trans heq)
      · exact absurd (hfifo.trans heq) (hs.clients pid').next.ne
    intro pid₁ pid₂ hne hfifo
    by_cases h₂ : pid₂ = pid
    · subst h₂
      exact hfresh pid₁ hne hfifo
    by_cases h₁ : pid₁ = pid
    · subst h₁
      exact hfifo.trans (hfresh pid₂ h₂ hfifo.symm)
    · rw [h.of_ne h₁, h.of_ne h₂] at hfifo
      rw [h.of_ne h₁]
      exact hs.distinct pid₁ pid₂ hne hfifo
  requests := by
    have hold (p : Parcel) (hp : p ∈ s.fifos.queue 0) : nul ∈ p.msg.smi_data ∧
        p.owner ≤ (s'.clients p.msg.smi_client.pid).fifo :=
      ⟨(hs.requests p hp).1, (hs.requests p hp).2.trans (h.fifo_le hs _)⟩
    intro p hp
    rcases h.goes.queue 0 with heq | ⟨-, p', heq, hp'⟩
    · exact hold p (heq ▸ hp)
    · rw [heq] at hp
      rcases List.mem_append.mp hp with hp | hp
      · exact hold p hp
      · obtain rfl := List.mem_singleton.mp hp
        refine ⟨hp'.terminated, ?_⟩
        rw [hp'.owner, hp'.pid]
        exact h.fifo_le hs pid

end ClientStep

end System

end UnixStudy.Smi
