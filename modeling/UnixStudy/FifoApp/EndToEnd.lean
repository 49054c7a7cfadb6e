import UnixStudy.FifoApp.Programs

/-!
# No reply comes back in the FIFO application

A client makes the FIFO of the server, in case that the server has not been started, but nobody
makes the FIFO of a client. So the only name in the directory is that of the server, and every call
of `open` for the FIFO of a client fails, on either side. The results are not looked at: the server
writes its answer to the descriptor `-1`, the client reads from the descriptor `-1`, and what it
prints as the reply is the word that it has left in its message.

## Main definitions

* `System.EndToEnd` : a line shows the word in upper case, as the server has sent it back.
* `OnlyServer` : no other FIFO has a name.
* `System.Inv` : what holds in every run.

## Main results

* `System.Inv.step` : every call keeps the invariant.
* `not_endToEnd` : no line shows a reply.

## References

* `src/ad_comm/fifo_app_client.c`, lines 23–63.
* `src/ad_comm/fifo_app.c`, lines 18–46.
-/

namespace UnixStudy.FifoApp

open Smi (Bytes Pid nul mem_decimal toupper)

/-! ### Lines with replies -/

/-- What the server has sent back to a client, message by message. -/
def System.sentBack (s : System) (pid : Pid) : List Bytes :=
  (s.replies.filter (·.sm_clientpid = pid)).map SimpleMessage.text

/-- The line for the `i`-th word of a client shows this word in upper case, and it is the `i`-th
text that the server has sent back to the client. -/
structure System.EndToEnd (words : Pid → List Word) (s : System) (l : Line) : Prop where
  word : (words l.pid)[l.i]? = some l.word
  upper : l.text = l.word.chars.map toupper
  sentBack : (s.sentBack l.pid)[l.i]? = some l.text

/-- The line for the `i`-th word of a client shows the word itself. -/
structure Line.Echo (words : Pid → List Word) (l : Line) : Prop where
  word : (words l.pid)[l.i]? = some l.word
  text : l.text = l.word.chars

/-- A word that has been copied into a message is its text. -/
theorem SimpleMessage.text_strcpy (m : SimpleMessage) (w : Word) :
    (m.strcpy w).text = w.chars := by
  have hchars : ∀ c ∈ w.chars, (c != nul) = true := fun c hc =>
    bne_iff_ne.mpr fun h => w.noNul (h ▸ hc)
  rw [text, strcpy, List.takeWhile_append_of_pos hchars, List.takeWhile_cons_of_neg (by decide),
    List.append_nil]

/-- A string is its own upper case if it has no lower-case letter. -/
theorem eq_map_toupper_iff {b : Bytes} :
    b = b.map toupper ↔ ∀ c ∈ b, ¬ (97 ≤ c ∧ c ≤ 122) := by
  have hchar (c : UInt8) : toupper c = c ↔ ¬ (97 ≤ c ∧ c ≤ 122) := by
    rw [toupper]
    split_ifs with h
    · exact iff_of_false (by grind) (not_not_intro h)
    · exact iff_of_true rfl h
  induction b with
  | nil => exact iff_of_true rfl (List.forall_mem_nil _)
  | cons c cs ih =>
    rw [List.map_cons, List.cons.injEq, List.forall_mem_cons]
    exact and_congr (eq_comm.trans (hchar c)) ih

/-! ### The names of the FIFOs -/

/-- No FIFO but that of the server has a name. -/
def OnlyServer (F : AppFifos) : Prop := ∀ name, name ≠ SERVER_FIFO_NAME → F.dir name = none

/-- The FIFO of a client does not have the name of the server's. -/
theorem fifoName_ne (pid : Pid) : fifoName pid ≠ SERVER_FIFO_NAME := by
  intro h
  have hmem : (95 : UInt8) ∈ fifoName pid := by
    rw [h]
    decide
  rcases List.mem_append.mp (List.mem_of_mem_take hmem) with hmem | hmem
  · exact absurd hmem (by decide)
  · exact absurd (mem_decimal hmem) (by decide)

namespace OnlyServer

variable {F F' : AppFifos}

theorem of_eq (h : OnlyServer F) (hdir : F'.dir = F.dir) : OnlyServer F' := by
  rw [OnlyServer, hdir]
  exact h

theorem mkfifo (h : OnlyServer F) : OnlyServer (F.mkfifo SERVER_FIFO_NAME) :=
  fun name hname => (F.dir_mkfifo_of_ne hname).trans (h name hname)

theorem unlink (h : OnlyServer F) (name : Bytes) : OnlyServer (F.unlink name) :=
  fun name' hname => F.dir_unlink_eq_none (h name' hname)

/-- The FIFO of a client cannot be opened. -/
theorem resumeOpen (h : OnlyServer F) (pid : Pid) (mode : FifoEnd) :
    F.resumeOpen none (fifoName pid) mode = some (.missing, F) :=
  congrArg some (F.sysOpen_of_missing (h _ (fifoName_ne pid)) mode)

end OnlyServer

/-! ### The server -/

/-- The server has no FIFO of a client open, and waits for none. -/
structure Server.Apart (s : Server) : Prop where
  fd_client : s.fd_client = none
  pending : s.pc = .openClient → s.pending = none

namespace Server.Apart

variable {s : Server} {F : AppFifos}

theorem goto (h : s.Apart) (pc : ServerPc) : (s.goto pc).Apart := ⟨h.fd_client, fun _ => rfl⟩

/-- A call of `open` for another FIFO. -/
theorem opening (h : s.Apart) (hpc : s.pc ≠ .openClient) (o : Opening)
    {assign : Option FifoFd → Server} (hassign : ∀ fd, (assign fd).Apart) :
    (s.opening o assign).Apart := by
  cases o with
  | missing => exact hassign none
  | opened fd => exact hassign (some fd)
  | waits fd seen => exact ⟨h.fd_client, fun hpc' => absurd hpc' hpc⟩

/-- **A call of the server** sends nothing back. -/
theorem step (h : s.Apart) (hdir : OnlyServer F) {r : Server × AppFifos × Option SimpleMessage}
    (hstep : s.step F = some r) : r.1.Apart ∧ OnlyServer r.2.1 ∧ r.2.2 = none := by
  rw [Server.step] at hstep
  cases hpc : s.pc with
  | mkfifo =>
    rw [hpc] at hstep
    obtain rfl := Option.some.inj hstep
    exact ⟨h.goto _, hdir.mkfifo, rfl⟩
  | openRead =>
    rw [hpc] at hstep
    obtain ⟨o, ho, rfl⟩ := Option.map_eq_some_iff.mp hstep
    refine ⟨?_, hdir.of_eq (F.dir_resumeOpen ho), rfl⟩
    dsimp only
    refine h.opening (by rw [hpc]; decide) o.1 ?_
    exact fun fd => ⟨h.fd_client, fun _ => rfl⟩
  | openWrite =>
    rw [hpc] at hstep
    obtain ⟨o, ho, rfl⟩ := Option.map_eq_some_iff.mp hstep
    refine ⟨?_, hdir.of_eq (F.dir_resumeOpen ho), rfl⟩
    dsimp only
    refine h.opening (by rw [hpc]; decide) o.1 ?_
    exact fun fd => ⟨h.fd_client, fun _ => rfl⟩
  | read =>
    rw [hpc] at hstep
    have hread : OnlyServer (F.sysRead s.fd_server).2 := hdir.of_eq (F.dir_sysRead _)
    dsimp only at hstep
    cases hr : (F.sysRead s.fd_server).1 with
    | failed =>
      rw [hr] at hstep
      obtain rfl := Option.some.inj hstep
      exact ⟨h.goto _, hread, rfl⟩
    | item m =>
      rw [hr] at hstep
      obtain rfl := Option.some.inj hstep
      exact ⟨⟨h.fd_client, fun _ => rfl⟩, hread, rfl⟩
    | eof =>
      rw [hr] at hstep
      obtain rfl := Option.some.inj hstep
      refine ⟨h.goto _, hread.of_eq ?_, rfl⟩
      simp only [Server.exit, Fifos.dir_sysClose]
    | waits =>
      rw [hr] at hstep
      exact absurd hstep.symm (Option.some_ne_none r)
  | upper =>
    rw [hpc] at hstep
    obtain ⟨m, -, rfl⟩ := Option.map_eq_some_iff.mp hstep
    exact ⟨⟨h.fd_client, fun _ => rfl⟩, hdir, rfl⟩
  | openClient =>
    rw [hpc] at hstep
    dsimp only at hstep
    rw [h.pending hpc, hdir.resumeOpen] at hstep
    obtain rfl := Option.some.inj hstep
    exact ⟨⟨rfl, fun _ => rfl⟩, hdir, rfl⟩
  | write =>
    rw [hpc] at hstep
    dsimp only at hstep
    rw [h.fd_client] at hstep
    obtain rfl := Option.some.inj hstep
    exact ⟨h.goto _, hdir, rfl⟩
  | closeClient =>
    rw [hpc] at hstep
    obtain rfl := Option.some.inj hstep
    exact ⟨⟨rfl, fun _ => rfl⟩, hdir.of_eq (F.dir_sysClose _), rfl⟩
  | exited =>
    rw [hpc] at hstep
    exact absurd hstep.symm (Option.some_ne_none r)

end Server.Apart

/-! ### A client -/

/-- The client has sent a word and waits for the reply. -/
def ClientPc.awaits : ClientPc → Bool
  | .openRead | .openWrite | .read => true
  | _ => false

/-- The client of a pid has no end of its FIFO open, and waits for none; while it waits for a reply,
its message has the word that it has sent. -/
structure Client.Apart (words : Pid → List Word) (pid : Pid) (c : Client) : Prop where
  getpid : c.pid = pid
  word : c.word = words pid
  fd_client : c.fd_client = none
  fd_client_w : c.fd_client_w = none
  pending : c.pc.awaits → c.pending = none
  text : c.pc.awaits → ∃ w, (words pid)[c.i]? = some w ∧ c.msg.text = w.chars

namespace Client.Apart

variable {words : Pid → List Word} {pid : Pid} {c : Client} {F : AppFifos}

theorem echo_none (words : Pid → List Word) : ∀ l ∈ (none : Option Line), l.Echo words :=
  fun l hl => absurd hl.symm (Option.some_ne_none l)

/-- A call of a client that has no reply to wait for. -/
theorem goto (h : c.Apart words pid) (pc : ClientPc) (hpc : pc.awaits = false) :
    (c.goto pc).Apart words pid where
  getpid := h.getpid
  word := h.word
  fd_client := h.fd_client
  fd_client_w := h.fd_client_w
  pending _ := rfl
  text hawaits := absurd (hpc.symm.trans hawaits) (by decide)

/-- A client that waits for a reply goes on waiting. -/
theorem await (h : c.Apart words pid) (hpc : c.pc.awaits) (pc : ClientPc) :
    (c.goto pc).Apart words pid where
  getpid := h.getpid
  word := h.word
  fd_client := h.fd_client
  fd_client_w := h.fd_client_w
  pending _ := rfl
  text _ := h.text hpc

/-- The call of `open` for the FIFO of the server. -/
theorem opening (h : c.Apart words pid) (hpc : c.pc.awaits = false) (o : Opening)
    {assign : Option FifoFd → Client} (hassign : ∀ fd, (assign fd).Apart words pid) :
    (c.opening o assign).Apart words pid := by
  cases o with
  | missing => exact hassign none
  | opened fd => exact hassign (some fd)
  | waits fd seen =>
    exact { h with pending := fun hawaits => absurd (hpc.symm.trans hawaits) (by decide) }

/-- The word that has been sent is the text of the message. -/
theorem send (h : c.Apart words pid) {w : Word} (hw : c.word[c.i]? = some w) :
    ({ c with msg := c.msg.strcpy w }.goto .openRead).Apart words pid where
  getpid := h.getpid
  word := h.word
  fd_client := h.fd_client
  fd_client_w := h.fd_client_w
  pending _ := rfl
  text _ := ⟨w, h.word ▸ hw, c.msg.text_strcpy w⟩

/-- The line that is printed while nothing was read. -/
theorem line (h : c.Apart words pid) (hpc : c.pc.awaits) :
    ∀ l ∈ c.line c.msg, l.Echo words := by
  intro l hl
  obtain ⟨w, hw, rfl⟩ := Option.map_eq_some_iff.mp hl
  obtain ⟨w', hw', htext⟩ := h.text hpc
  rw [h.word] at hw
  obtain rfl := Option.some.inj (hw.symm.trans hw')
  exact ⟨by rwa [h.getpid], htext⟩

/-- **A call of a client** shows nothing but what the client has sent. -/
theorem step (h : c.Apart words pid) (hdir : OnlyServer F) {r : Client × AppFifos × Option Line}
    (hstep : c.step F = some r) :
    r.1.Apart words pid ∧ OnlyServer r.2.1 ∧ ∀ l ∈ r.2.2, l.Echo words := by
  rw [Client.step] at hstep
  cases hpc : c.pc with
  | mkfifo =>
    rw [hpc] at hstep
    obtain rfl := Option.some.inj hstep
    exact ⟨h.goto _ rfl, hdir.mkfifo, echo_none words⟩
  | openServer =>
    rw [hpc] at hstep
    obtain ⟨⟨o, F'⟩, ho, rfl⟩ := Option.map_eq_some_iff.mp hstep
    refine ⟨?_, hdir.of_eq (F.dir_resumeOpen ho), echo_none words⟩
    dsimp only
    refine h.opening (by rw [hpc]; rfl) o ?_
    exact fun _ => { h.goto .write rfl with }
  | write =>
    rw [hpc] at hstep
    dsimp only at hstep
    cases hw : c.word[c.i]? with
    | none =>
      rw [hw] at hstep
      obtain rfl := Option.some.inj hstep
      exact ⟨h.goto _ rfl, hdir, echo_none words⟩
    | some w =>
      rw [hw] at hstep
      dsimp only at hstep
      have hdir' : OnlyServer (F.sysWrite (c.msg.strcpy w) c.fd_server).2 :=
        hdir.of_eq (F.dir_sysWrite _ _)
      have hsend := h.send hw
      cases hwrite : (F.sysWrite (c.msg.strcpy w) c.fd_server).1 with
      | failed | written =>
        rw [hwrite] at hstep
        obtain rfl := Option.some.inj hstep
        exact ⟨hsend, hdir', echo_none words⟩
      | killed =>
        rw [hwrite] at hstep
        obtain rfl := Option.some.inj hstep
        refine ⟨hsend.goto _ rfl, hdir'.of_eq ?_, echo_none words⟩
        simp only [Client.exit, Fifos.dir_sysClose]
  | openRead =>
    rw [hpc] at hstep
    dsimp only at hstep
    rw [if_pos h.fd_client, h.pending (by rw [hpc]; rfl), hdir.resumeOpen] at hstep
    obtain rfl := Option.some.inj hstep
    refine ⟨?_, hdir, echo_none words⟩
    exact { h.await (by rw [hpc]; rfl) .openWrite with fd_client := rfl }
  | openWrite =>
    rw [hpc] at hstep
    dsimp only at hstep
    rw [if_pos h.fd_client_w, h.pending (by rw [hpc]; rfl), hdir.resumeOpen] at hstep
    obtain rfl := Option.some.inj hstep
    refine ⟨?_, hdir, echo_none words⟩
    exact { h.await (by rw [hpc]; rfl) .read with fd_client_w := rfl }
  | read =>
    rw [hpc] at hstep
    dsimp only at hstep
    rw [h.fd_client] at hstep
    obtain rfl := Option.some.inj hstep
    refine ⟨?_, hdir, h.line (by rw [hpc]; rfl)⟩
    exact { h.goto .write rfl with text := fun hawaits => Bool.noConfusion hawaits }
  | closeServer =>
    rw [hpc] at hstep
    obtain rfl := Option.some.inj hstep
    exact ⟨{ h.goto .closeRead rfl with }, hdir.of_eq (F.dir_sysClose _),
      echo_none words⟩
  | closeRead =>
    rw [hpc] at hstep
    obtain rfl := Option.some.inj hstep
    exact ⟨{ h.goto .closeWrite rfl with fd_client := rfl }, hdir.of_eq (F.dir_sysClose _),
      echo_none words⟩
  | closeWrite =>
    rw [hpc] at hstep
    obtain rfl := Option.some.inj hstep
    exact ⟨{ h.goto .unlink rfl with fd_client_w := rfl }, hdir.of_eq (F.dir_sysClose _),
      echo_none words⟩
  | unlink =>
    rw [hpc] at hstep
    obtain rfl := Option.some.inj hstep
    exact ⟨h.goto _ rfl, hdir.unlink _, echo_none words⟩
  | exited =>
    rw [hpc] at hstep
    exact absurd hstep.symm (Option.some_ne_none r)

end Client.Apart

/-! ### The system -/

namespace System

variable {words : Pid → List Word} {memory : Party → SimpleMessage} {s s' : System}

/-- What holds in every run: the server and the clients are apart, the server has sent nothing back,
and the lines show the words that were sent. -/
structure Inv (words : Pid → List Word) (s : System) : Prop where
  fifos : OnlyServer s.fifos
  server : s.server.Apart
  clients : ∀ pid, (s.clients pid).Apart words pid
  replies : s.replies = []
  lines : ∀ l ∈ s.lines, l.Echo words

theorem inv_start (words : Pid → List Word) (memory : Party → SimpleMessage) :
    (start words memory).Inv words where
  fifos _ _ := rfl
  server := ⟨rfl, fun _ => rfl⟩
  clients _ := ⟨rfl, rfl, rfl, rfl, fun _ => rfl, fun hawaits => Bool.noConfusion hawaits⟩
  replies := rfl
  lines _ hl := absurd hl List.not_mem_nil

/-- **Every call keeps the invariant.** -/
theorem Inv.step (h : s.Inv words) {a : Party} (hstep : s.Step a s') : s'.Inv words := by
  cases a with
  | server =>
    obtain ⟨r, hr, rfl⟩ := Option.map_eq_some_iff.mp hstep
    obtain ⟨hserver, hfifos, hreply⟩ := h.server.step h.fifos hr
    refine ⟨hfifos, hserver, h.clients, ?_, h.lines⟩
    dsimp only
    rw [h.replies, hreply]
    rfl
  | client pid =>
    obtain ⟨r, hr, rfl⟩ := Option.map_eq_some_iff.mp hstep
    obtain ⟨hclient, hfifos, hline⟩ := (h.clients pid).step h.fifos hr
    refine ⟨hfifos, h.server, fun pid' => ?_, h.replies, fun l hl => ?_⟩
    · dsimp only
      by_cases hpid : pid' = pid
      · subst hpid
        rw [Function.update_self]
        exact hclient
      · rw [Function.update_of_ne hpid]
        exact h.clients pid'
    · rcases List.mem_append.mp hl with hl | hl
      · exact h.lines l hl
      · exact hline l (Option.mem_toList.mp hl)

/-- The invariant holds in every run. -/
theorem inv_run {as : List Party} (hrun : Run Step (start words memory) as s) : s.Inv words :=
  hrun.invariant (inv_start words memory) fun _ _ _ h hstep => h.step hstep

/-- Nothing has been sent back. -/
theorem Inv.shows_no_reply (h : s.Inv words) (l : Line) : ¬ s.EndToEnd words l := by
  intro hend
  have hsent := hend.sentBack
  rw [sentBack, h.replies] at hsent
  exact Option.some_ne_none _ hsent.symm

end System

/-- **No line shows a reply.** In every run, with any words of any number of clients and in any
order of the calls, what a client prints as the reply is not what the server has sent back for its
word. It is the word itself, which is the same text just if the word has no lower-case letter. -/
theorem not_endToEnd {words : Pid → List Word} {memory : Party → SimpleMessage} {as : List Party}
    {s : System} (hrun : Run System.Step (.start words memory) as s) {l : Line} (hl : l ∈ s.lines) :
    ¬ s.EndToEnd words l ∧
      (l.text = l.word.chars.map toupper ↔ ∀ c ∈ l.word.chars, ¬ (97 ≤ c ∧ c ≤ 122)) := by
  have hinv := System.inv_run hrun
  refine ⟨hinv.shows_no_reply l, ?_⟩
  rw [(hinv.lines l hl).text]
  exact eq_map_toupper_iff

/-! ### A client with one word -/

/-- `tiger`. -/
def tiger : Word := ⟨[116, 105, 103, 101, 114], by decide, by decide⟩

/-- A message in cleared memory. -/
def SimpleMessage.blank : SimpleMessage := ⟨0, List.replicate SM_DATA_SIZE 0, List.length_replicate⟩

/-- The server is started and waits in `open`; then the client with the pid `7` sends its word and
prints the line with the reply; and then the server handles the message. -/
def tigerRun : List Party :=
  List.replicate 2 .server ++ List.replicate 6 (.client 7) ++ List.replicate 7 .server

/-- The start with one word for a client. -/
def tigerStart : System := .start (fun _ => [tiger]) fun _ => .blank

theorem exists_tigerRun : ∃ s, Run System.Step tigerStart tigerRun s ∧
    s.lines = [⟨7, 0, tiger, [116, 105, 103, 101, 114]⟩] ∧
      s.server.msg.text = [84, 73, 71, 69, 82] ∧ s.replies = [] := by
  have hrun : (tigerRun.foldlM System.step tigerStart).map
      (fun s => (s.lines, s.server.msg.text, s.replies)) =
        some ([⟨7, 0, tiger, [116, 105, 103, 101, 114]⟩], [84, 73, 71, 69, 82], []) := by
    decide
  obtain ⟨s, hs, hshows⟩ := Option.map_eq_some_iff.mp hrun
  simp only [Prod.mk.injEq] at hshows
  exact ⟨s, .of_foldlM hs, hshows⟩

/-- The line shows `tiger`, though the server has made `TIGER` of it, and nothing is sent back. -/
theorem not_endToEnd_tiger : ∃ s, Run System.Step tigerStart tigerRun s ∧
    s.server.msg.text = tiger.chars.map toupper ∧
      ∃ l ∈ s.lines, l.text ≠ l.word.chars.map toupper ∧ ¬ s.EndToEnd (fun _ => [tiger]) l := by
  obtain ⟨s, hrun, hlines, htext, -⟩ := exists_tigerRun
  refine ⟨s, hrun, htext, ⟨7, 0, tiger, [116, 105, 103, 101, 114]⟩, ?_, by decide, fun hend => ?_⟩
  · rw [hlines]
    exact List.mem_singleton_self _
  · exact absurd hend.upper (by decide)

/-- The same of the client with the pid `7`, by what holds of every run. -/
theorem not_endToEnd_seven : ∃ s, Run System.Step tigerStart tigerRun s ∧
    ∃ l ∈ s.lines, ¬ s.EndToEnd (fun _ => [tiger]) l ∧
      (l.text = l.word.chars.map toupper ↔ ∀ c ∈ l.word.chars, ¬ (97 ≤ c ∧ c ≤ 122)) := by
  obtain ⟨s, hrun, hlines, -, -⟩ := exists_tigerRun
  have hmem : (⟨7, 0, tiger, [116, 105, 103, 101, 114]⟩ : Line) ∈ s.lines := by
    rw [hlines]
    exact List.mem_singleton_self _
  exact ⟨s, hrun, _, hmem, not_endToEnd hrun hmem⟩

end UnixStudy.FifoApp
