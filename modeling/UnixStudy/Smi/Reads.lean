import UnixStudy.Foundations.Runs
import UnixStudy.Smi.Routing

/-!
# What the server does after a bad read

`read` can fail, find the end of its input, or return less than a header. `smi_receive_getaddr_fifo`
tests for this, but only complains (and not at all if `read` has failed, as `nread` is compared with
a `size_t`). It goes on with what is in the buffer: the message that was handled last, with the
bytes that were read over its start. So the client of that message is looked up once more, and is
given a slot or answered a second time, unless there is neither a slot nor a FIFO for it.

## Main definitions

* `Server.receiveErrors` : what is printed on the result of `read`.
* `Main.ReadStep` : the loop of `main`, for every result of `read`.
* `Main.Reacts` : what follows a read, up to the next one.
* `Main.NoReply` : a read changes nothing, and no client is sent a reply.
* `Server.Unanswerable` : there is neither a slot nor a FIFO for the client of a message.

## Main results

* `Server.receiveErrors_eq_nil_iff` : when there is no complaint.
* `Main.reacts_iff` : what follows a read.
* `Main.bad_read_iff` : the bad reads that give no reply.

## References

* `src/ad_comm/smi_server.c`, lines 160–218 and 242–262.
-/

namespace UnixStudy.Smi

namespace Server

/-- The value of `nread`, when `read` has returned the given bytes, or `-1`. -/
def nread (b : Option Bytes) : Int64 := b.elim (-1) fun c => Int64.ofNat c.length

/-- What is printed on the result of `read`. For the second test `nread` becomes a `size_t`. -/
def receiveErrors (b : Option Bytes) : List String :=
  (if nread b = 0 then ["Read fail.\n"] else []) ++
    if (nread b).toUInt64 < UInt64.ofNat HEADER_SIZE then ["Error: Unexpected data.\n"] else []

/-- There is no complaint if a header was read, and none if `read` has failed. -/
theorem receiveErrors_eq_nil_iff {b : Option Bytes} (hb : ∀ c ∈ b, c.length ≤ MSG_SIZE) :
    receiveErrors b = [] ↔ ∀ c ∈ b, HEADER_SIZE ≤ c.length := by
  cases b with
  | none => exact iff_of_true rfl nofun
  | some c =>
    have hle : c.length ≤ MSG_SIZE := hb c rfl
    have hlength : (nread (some c)).toUInt64.toNat = c.length := by
      change (UInt64.ofNat c.length).toNat = c.length
      rw [UInt64.toNat_ofNat', Nat.mod_eq_of_lt (hle.trans_lt (by decide))]
    have hheader :
        (nread (some c)).toUInt64 < UInt64.ofNat HEADER_SIZE ↔ c.length < HEADER_SIZE := by
      rw [UInt64.lt_iff_toNat_lt, hlength]
      rfl
    have hzero : nread (some c) = 0 → c.length < HEADER_SIZE := fun h => by
      rw [h] at hlength
      rw [← hlength]
      decide
    simp only [receiveErrors, hheader, List.append_eq_nil_iff, ite_eq_right_iff, Option.mem_some,
      forall_eq', List.cons_ne_nil, imp_false, Nat.not_lt]
    exact and_iff_right_of_imp fun h h₀ => Nat.not_lt.mpr h (hzero h₀)

/-- There is neither a slot nor a FIFO for the client of a message: no slot is found, or one that
the client has without a descriptor, the FIFO of the client cannot be opened, and the loop over the
data ends. -/
def Unanswerable (s : Server) (m : SmiMsg) (ok : Bool) : Prop :=
  ((∀ i, (s.sq_clients i).cl_pid ≠ m.smi_client.pid) ∧ ∀ i, (s.sq_clients i).cl_fd ≠ -1) ∨
    ∃ i, s.sq_clients.table.IsFirst m.smi_client.pid i ∧ (s.sq_clients i).cl_fd = -1 ∧ ok = false ∧
      nul ∈ m.smi_data

/-- What is received leaves the table and the descriptors as they are, with no descriptor for the
client, if and only if its slot was there without one and the FIFO cannot be opened. -/
theorem receive_unchanged_iff {s s' : Server} {b : Option Bytes} {ok : Bool} {i : Fin MAX_CLIENTS}
    (h : s.receive b ok = (some i, s')) :
    s'.sq_clients = s.sq_clients ∧ s'.fds = s.fds ∧ (s'.sq_clients i).cl_fd = -1 ↔
      s.sq_clients.table.IsFirst (s.readMsg b).smi_client.pid i ∧ (s.sq_clients i).cl_fd = -1 ∧
        ok = false := by
  constructor
  · rintro ⟨hclients, -, hnone⟩
    refine ⟨?_, (cl_fd_receive_iff h).mp hnone⟩
    rw [← hclients]
    exact (received_of_receive h).isFirst
  · rintro ⟨hfirst, hfd, rfl⟩
    have heq := eq_searched_of_receive h
    have hclients : s'.sq_clients = s.sq_clients :=
      (congrArg sq_clients heq).trans (congrArg Prod.snd (clientsFind_of_isFirst hfirst))
    have hfds : s'.fds = s.fds := (congrArg fds heq).trans rfl
    exact ⟨hclients, hfds, by rw [hclients, hfd]⟩

/-- A client that has a descriptor is found, and nothing is changed. -/
theorem receive_of_isFirst {s : Server} {b : Option Bytes} {i : Fin MAX_CLIENTS} (ok : Bool)
    (hfirst : s.sq_clients.table.IsFirst (s.readMsg b).smi_client.pid i)
    (hfd : (s.sq_clients i).cl_fd ≠ -1) :
    s.receive b ok = (some i, { s with sq_msg := s.readMsg b }) := by
  have hfind := clientsFind_of_isFirst hfirst
  have hsearched : s.searched (s.readMsg b) = { s with sq_msg := s.readMsg b } := by
    rw [searched, hfind]
  rw [receive_of_some ok (congrArg Prod.fst hfind), hsearched, if_neg hfd]

end Server

/-- What is in upper case stays as it is. -/
theorem upperData_upperData (b : Bytes) : upperData (upperData b) = upperData b := by
  have htoupper (c : UInt8) (hc : c ≠ nul) : toupper c ≠ nul ∧ toupper (toupper c) = toupper c := by
    unfold toupper
    grind
  induction b with
  | nil => rfl
  | cons c cs ih =>
    rw [upperData]
    split_ifs with hc
    · rw [upperData, if_pos hc]
    · rw [upperData, if_neg (htoupper c hc).1, (htoupper c hc).2, ih]

theorem nul_mem_upperData {b : Bytes} (h : nul ∈ b) : nul ∈ upperData b := by
  induction b with
  | nil => exact h
  | cons c cs ih =>
    rw [upperData]
    split_ifs with hc
    · exact h
    · exact List.mem_cons_of_mem _ (ih ((List.mem_cons.mp h).resolve_left (Ne.symm hc)))

/-- An answer is its own answer. -/
theorem SmiMsg.toUpper_toUpper {m a : SmiMsg} (h : m.toUpper = some a) : a.toUpper = some a := by
  have hdata := smi_data_toUpper h
  have hnul : nul ∈ a.smi_data := by
    rw [toUpper] at h
    split_ifs at h with hnul
    rw [hdata]
    exact nul_mem_upperData hnul
  have hbytes : a.bytes.take HEADER_SIZE ++ upperData a.smi_data = a.bytes := by
    rw [hdata, upperData_upperData, ← hdata, smi_data, List.take_append_drop]
  obtain ⟨bytes, size⟩ := a
  rw [toUpper, if_pos hnul, Option.some.injEq, SmiMsg.mk.injEq]
  exact hbytes

namespace Main

/-- What happens in a run: `read` returns some bytes or fails, and a FIFO can be opened or not; the
answer is made; and it is sent. -/
inductive ReadLabel
  | read (b : Option Bytes) (ok : Bool)
  | answer
  | release

/-- The steps of `main`, for every result of `read`. -/
inductive ReadStep : Main → ReadLabel → Main → Prop
  | read (s : Server) {b : Option Bytes} (ok : Bool) (hb : ∀ c ∈ b, c.length ≤ MSG_SIZE) :
      ReadStep ⟨s, .receiving⟩ (.read b ok)
        ⟨(s.receive b ok).2, (s.receive b ok).1.elim .receiving .received⟩
  | answer {s : Server} {i : Fin MAX_CLIENTS} {m : SmiMsg} (h : s.sq_msg.toUpper = some m) :
      ReadStep ⟨s, .received i⟩ .answer
        ⟨{ s.sendGetaddr s.sq_msg.smi_client with sq_msg := m }, .answered i⟩
  | release {s s' : Server} {i : Fin MAX_CLIENTS} (h : s.sendRelease = some s') :
      ReadStep ⟨s, .answered i⟩ .release ⟨s', .receiving⟩

/-- What follows a read, up to the next one. -/
inductive Reacts (L : Main) (b : Option Bytes) (ok : Bool) (L' : Main) : Prop
  | passedOver (h : ReadStep L (.read b ok) L') (hphase : L'.phase = .receiving)
  | answered {L₁ L₂ : Main} (h₁ : ReadStep L (.read b ok) L₁) (h₂ : ReadStep L₁ .answer L₂)
      (h₃ : ReadStep L₂ .release L')

/-- A read changes neither the table nor the descriptors, and nothing is written to the FIFO of a
client. -/
def NoReply (L : Main) (b : Option Bytes) (ok : Bool) : Prop :=
  ∃ L', Reacts L b ok L' ∧ L'.server.sq_clients = L.server.sq_clients ∧
    L'.server.fds = L.server.fds ∧
      ∃ ws, L'.server.writes = L.server.writes ++ ws ∧ ∀ w ∈ ws, ∀ pid, ¬ L'.server.OpenedOn w.1 pid

/-- What holds in every reachable state. -/
structure ReadInv (L : Main) : Prop where
  sound : L.server.Sound
  received : ∀ i, L.phase = .received i →
    L.server.sq_clients.table.IsFirst L.server.sq_msg.smi_client.pid i
  answered : ∀ i, L.phase = .answered i → L.server.sq_client = L.server.sq_msg.smi_client ∧
    L.server.sq_clients.table.IsFirst L.server.sq_client.pid i

variable {L L' : Main} {l : ReadLabel} {b : Option Bytes} {ok : Bool}

/-- **Every step keeps the invariant**, whatever `read` returns. -/
theorem ReadInv.step (hinv : L.ReadInv) (h : ReadStep L l L') : L'.ReadInv := by
  cases h with
  | read s ok hb =>
    rename_i b
    rcases s.receive_cases b ok with ⟨-, -, h⟩ | ⟨-, i, s', h, hrec⟩ <;> rw [h]
    · exact ⟨⟨hinv.sound.indexed, hinv.sound.owned, hinv.sound.routed⟩,
        fun _ h => Phase.noConfusion h, fun _ h => Phase.noConfusion h⟩
    · refine ⟨hrec.sound hinv.sound, fun j hj => ?_, fun _ h => Phase.noConfusion h⟩
      obtain rfl := Phase.received.inj hj
      rw [hrec.msg]
      exact hrec.isFirst
  | answer h =>
    refine ⟨⟨hinv.sound.indexed, hinv.sound.owned, hinv.sound.routed⟩,
      fun _ h => Phase.noConfusion h, fun j hj => ?_⟩
    obtain rfl := Phase.answered.inj hj
    exact ⟨(SmiMsg.smi_client_toUpper h).symm, hinv.received _ rfl⟩
  | release h =>
    obtain ⟨hclient, hfirst⟩ := hinv.answered _ rfl
    rw [Server.sendRelease_of_isFirst hfirst] at h
    obtain rfl := Option.some.inj h
    exact ⟨hinv.sound.write (hclient ▸ hfirst.1), fun _ h => Phase.noConfusion h,
      fun _ h => Phase.noConfusion h⟩

theorem readInv_smiOpen (okR okW : Bool) (t : FdTable File) :
    ReadInv ⟨.smiOpen okR okW t, .receiving⟩ :=
  ⟨Server.sound_smiOpen okR okW t, fun _ h => Phase.noConfusion h, fun _ h => Phase.noConfusion h⟩

theorem ReadInv.run (hinv : L.ReadInv) {ls : List ReadLabel} (hrun : Run ReadStep L ls L') :
    L'.ReadInv :=
  hrun.invariant hinv fun _ _ _ h hstep => h.step hstep

theorem Reacts.step (h : Reacts L b ok L') : ∃ ls, Run ReadStep L ls L' := by
  cases h with
  | passedOver h => exact ⟨_, Run.refl.tail h⟩
  | answered h₁ h₂ h₃ => exact ⟨_, ((Run.refl.tail h₁).tail h₂).tail h₃⟩

/-- The server when what is in its buffer was answered to the slot `i`. -/
def replied (s : Server) (i : Fin MAX_CLIENTS) (a : SmiMsg) : Server :=
  { s with
    sq_client := a.smi_client, sq_msg := a
    writes := s.writes ++ [((s.sq_clients i).cl_fd, a)] }

/-- The slot that was received from is sent to. -/
theorem sendRelease_of_receive {s s' : Server} {i : Fin MAX_CLIENTS} {a : SmiMsg}
    (hreceive : s.receive b ok = (some i, s')) (hupper : s'.sq_msg.toUpper = some a) :
    ({ s'.sendGetaddr s'.sq_msg.smi_client with sq_msg := a } : Server).sendRelease =
      some (replied s' i a) := by
  have hrec := Server.received_of_receive hreceive
  rw [replied, SmiMsg.smi_client_toUpper hupper]
  refine Server.sendRelease_of_isFirst (i := i) ?_
  dsimp only [Server.sendGetaddr]
  rw [hrec.msg]
  exact hrec.isFirst

/-- The steps that answer what was read. -/
theorem exists_steps {s s' : Server} {i : Fin MAX_CLIENTS} {a : SmiMsg}
    (hb : ∀ c ∈ b, c.length ≤ MSG_SIZE) (hreceive : s.receive b ok = (some i, s'))
    (hupper : s'.sq_msg.toUpper = some a) : ∃ L₁ L₂, ReadStep ⟨s, .receiving⟩ (.read b ok) L₁ ∧
      ReadStep L₁ .answer L₂ ∧ ReadStep L₂ .release ⟨replied s' i a, .receiving⟩ := by
  have hstep := ReadStep.read s ok hb
  rw [hreceive] at hstep
  exact ⟨_, _, hstep, .answer hupper, .release (sendRelease_of_receive hreceive hupper)⟩

/-- **What follows a read**: if no slot is found, the next read; otherwise what is in the buffer is
answered to the descriptor of the slot. -/
theorem reacts_iff (hphase : L.phase = .receiving) (hb : ∀ c ∈ b, c.length ≤ MSG_SIZE) :
    Reacts L b ok L' ↔
      (L.server.receive b ok).1 = none ∧ L' = ⟨(L.server.receive b ok).2, .receiving⟩ ∨
      ∃ i s' a, L.server.receive b ok = (some i, s') ∧ s'.sq_msg.toUpper = some a ∧
        L' = ⟨replied s' i a, .receiving⟩ := by
  obtain ⟨s, phase⟩ := L
  obtain rfl : phase = .receiving := hphase
  constructor
  · intro h
    cases h with
    | passedOver h hreceiving =>
      cases h
      left
      cases hfst : (s.receive b ok).1 with
      | none => exact ⟨rfl, rfl⟩
      | some i =>
        rw [hfst] at hreceiving
        exact Phase.noConfusion hreceiving
    | answered h₁ h₂ h₃ =>
      right
      cases h₁
      rcases hreceive : s.receive b ok with ⟨_ | i, s'⟩
      · rw [hreceive] at h₂
        cases h₂
      · rw [hreceive] at h₂
        cases h₂ with
        | answer hupper =>
          cases h₃ with
          | release h₃ =>
            rw [sendRelease_of_receive hreceive hupper] at h₃
            obtain rfl := Option.some.inj h₃
            exact ⟨i, s', _, rfl, hupper, rfl⟩
  · rintro (⟨hnone, rfl⟩ | ⟨i, s', a, hreceive, hupper, rfl⟩)
    · have hstep := ReadStep.read s ok hb
      rw [hnone] at hstep
      exact .passedOver hstep rfl
    · obtain ⟨L₁, L₂, h₁, h₂, h₃⟩ := exists_steps hb hreceive hupper
      exact .answered h₁ h₂ h₃

/-- **When a read gives no reply**: if and only if there is neither a slot nor a FIFO for the client
of the message that is in the buffer then. -/
theorem noReply_iff (hinv : L.ReadInv) (hphase : L.phase = .receiving)
    (hb : ∀ c ∈ b, c.length ≤ MSG_SIZE) :
    NoReply L b ok ↔ L.server.Unanswerable (L.server.readMsg b) ok := by
  have hfree (s : Server) (pid : Pid) : ¬ s.OpenedOn (-1) pid := fun ⟨d, hd, _⟩ => by omega
  rcases L.server.receive_cases b ok with ⟨hpids, hfds, h⟩ | ⟨hnot, i, s', h, hrec⟩
  · refine iff_of_true ⟨_, (reacts_iff hphase hb).mpr (.inl ⟨congrArg Prod.fst h, rfl⟩), ?_⟩
      (.inl ⟨hpids, hfds⟩)
    rw [h]
    exact ⟨rfl, rfl, [], (List.append_nil _).symm, fun w hw => absurd hw List.not_mem_nil⟩
  · constructor
    · rintro ⟨L', hreacts, hclients, hfds, ws, hwrites, hws⟩
      rcases (reacts_iff hphase hb).mp hreacts with ⟨hnone, -⟩ | ⟨j, s₁, a, h₁, hupper, rfl⟩
      · rw [h] at hnone
        exact absurd hnone (Option.some_ne_none i)
      · obtain ⟨hij, rfl⟩ := Prod.mk.inj (h.symm.trans h₁)
        obtain rfl := Option.some.inj hij
        dsimp only [replied] at hclients hfds hwrites
        rw [hrec.writes, List.append_cancel_left_eq] at hwrites
        have hfd : (s'.sq_clients i).cl_fd = -1 := by
          by_contra hne
          have hopened := (hrec.sound hinv.sound).owned i hne
          have hmem : ((s'.sq_clients i).cl_fd, a) ∈ ws := by
            rw [← hwrites]
            exact List.mem_cons_self
          exact hws _ hmem _ hopened
        obtain ⟨hfirst, hnone, hok⟩ := (Server.receive_unchanged_iff h).mp ⟨hclients, hfds, hfd⟩
        refine .inr ⟨i, hfirst, hnone, hok, ?_⟩
        rw [hrec.msg, SmiMsg.toUpper] at hupper
        split_ifs at hupper with hnul
        exact hnul
    · rintro (hno | ⟨j, hfirst, hnone, hok, hnul⟩)
      · exact absurd hno hnot
      · have hfind := congrArg Prod.fst (clientsFind_of_isFirst hfirst)
        have hji := congrArg Prod.fst ((Server.receive_of_some ok hfind).symm.trans h)
        obtain rfl := Option.some.inj hji
        obtain ⟨hclients, hfds, hfd⟩ := (Server.receive_unchanged_iff h).mpr ⟨hfirst, hnone, hok⟩
        have hupper : ∃ a, s'.sq_msg.toUpper = some a := by
          rw [hrec.msg, SmiMsg.toUpper, if_pos hnul]
          exact ⟨_, rfl⟩
        obtain ⟨a, ha⟩ := hupper
        refine ⟨_, (reacts_iff hphase hb).mpr (.inr ⟨j, s', a, h, ha, rfl⟩), hclients, hfds,
          [((s'.sq_clients j).cl_fd, a)], congrArg (· ++ _) hrec.writes, fun w hw pid => ?_⟩
        obtain rfl := List.mem_singleton.mp hw
        rw [hfd]
        exact hfree _ pid

/-- A failing read is followed by a reply if the client of the last message has a descriptor. -/
theorem not_noReply (hinv : L.ReadInv) (hphase : L.phase = .receiving) {i : Fin MAX_CLIENTS}
    (hfirst : L.server.sq_clients.table.IsFirst L.server.sq_msg.smi_client.pid i)
    (hfd : (L.server.sq_clients i).cl_fd ≠ -1) : ¬ NoReply L none ok := by
  rw [noReply_iff hinv hphase fun _ h => absurd h.symm (Option.some_ne_none _)]
  rintro (⟨hpids, -⟩ | ⟨j, hj, hnone, -⟩)
  · exact hpids i hfirst.1
  · have hji := (clientsFind_of_isFirst hj).symm.trans (clientsFind_of_isFirst hfirst)
    obtain rfl := Option.some.inj (Prod.mk.inj hji).1
    exact hfd hnone

/-- **A message is answered once more** when the read behind it fails. -/
theorem answered_again {w : ℤ × SmiMsg} (hphase : L.phase = .receiving)
    (hb : ∀ c ∈ b, c.length ≤ MSG_SIZE) (h : Reacts L b ok L')
    (hwrites : L'.server.writes = L.server.writes ++ [w]) (hfd : w.1 ≠ -1) (ok' : Bool) :
    ∃ L'', Reacts L' none ok' L'' ∧ L''.server.writes = L.server.writes ++ [w, w] := by
  rcases (reacts_iff hphase hb).mp h with ⟨hnone, rfl⟩ | ⟨i, s', a, hreceive, hupper, rfl⟩
  · rcases L.server.receive_cases b ok with ⟨-, -, hreceive⟩ | ⟨-, i, s', hreceive, -⟩
    · rw [hreceive] at hwrites
      exact absurd (List.self_eq_append_right.mp hwrites) (List.cons_ne_nil _ _)
    · rw [hreceive] at hnone
      exact absurd hnone (Option.some_ne_none i)
  · have hrec := Server.received_of_receive hreceive
    have hfirst : s'.sq_clients.table.IsFirst a.smi_client.pid i := by
      rw [SmiMsg.smi_client_toUpper hupper, hrec.msg]
      exact hrec.isFirst
    dsimp only [replied] at hwrites
    rw [hrec.writes, List.append_cancel_left_eq, List.singleton_inj] at hwrites
    subst hwrites
    refine ⟨_, (reacts_iff rfl fun _ h => absurd h.symm (Option.some_ne_none _)).mpr
      (.inr ⟨i, _, a, Server.receive_of_isFirst ok' hfirst hfd, SmiMsg.toUpper_toUpper hupper,
        rfl⟩), ?_⟩
    dsimp only [replied]
    rw [hrec.writes, List.append_assoc]
    rfl

/-- **When a bad read gives no reply.** In every reachable state, a read that returns no complete
header changes nothing and is not followed by a reply, if and only if there is neither a slot nor a
FIFO for the client of the message that is in the buffer then. -/
theorem bad_read_iff {okR okW : Bool} {t : FdTable File} {ls : List ReadLabel}
    (hrun : Run ReadStep ⟨.smiOpen okR okW t, .receiving⟩ ls L) (hphase : L.phase = .receiving)
    (hbad : ∀ c ∈ b, c.length < HEADER_SIZE) (ok : Bool) :
    NoReply L b ok ↔ L.server.Unanswerable (L.server.readMsg b) ok :=
  noReply_iff ((readInv_smiOpen okR okW t).run hrun) hphase fun c hc =>
    (hbad c hc).le.trans (by decide)

/-- The message of the client with the pid `5` is the first one that is read. -/
theorem exists_sample (ok : Bool) : ∃ s' a,
    (Server.smiOpen true true ⟨[]⟩).receive (some sample.msg.bytes) ok = (some 0, s') ∧
      s'.sq_msg = sample.msg ∧ s'.sq_msg.toUpper = some a := by
  have hslot :
      ((Server.smiOpen true true ⟨[]⟩).receive (some sample.msg.bytes) ok).1 = some 0 := by
    cases ok <;> decide
  obtain ⟨s', h⟩ : ∃ s', (Server.smiOpen true true ⟨[]⟩).receive (some sample.msg.bytes) ok =
      (some 0, s') := ⟨_, Prod.ext hslot rfl⟩
  have hmsg := (Server.received_of_receive h).msg
  rw [readMsg_message] at hmsg
  obtain ⟨a, ha⟩ : ∃ a, s'.sq_msg.toUpper = some a := by
    rw [hmsg, SmiMsg.toUpper, if_pos sample.terminated]
    exact ⟨_, rfl⟩
  exact ⟨s', a, h, hmsg, ha⟩

theorem length_sample : ∀ c ∈ some sample.msg.bytes, c.length ≤ MSG_SIZE := by
  rintro c hc
  obtain rfl := Option.some.inj hc
  exact sample.msg.size.le

/-- The FIFO of the client with the pid `5` cannot be opened when its message is read, nor when the
next read fails: nothing is sent. -/
theorem bad_read_iff_unopened : ∃ ls L, Run ReadStep ⟨.smiOpen true true ⟨[]⟩, .receiving⟩ ls L ∧
    ls.length = 3 ∧ L.phase = .receiving ∧ L.server.sq_msg.smi_client.pid = 5 ∧
      NoReply L none false := by
  obtain ⟨s', a, h, hmsg, ha⟩ := exists_sample false
  obtain ⟨L₁, L₂, h₁, h₂, h₃⟩ := exists_steps length_sample h ha
  have hrec := Server.received_of_receive h
  have hclient : a.smi_client = sample.msg.smi_client :=
    (SmiMsg.smi_client_toUpper ha).trans (congrArg SmiMsg.smi_client hmsg)
  refine ⟨_, _, ((Run.refl.tail h₁).tail h₂).tail h₃, rfl, rfl, ?_, ?_⟩
  · dsimp only [replied]
    rw [hclient]
    decide
  · refine (bad_read_iff (((Run.refl.tail h₁).tail h₂).tail h₃) rfl
      (fun _ h => absurd h.symm (Option.some_ne_none _)) false).mpr (.inr ⟨0, ?_, ?_, rfl, ?_⟩)
    · have hfirst := hrec.isFirst
      rw [readMsg_message, ← hclient] at hfirst
      exact hfirst
    · exact (Server.cl_fd_receive_iff h).mpr ⟨rfl, rfl⟩
    · have hdata := SmiMsg.smi_data_toUpper ha
      rw [hmsg] at hdata
      change nul ∈ a.smi_data
      rw [hdata]
      exact nul_mem_upperData sample.terminated

/-- **A client is answered twice**: its message is read, made upper case and sent back, and the next
read fails. -/
theorem answered_twice : ∃ ls L L' w, Run ReadStep ⟨.smiOpen true true ⟨[]⟩, .receiving⟩ ls L ∧
    L.phase = .receiving ∧ L.server.writes = [w] ∧ L.server.OpenedOn w.1 5 ∧
      Reacts L none true L' ∧ L'.server.writes = [w, w] ∧ ¬ NoReply L none true := by
  have hclient : ((Server.smiOpen true true ⟨[]⟩).receive (some sample.msg.bytes)
      true).2.sq_clients 0 = ⟨2, 5⟩ := by decide
  obtain ⟨s', a, h, hmsg, ha⟩ := exists_sample true
  have hrec := Server.received_of_receive h
  rw [h] at hclient
  dsimp only at hclient
  have hreacts := (reacts_iff (L := ⟨.smiOpen true true ⟨[]⟩, .receiving⟩) rfl length_sample).mpr
    (.inr ⟨0, s', a, h, ha, rfl⟩)
  obtain ⟨ls, hrun⟩ := hreacts.step
  have hinv := (readInv_smiOpen true true ⟨[]⟩).run hrun
  have hfd : (s'.sq_clients 0).cl_fd ≠ -1 := by
    rw [hclient]
    decide
  have hwrites : s'.writes ++ [((s'.sq_clients 0).cl_fd, a)] = [((s'.sq_clients 0).cl_fd, a)] :=
    congrArg (· ++ _) hrec.writes
  obtain ⟨L', hagain, htwice⟩ := answered_again rfl length_sample hreacts hwrites hfd true
  have hopened := hinv.sound.owned 0 hfd
  dsimp only [replied] at hopened
  rw [congrArg Client.cl_pid hclient] at hopened
  refine ⟨ls, _, L', _, hrun, rfl, hwrites, hopened, hagain, htwice, ?_⟩
  refine not_noReply hinv rfl (i := 0) ?_ hfd
  dsimp only [replied]
  rw [SmiMsg.smi_client_toUpper ha, hrec.msg]
  exact hrec.isFirst

end Main

end UnixStudy.Smi
