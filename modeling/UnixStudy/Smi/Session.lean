import UnixStudy.Smi.Service

/-!
# Clients that stay

When clients only open, send and receive, the server does its part: each message that a client sends
is answered once, in order and in upper case, and the answers stand in the FIFO of the client. We
count a message as answered from the moment when it is sent: what has been answered, what the server
is about to answer, and what stands in its FIFO is the traffic, to which only the clients add.

## Main definitions

* `System.repliesTo` : the answers to a client.
* `System.traffic` : the answers, and those to come.
* `ClientProcess.Proceeds` : the steps of a client that does not close or end.
* `System.Session` : what holds as long as no client closes or ends.

## Main results

* `System.Session.step` : every step keeps it.

## References

* `src/ad_comm/smi_server.c`, lines 96–131, 160–218 and 242–262.
-/

namespace UnixStudy.Smi

/-! ### Answers -/

namespace SmiMsg

/-- The data of the answer to a message. -/
def upper (m : SmiMsg) : Bytes := upperData m.smi_data

/-- An answer: the client and the data. -/
def reply (m : SmiMsg) : Pid × Bytes := (m.smi_client.pid, m.smi_data)

/-- The answer to a message that is not answered yet. -/
def due (m : SmiMsg) : Pid × Bytes := (m.smi_client.pid, m.upper)

end SmiMsg

/-- The data of the answers to one client. -/
def dataFor (pid : Pid) (l : List (Pid × Bytes)) : List Bytes :=
  (l.filter (·.1 = pid)).map Prod.snd

theorem dataFor_append (pid : Pid) (l l' : List (Pid × Bytes)) :
    dataFor pid (l ++ l') = dataFor pid l ++ dataFor pid l' := by
  rw [dataFor, List.filter_append, List.map_append, dataFor, dataFor]

theorem dataFor_singleton (pid pid' : Pid) (b : Bytes) :
    dataFor pid [(pid', b)] = if pid' = pid then [b] else [] := by
  rw [dataFor, List.filter_singleton, Bool.cond_decide]
  split_ifs <;> rfl

namespace System

variable (s : System)

/-- The answers that the server has made for a client, wherever it has sent them. -/
def repliesTo (pid : Pid) : List SmiMsg :=
  (s.replies.map (·.parcel.msg)).filter (·.smi_client.pid = pid)

/-- The answer that the server is about to make or to send. -/
def inHand : List (Pid × Bytes) :=
  match s.main.phase with
  | .receiving => []
  | .received _ => [s.main.server.sq_msg.due]
  | .answered _ => [s.main.server.sq_msg.reply]

/-- The answers to come: the one in hand, and those to the messages in the FIFO of the server. -/
def toCome : List (Pid × Bytes) := s.inHand ++ (s.fifos.queue 0).map (·.msg.due)

/-- The answers, and those to come. -/
def traffic : List (Pid × Bytes) := s.replies.map (·.parcel.msg.reply) ++ s.toCome

theorem map_smi_data_repliesTo (pid : Pid) : (s.repliesTo pid).map SmiMsg.smi_data =
    dataFor pid (s.replies.map (·.parcel.msg.reply)) := by
  rw [repliesTo, dataFor, List.filter_map, List.filter_map, List.map_map, List.map_map]
  rfl

variable {s}

theorem repliesTo_append {s' : System} {r : Reply} (h : s'.replies = s.replies ++ [r]) (pid : Pid) :
    s'.repliesTo pid = s.repliesTo pid ++
      if r.parcel.msg.smi_client.pid = pid then [r.parcel.msg] else [] := by
  rw [repliesTo, h, List.map_append, List.filter_append, List.map_singleton, List.filter_singleton,
    Bool.cond_decide, repliesTo]

end System

/-! ### The steps of the clients -/

/-- What happens as long as no client closes or ends; and only the given clients are started. -/
def SystemLabel.InSession (cs : Finset Pid) : SystemLabel → Prop
  | .starts pid => pid ∈ cs
  | .closes _ | .exits _ => False
  | _ => True

namespace ClientProcess

variable {pid : Pid} {F F' : SmiFifos} {c c' : ClientProcess} {l : SystemLabel}

/-- The steps of a client that does not close or end: before it is open, it writes nothing, and
keeps the FIFO that it has made; then a message that it sends is behind the others in the FIFO of
the server, and what it obtains is the message in its own buffer. -/
inductive Proceeds (pid : Pid) (c : ClientProcess) (F : SmiFifos) :
    SystemLabel → ClientProcess → SmiFifos → Prop
  | opens {l : SystemLabel} {c' : ClientProcess} {F' : SmiFifos} (hl : ∀ pid, l ≠ .receives pid)
      (hphase : c.phase ≠ .ready) (hsent : c'.sent = c.sent) (hobtained : c'.obtained = c.obtained)
      (hfifo : c.phase.hasFifo → c'.phase.hasFifo ∧ c'.fifo = c.fifo)
      (hqueue : F'.queue = F.queue) : Proceeds pid c F l c' F'
  | sends (m : Message) (hphase : c.phase = .ready) : Proceeds pid c F (.sends pid m)
      { c with sq_msg := m.msg.setPid pid, sent := c.sent ++ [m.msg.setPid pid] }
      (F.push 0 ⟨m.msg.setPid pid, c.fifo⟩)
  | receives (hphase : c.phase = .ready) : Proceeds pid c F (.receives pid)
      (c.obtain_msg c.sq_msg) F

theorem Opens.proceeds (h : c.Opens pid F c' F') : c.Proceeds pid F (.opens pid) c' F' := by
  have hopens {phase : ClientPhase} (hphase : c.phase = phase) (hready : phase ≠ .ready)
      (hsent : c'.sent = c.sent) (hobtained : c'.obtained = c.obtained)
      (hfifo : phase.hasFifo → c'.phase.hasFifo ∧ c'.fifo = c.fifo)
      (hqueue : ∀ n, F'.queue n = F.queue n) : c.Proceeds pid F (.opens pid) c' F' := by
    subst hphase
    exact .opens (fun _ h => SystemLabel.noConfusion h) hready hsent hobtained hfifo (funext hqueue)
  cases h with
  | waits hphase | connects hphase =>
    exact hopens hphase (fun h => ClientPhase.noConfusion h) rfl rfl (fun h => Bool.noConfusion h)
      (F.queue_attach _)
  | resumes hphase | unlinks hphase =>
    exact hopens hphase (fun h => ClientPhase.noConfusion h) rfl rfl (fun h => Bool.noConfusion h)
      fun _ => rfl
  | makes hphase =>
    exact hopens hphase (fun h => ClientPhase.noConfusion h) rfl rfl (fun h => Bool.noConfusion h)
      (F.queue_mkfifo _)
  | opensReader hphase | opensWriter hphase =>
    exact hopens hphase (fun h => ClientPhase.noConfusion h) rfl rfl (fun _ => ⟨rfl, rfl⟩)
      (F.queue_attach _)

namespace Proceeds

/-- An open client stays open. -/
theorem ready (h : c.Proceeds pid F l c' F') (hready : c.phase = .ready) :
    c'.phase = .ready ∧ c'.fifo = c.fifo := by
  cases h with
  | opens _ hphase => exact absurd hready hphase
  | sends => exact ⟨hready, rfl⟩
  | receives => exact ⟨hready, rfl⟩

/-- The FIFO that a client has made is kept. -/
theorem fifo (h : c.Proceeds pid F l c' F') (hfifo : c.phase.hasFifo) :
    c'.phase.hasFifo ∧ c'.fifo = c.fifo := by
  cases h with
  | opens _ _ _ _ hkeeps => exact hkeeps hfifo
  | sends => exact ⟨hfifo, rfl⟩
  | receives => exact ⟨hfifo, rfl⟩

/-- A client writes to no FIFO but that of the server. -/
theorem queue (h : c.Proceeds pid F l c' F') {n : ℕ} (hn : n ≠ 0) : F'.queue n = F.queue n := by
  cases h with
  | opens _ _ _ _ _ hqueue => rw [hqueue]
  | sends => rw [F.queue_push, if_neg hn, List.append_nil]
  | receives => rfl

/-- A client has obtained nothing as long as it does not receive. -/
theorem obtained (h : c.Proceeds pid F l c' F') :
    c'.obtained = [] ↔ c.obtained = [] ∧ l ≠ .receives pid := by
  cases h with
  | opens hl _ _ hobtained => rw [hobtained, and_iff_left (hl pid)]
  | sends => exact (and_iff_left fun h => SystemLabel.noConfusion h).symm
  | receives =>
    refine iff_of_false (fun h => ?_) fun h => h.2 rfl
    exact List.append_ne_nil_of_right_ne_nil _ (List.cons_ne_nil _ _) h

/-- A client that is not open yet has sent and obtained what it had. -/
theorem idle (h : c.Proceeds pid F l c' F') (hphase : c'.phase ≠ .ready) :
    c.phase ≠ .ready ∧ c'.sent = c.sent ∧ c'.obtained = c.obtained := by
  cases h with
  | opens _ hphase hsent hobtained => exact ⟨hphase, hsent, hobtained⟩
  | sends m hready => exact absurd hready hphase
  | receives hready => exact absurd hready hphase

/-- Whatever a client sends is put into the FIFO of the server, with its pid. -/
theorem sent (h : c.Proceeds pid F l c' F') :
    c'.sent = c.sent ∧ F'.queue 0 = F.queue 0 ∨
    ∃ p : Parcel, c.phase = .ready ∧ p.msg.smi_client.pid = pid ∧ p.owner = c.fifo ∧
      c'.sent = c.sent ++ [p.msg] ∧ F'.queue 0 = F.queue 0 ++ [p] := by
  cases h with
  | opens _ _ hsent _ _ hqueue => exact Or.inl ⟨hsent, congrFun hqueue 0⟩
  | sends m hready =>
    refine Or.inr ⟨⟨m.msg.setPid pid, c.fifo⟩, hready, m.msg.pid_setPid pid, rfl, rfl, ?_⟩
    rw [F.queue_push, if_pos rfl]
  | receives => exact Or.inl ⟨rfl, rfl⟩

theorem ne_receives (h : c.Proceeds pid F l c' F') {pid' : Pid} (hpid : pid' ≠ pid) :
    l ≠ .receives pid' := by
  cases h with
  | opens hl => exact hl pid'
  | sends => exact fun h => SystemLabel.noConfusion h
  | receives => exact fun h => hpid (SystemLabel.receives.inj h).symm

end Proceeds

end ClientProcess

namespace System

variable {s s' : System} {pid : Pid} {cs : Finset Pid} {l : SystemLabel}

/-- What holds as long as no client closes or ends: the server is alive and does not wait; what it
has to read, handles, and has opened belongs to open clients; the answers to a client are in its
FIFO; and the traffic has the answer to each message that a client has sent, in order. -/
structure Session (cs : Finset Pid) (s : System) : Prop where
  valid : s.Valid
  alive : s.alive
  pending : s.pending = none
  member : ∀ pid, (s.clients pid).phase ≠ .absent → pid ∈ cs
  idle : ∀ pid, (s.clients pid).phase ≠ .ready →
    (s.clients pid).sent = [] ∧ (s.clients pid).obtained = []
  empty : ∀ n, s.fifos.next ≤ n → s.fifos.queue n = []
  requests : ∀ p ∈ s.fifos.queue 0, s.IsOpen p.msg.smi_client.pid p.owner
  handled : ∀ i, s.Handles i → s.IsOpen s.bufferPid s.handling
  served : ∀ e ∈ s.served, s.IsOpen e.1 e.2
  delivered : ∀ pid, (s.clients pid).phase.hasFifo →
    s.repliesTo pid = (s.fifos.queue (s.clients pid).fifo).map Parcel.msg
  noReply : ∀ pid, (s.clients pid).phase.hasFifo = false → s.repliesTo pid = []
  inOrder : ∀ pid, (s.clients pid).sent.map SmiMsg.upper = dataFor pid s.traffic

/-- The parts of the system that a step of a client leaves as they are. -/
theorem ClientStep.same (h : ClientStep pid s s') : s'.main = s.main ∧
    s'.handling = s.handling ∧ s'.served = s.served ∧ s'.replies = s.replies := by
  rw [h.eq]
  exact ⟨rfl, rfl, rfl, rfl⟩

/-- A client that has not made its FIFO and then has, has the newest one. -/
theorem ClientStep.fifo_eq_next (h : ClientStep pid s s') (hfifo : (s'.clients pid).phase.hasFifo)
    (hnone : (s.clients pid).phase.hasFifo = false) : (s'.clients pid).fifo = s.fifos.next := by
  refine h.goes.fifo.resolve_left fun heq => ?_
  exact Bool.false_ne_true (hnone.symm.trans (h.goes.owned hfifo heq))

namespace Session

/-- **A step is one of the server, or a client proceeds.** -/
theorem step_cases (h : s.Session cs) (hl : l.InSession cs) (hstep : s.Step l s') :
    l = .serves ∧ s.serves = some s' ∨ ∃ pid ∈ cs, ClientStep pid s s' ∧
      (s.clients pid).Proceeds pid s.fifos l (s'.clients pid) s'.fifos := by
  have hclient {pid : Pid} (hpid : l.pid = some pid) : ClientStep pid s s' := by
    rcases h.valid.wf.step_cases hstep with ⟨rfl, -⟩ | ⟨pid', hpid', hclient⟩
    · exact absurd hpid.symm (Option.some_ne_none pid)
    · obtain rfl := Option.some.inj (hpid.symm.trans hpid')
      exact hclient
  have hmember {pid : Pid} {phase : ClientPhase} (hphase : (s.clients pid).phase = phase)
      (hne : phase ≠ .absent) : pid ∈ cs := h.member pid (hphase ▸ hne)
  cases l with
  | serves => exact Or.inl ⟨rfl, hstep⟩
  | starts pid =>
    have hr := (eq_of_client hstep).1
    split_ifs at hr with hphase
    obtain ⟨hc, hF⟩ := Prod.mk.inj (Option.some.inj hr)
    obtain ⟨hsent, hobtained⟩ := h.idle pid (hphase ▸ fun h => ClientPhase.noConfusion h)
    refine Or.inr ⟨pid, hl, hclient rfl, ?_⟩
    rw [← hc, ← hF]
    exact .opens (fun _ h => SystemLabel.noConfusion h)
      (hphase ▸ fun h => ClientPhase.noConfusion h) hsent.symm hobtained.symm
      (hphase ▸ fun h => Bool.noConfusion h) rfl
  | opens pid =>
    have hr := (eq_of_client hstep).1
    have hopens := (h.valid.wf.clients pid).opens_cases h.valid.wf.name hr
    refine Or.inr ⟨pid, h.member pid fun hphase => ?_, hclient rfl, hopens.proceeds⟩
    rw [ClientProcess.opens, hphase] at hr
    exact Option.some_ne_none _ hr.symm
  | sends pid m =>
    obtain ⟨hphase, ⟨hreaders, -⟩ | ⟨-, hr⟩⟩ :=
      (h.valid.wf.clients pid).sends_cases (eq_of_client hstep).1
    · exact absurd hreaders (h.valid.wf.alive h.alive).ne'
    · obtain ⟨hc, hF⟩ := Prod.mk.inj hr
      refine Or.inr ⟨pid, hmember hphase fun h => ClientPhase.noConfusion h, hclient rfl, ?_⟩
      rw [hc, hF]
      exact .sends m hphase
  | receives pid =>
    obtain ⟨hphase, hr⟩ := (h.valid.wf.clients pid).receives_eq (eq_of_client hstep).1
    obtain ⟨hc, hF⟩ := Prod.mk.inj hr
    refine Or.inr ⟨pid, hmember hphase fun h => ClientPhase.noConfusion h, hclient rfl, ?_⟩
    rw [hc, hF]
    exact .receives hphase
  | closes => exact hl.elim
  | exits => exact hl.elim

/-- Open clients stay open. -/
theorem isOpen_clientStep (hclient : ClientStep pid s s')
    (hproceeds : (s.clients pid).Proceeds pid s.fifos l (s'.clients pid) s'.fifos)
    {pid' : Pid} {n : ℕ} (hopen : s.IsOpen pid' n) : s'.IsOpen pid' n := by
  by_cases hpid : pid' = pid
  · subst hpid
    obtain ⟨hphase, hfifo⟩ := hproceeds.ready hopen.1
    exact ⟨hphase, hfifo.trans hopen.2⟩
  · rw [IsOpen, hclient.of_ne hpid]
    exact hopen

/-- The answers to the client whose step it is. -/
theorem delivered_clientStep (h : s.Session cs) (hclient : ClientStep pid s s')
    (hproceeds : (s.clients pid).Proceeds pid s.fifos l (s'.clients pid) s'.fifos)
    (hfifo : (s'.clients pid).phase.hasFifo) :
    s.repliesTo pid = (s'.fifos.queue (s'.clients pid).fifo).map Parcel.msg := by
  have hpos : (s'.clients pid).fifo ≠ 0 := (hclient.goes.ok.made hfifo).2
  rw [hproceeds.queue hpos]
  cases hold : (s.clients pid).phase.hasFifo with
  | true => rw [(hproceeds.fifo hold).2, h.delivered pid hold]
  | false =>
    rw [hclient.fifo_eq_next hfifo hold, h.empty _ le_rfl, h.noReply pid hold, List.map_nil]

/-- A message that is sent has its answer behind the others that are to come. -/
theorem inOrder_clientStep (h : s.Session cs) (hclient : ClientStep pid s s')
    (hproceeds : (s.clients pid).Proceeds pid s.fifos l (s'.clients pid) s'.fifos) (pid' : Pid) :
    (s'.clients pid').sent.map SmiMsg.upper = dataFor pid' s'.traffic := by
  obtain ⟨hmain, -, -, hreplies⟩ := hclient.same
  have hinHand : s'.inHand = s.inHand := by rw [inHand, hmain, inHand]
  rcases hproceeds.sent with ⟨hsent, hqueue⟩ | ⟨q, -, hq, -, hsent, hqueue⟩
  · have htraffic : s'.traffic = s.traffic := by
      rw [traffic, toCome, hreplies, hinHand, hqueue, traffic, toCome]
    rw [htraffic, ← h.inOrder pid']
    by_cases hne : pid' = pid
    · rw [hne, hsent]
    · rw [hclient.of_ne hne]
  · have htraffic : s'.traffic = s.traffic ++ [(pid, q.msg.upper)] := by
      rw [traffic, toCome, hreplies, hinHand, hqueue, List.map_append, List.map_singleton, traffic,
        toCome, ← List.append_assoc, ← List.append_assoc, ← List.append_assoc, SmiMsg.due, hq]
    rw [htraffic, dataFor_append, dataFor_singleton, ← h.inOrder pid']
    by_cases hne : pid' = pid
    · rw [if_pos hne.symm, hne, hsent, List.map_append, List.map_singleton]
    · rw [if_neg fun heq => hne heq.symm, hclient.of_ne hne, List.append_nil]

/-- **A client proceeds.** -/
theorem clientStep (h : s.Session cs) (hpid : pid ∈ cs) (hclient : ClientStep pid s s')
    (hproceeds : (s.clients pid).Proceeds pid s.fifos l (s'.clients pid) s'.fifos) :
    s'.Session cs := by
  obtain ⟨hmain, hhandling, hserved, hreplies⟩ := hclient.same
  have hopen {pid' : Pid} {n : ℕ} (hopen : s.IsOpen pid' n) : s'.IsOpen pid' n :=
    isOpen_clientStep hclient hproceeds hopen
  have hrepliesTo (pid' : Pid) : s'.repliesTo pid' = s.repliesTo pid' := by
    rw [repliesTo, hreplies, repliesTo]
  exact {
    valid := h.valid.clientStep hclient
    alive := hclient.server.1.trans h.alive
    pending := hclient.server.2.trans h.pending
    member := fun pid' hphase => by
      by_cases hne : pid' = pid
      · exact hne ▸ hpid
      · rw [hclient.of_ne hne] at hphase
        exact h.member pid' hphase
    idle := fun pid' hphase => by
      by_cases hne : pid' = pid
      · subst hne
        obtain ⟨hphase, hsent, hobtained⟩ := hproceeds.idle hphase
        rw [hsent, hobtained]
        exact h.idle pid' hphase
      · rw [hclient.of_ne hne] at hphase ⊢
        exact h.idle pid' hphase
    empty := fun n hn => by
      have hle := hclient.goes.next.trans hn
      rw [hproceeds.queue (Nat.zero_lt_of_lt ((h.valid.wf.clients pid).next.trans_le hle)).ne']
      exact h.empty n hle
    requests := fun p hp => by
      rcases hproceeds.sent with ⟨-, hqueue⟩ | ⟨q, hready, hq, howner, -, hqueue⟩
      · exact hopen (h.requests p (hqueue ▸ hp))
      · rw [hqueue] at hp
        rcases List.mem_append.mp hp with hp | hp
        · exact hopen (h.requests p hp)
        · obtain rfl := List.mem_singleton.mp hp
          exact hopen ⟨hq ▸ hready, hq ▸ howner.symm⟩
    handled := fun i hi => by
      have hi' : s.Handles i := by rwa [Handles, hmain] at hi
      have hbuffer : s'.bufferPid = s.bufferPid := by rw [bufferPid, hmain, bufferPid]
      rw [hbuffer, hhandling]
      exact hopen (h.handled i hi')
    served := fun e he => hopen (h.served e (hserved ▸ he))
    delivered := fun pid' hfifo => by
      rw [hrepliesTo]
      by_cases hne : pid' = pid
      · subst hne
        exact delivered_clientStep h hclient hproceeds hfifo
      · rw [hclient.of_ne hne] at hfifo ⊢
        rw [hproceeds.queue ((h.valid.wf.clients pid').made hfifo).2]
        exact h.delivered pid' hfifo
    noReply := fun pid' hfifo => by
      rw [hrepliesTo]
      refine h.noReply pid' (Bool.eq_false_iff.mpr fun hfifo' => ?_)
      by_cases hne : pid' = pid
      · subst hne
        exact Bool.false_ne_true (hfifo.symm.trans (hproceeds.fifo hfifo').1)
      · rw [hclient.of_ne hne] at hfifo
        exact Bool.false_ne_true (hfifo.symm.trans hfifo')
    inOrder := h.inOrder_clientStep hclient hproceeds }

/-! ### The steps of the server -/

/-- **There is an entry for each client**, since at most `MAX_CLIENTS` take part. -/
theorem exists_find (h : s.Session cs) (hcard : cs.card ≤ MAX_CLIENTS) (hpid : pid ∈ cs) :
    ∃ i, (clientsFind s.main.server.sq_clients pid).1 = some i := by
  rw [h.valid.entries.find_isSome_iff h.valid.wf.main.sound.indexed, or_iff_not_imp_left]
  intro hnone
  have hsubset : (s.served.map Prod.fst).toFinset ⊆ cs.erase pid := by
    intro pid' hpid'
    obtain ⟨e, he, rfl⟩ := List.mem_map.mp (List.mem_toFinset.mp hpid')
    refine Finset.mem_erase.mpr ⟨fun heq => hnone ⟨e.2, heq ▸ he⟩, h.member e.1 ?_⟩
    rw [(h.served e he).1]
    exact fun h => ClientPhase.noConfusion h
  have hle := Finset.card_le_card hsubset
  rw [List.toFinset_card_of_nodup h.valid.entries.nodup, List.length_map] at hle
  exact (hle.trans_lt (Finset.card_erase_lt_of_mem hpid)).trans_le hcard

/-- A step of the server in which it does not reply. -/
theorem of_server (h : s.Session cs) (hvalid : s'.Valid) (halive : s'.alive = s.alive)
    (hpending : s'.pending = none) (hclients : s'.clients = s.clients)
    (hreplies : s'.replies = s.replies)
    (hnext : s'.fifos.next = s.fifos.next)
    (hqueue : ∀ n, n ≠ 0 → s'.fifos.queue n = s.fifos.queue n)
    (hrequests : ∀ p ∈ s'.fifos.queue 0, p ∈ s.fifos.queue 0)
    (hhandled : ∀ i, s'.Handles i → s.IsOpen s'.bufferPid s'.handling)
    (hserved : ∀ e ∈ s'.served, s.IsOpen e.1 e.2) (htraffic : s'.traffic = s.traffic) :
    s'.Session cs := by
  have hopen {pid : Pid} {n : ℕ} (hopen : s.IsOpen pid n) : s'.IsOpen pid n := by
    rwa [IsOpen, hclients]
  have hrepliesTo (pid : Pid) : s'.repliesTo pid = s.repliesTo pid := by
    rw [repliesTo, hreplies, repliesTo]
  exact {
    valid := hvalid
    alive := halive.trans h.alive
    pending := hpending
    member := hclients ▸ h.member
    idle := hclients ▸ h.idle
    empty := fun n hn => by
      rw [hnext] at hn
      have hpos : n ≠ 0 := (Nat.zero_lt_of_lt ((h.valid.wf.clients 0).next.trans_le hn)).ne'
      rw [hqueue n hpos]
      exact h.empty n hn
    requests := fun p hp => hopen (h.requests p (hrequests p hp))
    handled := fun i hi => hopen (hhandled i hi)
    served := fun e he => hopen (hserved e he)
    delivered := fun pid hfifo => by
      rw [hclients] at hfifo ⊢
      rw [hrepliesTo, hqueue _ ((h.valid.wf.clients pid).made hfifo).2]
      exact h.delivered pid hfifo
    noReply := fun pid hfifo => by
      rw [hclients] at hfifo
      exact (hrepliesTo pid).trans (h.noReply pid hfifo)
    inOrder := fun pid => by
      rw [hclients, htraffic]
      exact h.inOrder pid }

/-- A message goes from the FIFO of the server into its buffer. -/
theorem traffic_of_received {p : Parcel} {ps : List Parcel} {i : Fin MAX_CLIENTS}
    (hphase : s.main.phase = .receiving) (hqueue : s.fifos.queue 0 = p :: ps)
    (hreplies : s'.replies = s.replies) (hphase' : s'.main.phase = .received i)
    (hmsg : s'.main.server.sq_msg = p.msg) (hqueue' : s'.fifos.queue 0 = ps) :
    s'.traffic = s.traffic := by
  rw [traffic, toCome, inHand, hphase', hqueue', hmsg, hreplies, traffic, toCome, inHand, hphase,
    hqueue]
  rfl

/-- A message is received. -/
theorem receive (h : s.Session cs) (hcard : cs.card ≤ MAX_CLIENTS)
    (hphase : s.main.phase = .receiving) {p : Parcel} {ps : List Parcel}
    (hqueue : s.fifos.queue 0 = p :: ps) (hreceives : s.Receives p (s.fifos.pop 0) s') :
    s'.Session cs := by
  have hvalid := h.valid.receive h.alive h.pending hqueue hreceives
  have hopen : s.IsOpen p.msg.smi_client.pid p.owner :=
    h.requests p (by rw [hqueue]; exact List.mem_cons_self)
  have hpop : (s.fifos.pop 0).queue 0 = ps := by
    rw [s.fifos.queue_pop, if_pos rfl, hqueue, List.tail_cons]
  have hother (n : ℕ) (hn : n ≠ 0) : (s.fifos.pop 0).queue n = s.fifos.queue n := by
    rw [s.fifos.queue_pop, if_neg hn]
  cases hreceives with
  | passedOver hfind =>
    have hmember : p.msg.smi_client.pid ∈ cs :=
      h.member _ (by rw [hopen.1]; exact fun h => ClientPhase.noConfusion h)
    obtain ⟨i, hi⟩ := h.exists_find hcard hmember
    exact absurd (hi.symm.trans hfind) (Option.some_ne_none i)
  | @found i hfind hfd =>
    exact h.of_server hvalid rfl h.pending rfl rfl rfl hother (fun _ => mem_of_mem_pop)
      (fun _ _ => hopen) h.served (traffic_of_received hphase hqueue rfl rfl rfl hpop)
  | @opened i n hfind hfd hdir =>
    have hmsg : ((s.main.server.searched p.msg).openClient true p.msg.smi_client.pid i).sq_msg =
        p.msg := sq_msg_openClient _ _ i
    refine h.of_server hvalid rfl h.pending rfl rfl rfl (fun m hm => ?_) (fun q hq => ?_)
      (fun _ _ => ?_) (fun e he => ?_) (traffic_of_received hphase hqueue rfl rfl hmsg ?_)
    · exact (Fifos.queue_attach _ _ m).trans (hother m hm)
    · rw [Fifos.queue_attach] at hq
      exact mem_of_mem_pop hq
    · rw [bufferPid]
      dsimp only
      rw [hmsg]
      exact hopen
    · rcases List.mem_append.mp he with he | he
      · exact h.served e he
      · -- The name stands for the FIFO of the open client.
        obtain rfl := List.mem_singleton.mp he
        exact ⟨hopen.1, ((h.valid.wf.clients _).named n hdir).1.symm⟩
    · exact (Fifos.queue_attach _ _ 0).trans hpop
  | @waits i n _ _ hdir hreaders =>
    -- The client reads its FIFO.
    have hfifo : (s.clients p.msg.smi_client.pid).fifo = n :=
      ((h.valid.wf.clients _).named n hdir).1.symm
    rw [s.fifos.readers_pop] at hreaders
    exact absurd hreaders (h.valid.wf.readers_pos ⟨hopen.1, hfifo⟩)

/-- The answer is made. -/
theorem answer (h : s.Session cs) {i : Fin MAX_CLIENTS} {m : SmiMsg}
    (hphase : s.main.phase = .received i) (hm : s.main.server.sq_msg.toUpper = some m) :
    Session cs { s with main := ⟨{ s.main.server.sendGetaddr s.main.server.sq_msg.smi_client with
      sq_msg := m }, .answered i⟩ } := by
  have hreply : m.reply = s.main.server.sq_msg.due := by
    rw [SmiMsg.reply, SmiMsg.smi_client_toUpper hm, SmiMsg.smi_data_toUpper hm]
    rfl
  refine h.of_server (h.valid.answer h.pending hphase hm) rfl h.pending rfl rfl rfl (fun _ _ => rfl)
    (fun _ hp => hp) (fun _ _ => ?_) h.served ?_
  · have hpid : m.smi_client.pid = s.bufferPid := by
      rw [bufferPid, SmiMsg.smi_client_toUpper hm]
    rw [bufferPid]
    dsimp only
    rw [hpid]
    exact h.handled i (Or.inl hphase)
  · simp only [traffic, toCome, inHand, hphase, hreply]

/-- The answer is behind the others in the FIFO of the client. -/
theorem exists_release (h : s.Session cs) {i : Fin MAX_CLIENTS} (hserver : s.ServerStep s')
    (hphase : s.main.phase = .answered i) : ∃ n server', n ≠ 0 ∧ s.IsOpen s.bufferPid n ∧
      s' = { s with
        main := ⟨server', .receiving⟩
        fifos := s.fifos.push n s.answer
        replies := s.replies ++ [⟨s.answer, some n, .written⟩] } := by
  obtain ⟨n, -, hserved, server', rfl⟩ :=
    h.valid.exists_release hserver hphase (h.handled i (Or.inr hphase))
  have hopen : s.IsOpen s.bufferPid n := h.served _ hserved
  refine ⟨n, server', (h.valid.latest _ hserved).2, hopen, ?_⟩
  rcases s.release_cases ⟨server', .receiving⟩ (some n) with
    ⟨hnone, -⟩ | ⟨m, hm, ⟨hreaders, -⟩ | ⟨-, heq⟩⟩
  · exact absurd hnone (Option.some_ne_none n)
  · obtain rfl := Option.some.inj hm
    exact absurd hreaders (h.valid.wf.readers_pos hopen)
  · obtain rfl := Option.some.inj hm
    exact heq

/-- **The answer is sent** to the FIFO of the client. -/
theorem release (h : s.Session cs) {i : Fin MAX_CLIENTS} (hserver : s.ServerStep s')
    (hphase : s.main.phase = .answered i) (hvalid : s'.Valid) : s'.Session cs := by
  obtain ⟨n, server', hpos, hopen, heq⟩ := h.exists_release hserver hphase
  have hclients : s'.clients = s.clients := by rw [heq]
  have hreplies : s'.replies = s.replies ++ [⟨s.answer, some n, .written⟩] := by rw [heq]
  have hreceiving : s'.main.phase = .receiving := by rw [heq]
  have hrepliesTo (pid : Pid) : s'.repliesTo pid =
      s.repliesTo pid ++ if s.bufferPid = pid then [s.answer.msg] else [] :=
    repliesTo_append hreplies pid
  have hqueue (m : ℕ) : s'.fifos.queue m = s.fifos.queue m ++ if m = n then [s.answer] else [] := by
    rw [heq, s.fifos.queue_push]
  have hqueue_zero : s'.fifos.queue 0 = s.fifos.queue 0 := by
    rw [hqueue, if_neg hpos.symm, List.append_nil]
  have hopen' {pid : Pid} {m : ℕ} (hopen : s.IsOpen pid m) : s'.IsOpen pid m := by
    rwa [IsOpen, hclients]
  exact {
    valid := hvalid
    alive := by
      rw [heq]
      exact h.alive
    pending := by
      rw [heq]
      exact h.pending
    member := hclients ▸ h.member
    idle := hclients ▸ h.idle
    empty := fun m hm => by
      have hm' : s.fifos.next ≤ m := by rwa [heq] at hm
      have hmn : m ≠ n := by
        rw [← hopen.2]
        exact ((h.valid.wf.clients _).next.trans_le hm').ne'
      rw [hqueue, if_neg hmn, List.append_nil]
      exact h.empty m hm'
    requests := fun p hp => hopen' (h.requests p (hqueue_zero ▸ hp))
    handled := fun j hj => by
      rcases hj with hj | hj
      · exact Phase.noConfusion (hreceiving.symm.trans hj)
      · exact Phase.noConfusion (hreceiving.symm.trans hj)
    served := fun e he => by
      rw [heq] at he
      exact hopen' (h.served e he)
    delivered := fun pid hfifo => by
      rw [hclients] at hfifo ⊢
      rw [hrepliesTo, h.delivered pid hfifo, hqueue]
      by_cases hpid : s.bufferPid = pid
      · subst hpid
        rw [if_pos hopen.2, if_pos rfl, List.map_append, List.map_singleton]
      · have hne : (s.clients pid).fifo ≠ n := fun heq =>
          ((h.valid.wf.clients pid).made hfifo).2 <|
            h.valid.wf.distinct pid s.bufferPid (Ne.symm hpid) (heq.trans hopen.2.symm)
        rw [if_neg hne, if_neg hpid, List.append_nil, List.append_nil]
    noReply := fun pid hfifo => by
      rw [hclients] at hfifo
      have hpid : s.bufferPid ≠ pid := by
        rintro rfl
        rw [hopen.1] at hfifo
        exact Bool.noConfusion hfifo
      rw [hrepliesTo, if_neg hpid, List.append_nil]
      exact h.noReply pid hfifo
    inOrder := fun pid => by
      have htraffic : s'.traffic = s.traffic := by
        rw [traffic, toCome, inHand, hreceiving, hreplies, hqueue_zero, traffic, toCome, inHand,
          hphase, List.map_append, List.append_assoc]
        rfl
      rw [hclients, htraffic]
      exact h.inOrder pid }

/-- **Every step keeps the session.** -/
theorem step (h : s.Session cs) (hcard : cs.card ≤ MAX_CLIENTS) (hl : l.InSession cs)
    (hstep : s.Step l s') : s'.Session cs := by
  rcases h.step_cases hl hstep with ⟨-, hserves⟩ | ⟨pid, hpid, hclient, hproceeds⟩
  · have hvalid := h.valid.step hstep
    have hserver := (serverStep_of_serves h.valid.wf.main hserves).2
    cases hserver with
    | receive _ hphase hqueue hreceives => exact h.receive hcard hphase hqueue hreceives
    | resume hpending => exact absurd (hpending.symm.trans h.pending) (Option.some_ne_none _)
    | answer _ hphase hm => exact h.answer hphase hm
    | release _ hphase hsend => exact h.release (.release h.pending hphase hsend) hphase hvalid
  · exact h.clientStep hpid hclient hproceeds

/-- The running server without clients. -/
theorem start (t : FdTable File) : (System.start t).Session cs := by
  have hqueue (n : ℕ) : (System.start t).fifos.queue n = [] := by
    rw [System.start, Fifos.queue_attach, Fifos.queue_attach, Fifos.queue_mkfifo]
    rfl
  exact {
    valid := valid_start t
    alive := rfl
    pending := rfl
    member := fun _ hphase => absurd rfl hphase
    idle := fun _ _ => ⟨rfl, rfl⟩
    empty := fun n _ => hqueue n
    requests := fun p hp => absurd (hqueue 0 ▸ hp) List.not_mem_nil
    handled := fun i hi => by
      rcases hi with hi | hi
      · exact Phase.noConfusion hi
      · exact Phase.noConfusion hi
    served := fun _ he => absurd he List.not_mem_nil
    delivered := fun _ hfifo => Bool.noConfusion hfifo
    noReply := fun _ _ => rfl
    inOrder := fun pid => by
      rw [traffic, toCome, hqueue 0]
      rfl }

/-- **The session goes on in every run** in which no client closes or ends. -/
theorem run {t : FdTable File} {ls : List SystemLabel} (hcard : cs.card ≤ MAX_CLIENTS)
    (hrun : Run Step (System.start t) ls s) (hls : ∀ l ∈ ls, l.InSession cs) : s.Session cs :=
  hrun.of_forall hls (start t) fun _ _ _ h hl hstep => h.step hcard hl hstep

/-- A client has obtained nothing as long as it has not received. -/
theorem obtained_eq_nil_iff {t : FdTable File} {ls : List SystemLabel}
    (hcard : cs.card ≤ MAX_CLIENTS) (hrun : Run Step (System.start t) ls s)
    (hls : ∀ l ∈ ls, l.InSession cs) :
    (s.clients pid).obtained = [] ↔ SystemLabel.receives pid ∉ ls := by
  induction hrun with
  | refl => exact iff_of_true rfl List.not_mem_nil
  | @tail ls l s s' hrun hstep ih =>
    have hls' : ∀ l ∈ ls, l.InSession cs := fun l hl => hls l (List.mem_append_left _ hl)
    have hl := hls l (List.mem_append_right _ List.mem_cons_self)
    have hsession := run hcard hrun hls'
    have hne : ¬ SystemLabel.receives pid = l ↔ l ≠ .receives pid := ne_comm
    rw [List.mem_append, List.mem_singleton, not_or, ← ih hls', hne]
    rcases hsession.step_cases hl hstep with ⟨rfl, hserves⟩ | ⟨pid', -, hclient, hproceeds⟩
    · rw [(serverStep_of_serves hsession.valid.wf.main hserves).2.clients]
      exact (and_iff_left fun h => SystemLabel.noConfusion h).symm
    · by_cases hpid : pid = pid'
      · subst hpid
        exact hproceeds.obtained
      · rw [hclient.of_ne hpid]
        exact (and_iff_left (hproceeds.ne_receives hpid)).symm

end Session

end System

end UnixStudy.Smi
