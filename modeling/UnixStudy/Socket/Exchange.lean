import UnixStudy.Foundations.Pipes
import UnixStudy.Socket.Basic

/-!
# The messages are exchanged

If all calls succeed, then where the two processes are says all that there is: who has the name, the
connection and the messages. Neither of them waits for ever, and only the client may make steps that
lead nowhere, while it tries to connect. If one of the calls fails, or the name was not free, the
client never gets a connection, and so it never comes to its end.

## Main definitions

* `Env.Good` : all calls succeed.
* `stateAt` : what there is, when the processes are at given places.
* `Compatible` : the places at which they can be at the same time.
* `System.Waits` : the client has no connection.

## Main results

* `compatible_step` : what a step does if all calls succeed.
* `messages_exchanged` : then the messages are exchanged.
* `exits_iff` : when the client comes to its end.

## References

* `src/socket/basic.c`.
-/

namespace UnixStudy.Socket

/-- All calls succeed. -/
structure Env.Good (env : Env) : Prop where
  forked : env.forked = true
  unlinked : env.unlinked = true
  clientSocket : env.clientSocket = true
  serverSocket : env.serverSocket = true
  bound : env.bound = true
  listens : env.listens = true

/-- How many statements the server has behind it. -/
def ServerPc.rank : ServerPc → ℕ
  | .socket => 0 | .bind => 1 | .listen => 2 | .accept => 3 | .read => 4 | .printf => 5
  | .write => 6 | .closeSkt => 7 | .closeClient => 8 | .exited | .killed => 9

/-- How many statements the client has behind it. -/
def ClientPc.rank : ClientPc → ℕ
  | .absent | .socket => 0 | .connect | .sleep => 1 | .write => 2 | .read => 3 | .printf => 4
  | .close => 5 | .exited | .killed => 6

/-- The array of the server, after `read`. -/
def Env.serverRead (env : Env) : List UInt8 := hello ++ env.serverMem.drop 7

/-- The array of the client, after `read`. -/
def Env.clientRead (env : Env) : List UInt8 := goodbye ++ env.clientMem.drop 9

/-- What there is, when the processes are at these places. -/
def stateAt (env : Env) (sv : ServerPc) (cl : ClientPc) : System where
  server := sv
  client := cl
  isBound := decide (1 < sv.rank)
  isListening := decide (2 < sv.rank ∧ sv.rank ≤ 7)
  connected := decide (1 < cl.rank)
  accepted := decide (3 < sv.rank)
  serverEnd := decide (1 < cl.rank ∧ sv.rank ≤ 8)
  clientEnd := decide (1 < cl.rank ∧ cl.rank ≤ 5)
  toServer := if 2 < cl.rank ∧ sv.rank ≤ 4 then hello else []
  toClient := if 6 < sv.rank ∧ cl.rank ≤ 3 then goodbye else []
  serverMem := if 4 < sv.rank then env.serverRead else env.serverMem
  clientMem := if 3 < cl.rank then env.clientRead else env.clientMem
  serverOut := if 5 < sv.rank then some (.ofMemory env.serverRead) else none
  clientOut := if 4 < cl.rank then some (.ofMemory env.clientRead) else none

/-- The processes can be at these places at the same time. -/
structure Compatible (sv : ServerPc) (cl : ClientPc) : Prop where
  server : sv ≠ .killed
  client : cl ≠ .absent ∧ cl ≠ .killed
  listens : 1 < cl.rank → 2 < sv.rank
  connected : 3 < sv.rank → 1 < cl.rank
  written : 4 < sv.rank → 2 < cl.rank
  answered : 3 < cl.rank → 6 < sv.rank

variable {env : Env} {s s' : System} {sv : ServerPc} {cl : ClientPc} {l : Label}

/-- The server comes to its next statement. -/
theorem Compatible.serverNext {sv' : ServerPc} (h : Compatible sv cl)
    (hrank : sv'.rank = sv.rank + 1) (hkilled : sv' ≠ .killed)
    (hconnected : 3 < sv'.rank → 1 < cl.rank) (hwritten : 4 < sv'.rank → 2 < cl.rank) :
    Compatible sv' cl where
  server := hkilled
  client := h.client
  listens hc := (h.listens hc).trans (by omega)
  connected := hconnected
  written := hwritten
  answered hc := (h.answered hc).trans (by omega)

/-- The client comes to its next statement. -/
theorem Compatible.clientNext {cl' : ClientPc} (h : Compatible sv cl)
    (hrank : cl.rank ≤ cl'.rank) (hclient : cl' ≠ .absent ∧ cl' ≠ .killed)
    (hlistens : 1 < cl'.rank → 2 < sv.rank) (hanswered : 3 < cl'.rank → 6 < sv.rank) :
    Compatible sv cl' where
  server := h.server
  client := hclient
  listens := hlistens
  connected hsv := (h.connected hsv).trans_le hrank
  written hsv := (h.written hsv).trans_le hrank
  answered := hanswered

/-- What a step of the server does. -/
theorem serverStep_stateAt (hgood : env.Good) (h : Compatible sv cl)
    (hs : serverStep env (stateAt env sv cl) = some s') :
    ∃ sv', sv'.rank = sv.rank + 1 ∧ Compatible sv' cl ∧ s' = stateAt env sv' cl := by
  obtain ⟨-, hunlinked, -, hsocket, hbound, hlistens⟩ := hgood
  cases sv with
  | socket =>
    obtain rfl := Option.some.inj hs
    refine ⟨.bind, rfl, h.serverNext rfl ServerPc.noConfusion (by simp [ServerPc.rank])
      (by simp [ServerPc.rank]), ?_⟩
    simp [stateAt, ServerPc.rank]
  | bind =>
    obtain rfl := Option.some.inj hs
    refine ⟨.listen, rfl, h.serverNext rfl ServerPc.noConfusion (by simp [ServerPc.rank])
      (by simp [ServerPc.rank]), ?_⟩
    simp [stateAt, ServerPc.rank, hunlinked, hsocket, hbound]
  | listen =>
    obtain rfl := Option.some.inj hs
    refine ⟨.accept, rfl, h.serverNext rfl ServerPc.noConfusion (by simp [ServerPc.rank])
      (by simp [ServerPc.rank]), ?_⟩
    simp [stateAt, ServerPc.rank, hlistens]
  | accept =>
    by_cases hconnected : 1 < cl.rank
    · simp only [serverStep, stateAt, ServerPc.rank, hconnected, decide_true] at hs
      obtain rfl := Option.some.inj hs
      refine ⟨.read, rfl, h.serverNext rfl ServerPc.noConfusion (fun _ => hconnected)
        (by simp [ServerPc.rank]), ?_⟩
      simp [stateAt, ServerPc.rank, hconnected]
    · simp [serverStep, stateAt, ServerPc.rank, hconnected] at hs
  | read =>
    by_cases hwritten : 2 < cl.rank
    · simp only [serverStep, stateAt, ServerPc.rank, hwritten] at hs
      obtain rfl := Option.some.inj hs
      refine ⟨.printf, rfl, h.serverNext rfl ServerPc.noConfusion (fun _ => h.connected (by decide))
        (fun _ => hwritten), ?_⟩
      simp [stateAt, ServerPc.rank, Env.serverRead]
      exact ⟨by decide, rfl⟩
    · have hclient : cl = .write := by
        have := h.connected (by decide)
        cases cl <;> simp_all [ClientPc.rank]
      subst hclient
      exact absurd hs.symm (Option.some_ne_none s')
  | printf =>
    obtain rfl := Option.some.inj hs
    refine ⟨.write, rfl, h.serverNext rfl ServerPc.noConfusion (fun _ => h.connected (by decide))
      (fun _ => h.written (by decide)), ?_⟩
    simp [stateAt, ServerPc.rank]
  | write =>
    have hread : cl = .read := by
      have hwritten := h.written (by decide)
      have hanswered := mt h.answered (by decide)
      cases cl <;> simp_all [ClientPc.rank]
    subst hread
    obtain rfl := Option.some.inj hs
    exact ⟨.closeSkt, rfl, h.serverNext rfl ServerPc.noConfusion (by decide) (by decide), rfl⟩
  | closeSkt =>
    obtain rfl := Option.some.inj hs
    refine ⟨.closeClient, rfl, h.serverNext rfl ServerPc.noConfusion
      (fun _ => h.connected (by decide)) (fun _ => h.written (by decide)), ?_⟩
    simp [stateAt, ServerPc.rank]
  | closeClient =>
    obtain rfl := Option.some.inj hs
    refine ⟨.exited, rfl, h.serverNext rfl ServerPc.noConfusion
      (fun _ => h.connected (by decide)) (fun _ => h.written (by decide)), ?_⟩
    simp [stateAt, ServerPc.rank]
  | exited => exact absurd hs.symm (Option.some_ne_none s')
  | killed => exact absurd rfl h.server

/-- The client can connect when the server has come to `accept`. -/
theorem isListening_of_not_connected (h : Compatible sv cl) (hcl : cl.rank ≤ 1)
    (hlistening : (stateAt env sv cl).isListening = true) : sv = .accept := by
  have hsv := mt h.connected (Nat.not_lt.mpr hcl)
  simp only [stateAt, decide_eq_true_eq] at hlistening
  cases sv <;> simp_all [ServerPc.rank]

/-- What a step of the client does. -/
theorem clientStep_stateAt (hgood : env.Good) (h : Compatible sv cl)
    (hs : clientStep env (stateAt env sv cl) = some s') :
    ∃ cl', cl'.rank = cl.rank + 1 ∧ cl' ≠ .sleep ∧ Compatible sv cl' ∧ s' = stateAt env sv cl' := by
  have hclient := h.client
  cases cl with
  | socket =>
    obtain rfl := Option.some.inj hs
    refine ⟨.connect, rfl, ClientPc.noConfusion, h.clientNext (by decide) (by decide)
      (by simp [ClientPc.rank]) (by simp [ClientPc.rank]), ?_⟩
    simp [stateAt, ClientPc.rank]
  | connect =>
    have hlistening : (stateAt env sv .connect).isListening = true := by
      by_contra hnot
      exact Option.some_ne_none s' (hs.symm.trans (if_neg (by simp [hnot])))
    obtain rfl := isListening_of_not_connected h (by decide) hlistening
    obtain rfl := Option.some.inj (hs.symm.trans (if_pos (by rw [hgood.clientSocket]; rfl)))
    exact ⟨.write, rfl, ClientPc.noConfusion, h.clientNext (by decide) (by decide) (by decide)
      (by decide), rfl⟩
  | write =>
    have hsv : sv = .accept ∨ sv = .read := by
      have hlistens := h.listens (by decide)
      have hwritten := mt h.written (by decide)
      cases sv <;> simp_all [ServerPc.rank]
    refine ⟨.read, rfl, ClientPc.noConfusion, h.clientNext (by decide) (by decide)
      (fun _ => h.listens (by decide)) (by simp [ClientPc.rank]), ?_⟩
    rcases hsv with rfl | rfl <;>
      · obtain rfl := Option.some.inj hs
        rfl
  | read =>
    by_cases hanswered : 6 < sv.rank
    · refine ⟨.printf, rfl, ClientPc.noConfusion, h.clientNext (by decide) (by decide)
        (fun _ => h.listens (by decide)) (fun _ => hanswered), ?_⟩
      cases sv with
      | closeSkt | closeClient | exited =>
        obtain rfl := Option.some.inj hs
        rfl
      | killed => exact absurd rfl h.server
      | _ => exact absurd hanswered (by decide)
    · cases sv with
      | closeSkt | closeClient | exited | killed => exact absurd (by decide) hanswered
      | _ => exact absurd hs.symm (Option.some_ne_none s')
  | printf =>
    obtain rfl := Option.some.inj hs
    refine ⟨.close, rfl, ClientPc.noConfusion, h.clientNext (by decide) (by decide)
      (fun _ => h.listens (by decide)) (fun _ => h.answered (by decide)), ?_⟩
    simp [stateAt, ClientPc.rank]
  | close =>
    obtain rfl := Option.some.inj hs
    refine ⟨.exited, rfl, ClientPc.noConfusion, h.clientNext (by decide) (by decide)
      (fun _ => h.listens (by decide)) (fun _ => h.answered (by decide)), ?_⟩
    simp [stateAt, ClientPc.rank]
  | absent => exact absurd rfl hclient.1
  | killed => exact absurd rfl hclient.2
  | sleep | exited => exact absurd hs.symm (Option.some_ne_none s')

/-- What the client does in vain. -/
theorem againStep_eq_some (hs : againStep env s = some s') :
    (s.client = .connect ∨ s.client = .sleep) ∧
      ∃ c, (c = .connect ∨ c = .sleep) ∧ s' = { s with client := c } := by
  cases hc : s.client with
  | connect =>
    simp only [againStep, hc] at hs
    refine ⟨Or.inl rfl, ?_⟩
    split_ifs at hs
    · exact ⟨.sleep, Or.inr rfl, (Option.some.inj hs).symm⟩
    · exact ⟨.connect, Or.inl rfl, by rw [← Option.some.inj hs, ← hc]⟩
  | sleep =>
    simp only [againStep, hc] at hs
    exact ⟨Or.inr rfl, .connect, Or.inl rfl, (Option.some.inj hs).symm⟩
  | _ => simp [againStep, hc] at hs

theorem againStep_stateAt (h : Compatible sv cl)
    (hs : againStep env (stateAt env sv cl) = some s') :
    ∃ cl', cl'.rank = cl.rank ∧ Compatible sv cl' ∧ s' = stateAt env sv cl' := by
  obtain ⟨hcl, cl', hcl', rfl⟩ := againStep_eq_some hs
  have hrank : cl.rank = 1 := by rcases hcl with rfl | rfl <;> rfl
  have hrank' : cl'.rank = 1 := by rcases hcl' with rfl | rfl <;> rfl
  refine ⟨cl', hrank'.trans hrank.symm, h.clientNext (by omega) ?_ (by omega) (by omega), ?_⟩
  · rcases hcl' with rfl | rfl <;> decide
  · simp [stateAt, hrank, hrank']

/-- What is left to be done. -/
def System.measure (s : System) : ℕ := (9 - s.server.rank) + (6 - s.client.rank)

/-- The state is one of those that the places of the processes say. -/
def Env.Reaches (env : Env) (s : System) : Prop :=
  ∃ sv cl, Compatible sv cl ∧ s = stateAt env sv cl

/-- A step of the processes, if all calls succeed. -/
theorem compatible_step (hgood : env.Good) (h : env.Reaches s) (hs : Step env s l s') :
    env.Reaches s' ∧ s'.measure + (decide (l ≠ .again)).toNat ≤ s.measure ∧
      (l ≠ .again → s.client ≠ .sleep → s'.client ≠ .sleep) := by
  obtain ⟨sv, cl, hcompatible, rfl⟩ := h
  cases l with
  | server =>
    obtain ⟨sv', hrank, hcompatible', rfl⟩ := serverStep_stateAt hgood hcompatible hs
    refine ⟨⟨sv', cl, hcompatible', rfl⟩, ?_, fun _ h => h⟩
    have hle : sv'.rank ≤ 9 := by cases sv' <;> decide
    simp only [System.measure, stateAt, ne_eq, reduceCtorEq, not_false_eq_true, decide_true,
      Bool.toNat_true]
    omega
  | client =>
    obtain ⟨cl', hrank, hne, hcompatible', rfl⟩ := clientStep_stateAt hgood hcompatible hs
    refine ⟨⟨sv, cl', hcompatible', rfl⟩, ?_, fun _ _ => hne⟩
    have hle : cl'.rank ≤ 6 := by cases cl' <;> decide
    simp only [System.measure, stateAt, ne_eq, reduceCtorEq, not_false_eq_true, decide_true,
      Bool.toNat_true]
    omega
  | again =>
    obtain ⟨cl', hrank, hcompatible', rfl⟩ := againStep_stateAt hcompatible hs
    refine ⟨⟨sv, cl', hcompatible', rfl⟩, ?_, fun hne => absurd rfl hne⟩
    simp [System.measure, stateAt, hrank]

/-- Before the end one of the processes can go on. -/
theorem exists_step (hgood : env.Good) (h : env.Reaches s) (hsleep : s.client ≠ .sleep)
    (hend : ¬ (s.server = .exited ∧ s.client = .exited)) :
    ∃ l s', l ≠ .again ∧ Step env s l s' := by
  obtain ⟨sv, cl, hcompatible, rfl⟩ := h
  have hserver : (∃ s', serverStep env (stateAt env sv cl) = some s') →
      ∃ l s', l ≠ .again ∧ Step env (stateAt env sv cl) l s' := fun ⟨s', hs⟩ =>
    ⟨.server, s', Label.noConfusion, hs⟩
  have hclient : (∃ s', clientStep env (stateAt env sv cl) = some s') →
      ∃ l s', l ≠ .again ∧ Step env (stateAt env sv cl) l s' := fun ⟨s', hs⟩ =>
    ⟨.client, s', Label.noConfusion, hs⟩
  cases sv with
  | socket | bind | listen | printf | closeSkt | closeClient => exact hserver ⟨_, rfl⟩
  | accept =>
    -- Either there is a connection, or the client can connect.
    cases cl with
    | socket => exact hclient ⟨_, rfl⟩
    | connect => exact hclient ⟨_, if_pos (by rw [hgood.clientSocket]; rfl)⟩
    | write | read | printf | close | exited => exact hserver ⟨_, rfl⟩
    | sleep => exact absurd rfl hsleep
    | absent => exact absurd rfl hcompatible.client.1
    | killed => exact absurd rfl hcompatible.client.2
  | read =>
    cases cl with
    | write => exact hclient ⟨_, rfl⟩
    | read | printf | close | exited => exact hserver ⟨_, rfl⟩
    | absent | socket | connect | sleep =>
      exact absurd (hcompatible.connected (by decide)) (by decide)
    | killed => exact absurd rfl hcompatible.client.2
  | write =>
    cases cl with
    | read => exact hserver ⟨_, rfl⟩
    | absent | socket | connect | sleep | write =>
      exact absurd (hcompatible.written (by decide)) (by decide)
    | printf | close | exited | killed =>
      exact absurd (hcompatible.answered (by decide)) (by decide)
  | exited =>
    cases cl with
    | read | printf | close => exact hclient ⟨_, rfl⟩
    | absent | socket | connect | sleep | write =>
      exact absurd (hcompatible.written (by decide)) (by decide)
    | exited => exact absurd ⟨rfl, rfl⟩ hend
    | killed => exact absurd rfl hcompatible.client.2
  | killed => exact absurd rfl hcompatible.server

/-! ### If a call fails -/

/-- The client has no connection. The socket is listened at only if the calls of the server have
succeeded. -/
structure System.Waits (env : Env) (s : System) : Prop where
  client : s.client = .absent ∨ s.client = .socket ∨ s.client = .connect ∨ s.client = .sleep
  forked : s.client ≠ .absent ↔ env.forked = true
  isBound : s.isBound = true →
    env.serverSocket = true ∧ env.unlinked = true ∧ env.bound = true
  isListening : s.isListening = true → s.isBound = true ∧ env.listens = true

namespace System.Waits

/-- A step of the server. -/
theorem serverStep (h : s.Waits env) (hs : serverStep env s = some s') : s'.Waits env := by
  obtain ⟨hclient, hforked, hbound, hlistening⟩ := h
  cases hsv : s.server with
  | socket | printf | closeClient =>
    simp only [Socket.serverStep, hsv, Option.some.injEq] at hs
    subst hs
    exact ⟨hclient, hforked, hbound, hlistening⟩
  | bind =>
    simp only [Socket.serverStep, hsv, Option.some.injEq] at hs
    subst hs
    refine ⟨hclient, hforked, fun h => ?_, fun h => ?_⟩
    · simpa [and_assoc] using h
    · obtain ⟨hb, hl⟩ := hlistening h
      obtain ⟨hsocket, hunlinked, hbound⟩ := hbound hb
      exact ⟨by simp [hsocket, hunlinked, hbound], hl⟩
  | listen =>
    simp only [Socket.serverStep, hsv, Option.some.injEq] at hs
    subst hs
    exact ⟨hclient, hforked, hbound, fun h => by simpa using h⟩
  | closeSkt =>
    simp only [Socket.serverStep, hsv, Option.some.injEq] at hs
    subst hs
    exact ⟨hclient, hforked, hbound, fun h => absurd h Bool.false_ne_true⟩
  | accept =>
    simp only [Socket.serverStep, hsv] at hs
    split_ifs at hs <;>
      · obtain rfl := Option.some.inj hs
        exact ⟨hclient, hforked, hbound, hlistening⟩
  | read =>
    simp only [Socket.serverStep, hsv] at hs
    split_ifs at hs
    · obtain ⟨_, -, hs⟩ := Option.bind_eq_some_iff.mp hs
      obtain rfl := Option.some.inj hs
      exact ⟨hclient, hforked, hbound, hlistening⟩
    · obtain rfl := Option.some.inj hs
      exact ⟨hclient, hforked, hbound, hlistening⟩
  | write =>
    simp only [Socket.serverStep, hsv] at hs
    split_ifs at hs <;>
      · obtain rfl := Option.some.inj hs
        exact ⟨hclient, hforked, hbound, hlistening⟩
  | exited | killed => simp [Socket.serverStep, hsv] at hs

/-- A step. -/
theorem step (hgood : ¬ env.Good) (h : s.Waits env) (hs : Step env s l s') : s'.Waits env := by
  cases l with
  | server => exact h.serverStep hs
  | client =>
    obtain ⟨hclient, hforked, hbound, hlistening⟩ := h
    rcases hclient with hc | hc | hc | hc
    · simp [Step, Socket.step, clientStep, hc] at hs
    · simp only [Step, Socket.step, clientStep, hc, Option.some.injEq] at hs
      subst hs
      exact ⟨Or.inr (Or.inr (Or.inl rfl)), by simpa [hc] using hforked, hbound, hlistening⟩
    · simp only [Step, Socket.step, clientStep, hc] at hs
      split_ifs at hs with hconnect
      -- A connection needs all the calls.
      obtain ⟨hsocket, hl⟩ := Bool.and_eq_true_iff.mp hconnect
      obtain ⟨hb, hlistens⟩ := hlistening hl
      obtain ⟨hserver, hunlinked, hbound⟩ := hbound hb
      exact absurd ⟨hforked.mp (by simp [hc]), hunlinked, hsocket, hserver, hbound, hlistens⟩ hgood
    · simp [Step, Socket.step, clientStep, hc] at hs
  | again =>
    obtain ⟨hclient, c, hc, rfl⟩ := againStep_eq_some hs
    have hforked : env.forked = true :=
      h.forked.mp (by rcases hclient with hclient | hclient <;> simp [hclient])
    refine ⟨?_, iff_of_true ?_ hforked, h.isBound, h.isListening⟩
    · rcases hc with rfl | rfl <;> simp
    · rcases hc with rfl | rfl <;> simp

theorem start (env : Env) : (System.start env).Waits env := by
  cases hforked : env.forked <;> constructor <;> simp [System.start, hforked]

/-- The client can go on, and does not wait for the server. -/
theorem exists_clientStep (h : s.Waits env) (hforked : env.forked = true) :
    ∃ l s', l ≠ .server ∧ Step env s l s' := by
  rcases h.client with hc | hc | hc | hc
  · exact absurd hc (h.forked.mpr hforked)
  · exact ⟨.client, _, Label.noConfusion, by simp only [Step, Socket.step, clientStep, hc]; rfl⟩
  · by_cases hconnect : (env.clientSocket && s.isListening) = true
    · exact ⟨.client, _, Label.noConfusion, by
        simp only [Step, Socket.step, clientStep, hc]
        exact if_pos hconnect⟩
    · refine ⟨.again, ?_⟩
      simp only [Step, Socket.step, againStep, hc, if_neg hconnect]
      split_ifs
      · exact ⟨_, Label.noConfusion, rfl⟩
      · exact ⟨_, Label.noConfusion, rfl⟩
  · exact ⟨.again, _, Label.noConfusion, by simp only [Step, Socket.step, againStep, hc]; rfl⟩

end System.Waits

/-! ### Main results -/

theorem reaches_start (hgood : env.Good) : env.Reaches (System.start env) :=
  ⟨.socket, .socket, by constructor <;> simp [ServerPc.rank, ClientPc.rank],
    by simp [System.start, stateAt, hgood.forked, ServerPc.rank, ClientPc.rank]⟩

/-- A step that is not in vain. -/
def UsefulStep (env : Env) (s : System) (l : Label) (s' : System) : Prop :=
  l ≠ .again ∧ Step env s l s'

/-- From every state in which the client does not sleep the processes can come to their end, and no
step is in vain. -/
theorem exists_end_of_awake (hgood : env.Good) (h : env.Reaches s) (hsleep : s.client ≠ .sleep) :
    ∃ as s', Run (UsefulStep env) s as s' ∧ s'.server = .exited ∧ s'.client = .exited := by
  have hinv : ∀ s l s', (env.Reaches s ∧ s.client ≠ .sleep) → UsefulStep env s l s' →
      env.Reaches s' ∧ s'.client ≠ .sleep := fun _ _ _ h hs =>
    ⟨(compatible_step hgood h.1 hs.2).1, (compatible_step hgood h.1 hs.2).2.2 hs.1 h.2⟩
  have hmeasure : ∀ s l s', (env.Reaches s ∧ s.client ≠ .sleep) → UsefulStep env s l s' →
      s'.measure < s.measure := fun _ _ _ h hs => by
    have hle := (compatible_step hgood h.1 hs.2).2.1
    rw [decide_eq_true hs.1] at hle
    exact hle
  refine Run.exists_completion ⟨h, hsleep⟩ hinv hmeasure fun s h hend => ?_
  obtain ⟨l, s', hne, hs⟩ := exists_step hgood h.1 h.2 hend
  exact ⟨l, s', hne, hs⟩

/-- From every state the processes can come to their end. -/
theorem exists_end (hgood : env.Good) (h : env.Reaches s) :
    ∃ as s', Run (Step env) s as s' ∧ s'.server = .exited ∧ s'.client = .exited := by
  by_cases hsleep : s.client = .sleep
  · have hs : Step env s .again { s with client := .connect } := by
      simp [Step, step, againStep, hsleep]
    obtain ⟨as, s', hrun, hend⟩ :=
      exists_end_of_awake hgood (compatible_step hgood h hs).1 ClientPc.noConfusion
    exact ⟨.again :: as, s', (hrun.mono fun _ _ _ h => h.2).head hs, hend⟩
  · obtain ⟨as, s', hrun, hend⟩ := exists_end_of_awake hgood h hsleep
    exact ⟨as, s', hrun.mono fun _ _ _ h => h.2, hend⟩

/-- What the processes show. -/
theorem chars_serverRead (env : Env) :
    (CString.ofMemory env.serverRead).chars = hello.dropLast := rfl

theorem chars_clientRead (env : Env) :
    (CString.ofMemory env.clientRead).chars = goodbye.dropLast := rfl

/-- **The messages are exchanged**, if all calls succeed: whatever the order of the steps, only the
client makes more than a few of them, while it tries to connect; from every state the two processes
can come to their end; and each of them shows nothing but the message of the other one, and has
shown it in the end. -/
theorem messages_exchanged (hgood : env.Good) {as : List Label}
    (hrun : Run (Step env) (System.start env) as s) :
    as.countP (· ≠ .again) ≤ 15 ∧
    (∀ out ∈ s.serverOut, out.chars = hello.dropLast) ∧
    (∀ out ∈ s.clientOut, out.chars = goodbye.dropLast) ∧
    (s.server = .exited → s.serverOut ≠ none) ∧ (s.client = .exited → s.clientOut ≠ none) ∧
    ∃ as' s', Run (Step env) s as' s' ∧ s'.server = .exited ∧ s'.client = .exited := by
  have hstart := reaches_start hgood
  have hinv : ∀ s l s', env.Reaches s → Step env s l s' → env.Reaches s' :=
    fun _ _ _ h hs => (compatible_step hgood h hs).1
  have h := hrun.invariant hstart hinv
  have hcount := hrun.countP_add_le (fun l => decide (l ≠ .again)) hstart hinv
    fun _ _ _ h hs => (compatible_step hgood h hs).2.1
  have hmeasure : (System.start env).measure ≤ 15 := by
    cases hforked : env.forked <;> simp [System.measure, System.start, hforked, ServerPc.rank,
      ClientPc.rank]
  obtain ⟨sv, cl, -, hs⟩ := id h
  refine ⟨(Nat.le_add_right _ _).trans (hcount.trans hmeasure), fun out hout => ?_,
    fun out hout => ?_, fun hexited => ?_, fun hexited => ?_, exists_end hgood h⟩
  · rw [hs] at hout
    change (if 5 < sv.rank then some (CString.ofMemory env.serverRead) else none) = some out at hout
    split_ifs at hout
    rw [← Option.some.inj hout, chars_serverRead]
  · rw [hs] at hout
    change (if 4 < cl.rank then some (CString.ofMemory env.clientRead) else none) = some out at hout
    split_ifs at hout
    rw [← Option.some.inj hout, chars_clientRead]
  · obtain rfl : sv = .exited := by rw [hs] at hexited; exact hexited
    rw [hs]
    exact Option.some_ne_none _
  · obtain rfl : cl = .exited := by rw [hs] at hexited; exact hexited
    rw [hs]
    exact Option.some_ne_none _

/-- All calls succeed, and memory is empty. -/
def sampleEnv : Env := ⟨true, true, true, true, true, true, [], []⟩

theorem good_sampleEnv : sampleEnv.Good := ⟨rfl, rfl, rfl, rfl, rfl, rfl⟩

/-- The client sleeps before the server has bound the socket. -/
def sample : List Label :=
  [.client, .again, .again, .server, .server, .server, .client, .client, .server, .server, .server,
    .server, .client, .client, .client, .server, .server]

theorem run_sample : (sample.foldlM (step sampleEnv) (System.start sampleEnv)).map
    (fun s => (s.server, s.client)) = some (.exited, .exited) := rfl

theorem messages_exchanged_sample : ∃ s, Run (Step sampleEnv) (System.start sampleEnv) sample s ∧
    s.server = .exited ∧ s.client = .exited ∧ s.serverOut ≠ none ∧ s.clientOut ≠ none := by
  obtain ⟨s, hs, hexited⟩ := Option.map_eq_some_iff.mp run_sample
  obtain ⟨hserver, hclient⟩ := Prod.mk.inj hexited
  obtain ⟨-, -, -, hserverOut, hclientOut, -⟩ :=
    messages_exchanged good_sampleEnv (.of_foldlM hs)
  exact ⟨s, .of_foldlM hs, hserver, hclient, hserverOut hserver, hclientOut hclient⟩

/-- **The client comes to its end** in some run if and only if all calls succeed. Otherwise there is
no client, since `fork` has failed, or it has no connection in any run, and tries to connect for
ever. -/
theorem exits_iff (env : Env) :
    ((∃ as s, Run (Step env) (System.start env) as s ∧ s.client = .exited) ↔ env.Good) ∧
      (¬ env.Good → ∀ as s, Run (Step env) (System.start env) as s → s.Waits env ∧
        (env.forked = true → ∃ l s', l ≠ .server ∧ Step env s l s')) := by
  have hwaits (hgood : ¬ env.Good) {as : List Label} {s : System}
      (hrun : Run (Step env) (System.start env) as s) : s.Waits env :=
    hrun.invariant (System.Waits.start env) fun _ _ _ h hs => h.step hgood hs
  refine ⟨⟨?_, fun hgood => ?_⟩, fun hgood as s hrun => ?_⟩
  · rintro ⟨as, s, hrun, hexited⟩
    by_contra hgood
    have hclient := (hwaits hgood hrun).client
    simp [hexited] at hclient
  · obtain ⟨as, s, hrun, -, hexited⟩ := exists_end hgood (reaches_start hgood)
    exact ⟨as, s, hrun, hexited⟩
  · exact ⟨hwaits hgood hrun, (hwaits hgood hrun).exists_clientStep⟩

end UnixStudy.Socket
