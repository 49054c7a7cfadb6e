import UnixStudy.Mut.Program

/-!
# The sections are atomic

Whatever the two threads do statement by statement, they might have done with each section in one
step: the section of the main thread where the node becomes the head of the list, and that of the
other thread where it frees the node that it has removed. In between, the two descriptions differ in
the node that the main thread is about to write to, and in the head of the list while the other
thread has unlinked a node and not freed it.

## Main definitions

* `Program.Atomic` : what the statements and the sections have in common.

## Main results

* `Program.Atomic.step` : for each statement there is a section, or nothing to do.
* `Program.exists_atomic` : a run of the statements is a run of the sections.

## References

* `src/process/mut.c`, lines 20–55.
-/

namespace UnixStudy.Mut

/-- The main thread has a node that it has not added. -/
def MainPc.hasNode : MainPc → Bool
  | .number | .lock | .next | .head => true
  | _ => false

/-- The main thread has added the node of this turn of its loop. -/
def MainPc.hasAdded : MainPc → Bool
  | .signal | .unlock | .sleep => true
  | _ => false

/-- The thread has a node that it has not freed. -/
def ThreadPc.hasNode : ThreadPc → Bool
  | .print | .free => true
  | _ => false

/-- The thread has its node in its section. -/
theorem ThreadPc.hasNode_eq_false {pc : ThreadPc} (h : pc.inSection = false) :
    pc.hasNode = false := by
  cases pc <;> first | rfl | exact Bool.noConfusion h

namespace Program

/-- The state `t` is where the sections are when the statements are in `s`. -/
structure Atomic (n : ℕ) (s : Program) (t : State) : Prop where
  lt : s.main = .malloc → s.i < n
  i : t.i = if s.main.hasAdded then s.i + 1 else s.i
  p : t.p = if s.main.hasNode then s.mainP else none
  head : t.head = if s.thread.hasNode then s.p else s.head
  waiting : t.thread = .waiting ↔ s.thread = .blocked ∧ s.main ≠ .signal
  cell : s.main ≠ .number → s.main ≠ .head → s.mem.cell = t.mem.cell
  number : s.main = .number → ∃ a x q, s.mainP = some a ∧ t.mem.cell a = some ⟨s.i, q⟩ ∧
    s.mem.cell = Function.update t.mem.cell a (some ⟨x, q⟩)
  next : s.main = .head → ∃ a, s.mainP = some a ∧
    s.mem.cell = Function.update t.mem.cell a (some ⟨s.i, s.head⟩)
  unlinked : s.thread.hasNode → ∃ a node, s.p = some a ∧ t.mem.cell a = some node ∧
    node.n_next = s.head ∧ s.printed = t.printed ++ if s.thread = .free then [node.n_number] else []
  added : s.added = t.added
  printed : s.thread.hasNode = false → s.printed = t.printed

variable {n : ℕ} {s s' : Program} {t t' : State} {nodes : List (ℕ × Node)}

theorem atomic_start (p : Option ℕ) : (start p).Atomic n Mut.start := by
  constructor <;> simp [start, Mut.start, MainPc.hasAdded, MainPc.hasNode, ThreadPc.hasNode]

namespace Atomic

/-- The nodes of the list are the same. -/
theorem cell_of_mem (h : s.Atomic n t) (ht : Holds t nodes) {x : ℕ × Node} (hx : x ∈ nodes) :
    s.mem.cell x.1 = some x.2 := by
  have hcell := ht.linked.mem_of_mem hx
  have hne {a : ℕ} (ha : t.p = some a) : x.1 ≠ a := fun heq =>
    ht.apart a ha (List.mem_map.mpr ⟨x, hx, heq⟩)
  by_cases hnumber : s.main = .number
  · obtain ⟨a, v, q, ha, -, hs⟩ := h.number hnumber
    have hp : t.p = some a := by rw [h.p, hnumber, ← ha]; rfl
    rw [hs, Function.update_of_ne (hne hp), hcell]
  · by_cases hhead : s.main = .head
    · obtain ⟨a, ha, hs⟩ := h.next hhead
      have hp : t.p = some a := by rw [h.p, hhead, ← ha]; rfl
      rw [hs, Function.update_of_ne (hne hp), hcell]
    · rw [h.cell hnumber hhead, hcell]

/-! ### The main thread -/

/-- A statement of the main thread that the sections do not see. -/
theorem mainGoes (h : s.Atomic n t) {pc : MainPc} (hadded : s.main.hasAdded = pc.hasAdded)
    (hnode : s.main.hasNode = pc.hasNode)
    (hold : s.main ≠ .number ∧ s.main ≠ .head ∧ s.main ≠ .signal)
    (hnew : pc ≠ .number ∧ pc ≠ .head ∧ pc ≠ .signal) (hlt : pc = .malloc → s.i < n) :
    Atomic n { s with main := pc } t :=
  { h with
    lt := hlt
    i := hadded ▸ h.i
    p := hnode ▸ h.p
    waiting := by rw [h.waiting, and_iff_left hold.2.2, and_iff_left hnew.2.2]
    cell := fun _ _ => h.cell hold.1 hold.2.1
    number := fun hpc => absurd hpc hnew.1
    next := fun hpc => absurd hpc hnew.2.1 }

/-- `malloc` returns an address. -/
theorem malloc (h : s.Atomic n t) (hpc : s.main = .malloc) {a : ℕ} {node : Node}
    {mem : Allocations Node} (hmem : s.mem.malloc a node = some mem)
    (calls : List MemoryCall) : ∃ t', Mut.Step n t (.malloc a node.n_next) t' ∧
      Atomic n { s with mem := mem, calls := calls, mainP := some a, main := .number } t' := by
  obtain ⟨hfree, hcell⟩ := Allocations.malloc_eq_some hmem
  have hsame := h.cell (by simp [hpc]) (by simp [hpc])
  have hi : t.i = s.i := by rw [h.i, hpc]; rfl
  have hp : t.p = none := by rw [h.p, hpc]; rfl
  obtain ⟨mem', hmem'⟩ := Allocations.exists_malloc (hsame ▸ hfree) (⟨t.i, node.n_next⟩ : Node)
  obtain ⟨-, hcell'⟩ := Allocations.malloc_eq_some hmem'
  refine ⟨{ t with mem := mem', p := some a }, ?_, ?_⟩
  · have hlt : t.i < n := hi ▸ h.lt hpc
    simp [Mut.Step, Mut.step, hlt, hp, hmem']
  · refine
      { h with
        lt := fun hpc => MainPc.noConfusion hpc
        i := hi
        p := rfl
        waiting := h.waiting.trans (by simp [hpc])
        cell := fun hnumber => absurd rfl hnumber
        number := fun _ => ⟨a, node.n_number, node.n_next, rfl, ?_, ?_⟩
        next := fun hpc => MainPc.noConfusion hpc
        unlinked := fun hthread => ?_ }
    · dsimp only
      rw [hcell', Function.update_self, hi]
    · dsimp only
      rw [hcell, hcell', Function.update_idem, hsame]
    · obtain ⟨b, node', hb, hcellb, hnext, hprinted⟩ := h.unlinked hthread
      refine ⟨b, node', hb, ?_, hnext, hprinted⟩
      have hne : b ≠ a := fun heq => by
        rw [← hsame, heq, hfree] at hcellb
        exact Option.some_ne_none _ hcellb.symm
      dsimp only
      rw [hcell', Function.update_of_ne hne, hcellb]

/-- The node gets its number. -/
theorem numbered (h : s.Atomic n t) (hpc : s.main = .number) {a : ℕ} {node : Node}
    {mem : Allocations Node} (ha : s.mainP = some a) (hnode : s.mem.cell a = some node)
    (hmem : s.mem.store a { node with n_number := s.i } = some mem) :
    Atomic n { s with mem := mem, main := .lock } t := by
  obtain ⟨-, hcell⟩ := Allocations.store_eq_some hmem
  obtain ⟨a', x, q, ha', ht, hs⟩ := h.number hpc
  obtain rfl := Option.some.inj (ha'.symm.trans ha)
  rw [hs, Function.update_self] at hnode
  obtain rfl := Option.some.inj hnode
  refine
    { h with
      lt := fun hpc => MainPc.noConfusion hpc
      i := by rw [h.i, hpc]; rfl
      p := by rw [h.p, hpc]; rfl
      waiting := h.waiting.trans (by simp [hpc])
      cell := fun _ _ => ?_
      number := fun hpc => MainPc.noConfusion hpc
      next := fun hpc => MainPc.noConfusion hpc }
  dsimp only
  rw [hcell, hs, Function.update_idem, ← ht, Function.update_eq_self]

/-- The node gets its link. -/
theorem linked (h : s.Atomic n t) (ht : Holds t nodes) (hpc : s.main = .next) {a : ℕ} {node : Node}
    {mem : Allocations Node} (ha : s.mainP = some a) (hnode : s.mem.cell a = some node)
    (hmem : s.mem.store a { node with n_next := s.head } = some mem) :
    Atomic n { s with mem := mem, main := .head } t := by
  obtain ⟨-, hcell⟩ := Allocations.store_eq_some hmem
  have hsame := h.cell (by simp [hpc]) (by simp [hpc])
  have hi : t.i = s.i := by rw [h.i, hpc]; rfl
  have hp : t.p = some a := by rw [h.p, hpc, ← ha]; rfl
  obtain ⟨q, hq⟩ := ht.fresh a hp
  rw [hsame, hq] at hnode
  obtain rfl := Option.some.inj hnode
  refine
    { h with
      lt := fun hpc => MainPc.noConfusion hpc
      i := hi
      p := hp.trans ha.symm
      waiting := h.waiting.trans (by simp [hpc])
      cell := fun _ hhead => absurd rfl hhead
      number := fun hpc => MainPc.noConfusion hpc
      next := fun _ => ⟨a, ha, ?_⟩ }
  dsimp only
  rw [hcell, hsame, hi]

/-- The node becomes the head of the list. -/
theorem added_node (h : s.Atomic n t) (ht : Holds t nodes) (hpc : s.main = .head)
    (hthread : s.thread.hasNode = false) {a : ℕ} {node : Node} (ha : s.mainP = some a)
    (hnode : s.mem.cell a = some node) : ∃ t', Mut.Step n t .add t' ∧ Atomic n { s with
      head := some a, main := .signal, added := s.added ++ [node.n_number] } t' := by
  obtain ⟨a', ha', hs⟩ := h.next hpc
  obtain rfl := Option.some.inj (ha'.symm.trans ha)
  rw [hs, Function.update_self] at hnode
  obtain rfl := Option.some.inj hnode
  have hi : t.i = s.i := by rw [h.i, hpc]; rfl
  have hp : t.p = some a' := by rw [h.p, hpc, ← ha]; rfl
  have hhead : t.head = s.head := by rw [h.head, hthread]; rfl
  obtain ⟨q, hq⟩ := ht.fresh a' hp
  obtain ⟨mem', hmem'⟩ :=
    Allocations.exists_store (hq ▸ Option.some_ne_none _) (⟨t.i, t.head⟩ : Node)
  obtain ⟨-, hcell'⟩ := Allocations.store_eq_some hmem'
  refine ⟨_, by simp [Mut.Step, Mut.step, hp, hq, hmem']; rfl, ?_⟩
  refine
    { h with
      lt := fun hpc => MainPc.noConfusion hpc
      i := congrArg (· + 1) hi
      p := rfl
      head := by dsimp only; rw [hthread]; rfl
      waiting := ?_
      cell := fun _ _ => ?_
      number := fun hpc => MainPc.noConfusion hpc
      next := fun hpc => MainPc.noConfusion hpc
      unlinked := fun hnode => absurd hnode (Bool.eq_false_iff.mp hthread)
      added := ?_ }
  · refine iff_of_false (fun hwaiting => ?_) fun hblocked => hblocked.2 rfl
    cases hthread' : t.thread <;> rw [hthread'] at hwaiting <;> exact Thread.noConfusion hwaiting
  · dsimp only
    rw [hs, hcell', hi, hhead]
  · dsimp only
    rw [h.added, hi]

/-- The main thread signals. In the sections it has done so already. -/
theorem signaled (h : s.Atomic n t) (hpc : s.main = .signal) {pc : ThreadPc}
    (hthread : pc = s.thread ∧ s.thread ≠ .blocked ∨ pc = .woken ∧ s.thread = .blocked) :
    Atomic n { s with thread := pc, main := .unlock } t := by
  have hnode : pc.hasNode = s.thread.hasNode := by
    obtain ⟨rfl, -⟩ | ⟨rfl, hblocked⟩ := hthread
    · rfl
    · rw [hblocked]
      rfl
  have hfree : pc = .free ↔ s.thread = .free := by
    obtain ⟨rfl, -⟩ | ⟨rfl, hblocked⟩ := hthread
    · rfl
    · rw [hblocked]
      decide
  have hpcs : pc ≠ .blocked := by
    obtain ⟨rfl, hblocked⟩ | ⟨rfl, -⟩ := hthread
    · exact hblocked
    · exact ThreadPc.noConfusion
  refine
    { h with
      lt := fun hpc => MainPc.noConfusion hpc
      i := by rw [h.i, hpc]; rfl
      p := by rw [h.p, hpc]; rfl
      head := by dsimp only; rw [hnode, h.head]
      waiting := h.waiting.trans (iff_of_false (fun hblocked => hblocked.2 hpc)
        fun hblocked => hpcs hblocked.1)
      cell := fun _ _ => h.cell (by simp [hpc]) (by simp [hpc])
      number := fun hpc => MainPc.noConfusion hpc
      next := fun hpc => MainPc.noConfusion hpc
      unlinked := fun hthread => ?_
      printed := fun hthread => h.printed (hnode ▸ hthread) }
  obtain ⟨a, node, ha, hcell, hnext, hprinted⟩ := h.unlinked (hnode ▸ hthread)
  exact ⟨a, node, ha, hcell, hnext, hprinted.trans (by simp only [hfree])⟩

/-- The next turn of the loop of the main thread. -/
theorem slept (h : s.Atomic n t) (hpc : s.main = .sleep) :
    Atomic n { s with i := s.i + 1, main := .loop } t :=
  { h with
    lt := fun hpc => MainPc.noConfusion hpc
    i := by rw [h.i, hpc]; rfl
    p := by rw [h.p, hpc]; rfl
    waiting := h.waiting.trans (by simp [hpc])
    cell := fun _ _ => h.cell (by simp [hpc]) (by simp [hpc])
    number := fun hpc => MainPc.noConfusion hpc
    next := fun hpc => MainPc.noConfusion hpc }

/-! ### The other thread -/

/-- A statement of the other thread that the sections do not see. -/
theorem threadGoes (h : s.Atomic n t) {pc : ThreadPc} (hold : s.thread.hasNode = false)
    (hnew : pc.hasNode = false) (hthread : s.thread = .blocked ∧ s.main ≠ .signal ↔
      pc = .blocked ∧ s.main ≠ .signal) (mtx : Option Party) (p : Option ℕ) :
    Atomic n { s with mtx := mtx, p := p, thread := pc } t :=
  { h with
    head := by
      dsimp only
      rw [h.head, hold, hnew]
      rfl
    waiting := h.waiting.trans hthread
    unlinked := fun hnode => absurd hnode (Bool.eq_false_iff.mp hnew)
    printed := fun _ => h.printed hold }

/-- The thread waits. -/
theorem waits (h : s.Atomic n t) (hpc : s.thread = .wait) (hhead : s.head = none)
    (hmain : s.main ≠ .signal) : ∃ t', Mut.Step n t .wait t' ∧
      Atomic n { s with mtx := none, thread := .blocked } t' := by
  have hthead : t.head = none := by rw [h.head, hpc]; exact hhead
  have hthread : t.thread ≠ .waiting := fun hwaiting => by
    rw [h.waiting, hpc] at hwaiting
    exact ThreadPc.noConfusion hwaiting.1
  refine ⟨{ t with thread := .waiting }, by simp [Mut.Step, Mut.step, hthread, hthead], ?_⟩
  exact
    { h with
      head := hthead.trans hhead.symm
      waiting := iff_of_true rfl ⟨rfl, hmain⟩
      unlinked := fun hnode => Bool.noConfusion hnode
      printed := fun _ => h.printed (by rw [hpc]; rfl) }

/-- The wait returns for no reason, or was about to end in any case. -/
theorem wakes (h : s.Atomic n t) (hpc : s.thread = .blocked) :
    ∃ t', (t' = t ∨ Mut.Step n t .wake t') ∧ Atomic n { s with thread := .woken } t' := by
  have hhead : t.head = s.head := by rw [h.head, hpc]; rfl
  by_cases hmain : s.main = .signal
  · exact ⟨t, .inl rfl, h.threadGoes (by rw [hpc]; rfl) rfl (by simp [hmain]) s.mtx s.p⟩
  · have hwaiting := h.waiting.mpr ⟨hpc, hmain⟩
    refine ⟨{ t with thread := .woken }, .inr (by simp [Mut.Step, Mut.step, hwaiting]), ?_⟩
    exact
      { h with
        head := hhead
        waiting := iff_of_false (fun h => Thread.noConfusion h) fun h => ThreadPc.noConfusion h.1
        unlinked := fun hnode => Bool.noConfusion hnode
        printed := fun _ => h.printed (by rw [hpc]; rfl) }

/-- The thread unlinks the first node. -/
theorem unlinks (h : s.Atomic n t) (ht : Holds t nodes) (hpc : s.thread = .next)
    (hp : s.p = s.head) {a : ℕ} {node : Node} (ha : s.head = some a)
    (hnode : s.mem.cell a = some node) (u : Option ℕ)
    (hmain : s.main ≠ .head) :
    Atomic n { s with head := node.n_next, unlinked := u, thread := .print } t := by
  have hhead : t.head = some a := by rw [h.head, hpc]; exact ha
  have hcell : t.mem.cell a = some node := by
    have hlinked := hhead ▸ ht.linked
    cases nodes with
    | nil => exact absurd hlinked (Option.some_ne_none a)
    | cons x nodes =>
      obtain rfl := Option.some.inj hlinked.1
      have hx := h.cell_of_mem ht List.mem_cons_self
      rw [hlinked.2.1, ← hx, hnode]
  exact
    { h with
      head := by
        dsimp only
        rw [hhead, hp, ha]
        rfl
      waiting := h.waiting.trans (by simp [hpc])
      next := fun h => absurd h hmain
      unlinked := fun _ => ⟨a, node, hp.trans ha, hcell, rfl, by
        rw [h.printed (by rw [hpc]; rfl)]
        exact (List.append_nil _).symm⟩
      printed := fun hnode => Bool.noConfusion hnode }

/-- The thread prints the number of its node. -/
theorem prints (h : s.Atomic n t) (hpc : s.thread = .print) {a : ℕ} {node : Node}
    (ha : s.p = some a) (hsame : s.mem.cell a = t.mem.cell a) (hnode : s.mem.cell a = some node) :
    Atomic n { s with thread := .free, printed := s.printed ++ [node.n_number] } t := by
  obtain ⟨a', node', ha', hcell, hnext, hprinted⟩ := h.unlinked (by rw [hpc]; rfl)
  obtain rfl := Option.some.inj (ha'.symm.trans ha)
  rw [hsame, hcell] at hnode
  obtain rfl := Option.some.inj hnode
  exact
    { h with
      head := by
        rw [h.head, hpc]
        rfl
      waiting := h.waiting.trans (by simp [hpc])
      unlinked := fun _ => ⟨a', node', ha, hcell, hnext, by
        dsimp only
        rw [hprinted, hpc, if_neg (by decide), List.append_nil, if_pos rfl]⟩
      printed := fun hnode => Bool.noConfusion hnode }

/-- What the thread has unlinked is in use. -/
theorem exists_unlinked (h : s.Atomic n t) (ht : Holds t nodes) (hthread : s.thread.hasNode) :
    ∃ a node nodes', nodes = (a, node) :: nodes' ∧ s.p = some a ∧ s.mem.cell a = some node ∧
      t.mem.cell a = some node := by
  obtain ⟨a, node, ha, hcell, -⟩ := h.unlinked hthread
  have hhead : t.head = some a := by rw [h.head, if_pos hthread, ha]
  have hlinked := hhead ▸ ht.linked
  cases nodes with
  | nil => exact absurd hlinked (Option.some_ne_none a)
  | cons x nodes =>
    obtain rfl := Option.some.inj hlinked.1
    obtain rfl := Option.some.inj (hlinked.2.1.symm.trans hcell)
    exact ⟨x.1, x.2, nodes, rfl, ha, h.cell_of_mem ht List.mem_cons_self, hcell⟩

/-- The thread frees its node. -/
theorem frees (h : s.Atomic n t) (ht : Holds t nodes) (hpc : s.thread = .free)
    (hmain : s.main ≠ .head) : ∃ t', Mut.Step n t .remove t' ∧
      Atomic n { s.callFree s.p with thread := .unlock } t' := by
  have hthread : s.thread.hasNode := by rw [hpc]; rfl
  obtain ⟨a, node, nodes', rfl, ha, hs, hcell⟩ := h.exists_unlinked ht hthread
  obtain ⟨a', node', ha', hcell', hnext, hprinted⟩ := h.unlinked hthread
  obtain rfl := Option.some.inj (ha'.symm.trans ha)
  obtain rfl := Option.some.inj (hcell'.symm.trans hcell)
  have hhead : t.head = some a' := by rw [h.head, if_pos hthread, ha]
  have hwaiting : t.thread ≠ .waiting := fun hw => by
    rw [h.waiting, hpc] at hw
    exact ThreadPc.noConfusion hw.1
  obtain ⟨mem, hmem⟩ := Allocations.exists_free (hs ▸ Option.some_ne_none _)
  obtain ⟨mem', hmem'⟩ := Allocations.exists_free (hcell ▸ Option.some_ne_none _)
  have hfree : (s.p.bind s.mem.free).getD s.mem = mem := by rw [ha, Option.bind_some, hmem]; rfl
  obtain ⟨-, hafter⟩ := Allocations.free_eq_some hmem
  obtain ⟨-, hafter'⟩ := Allocations.free_eq_some hmem'
  refine ⟨_, by simp [Mut.Step, Mut.step, hwaiting, hhead, hcell, hmem']; rfl, ?_⟩
  rw [callFree, hfree]
  refine
    { h with
      head := hnext
      waiting := iff_of_false (fun h => Thread.noConfusion h) fun h => ThreadPc.noConfusion h.1
      cell := fun hnumber hhead => ?_
      number := fun hnumber => ?_
      next := fun h => absurd h hmain
      unlinked := fun hnode => Bool.noConfusion hnode
      printed := fun _ => by rw [hprinted, hpc, if_pos rfl] }
  · dsimp only
    rw [hafter, hafter', h.cell hnumber hhead]
  · obtain ⟨b, x, q, hb, hcellb, hsb⟩ := h.number hnumber
    have hp : t.p = some b := by rw [h.p, hnumber, ← hb]; rfl
    have hne : b ≠ a' := fun heq => ht.apart b hp (heq ▸ List.mem_cons_self)
    refine ⟨b, x, q, hb, ?_, ?_⟩
    · dsimp only
      rw [hafter', Function.update_of_ne hne, hcellb]
    · dsimp only
      rw [hafter, hafter', hsb, Function.update_comm hne]

/-! ### Both threads -/

/-- **A statement of the main thread.** -/
theorem mainStep (h : s.Atomic n t) (hlocked : s.Locked) (ht : Holds t nodes)
    (hs : s.mainStep n = some s') :
    ∃ t', (t' = t ∨ ∃ l, Mut.Step n t l t') ∧ s'.Atomic n t' := by
  cases mainSteps hs with
  | again hpc hlt =>
    exact ⟨t, .inl rfl,
      h.mainGoes (by rw [hpc]; rfl) (by rw [hpc]; rfl) (by simp [hpc]) (by simp) fun _ => hlt⟩
  | done hpc | lock hpc | unlock hpc | cancel hpc | join hpc =>
    have hgo {pc : MainPc} (hadded : s.main.hasAdded = pc.hasAdded)
        (hnode : s.main.hasNode = pc.hasNode) (hnew : pc ≠ .number ∧ pc ≠ .head ∧ pc ≠ .signal)
        (hmalloc : pc ≠ .malloc) : Atomic n { s with main := pc } t :=
      h.mainGoes hadded hnode (by simp [hpc]) hnew fun heq => absurd heq hmalloc
    exact ⟨t, .inl rfl, { hgo (by rw [hpc]; rfl) (by rw [hpc]; rfl) (by simp) (by simp) with }⟩
  | number hpc ha hnode hmem => exact ⟨t, .inl rfl, h.numbered hpc ha hnode hmem⟩
  | next hpc ha hnode hmem => exact ⟨t, .inl rfl, h.linked ht hpc ha hnode hmem⟩
  | head hpc ha hnode =>
    have hthread : s.thread.hasNode = false :=
      ThreadPc.hasNode_eq_false (hlocked.not_inSection (by rw [hpc]; rfl))
    obtain ⟨t', hadd, h'⟩ := h.added_node ht hpc hthread ha hnode
    exact ⟨t', .inr ⟨_, hadd⟩, h'⟩
  | wakes hpc hthread => exact ⟨t, .inl rfl, h.signaled hpc (.inr ⟨rfl, hthread⟩)⟩
  | signals hpc hthread => exact ⟨t, .inl rfl, h.signaled hpc (.inl ⟨rfl, hthread⟩)⟩
  | sleep hpc => exact ⟨t, .inl rfl, h.slept hpc⟩

/-- **A statement of the other thread.** -/
theorem threadStep (h : s.Atomic n t) (hlocked : s.Locked) (ht : Holds t nodes)
    (hs : s.threadStep = some s') :
    ∃ t', (t' = t ∨ ∃ l, Mut.Step n t l t') ∧ s'.Atomic n t' := by
  have hmain (hin : s.thread.inSection) {pc : MainPc} (hpc : pc.inSection) : s.main ≠ pc :=
    fun heq => absurd (heq ▸ hpc) (Bool.eq_false_iff.mp (hlocked.main_inSection hin))
  cases threadSteps hs with
  | lock hpc hmtx =>
    refine ⟨t, .inl rfl, h.threadGoes ?_ rfl ?_ _ s.p⟩
    · rcases hpc with hpc | hpc <;> rw [hpc] <;> rfl
    · rcases hpc with hpc | hpc <;> simp [hpc]
  | empty hpc | found hpc =>
    exact ⟨t, .inl rfl, h.threadGoes (by rw [hpc]; rfl) rfl (by simp [hpc]) s.mtx s.p⟩
  | take hpc =>
    exact ⟨t, .inl rfl, h.threadGoes (by rw [hpc]; rfl) rfl (by simp [hpc]) s.mtx s.head⟩
  | unlock hpc =>
    exact ⟨t, .inl rfl, h.threadGoes (by rw [hpc]; rfl) rfl (by simp [hpc]) none s.p⟩
  | wait hpc =>
    obtain ⟨t', hwait, h'⟩ := h.waits hpc (hlocked.wait hpc) (hmain (by rw [hpc]; rfl) rfl)
    exact ⟨t', .inr ⟨_, hwait⟩, h'⟩
  | next hpc ha hnode =>
    exact ⟨t, .inl rfl, h.unlinks ht hpc (hlocked.next hpc).2 ha hnode s.p
      (hmain (by rw [hpc]; rfl) rfl)⟩
  | print hpc ha hnode =>
    obtain ⟨a', node', -, -, ha', hs', ht'⟩ := h.exists_unlinked ht (by rw [hpc]; rfl)
    obtain rfl := Option.some.inj (ha'.symm.trans ha)
    exact ⟨t, .inl rfl, h.prints hpc ha (hs'.trans ht'.symm) hnode⟩
  | free hpc =>
    obtain ⟨t', hremove, h'⟩ := h.frees ht hpc (hmain (by rw [hpc]; rfl) rfl)
    exact ⟨t', .inr ⟨_, hremove⟩, h'⟩

/-- **For each statement there is a section, or nothing to do.** -/
theorem step (h : s.Atomic n t) (hlocked : s.Locked) (ht : Holds t nodes) {l : Choice}
    (hs : Program.Step n s l s') (hended : s'.thread ≠ .ended) :
    ∃ t', (t' = t ∨ ∃ l', Mut.Step n t l' t') ∧ s'.Atomic n t' := by
  cases l with
  | malloc a node =>
    obtain ⟨hpc, mem, hmem, rfl⟩ := of_malloc hs
    obtain ⟨t', hmalloc, h'⟩ := h.malloc hpc hmem (s.calls ++ [.malloc a])
    exact ⟨t', .inr ⟨_, hmalloc⟩, h'⟩
  | main => exact h.mainStep hlocked ht (of_step hs).2
  | thread_func => exact h.threadStep hlocked ht (of_step hs).2
  | wake =>
    obtain ⟨hpc, rfl⟩ := of_wake hs
    obtain ⟨t', hwake, h'⟩ := h.wakes hpc
    exact ⟨t', hwake.imp_right fun hs => ⟨_, hs⟩, h'⟩
  | cancel => exact absurd (thread_of_cancel (of_step hs).2) hended

end Atomic

/-- **A run of the statements is a run of the sections**, as long as the thread has not ended. -/
theorem exists_atomic {p : Option ℕ} {ls : List Choice} (hrun : Run (Program.Step n) (start p) ls s)
    (hended : s.thread ≠ .ended) :
    ∃ ls' t nodes, Run (Mut.Step n) Mut.start ls' t ∧ s.Atomic n t ∧ Holds t nodes := by
  induction hrun with
  | refl =>
    obtain ⟨nodes, ht, -⟩ := refines_start
    exact ⟨[], _, nodes, .refl, atomic_start p, ht⟩
  | tail hrun hs ih =>
    obtain ⟨ls', t, nodes, hrun', h, ht⟩ := ih (thread_ne_ended hs hended)
    have hlocked : Locked _ := hrun.invariant (Locked.start p) fun _ _ _ h hs => h.step hs
    obtain ⟨t', rfl | ⟨l, hs'⟩, h'⟩ := h.step hlocked ht hs hended
    · exact ⟨ls', t', nodes, hrun', h', ht⟩
    · obtain ⟨-, -, nodes', ht', -⟩ := Refines.step ⟨nodes, ht, rfl⟩ hs'
      exact ⟨ls' ++ [l], t', nodes', hrun'.tail hs', h', ht'⟩

end Program

end UnixStudy.Mut
