import UnixStudy.Ec.Kept

/-!
# The loops over the trace

`ec_print` and `ec_reinit` go over the list. In every run they come to its end, and what they read
is in use: `ec_reinit` reads the address of the next node before it frees one. Which blocks it frees
is said by the calls of `ec_push`.

## Main definitions

* `frees` : the pointers that are freed.
* `Releases` : what was freed in memory.

## Main results

* `Holds.traverse` : the nodes that `ec_print` visits.
* `releaseAll_eq`, `Holds.reinit` : what `ec_reinit` does.
* `holds_run` : in every run the list is what the calls say.

## References

* `src/common/ec.c`, lines 110–129 and 131–147.
-/

namespace UnixStudy.Ec

/-! ### `ec_print` -/

section Traverse

variable {s : State} {h : History} {ps : List Push}

/-- The nodes of a list are visited in order. -/
theorem traverse_eq {fuel : ℕ} {e : Option ℕ} {xs : List (ℕ × Node)}
    (hlinked : Linked Node.ec_next s.nodeAt e xs) (hfuel : xs.length < fuel) :
    traverse s fuel e = some xs := by
  induction xs generalizing e fuel with
  | nil =>
    obtain rfl : e = none := hlinked
    obtain ⟨fuel, rfl⟩ := Nat.exists_eq_succ_of_ne_zero hfuel.ne_bot
    rfl
  | cons x xs ih =>
    obtain ⟨rfl, hx, hlinked⟩ := hlinked
    obtain ⟨fuel, rfl⟩ := Nat.exists_eq_succ_of_ne_zero (Nat.ne_zero_of_lt hfuel)
    rw [traverse, hx, Option.bind_eq_bind, Option.bind_some, Option.bind_eq_bind,
      ih hlinked (Nat.lt_of_succ_lt_succ hfuel), Option.bind_some]

/-- There are as many nodes as blocks for them, and one more if the static node is used. -/
theorem length_entries_le (ps : List Push) :
    (entries ps).length ≤ (owned ps).length + if ∀ q ∈ ps, q.node ≠ none then 0 else 1 := by
  induction ps with
  | nil => exact Nat.zero_le _
  | cons p ps ih =>
    rw [entries, owned]
    cases hp : p.node with
    | some b =>
      simp only [Push.place_of_some hp, List.forall_mem_cons, hp, Push.blocks, List.length_cons,
        List.length_append, Option.toList_some, reduceCtorEq, if_false, ne_eq, not_false_eq_true,
        true_and] at ih ⊢
      omega
    | none =>
      by_cases hall : ∀ q ∈ ps, q.node ≠ none
      · rw [if_pos hall] at ih
        simp only [Push.place_of_first hp hall, List.forall_mem_cons, hp, List.length_cons,
          List.length_append, reduceCtorEq, if_false, ne_eq, not_true_eq_false, false_and]
        omega
      · rw [if_neg hall] at ih
        simpa [Push.place_of_not_first hp hall, hp] using ih

/-- The loops come to the end of the list. -/
theorem Holds.length_lt (hh : Holds s h) : (entries h.period).length < s.fuel := by
  have hlength := length_entries_le h.period
  have hcount := hh.count
  rw [List.length_append] at hcount
  rw [State.fuel]
  split_ifs at hlength <;> omega

/-- The nodes that `ec_print` visits. -/
theorem Holds.traverse (hh : Holds s h) :
    traverse s s.fuel s.ec_head = some (entries h.period) := traverse_eq hh.linked hh.length_lt

end Traverse

/-! ### `ec_reinit` -/

/-- The pointers that are freed, in order. -/
def frees : List Push → List (Option ℕ)
  | [] => []
  | p :: older =>
    match p.place older with
    | some a =>
      (if p.contextAt older = emergencyText then [] else [some (p.contextAt older)]) ++
        (if a = emergencyNode then [] else [some a]) ++ frees older
    | none => frees older

/-- Some pointers were passed to `free`, by which some blocks were freed, and nothing else has
changed. -/
structure Releases (s : State) (bs : List ℕ) (ps : List (Option ℕ)) (s' : State) : Prop where
  cell : ∀ a, s'.mem.cell a = if a ∈ bs then none else s.mem.cell a
  calls : s'.calls = s.calls ++ ps.map MemoryCall.free
  static : s' = { s with mem := s'.mem, calls := s'.calls }

namespace Releases

variable {s s' s'' : State} {a : ℕ} {bs bs' : List ℕ} {ps ps' : List (Option ℕ)}

theorem nil : Releases s [] [] s := ⟨fun _ => rfl, (List.append_nil _).symm, rfl⟩

/-- What is in use is freed. -/
theorem of_free (ha : s.mem.cell a ≠ none) : Releases s [a] [some a] (s.free (some a)) := by
  refine ⟨fun b => ?_, rfl, rfl⟩
  simp only [cell_free ha, List.mem_singleton, Function.update_apply]

/-- What is not in use is passed to `free`. -/
theorem of_free_static (ha : s.mem.cell a = none) : Releases s [] [some a] (s.free (some a)) :=
  ⟨fun b => by rw [mem_free ha]; rfl, rfl, rfl⟩

theorem trans (h : Releases s bs ps s') (h' : Releases s' bs' ps' s'') :
    Releases s (bs ++ bs') (ps ++ ps') s'' where
  cell a := by
    rw [h'.cell, h.cell]
    simp only [List.mem_append]
    split_ifs <;> simp_all
  calls := by rw [h'.calls, h.calls, List.map_append, List.append_assoc]
  static := by rw [h'.static, h.static]

/-- The text of a call is freed, unless it is in the array. -/
theorem of_context (older : List Push) {p : Push} (hin : ∀ b ∈ p.text.toList, s.mem.cell b ≠ none)
    (habove : ∀ b, s.mem.cell b ≠ none → question < b) :
    Releases s p.text.toList
      (if p.contextAt older = emergencyText then [] else [some (p.contextAt older)])
      (if some (p.contextAt older) ≠ some emergencyText then s.free (some (p.contextAt older))
        else s) := by
  have hquestion : s.mem.cell question = none :=
    not_not.mp fun hne => Nat.lt_irrefl _ (habove _ hne)
  cases htext : p.text with
  | some b =>
    have hb : s.mem.cell b ≠ none := hin b (by rw [htext]; exact List.mem_cons_self)
    have hne := (ne_static (habove b hb)).2.1
    rw [Push.contextAt_of_some htext, if_neg hne, if_pos fun heq => hne (Option.some.inj heq)]
    exact of_free hb
  | none =>
    by_cases hall : ∀ q ∈ older, q.text ≠ none
    · rw [Push.contextAt_of_first htext hall, if_pos rfl, if_neg fun h => h rfl]
      exact nil
    · rw [Push.contextAt_of_not_first htext hall, if_neg (by decide), if_pos (by decide)]
      exact of_free_static hquestion

/-- The node of a call is freed, unless it is the static one. -/
theorem of_node {older : List Push} {p : Push} (ha : p.place older = some a)
    (hin : ∀ b ∈ p.node.toList, s.mem.cell b ≠ none)
    (habove : ∀ b, s.mem.cell b ≠ none → question < b) :
    Releases s p.node.toList (if a = emergencyNode then [] else [some a])
      (if a ≠ emergencyNode then s.free (some a) else s) := by
  rcases Push.node_of_place ha with hnode | ⟨hnode, rfl⟩
  · rw [hnode] at hin ⊢
    have hb : s.mem.cell a ≠ none := hin a List.mem_cons_self
    have hne := (ne_static (habove a hb)).1
    rw [if_neg hne, if_pos hne]
    exact of_free hb
  · rw [hnode, if_pos rfl, if_neg fun h => h rfl]
    exact nil

/-- What is in use then. -/
theorem cell_ne_none (h : Releases s bs ps s') (a : ℕ) :
    s'.mem.cell a ≠ none ↔ s.mem.cell a ≠ none ∧ a ∉ bs := by
  rw [h.cell]
  split_ifs with ha <;> simp [ha]

/-- What is done for one node. -/
theorem of_release {older : List Push} {p : Push} (ha : p.place older = some a)
    (hnodup : p.blocks.Nodup) (hin : ∀ b ∈ p.blocks, s.mem.cell b ≠ none)
    (habove : ∀ b, s.mem.cell b ≠ none → question < b) (node : Node)
    (hnode : node.ec_context = some (p.contextAt older)) :
    Releases s p.blocks
      ((if p.contextAt older = emergencyText then [] else [some (p.contextAt older)]) ++
        if a = emergencyNode then [] else [some a]) (release s a node) := by
  rw [release, hnode]
  have hcontext := of_context older (fun b hb => hin b (List.mem_append_left _ hb)) habove
  refine hcontext.trans (of_node ha (fun b hb => ?_) fun b hb => ?_)
  · rw [hcontext.cell_ne_none]
    refine ⟨hin b (List.mem_append_right _ hb), fun hmem => ?_⟩
    exact List.disjoint_of_nodup_append hnodup hmem hb
  · exact habove b ((hcontext.cell_ne_none b).mp hb).1

/-- The nodes that are not in the blocks stay as they are. -/
theorem nodeAt_eq (h : Releases s bs ps s') (ha : a ∉ bs) : s'.nodeAt a = s.nodeAt a := by
  rw [State.nodeAt, State.nodeAt, h.cell, if_neg ha, h.static]

end Releases

theorem mem_entries {ps : List Push} {a : ℕ} (ha : a ∈ (entries ps).map Prod.fst) :
    a = emergencyNode ∨ a ∈ owned ps := by
  induction ps with
  | nil => exact absurd ha List.not_mem_nil
  | cons p ps ih =>
    rw [entries] at ha
    rw [owned]
    cases hplace : p.place ps with
    | none =>
      rw [hplace] at ha
      rw [if_pos rfl]
      exact ih ha
    | some b =>
      rw [hplace] at ha
      rw [if_neg (Option.some_ne_none b), List.mem_append]
      rcases List.mem_cons.mp ha with rfl | ha
      · rcases Push.node_of_place hplace with hnode | ⟨-, ha⟩
        · exact .inr (.inl (List.mem_append_right _ (by rw [hnode]; exact List.mem_cons_self)))
        · exact .inl ha
      · exact (ih ha).imp_right .inr

/-- **The loop of `ec_reinit`** reads what is in use, and frees the blocks of the list. -/
theorem releaseAll_eq {ps : List Push} {s : State} {fuel : ℕ} {e : Option ℕ}
    (hlinked : Linked Node.ec_next s.nodeAt e (entries ps)) (hnodup : (owned ps).Nodup)
    (hin : ∀ b ∈ owned ps, s.mem.cell b ≠ none) (habove : ∀ b, s.mem.cell b ≠ none → question < b)
    (hfuel : (entries ps).length < fuel) :
    ∃ s', releaseAll fuel s e = some s' ∧ Releases s (owned ps) (frees ps) s' := by
  induction ps generalizing s e fuel with
  | nil =>
    obtain rfl : e = none := hlinked
    obtain ⟨fuel, rfl⟩ := Nat.exists_eq_succ_of_ne_zero hfuel.ne_bot
    exact ⟨s, rfl, .nil⟩
  | cons p ps ih =>
    rw [entries] at hlinked hfuel
    rw [owned] at hnodup hin ⊢
    rw [frees]
    cases hplace : p.place ps with
    | none =>
      rw [hplace] at hlinked hfuel
      rw [if_pos hplace] at hnodup hin
      rw [if_pos rfl]
      exact ih hlinked hnodup hin habove hfuel
    | some a =>
      rw [hplace] at hlinked hfuel
      rw [if_neg (hplace ▸ Option.some_ne_none a)] at hnodup hin
      rw [if_neg (Option.some_ne_none a)]
      obtain ⟨rfl, hat, hlinked⟩ := hlinked
      obtain ⟨fuel, rfl⟩ := Nat.exists_eq_succ_of_ne_zero (Nat.ne_zero_of_lt hfuel)
      obtain ⟨hblocks, howned, hdisjoint⟩ := List.nodup_append'.mp hnodup
      dsimp only at hat hlinked
      set node : Node := ⟨(entries ps).head?.map Prod.fst, p.error.errno_arg, p.error.type,
        some (p.contextAt ps)⟩
      have hone := Releases.of_release hplace hblocks
        (fun b hb => hin b (List.mem_append_left _ hb)) habove node rfl
      have hapart : ∀ b ∈ (entries ps).map Prod.fst, b ∉ p.blocks := fun b hb hmem => by
        rcases mem_entries hb with rfl | hb
        · exact absurd (habove _ (hin _ (List.mem_append_left _ hmem))) (by decide)
        · exact hdisjoint hmem hb
      have hin' : ∀ b ∈ owned ps, (release s a node).mem.cell b ≠ none := fun b hb => by
        rw [hone.cell_ne_none]
        exact ⟨hin b (List.mem_append_right _ hb), fun hmem => hdisjoint hmem hb⟩
      obtain ⟨s', hs', hrest⟩ := ih (hlinked.congr fun b hb => hone.nodeAt_eq (hapart b hb)) howned
        hin' (fun b hb => habove b ((hone.cell_ne_none b).mp hb).1) (Nat.lt_of_succ_lt_succ hfuel)
      refine ⟨s', ?_, hone.trans hrest⟩
      rw [releaseAll, hat, Option.bind_eq_bind, Option.bind_some, hs']

theorem filter_singleton {b : ℕ} (hb : question < b) :
    [some b].filter (· ≠ some question) = [some b] :=
  List.filter_eq_self.mpr fun _ hc => decide_eq_true fun heq =>
    (ne_static hb).2.2 (Option.some.inj ((List.mem_singleton.mp hc).symm.trans heq))

theorem filter_context {older : List Push} {p : Push}
    (habove : ∀ b ∈ p.text.toList, question < b) :
    (if p.contextAt older = emergencyText then [] else [some (p.contextAt older)]).filter
      (· ≠ some question) = p.text.toList.map some := by
  cases htext : p.text with
  | some b =>
    have hb : question < b := habove b (by rw [htext]; exact List.mem_cons_self)
    rw [Push.contextAt_of_some htext, if_neg (ne_static hb).2.1, filter_singleton hb]
    rfl
  | none =>
    by_cases hall : ∀ q ∈ older, q.text ≠ none
    · rw [Push.contextAt_of_first htext hall]
      rfl
    · rw [Push.contextAt_of_not_first htext hall]
      rfl

theorem filter_node {older : List Push} {p : Push} {a : ℕ} (hplace : p.place older = some a)
    (habove : ∀ b ∈ p.node.toList, question < b) :
    (if a = emergencyNode then [] else [some a]).filter (· ≠ some question) =
      p.node.toList.map some := by
  rcases Push.node_of_place hplace with hnode | ⟨hnode, rfl⟩
  · rw [hnode] at habove ⊢
    have ha : question < a := habove a List.mem_cons_self
    rw [if_neg (ne_static ha).1, filter_singleton ha]
    rfl
  · rw [hnode]
    rfl

/-- What is freed, apart from the literal, are the blocks of the list. -/
theorem filter_frees {ps : List Push} (habove : ∀ b ∈ owned ps, question < b) :
    (frees ps).filter (· ≠ some question) = (owned ps).map some := by
  induction ps with
  | nil => rfl
  | cons p ps ih =>
    rw [owned] at habove ⊢
    rw [frees]
    cases hplace : p.place ps with
    | none =>
      rw [if_pos hplace] at habove
      rw [if_pos rfl]
      exact ih habove
    | some a =>
      rw [if_neg (hplace ▸ Option.some_ne_none a)] at habove
      have hblocks := fun b hb => habove b (List.mem_append_left _ hb)
      rw [if_neg (Option.some_ne_none a), List.filter_append, List.filter_append,
        filter_context fun b hb => hblocks b (List.mem_append_left _ hb),
        filter_node hplace fun b hb => hblocks b (List.mem_append_right _ hb),
        ih fun b hb => habove b (List.mem_append_right _ hb), List.map_append, Push.blocks,
        List.map_append]

theorem mem_frees {ps : List Push} (habove : ∀ b ∈ owned ps, question < b) {a : ℕ}
    (ha : question < a) : some a ∈ frees ps ↔ a ∈ owned ps := by
  have hne : some a ≠ some question := fun heq => (ne_static ha).2.2 (Option.some.inj heq)
  have hmem : some a ∈ (frees ps).filter (· ≠ some question) ↔ some a ∈ frees ps := by
    rw [List.mem_filter]
    exact and_iff_left (decide_eq_true hne)
  rw [← hmem, filter_frees habove, List.mem_map_of_injective (Option.some_injective ℕ)]

/-- **A call of `ec_reinit`** keeps what the calls say: the list is empty. -/
theorem Holds.reinit {s : State} {h : History} (hh : Holds s h) :
    ∃ s', step s .reinit = some s' ∧ Holds s' (h.next .reinit) ∧
      s'.calls = s.calls ++ (frees h.period).map MemoryCall.free ∧
        s' = { s with
          mem := s'.mem, calls := s'.calls, ec_head := none, ec_node_emergency := .zero
          ec_s_emergency := [] } := by
  have hin : ∀ b ∈ owned h.period, s.mem.cell b ≠ none := fun b hb =>
    (hh.inUse b).mpr (List.mem_append_left _ hb)
  obtain ⟨hnodup, hleaked, hdisjoint⟩ := List.nodup_append'.mp hh.nodup
  obtain ⟨s₁, hs₁, hrel⟩ := releaseAll_eq hh.linked hnodup hin hh.above hh.length_lt
  have hcell := hrel.cell_ne_none
  refine ⟨{ s₁ with ec_head := none, ec_node_emergency := .zero, ec_s_emergency := [] }, ?_,
    ⟨rfl, ?_, ?_, hleaked, fun a => ?_, fun a => ?_,
      fun a ha => hh.above a ((hcell a).mp ha).1, ?_⟩,
    hrel.calls, by rw [hrel.static]⟩
  · rw [step, ec_reinit, hs₁]
    rfl
  · exact iff_of_true rfl fun _ h => absurd h List.not_mem_nil
  · exact iff_of_true rfl fun _ h => absurd h List.not_mem_nil
  · rw [hcell, hh.inUse, List.mem_append]
    simp only [History.next, owned, List.nil_append]
    exact ⟨fun ha => ha.1.resolve_left ha.2, fun ha => ⟨.inr ha, fun hmem => hdisjoint hmem ha⟩⟩
  · rw [hcell, hrel.calls, inUse_frees, ← hh.called]
    exact and_congr_right fun ha =>
      not_congr (mem_frees (fun b hb => hh.above b (hin b hb)) (hh.above a ha)).symm
  · have hcount := hh.count
    rw [hrel.calls]
    simp only [History.next, owned, List.nil_append, List.length_append] at hcount ⊢
    omega

/-! ### Runs -/

/-- A step keeps what the calls say. -/
theorem Holds.step {s s' : State} {h : History} {l : Label} (hh : Holds s h) (hs : Step s l s') :
    Holds s' (h.next l) := by
  cases l with
  | push p => exact (hh.push hs).1
  | print =>
    obtain ⟨_, -, rfl⟩ := Option.map_eq_some_iff.mp hs
    exact hh
  | reinit =>
    obtain ⟨s₁, hs₁, hh₁, -⟩ := hh.reinit
    obtain rfl := Option.some.inj (hs.symm.trans hs₁)
    exact hh₁

/-- **In every run** the list is what the calls say. -/
theorem holds_run {as : List Label} {s : State} (hrun : Run Step start as s) :
    Holds s (history as) := by
  induction hrun with
  | refl => exact holds_start
  | tail _ hs ih =>
    rw [history_append]
    exact ih.step hs

end UnixStudy.Ec
