import UnixStudy.Foundations.Runs

/-!
# Calls of `malloc` and `free`

The calls of `malloc` and `free` in a run, in order. A pointer that is passed to `free` has to be
one that `malloc` has returned, and not to be freed again before `malloc` returns it another time.
A list of calls is right in this sense if and only if each pointer that is passed to `free` is in
use then.

## Main definitions

* `MemoryCall` : a call, with the pointer that it returns or is given.
* `FreesReturned`, `FreesOnce` : what is passed to `free` was returned by `malloc`, and once.
* `InUse` : what `malloc` has returned and was not freed since.

## Main results

* `inUse_malloc`, `inUse_free` : what is in use after a call.
* `frees_malloc_iff`, `frees_free_iff` : when one call more is right.
* `inUse_mallocs`, `inUse_frees`, `frees_mallocs_iff`, `frees_frees_iff` : the same for several
  calls.
-/

namespace UnixStudy

/-- A call of `malloc`, with the address that it returns, or of `free`, with the pointer that is
passed to it. The null pointer is `none`. -/
inductive MemoryCall
  | malloc (a : ℕ)
  | free (p : Option ℕ)
  deriving DecidableEq

/-- Every pointer that is passed to `free` was returned by `malloc`. -/
def FreesReturned (cs : List MemoryCall) : Prop :=
  ∀ as c bs, cs = as ++ c :: bs → ∀ p, c = .free p → ∃ a, p = some a ∧ .malloc a ∈ as

/-- Nothing is freed twice: between two calls of `free` for an address `malloc` returns it. -/
def FreesOnce (cs : List MemoryCall) : Prop :=
  ∀ as c bs, cs = as ++ c :: bs → ∀ a, c = .free (some a) →
    ∀ as₁ c₁ as₂, as = as₁ ++ c₁ :: as₂ → c₁ = .free (some a) → .malloc a ∈ as₂

/-- What `malloc` has returned and was not freed since. -/
def InUse (cs : List MemoryCall) (a : ℕ) : Prop :=
  ∃ as c bs, cs = as ++ c :: bs ∧ c = .malloc a ∧ .free (some a) ∉ bs

variable {cs : List MemoryCall} {a b : ℕ} {p : Option ℕ}

theorem not_inUse_nil : ¬ InUse [] a := fun ⟨_, _, _, h, _⟩ => nil_ne_append_cons h

/-- What is in use after a call of `malloc`. -/
theorem inUse_malloc : InUse (cs ++ [.malloc a]) b ↔ b = a ∨ InUse cs b := by
  rw [InUse, exists_split_append_singleton, or_comm]
  refine or_congr ?_ ?_
  · simp [eq_comm]
  · simp [InUse]

/-- What is in use after a call of `free`. -/
theorem inUse_free : InUse (cs ++ [.free p]) b ↔ InUse cs b ∧ p ≠ some b := by
  rw [InUse, exists_split_append_singleton, or_iff_left fun h => MemoryCall.noConfusion h.1, InUse]
  simp only [List.mem_append, List.mem_singleton, MemoryCall.free.injEq, not_or, eq_comm (b := p)]
  constructor
  · rintro ⟨as, c, bs, h, hc, hbs, hp⟩
    exact ⟨⟨as, c, bs, h, hc, hbs⟩, hp⟩
  · rintro ⟨⟨as, c, bs, h, hc, hbs⟩, hp⟩
    exact ⟨as, c, bs, h, hc, hbs, hp⟩

/-- What is in use has been returned, and was returned again whenever it was freed. -/
theorem inUse_iff : InUse cs a ↔
    .malloc a ∈ cs ∧ ∀ as c bs, cs = as ++ c :: bs → c = .free (some a) → .malloc a ∈ bs := by
  induction cs using List.reverseRecOn with
  | nil => exact iff_of_false not_inUse_nil fun h => List.not_mem_nil h.1
  | append_singleton cs c ih =>
    rw [forall_split_append_singleton, List.mem_append, List.mem_singleton]
    cases c with
    | malloc b =>
      rw [inUse_malloc, ih]
      simp only [List.mem_append, List.mem_singleton, MemoryCall.malloc.injEq, reduceCtorEq,
        false_imp_iff, and_true]
      by_cases hab : a = b
      · simp [hab]
      · simp [hab]
    | free p =>
      rw [inUse_free, ih]
      simp only [List.mem_append, List.mem_singleton, MemoryCall.free.injEq, reduceCtorEq,
        or_false, List.not_mem_nil, imp_false, and_assoc]

theorem freesReturned_nil : FreesReturned [] := fun _ _ _ h => absurd h nil_ne_append_cons

theorem freesOnce_nil : FreesOnce [] := fun _ _ _ h => absurd h nil_ne_append_cons

/-- A call of `malloc` is right in any case. -/
theorem frees_malloc_iff : FreesReturned (cs ++ [.malloc a]) ∧ FreesOnce (cs ++ [.malloc a]) ↔
    FreesReturned cs ∧ FreesOnce cs := by
  rw [FreesReturned, FreesOnce, forall_split_append_singleton, forall_split_append_singleton]
  simp only [reduceCtorEq, false_imp_iff, implies_true, and_true]
  rfl

/-- **A call of `free` is right** if and only if the pointer is in use. -/
theorem frees_free_iff : FreesReturned (cs ++ [.free p]) ∧ FreesOnce (cs ++ [.free p]) ↔
    (FreesReturned cs ∧ FreesOnce cs) ∧ ∃ a, p = some a ∧ InUse cs a := by
  rw [FreesReturned, FreesOnce, forall_split_append_singleton, forall_split_append_singleton]
  constructor
  · rintro ⟨⟨hreturned, hp⟩, honce, hpa⟩
    obtain ⟨a, ha, hmem⟩ := hp p rfl
    exact ⟨⟨hreturned, honce⟩, a, ha, inUse_iff.mpr ⟨hmem, hpa a (by rw [ha])⟩⟩
  · rintro ⟨⟨hreturned, honce⟩, a, rfl, huse⟩
    obtain ⟨hmem, hagain⟩ := inUse_iff.mp huse
    refine ⟨⟨hreturned, fun q hq => ⟨a, (MemoryCall.free.inj hq).symm, hmem⟩⟩, honce,
      fun b hb => ?_⟩
    obtain rfl := Option.some.inj (MemoryCall.free.inj hb)
    exact hagain

/-! ### Several calls -/

/-- What is in use after some calls of `malloc`. -/
theorem inUse_mallocs {as : List ℕ} :
    InUse (cs ++ as.map MemoryCall.malloc) b ↔ b ∈ as ∨ InUse cs b := by
  induction as generalizing cs with
  | nil => simp
  | cons a as ih =>
    rw [List.map_cons, List.append_cons, ih, inUse_malloc, List.mem_cons, or_left_comm, or_assoc]

/-- What is in use after some calls of `free`. -/
theorem inUse_frees {ps : List (Option ℕ)} :
    InUse (cs ++ ps.map MemoryCall.free) b ↔ InUse cs b ∧ some b ∉ ps := by
  induction ps generalizing cs with
  | nil => simp
  | cons p ps ih =>
    rw [List.map_cons, List.append_cons, ih, inUse_free, List.mem_cons, not_or, and_assoc,
      ne_comm]

/-- Some calls of `malloc` are right in any case. -/
theorem frees_mallocs_iff {as : List ℕ} :
    FreesReturned (cs ++ as.map MemoryCall.malloc) ∧ FreesOnce (cs ++ as.map MemoryCall.malloc) ↔
      FreesReturned cs ∧ FreesOnce cs := by
  induction as generalizing cs with
  | nil => simp
  | cons a as ih => rw [List.map_cons, List.append_cons, ih, frees_malloc_iff]

/-- **Some calls of `free` are right** if and only if the pointers are in use, and distinct. -/
theorem frees_frees_iff {ps : List (Option ℕ)} :
    FreesReturned (cs ++ ps.map MemoryCall.free) ∧ FreesOnce (cs ++ ps.map MemoryCall.free) ↔
      (FreesReturned cs ∧ FreesOnce cs) ∧ ps.Nodup ∧ ∀ p ∈ ps, ∃ a, p = some a ∧ InUse cs a := by
  induction ps generalizing cs with
  | nil => simp
  | cons p ps ih =>
    rw [List.map_cons, List.append_cons, ih, frees_free_iff, List.nodup_cons,
      List.forall_mem_cons, and_assoc]
    simp only [inUse_free]
    constructor
    · rintro ⟨hcs, hp, hnodup, hps⟩
      refine ⟨hcs, ⟨fun hmem => ?_, hnodup⟩, hp, fun q hq => ?_⟩
      · obtain ⟨a, rfl, -, hne⟩ := hps p hmem
        exact hne rfl
      · obtain ⟨a, rfl, huse, -⟩ := hps q hq
        exact ⟨a, rfl, huse⟩
    · rintro ⟨hcs, ⟨hmem, hnodup⟩, hp, hps⟩
      refine ⟨hcs, hp, hnodup, fun q hq => ?_⟩
      obtain ⟨a, rfl, huse⟩ := hps q hq
      exact ⟨a, rfl, huse, fun heq => hmem (heq ▸ hq)⟩

end UnixStudy
