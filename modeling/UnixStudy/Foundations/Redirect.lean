import UnixStudy.Foundations.Descriptors

/-!
# Redirecting a descriptor

A program redirects one of its standard descriptors in three calls: it opens a file, or takes a
descriptor it holds; it duplicates this onto the standard descriptor; and it closes the original.
Each of the calls may fail. `FdTable.slot_redirect` says what every slot is afterwards: the
redirected one names the new object if there was one to name and `dup2` succeeded, and the original
is closed in any case.

## Main definitions

* `Supply`, `Supply.get`, `Supply.object` : where the new object comes from.
* `FdTable.redirect` : the three calls.

## Main results

* `FdTable.slot_redirect` : the slots after a redirection.
-/

namespace UnixStudy

/-- Where the object for a redirection comes from: a file, and whether it can be opened, or a
descriptor. -/
inductive Supply (α : Type*)
  | file (ok : Bool) (a : α)
  | held (fd : ℤ)

namespace Supply

variable {α : Type*}

/-- The descriptor that is duplicated, or `-1`, and the table that has it. -/
def get (t : FdTable α) : Supply α → ℤ × FdTable α
  | file ok a => t.sysOpen ok a
  | held fd => (fd, t)

/-- The object that the descriptor names, if there is one to name. -/
def object (t : FdTable α) (target : ℕ) : Supply α → Option α
  | file ok a => if ok then some a else none
  | held fd => if fd = target ∨ fd < 0 then none else t.slot fd.toNat

/-- The descriptor that is held. -/
def fd : Supply α → ℤ
  | file _ _ => -1
  | held fd => fd

end Supply

namespace FdTable

variable {α : Type*} (t : FdTable α)

/-- Duplicate a descriptor onto `target`, and close it unless it is `target`. -/
def sysMove (ok : Bool) (fd : ℤ) (target : ℕ) : FdTable α :=
  let t' := t.sysDup2 ok fd target
  if fd ≠ target then t'.sysClose fd else t'

/-- Redirect `target`; `ok` says whether `dup2` succeeds. -/
def redirect (supply : Supply α) (ok : Bool) (target : ℕ) : FdTable α :=
  (supply.get t).2.sysMove ok (supply.get t).1 target

theorem slot_sysMove_self (ok : Bool) (target m : ℕ) :
    (t.sysMove ok target target).slot m = t.slot m := by
  rw [sysMove, if_neg (not_not.mpr rfl)]
  exact t.slot_sysDup2_self ok target m

theorem slot_sysMove_neg_one (ok : Bool) (target m : ℕ) :
    (t.sysMove ok (-1) target).slot m = t.slot m := by
  have hne : (-1 : ℤ) ≠ target := by omega
  rw [sysMove, if_pos hne, sysDup2_neg_one, sysClose_neg_one]

theorem slot_sysMove {n target : ℕ} (hne : n ≠ target) (h : t.IsOpen n) (ok : Bool) (m : ℕ) :
    (t.sysMove ok n target).slot m =
      if m = n then none else if m = target ∧ ok then t.slot n else t.slot m := by
  have hne' : (n : ℤ) ≠ target := fun h => hne (Int.natCast_inj.mp h)
  rw [sysMove, if_pos hne', sysClose_natCast, slot_close]
  refine if_congr Iff.rfl rfl ?_
  cases ok with
  | true =>
    rw [slot_sysDup2 t h]
    simp
  | false => simp

/-- The supplied object depends on the slot of the descriptor that is held. -/
theorem object_congr {t t' : FdTable α} {supply : Supply α} {target : ℕ} {P : ℕ → Prop}
    (hheld : supply.fd = target ∨ supply.fd = -1 ∨ ∃ d : ℕ, supply.fd = d ∧ P d)
    (h : ∀ d : ℕ, supply.fd = d → P d → t'.slot d = t.slot d) :
    supply.object t' target = supply.object t target := by
  cases supply with
  | file => rfl
  | held fd =>
    simp only [Supply.object]
    rcases hheld with hfd | hfd | ⟨d, hfd, hd⟩ <;> rw [Supply.fd] at hfd
    · rw [if_pos (Or.inl hfd), if_pos (Or.inl hfd)]
    · have hneg : fd < 0 := by omega
      rw [if_pos (Or.inr hneg), if_pos (Or.inr hneg)]
    · rw [hfd, Int.toNat_natCast, h d hfd hd]

/-- **Redirection.** The redirected descriptor names the supplied object, or what it did before, and
the descriptor that was held is closed. -/
theorem slot_redirect {supply : Supply α} {target n : ℕ} (htarget : target < n)
    (hlow : ∀ m < n, t.IsOpen m) (hheld : supply.fd = target ∨ supply.fd = -1 ∨
      ∃ d : ℕ, supply.fd = d ∧ n ≤ d ∧ t.IsOpen d) (ok : Bool) (m : ℕ) :
    (t.redirect supply ok target).slot m =
      if m = target then (if ok then supply.object t target else none).or (t.slot m)
      else if (m : ℤ) = supply.fd then none else t.slot m := by
  cases supply with
  | file openOk a =>
    have hfd : (m : ℤ) ≠ (Supply.file openOk a).fd := by
      rw [Supply.fd]
      omega
    rw [if_neg hfd, redirect, Supply.get, Supply.object]
    cases openOk with
    | true =>
      obtain ⟨d, hopen, hd, hfree⟩ := t.exists_sysOpen a hlow
      have hput : (t.put d a).IsOpen d := t.isOpen_put.mpr (Or.inl rfl)
      rw [hopen, slot_sysMove _ (by omega) hput, slot_put_self]
      by_cases hm : m = d
      · subst hm
        rw [if_pos rfl, if_neg (by omega), hfree]
      · rw [if_neg hm, slot_put_of_ne _ _ hm]
        cases ok <;> by_cases hmt : m = target <;> simp [hmt]
    | false =>
      rw [sysOpen, if_neg Bool.false_ne_true, slot_sysMove_neg_one]
      simp
  | held fd =>
    rw [redirect, Supply.get, Supply.object, Supply.fd]
    rw [Supply.fd] at hheld
    rcases hheld with rfl | rfl | ⟨d, rfl, hd, hopen⟩
    · rw [slot_sysMove_self]
      by_cases hm : m = target
      · simp [hm]
      · rw [if_neg hm, if_neg (mt Int.natCast_inj.mp hm)]
    · have hfd : (m : ℤ) ≠ -1 := by omega
      rw [slot_sysMove_neg_one, if_neg hfd]
      simp
    · obtain ⟨a, ha⟩ := t.isOpen_iff.mp hopen
      have hne : ¬ ((d : ℤ) = target ∨ (d : ℤ) < 0) := by omega
      rw [slot_sysMove _ (by omega) hopen, if_neg hne, Int.toNat_natCast, ha]
      by_cases hm : m = d
      · subst hm
        rw [if_pos rfl, if_neg (by omega), if_pos rfl]
      · rw [if_neg hm, if_neg (mt Int.natCast_inj.mp hm)]
        cases ok <;> by_cases hmt : m = target <;> simp [hmt]

end FdTable

end UnixStudy
