import UnixStudy.Foundations.CStrings

/-!
# The paths of lock files

The path of a lock file is made from the name of the lock, in an array. `snprintf` returns the
length of the whole path, without the NUL, and the path is refused if that is larger than the size
of the array. A path of exactly that length is not refused, and its last character is lost.

## Main definitions

* `lockpath`, `lock` : the functions of `lock.c`.
* `PathRight`, `LocksApart` : the path is whole or refused; different names have different paths.

## Main results

* `lockpath_of_lt`, `lockpath_of_le`, `lockpath_eq` : the path of a long name, and of a short one.
* `pathRight_iff` : when the path is right.
* `locksApart_iff` : when different names have different paths.

## References

* `src/basic_io/lock.c`, lines 1–21.
-/

namespace UnixStudy.Lock

/-- `LOCKDIR`. -/
def LOCKDIR : List UInt8 := [47, 116, 109, 112, 47]

/-- `sizeof(path)`. -/
abbrev pathSize : ℕ := 100

/-- `lockpath`: the null pointer if the result of `snprintf`, as a `size_t`, is larger than the
array, and else the contents of the static array when it returns. -/
def lockpath (name : CString) : Option (List UInt8) :=
  let written := snprintf pathSize (LOCKDIR ++ name.chars)
  if pathSize < toSizeT written.1 then none else some written.2

/-- The variables of `lock`. -/
structure Locking where
  path : List UInt8
  tries : ℕ

/-- `lock`, as far as it goes. -/
def lock (name : CString) : Option Locking := do
  let path ← lockpath name
  some ⟨path, 0⟩

/-- There is no path, or the whole one; and there is none if it does not fit with its NUL. -/
structure PathRight (name : CString) : Prop where
  whole : lockpath name = none ∨ lockpath name = some (LOCKDIR ++ name.chars)
  refused : pathSize < (LOCKDIR ++ name.chars).length + 1 → lockpath name = none

/-- The paths are right, and different names for which there is a lock have different paths. -/
structure LocksApart (name name' : CString) : Prop where
  left : PathRight name
  right : PathRight name'
  apart : name ≠ name' → ∀ l l', lock name = some l → lock name' = some l' → l.path ≠ l'.path

variable {name name' : CString}

theorem length_path : (LOCKDIR ++ name.chars).length = name.chars.length + 5 := by
  rw [List.length_append, Nat.add_comm, show LOCKDIR.length = 5 from rfl]

/-- A path that is longer than the array is refused. -/
theorem lockpath_of_lt (h : 95 < name.chars.length) : lockpath name = none := by
  refine if_pos ((lt_toSizeT_snprintf_iff (by decide)).mpr ?_)
  rw [length_path]
  exact Nat.add_lt_add_right h 5

/-- A path that is not longer is not refused. -/
theorem lockpath_of_le (h : name.chars.length ≤ 95) :
    lockpath name = some (snprintf pathSize (LOCKDIR ++ name.chars)).2 := by
  refine if_neg (mt (lt_toSizeT_snprintf_iff (by decide)).mp ?_)
  rw [length_path, Nat.not_lt]
  exact Nat.add_le_add_right h 5

/-- A path that is shorter than the array is whole. -/
theorem lockpath_eq (h : name.chars.length < 95) :
    lockpath name = some (LOCKDIR ++ name.chars) := by
  refine (lockpath_of_le h.le).trans (congrArg some ((snprintf_eq_iff (by decide)).mpr ?_))
  rw [length_path]
  exact Nat.add_lt_add_right h 5

/-- **The path is right** unless it has as many characters as the array. -/
theorem pathRight_iff : PathRight name ↔ name.chars.length ≠ 95 := by
  constructor
  · intro h hlength
    have hnone := h.refused (by rw [length_path, hlength]; decide)
    exact Option.some_ne_none _ ((lockpath_of_le hlength.le).symm.trans hnone)
  · intro hlength
    rcases Nat.lt_or_gt_of_ne hlength with hlt | hgt
    · refine ⟨.inr (lockpath_eq hlt), fun hsize => ?_⟩
      rw [length_path] at hsize
      exact absurd hsize (Nat.not_lt.mpr (Nat.add_le_add_right hlt 5))
    · exact ⟨.inl (lockpath_of_lt hgt), fun _ => lockpath_of_lt hgt⟩

/-- Whole paths are different. -/
theorem PathRight.path_eq (h : PathRight name) {l : Locking} (hl : lock name = some l) :
    l.path = LOCKDIR ++ name.chars := by
  obtain ⟨path, hpath, hl⟩ := Option.bind_eq_some_iff.mp hl
  obtain rfl := Option.some.inj hl
  rcases h.whole with hnone | hwhole
  · exact absurd (hpath.symm.trans hnone) (Option.some_ne_none _)
  · exact Option.some.inj (hpath.symm.trans hwhole)

/-- **When different names have different paths**: if and only if no path has as many characters as
the array, so that its last one would be lost. -/
theorem locksApart_iff :
    LocksApart name name' ↔ name.chars.length ≠ 95 ∧ name'.chars.length ≠ 95 := by
  constructor
  · exact fun h => ⟨pathRight_iff.mp h.left, pathRight_iff.mp h.right⟩
  · rintro ⟨hname, hname'⟩
    have hright := pathRight_iff.mpr hname
    have hright' := pathRight_iff.mpr hname'
    refine ⟨hright, hright', fun hne l l' hl hl' h => hne (CString.ext ?_)⟩
    rw [hright.path_eq hl, hright'.path_eq hl'] at h
    exact List.append_cancel_left h

/-- Two names of 95 characters, which differ in the last one. -/
def lastA : CString := ⟨List.replicate 94 97 ++ [65], by decide⟩

def lastB : CString := ⟨List.replicate 94 97 ++ [66], by decide⟩

/-- Both paths are one character short, and the same. -/
theorem not_locksApart : lastA ≠ lastB ∧ lockpath lastA = lockpath lastB ∧
    lockpath lastA = some (LOCKDIR ++ List.replicate 94 97) ∧ ¬ LocksApart lastA lastB := by
  refine ⟨fun h => absurd (congrArg CString.chars h) (by decide), by decide, by decide, fun h => ?_⟩
  exact pathRight_iff.mp h.left rfl

end UnixStudy.Lock
