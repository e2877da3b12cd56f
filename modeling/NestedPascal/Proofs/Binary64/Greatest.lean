import NestedPascal.Binary64.Basic

/-!
# The greatest of some numbers

The greater of two numbers is the first unless the second is strictly greater, so that of numbers
that are equal the earlier stays, and what is no number never gets in.  The greatest of a list is
found by going through it once.
-/

namespace NestedPascal

namespace Binary64

/-- The greater of two numbers; what is no number is never greater. -/
def greater (x y : Binary64) : Binary64 :=
  if x.lt y then y else x

theorem lt_nan (x : Binary64) : x.lt nan = false := by
  cases x <;> rfl

theorem lt_trans {x y z : Binary64} (hxy : x.lt y = true) (hyz : y.lt z = true) :
    x.lt z = true := by
  rcases x with _ | s | ⟨s, u, _⟩ <;> rcases y with _ | t | ⟨t, v, _⟩ <;>
    rcases z with _ | r | ⟨r, w, _⟩ <;> simp_all [lt]
  exact Int.lt_trans hxy hyz

/-- Nothing greater is reached by steps that do not go up. -/
theorem not_lt_trans {x y z : Binary64} (hy : y ≠ nan) (hxy : x.lt y = false)
    (hyz : y.lt z = false) : x.lt z = false := by
  rcases x with _ | s | ⟨s, u, _⟩ <;> rcases y with _ | t | ⟨t, v, _⟩ <;>
    rcases z with _ | r | ⟨r, w, _⟩ <;> simp_all [lt]
  exact Int.le_trans hyz hxy

theorem greater_ne_nan {x y : Binary64} (hx : x ≠ nan) : x.greater y ≠ nan := by
  rw [greater]
  split
  next hlt =>
    rintro rfl
    simp [lt_nan] at hlt
  next => exact hx

theorem greater_assoc (x : Binary64) {y : Binary64} (hy : y ≠ nan) (z : Binary64) :
    (x.greater y).greater z = x.greater (y.greater z) := by
  cases hxy : x.lt y <;> cases hyz : y.lt z
  · simp [greater, hxy, hyz, not_lt_trans hy hxy hyz]
  · simp [greater, hxy, hyz]
  · simp [greater, hxy, hyz]
  · simp [greater, hxy, hyz, lt_trans hxy hyz]

/-- Several numbers join in at once by the greatest of them. -/
theorem foldl_greater (x : Binary64) {y : Binary64} (hy : y ≠ nan) (zs : List Binary64) :
    zs.foldl greater (x.greater y) = x.greater (zs.foldl greater y) := by
  induction zs generalizing y with
  | nil => rfl
  | cons z zs ih =>
      rw [List.foldl_cons, List.foldl_cons, greater_assoc x hy, ih (greater_ne_nan hy)]

/-- The greatest is not below what nothing was below before. -/
theorem foldl_greater_not_lt {x z : Binary64} (h : x.lt z = false) (ys : List Binary64) :
    (ys.foldl greater x).lt z = false := by
  induction ys generalizing x with
  | nil => exact h
  | cons y ys ih =>
      apply ih
      rw [greater]
      split
      next hxy =>
        cases hyz : y.lt z with
        | false => rfl
        | true => rw [lt_trans hxy hyz] at h; contradiction
      next => exact h

/-- The greatest of the numbers of two lists is the greater of what is greatest in each. -/
theorem foldl_greater_append {z : Binary64} (hz : z ≠ nan) (hself : z.lt z = false)
    (xs ys : List Binary64) :
    (xs ++ ys).foldl greater z = (xs.foldl greater z).greater (ys.foldl greater z) := by
  have hfirst : (xs.foldl greater z).greater z = xs.foldl greater z := by
    rw [greater, foldl_greater_not_lt hself, if_neg Bool.false_ne_true]
  rw [List.foldl_append, ← foldl_greater _ hz, hfirst]

end Binary64

end NestedPascal
