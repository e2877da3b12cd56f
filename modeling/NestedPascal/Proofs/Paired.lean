import Mathlib.Data.List.Forall2

/-!
# Outcomes in pairs

Two outcomes are compared by what is asked of two results and of two errors.  So are two lists and
two values that may be absent, item by item.  What functions make the same is compared by what any
two values have in common that they make the same.
-/

namespace NestedPascal

/-- Two outcomes of one kind. -/
inductive Paired {ε α : Type} (E : ε → ε → Prop) (A : α → α → Prop) :
    Except ε α → Except ε α → Prop where
  | ok {a a'} : A a a' → Paired E A (.ok a) (.ok a')
  | error {e e'} : E e e' → Paired E A (.error e) (.error e')

theorem Paired.imp {ε α : Type} {E E' : ε → ε → Prop} {A A' : α → α → Prop} {r r' : Except ε α}
    (h : Paired E A r r') (hE : ∀ e e', E e e' → E' e e') (hA : ∀ a a', A a a' → A' a a') :
    Paired E' A' r r' := by
  cases h with
  | ok ha => exact .ok (hA _ _ ha)
  | error he => exact .error (hE _ _ he)

/-- Two outcomes are of one kind with results and errors whose images are the same. -/
theorem Paired.of_images_eq {ε ε' α β : Type} {E : ε → ε → Prop} {A : α → α → Prop}
    {f f' : α → β} {g g' : ε → ε'} {r r' : Except ε α} (hA : ∀ a a', f a = f' a' → A a a')
    (hE : ∀ e e', g e = g' e' → E e e')
    (h : (r.map f).mapError g = (r'.map f').mapError g') : Paired E A r r' := by
  cases r with
  | ok a =>
      cases r' with
      | ok a' => exact .ok (hA a a' (Except.ok.inj h))
      | error e' => contradiction
  | error e =>
      cases r' with
      | ok a' => contradiction
      | error e' => exact .error (hE e e' (Except.error.inj h))

theorem Paired.of_mapError_eq {ε ε' α β : Type} {E : ε → ε → Prop} {A : α → α → Prop}
    {f : α → β} {g : ε → ε'} {r r' : Except ε α} (hA : ∀ a a', f a = f a' → A a a')
    (hE : ∀ e e', g e = g e' → E e e')
    (h : (r.map f).mapError g = (r'.map f).mapError g) : Paired E A r r' :=
  of_images_eq hA hE h

/-- What two lists are that a function does not tell apart. -/
theorem forall₂_of_map_eq {α β : Type} {R : α → α → Prop} {f : α → β}
    (hR : ∀ a a', f a = f a' → R a a') {as as' : List α} (h : as.map f = as'.map f) :
    List.Forall₂ R as as' := by
  have hrelated : List.Forall₂ (· = ·) (as.map f) (as'.map f) := List.forall₂_eq_eq_eq ▸ h
  rw [List.forall₂_map_left_iff, List.forall₂_map_right_iff] at hrelated
  exact hrelated.imp hR

theorem exists_paired_of_getElem? {α β : Type} {R : α → β → Prop} {as : List α} {bs : List β}
    (h : List.Forall₂ R as bs) {i : Nat} {a : α} (ha : as[i]? = some a) :
    ∃ b, bs[i]? = some b ∧ R a b := by
  induction h generalizing i with
  | nil => simp at ha
  | cons hfirst _ ih =>
      cases i with
      | zero =>
          rw [List.getElem?_cons_zero, Option.some.injEq] at ha
          subst a
          exact ⟨_, rfl, hfirst⟩
      | succ i => exact ih ha

/-- What two values are whose images are the same; else both are absent. -/
theorem optionRel_of_map_eq {α β : Type} {R : α → α → Prop} {f f' : α → β}
    (hR : ∀ a a', f a = f' a' → R a a') {o o' : Option α} (h : o.map f = o'.map f') :
    Option.Rel R o o' := by
  cases o with
  | none =>
      cases o' with
      | none => exact .none
      | some a' => contradiction
  | some a =>
      cases o' with
      | none => contradiction
      | some a' => exact .some (hR a a' (Option.some.inj h))

end NestedPascal
