import NestedPascal.Decimal.Layout
import NestedPascal.Proofs.Decimal.Shortest

/-!
# What the text of a decimal says

However a decimal is laid out, its text is digits, possibly a point with more digits, and possibly an
exponent, and these parts make a decimal of the same value.
-/

namespace NestedPascal

/-! ## Runs of digits -/

theorem isDigit_of_mem_toDigits {n : Nat} {c : Char} (h : c ∈ Nat.toDigits 10 n) :
    isDigit c = true := by
  have hdigit := Nat.isDigit_of_mem_toDigits (by decide) (by decide) h
  simp only [Char.isDigit, Bool.and_eq_true, decide_eq_true_eq] at hdigit
  simp only [isDigit, Bool.and_eq_true, decide_eq_true_eq]
  exact hdigit

theorem head?_toDigits_ne_zero {n : Nat} (hn : n ≠ 0) : (Nat.toDigits 10 n).head? ≠ some '0' := by
  induction n using Nat.strong_induction_on with
  | _ n ih =>
      rw [Nat.toDigits_eq_if (by decide)]
      by_cases hsmall : n < 10
      · have hdigit : ∀ m < 10, m ≠ 0 → [m.digitChar].head? ≠ some '0' := by decide
        rw [if_pos hsmall]
        exact hdigit n hsmall hn
      · have hhead := ih (n / 10) (by omega) (by omega)
        rw [if_neg hsmall, List.head?_append_of_ne_nil _ Nat.toDigits_ne_nil]
        exact hhead

theorem decimalValue_toDigits (n : Nat) : decimalValue (Nat.toDigits 10 n) = n :=
  Nat.ofDigitChars_ten_toDigits

theorem decimalValue_append_zeros (digits : List Char) (zeros : Nat) :
    decimalValue (digits ++ List.replicate zeros '0') = decimalValue digits * 10 ^ zeros := by
  change Nat.ofDigitChars 10 _ 0 = Nat.ofDigitChars 10 _ 0 * _
  rw [Nat.ofDigitChars_append, Nat.ofDigitChars_replicate_zero, Nat.mul_comm]

theorem decimalValue_zeros_append (zeros : Nat) (digits : List Char) :
    decimalValue (List.replicate zeros '0' ++ digits) = decimalValue digits := by
  change Nat.ofDigitChars 10 _ 0 = Nat.ofDigitChars 10 _ 0
  rw [Nat.ofDigitChars_append, Nat.ofDigitChars_replicate_zero, Nat.mul_zero]

/-- Digits without the zeros at their end. -/
theorem strip_zeros {digits : List Char} (hhead : digits.head? ≠ some '0') (hdigits : digits ≠ []) :
    ∃ kept zeros, (digits.reverse.dropWhile (· == '0')).reverse = kept ∧ kept ≠ [] ∧
      digits = kept ++ List.replicate zeros '0' := by
  have hzeros : (digits.reverse.takeWhile (· == '0')).reverse =
      List.replicate (digits.reverse.takeWhile (· == '0')).length '0' := by
    rw [List.eq_replicate_iff, List.length_reverse]
    refine ⟨rfl, ?_⟩
    intro c hc
    have hall := List.all_takeWhile (l := digits.reverse) (p := (· == '0'))
    exact eq_of_beq (List.all_eq_true.mp hall c (List.mem_reverse.mp hc))
  have hsplit : digits = (digits.reverse.dropWhile (· == '0')).reverse ++
      List.replicate (digits.reverse.takeWhile (· == '0')).length '0' := by
    rw [← hzeros, ← List.reverse_append, List.takeWhile_append_dropWhile, List.reverse_reverse]
  refine ⟨_, _, rfl, ?_, hsplit⟩
  intro hnone
  rw [hnone, List.nil_append] at hsplit
  cases hcount : (digits.reverse.takeWhile (· == '0')).length with
  | zero =>
      rw [hcount] at hsplit
      exact hdigits hsplit
  | succ n =>
      rw [hcount, List.replicate_succ] at hsplit
      rw [hsplit] at hhead
      exact hhead rfl

/-! ## The parts of a number's text -/

/-- The parts of the text of a number. -/
structure NumberParts where
  whole : List Char
  fraction : List Char
  exponent : Option Int

namespace NumberParts

def exponentText (n : Int) : List Char :=
  'e' :: (if n < 0 then '-' else '+') :: Nat.toDigits 10 n.natAbs

def text (t : NumberParts) : List Char :=
  t.whole ++ (if t.fraction = [] then [] else '.' :: t.fraction) ++
    (t.exponent.map exponentText).getD []

/-- The decimal that the parts make. -/
def decimal (t : NumberParts) (negative : Bool) : Decimal :=
  .ofParts negative t.whole t.fraction (t.exponent.getD 0)

/-- Digits in their places, and no zero that could be left out at the front. -/
structure Proper (t : NumberParts) : Prop where
  nonempty : t.whole ≠ []
  whole : ∀ c ∈ t.whole, isDigit c = true
  fraction : ∀ c ∈ t.fraction, isDigit c = true
  zero : t.whole.head? = some '0' → t.whole = ['0']

theorem Proper.head {t : NumberParts} (h : t.Proper) :
    ∃ first after, t.text = first :: after ∧ isDigit first = true := by
  obtain ⟨first, whole, hwhole⟩ := List.exists_cons_of_ne_nil h.nonempty
  have hfirst : isDigit first = true := h.whole first (by simp [hwhole])
  rw [text, hwhole]
  exact ⟨first, _, rfl, hfirst⟩

end NumberParts

/-- The parts are proper ones that say some digits with the point at some place. -/
structure NumberParts.Says (t : NumberParts) (digits : List Char) (point : Int) : Prop where
  proper : t.Proper
  value : ∀ negative, (t.decimal negative).toBinary64 =
    (Decimal.mk negative (decimalValue digits) (point - digits.length)).toBinary64

/-! ## The places of the point -/

section

variable {digits : List Char} {point : Int}

theorem isDigit_of_mem_zeros (n : Nat) : ∀ c ∈ List.replicate n '0', isDigit c = true := by
  intro c hc
  rw [List.eq_of_mem_replicate hc]
  rfl

theorem NumberParts.says_whole (hdigits : ∀ c ∈ digits, isDigit c = true) (hne : digits ≠ [])
    (hhead : digits.head? ≠ some '0') (hpoint : digits.length ≤ point) :
    NumberParts.Says ⟨digits ++ List.replicate (point - digits.length).toNat '0', [], none⟩ digits
      point := by
  refine ⟨⟨by simp [hne], ?_, by simp, ?_⟩, ?_⟩
  · intro c hc
    exact (List.mem_append.mp hc).elim (hdigits c) (isDigit_of_mem_zeros _ c)
  · intro hzero
    rw [List.head?_append_of_ne_nil _ hne] at hzero
    exact absurd hzero hhead
  · intro negative
    have hexponent : 0 + ((point - digits.length).toNat : Int) = point - digits.length := by omega
    simp only [NumberParts.decimal, Decimal.ofParts, List.append_nil, Option.getD_none,
      List.length_nil, Int.natCast_zero, Int.sub_zero, decimalValue_append_zeros]
    rw [Decimal.toBinary64_mul_pow, hexponent]

theorem NumberParts.says_cut (hdigits : ∀ c ∈ digits, isDigit c = true) (hhead : digits.head? ≠ some '0')
    (hpositive : 0 < point) (hpoint : point < digits.length) :
    NumberParts.Says ⟨digits.take point.toNat, digits.drop point.toNat, none⟩ digits point := by
  refine ⟨⟨?_, fun c hc => hdigits c (List.mem_of_mem_take hc),
    fun c hc => hdigits c (List.mem_of_mem_drop hc), ?_⟩, ?_⟩
  · rw [← List.length_pos_iff, List.length_take]
    omega
  · intro hzero
    rw [List.head?_take, if_neg (by omega)] at hzero
    exact absurd hzero hhead
  · intro negative
    have hexponent : (0 : Int) - (digits.drop point.toNat).length = point - digits.length := by
      rw [List.length_drop]
      omega
    simp only [NumberParts.decimal, Decimal.ofParts, List.take_append_drop, Option.getD_none,
      hexponent]

theorem NumberParts.says_small (hdigits : ∀ c ∈ digits, isDigit c = true) (hpoint : point ≤ 0) :
    NumberParts.Says ⟨['0'], List.replicate (-point).toNat '0' ++ digits, none⟩ digits point := by
  refine ⟨⟨by simp, by simp [isDigit], ?_, by simp⟩, ?_⟩
  · intro c hc
    exact (List.mem_append.mp hc).elim (isDigit_of_mem_zeros _ c) (hdigits c)
  · intro negative
    have hexponent : (0 : Int) - (List.replicate (-point).toNat '0' ++ digits).length =
        point - digits.length := by
      rw [List.length_append, List.length_replicate]
      omega
    have hvalue : decimalValue (['0'] ++ (List.replicate (-point).toNat '0' ++ digits)) =
        decimalValue digits := by
      rw [← decimalValue_zeros_append ((-point).toNat + 1) digits, List.replicate_succ]
      rfl
    simp only [NumberParts.decimal, Decimal.ofParts, Option.getD_none, hexponent, hvalue]

theorem NumberParts.says_scientific {first : Char} {rest : List Char}
    (hdigits : ∀ c ∈ first :: rest, isDigit c = true) (hfirst : first ≠ '0') :
    NumberParts.Says ⟨[first], rest, some (point - 1)⟩ (first :: rest) point := by
  refine ⟨⟨by simp, ?_, fun c hc => hdigits c (List.mem_cons_of_mem _ hc), ?_⟩, ?_⟩
  · exact List.forall_mem_singleton.mpr (hdigits first List.mem_cons_self)
  · intro hzero
    exact absurd (Option.some.inj hzero) hfirst
  · intro negative
    have hexponent : point - 1 - (rest.length : Int) = point - (first :: rest).length := by
      rw [List.length_cons]
      omega
    simp only [NumberParts.decimal, Decimal.ofParts, List.singleton_append, Option.getD_some,
      hexponent]

theorem NumberLayout.write_eq (hdigits : ∀ c ∈ digits, isDigit c = true) (hne : digits ≠ [])
    (hhead : digits.head? ≠ some '0') (point : Int) :
    ∃ t : NumberParts, t.Says digits point ∧
      (numberLayout.write digits point).toList = t.text := by
  unfold write
  simp only
  split
  next hnear =>
    split
    next hwhole =>
      refine ⟨_, NumberParts.says_whole hdigits hne hhead hwhole, ?_⟩
      simp [NumberParts.text]
    next hwhole =>
      split
      next hpositive =>
        have hfraction : digits.drop point.toNat ≠ [] := by
          rw [← List.length_pos_iff, List.length_drop]
          omega
        refine ⟨_, NumberParts.says_cut hdigits hhead hpositive (by omega), ?_⟩
        simp [NumberParts.text, hfraction]
      next hpositive =>
        refine ⟨_, NumberParts.says_small hdigits (by omega), ?_⟩
        simp [NumberParts.text, hne]
  next hfar =>
    obtain ⟨first, rest, rfl⟩ := List.exists_cons_of_ne_nil hne
    refine ⟨_, NumberParts.says_scientific hdigits fun hfirst => hhead (congrArg some hfirst), ?_⟩
    cases rest with
    | nil => simp [NumberParts.text, NumberParts.exponentText]
    | cons second rest => simp [NumberParts.text, NumberParts.exponentText]

end

namespace Decimal

/-- The digits that are written, without the zeros at their end. -/
def significant (d : Decimal) : List Char :=
  ((Nat.toDigits 10 d.digits).reverse.dropWhile (· == '0')).reverse

theorem toDigits_eq_significant {d : Decimal} (hd : d.digits ≠ 0) :
    d.significant ≠ [] ∧
      ∃ zeros, Nat.toDigits 10 d.digits = d.significant ++ List.replicate zeros '0' := by
  obtain ⟨kept, zeros, hkept, hne, heq⟩ :=
    strip_zeros (head?_toDigits_ne_zero hd) Nat.toDigits_ne_nil
  rw [significant, hkept]
  exact ⟨hne, zeros, heq⟩

theorem isDigit_of_mem_significant {d : Decimal} {c : Char} (hc : c ∈ d.significant) :
    isDigit c = true := by
  rw [significant, List.mem_reverse] at hc
  have hmem := (List.dropWhile_suffix _).subset hc
  exact isDigit_of_mem_toDigits (List.mem_reverse.mp hmem)

theorem digits_eq_significant {d : Decimal} {zeros : Nat}
    (h : Nat.toDigits 10 d.digits = d.significant ++ List.replicate zeros '0') :
    d.digits = decimalValue d.significant * 10 ^ zeros := by
  rw [← decimalValue_append_zeros, ← h, decimalValue_toDigits]

theorem head?_significant_ne_zero {d : Decimal} (hd : d.digits ≠ 0) :
    d.significant.head? ≠ some '0' := by
  obtain ⟨hne, zeros, heq⟩ := toDigits_eq_significant hd
  have hall := head?_toDigits_ne_zero hd
  rwa [heq, List.head?_append_of_ne_nil _ hne] at hall

theorem write_eq {d : Decimal} (hd : d.digits ≠ 0) :
    ∃ t : NumberParts, t.Proper ∧ (d.write numberLayout).toList = t.text ∧
      ∀ negative, (t.decimal negative).toBinary64 =
        (Decimal.mk negative d.digits d.exponent).toBinary64 := by
  obtain ⟨hne, zeros, heq⟩ := toDigits_eq_significant hd
  have hlength : (Nat.toDigits 10 d.digits).length = d.significant.length + zeros := by simp [heq]
  have hvalue := digits_eq_significant heq
  obtain ⟨t, hparts, htext⟩ := NumberLayout.write_eq (fun _ => isDigit_of_mem_significant) hne
    (head?_significant_ne_zero hd) ((Nat.toDigits 10 d.digits).length + d.exponent)
  refine ⟨t, hparts.proper, htext, ?_⟩
  intro negative
  have hexponent : ((Nat.toDigits 10 d.digits).length : Int) + d.exponent - d.significant.length =
      d.exponent + zeros := by omega
  rw [hparts.value, hexponent, ← toBinary64_mul_pow, ← hvalue]

end Decimal

/-! ## The text of a number -/

namespace Binary64

section

variable {units : Nat}

theorem text_finite (negative : Bool) (hgrid : OnGrid units) (hunits : units ≠ 0) :
    (finite negative units hgrid).text.toList =
      (if negative then ['-'] else []) ++ ((Decimal.shortest units).write numberLayout).toList := by
  rw [text, if_neg hunits, String.toList_append]
  cases negative <;> rfl

theorem digits_shortest_ne_zero (hgrid : OnGrid units) (hunits : units ≠ 0) :
    (Decimal.shortest units).digits ≠ 0 := by
  intro hnone
  obtain ⟨_, heq⟩ := (Decimal.shortest_readsBack hgrid hunits).2
  rw [Decimal.toBinary64, if_pos hnone] at heq
  exact hunits (Binary64.finite.inj heq).2.symm

theorem shortest_with_sign (hgrid : OnGrid units) (hunits : units ≠ 0) (negative : Bool) :
    (Decimal.mk negative (Decimal.shortest units).digits
      (Decimal.shortest units).exponent).toBinary64 = finite negative units hgrid := by
  obtain ⟨hsign, hreads⟩ := Decimal.shortest_readsBack hgrid hunits
  apply Decimal.ReadsBack.with_sign _ hgrid
  generalize Decimal.shortest units = d at *
  rwa [← hsign]

end

end Binary64

end NestedPascal
