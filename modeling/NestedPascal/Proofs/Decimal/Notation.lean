import NestedPascal.Decimal.Numeral
import NestedPascal.Proofs.Decimal.Magnitude
import NestedPascal.Proofs.Json.Numbers

/-!
# The notation of a number

Which of the two notations the text of a number is in, whether it has a point, and what it is read as.
The text has a point unless it is that of a whole number in positional notation or has a single digit
before its exponent.
-/

namespace NestedPascal

theorem ne_of_isDigit {c d : Char} (hc : isDigit c = true) (hd : isDigit d = false) : c ≠ d := by
  rintro rfl
  rw [hc] at hd
  contradiction

theorem not_mem_of_isDigit {digits : List Char} {c : Char} (hdigits : ∀ d ∈ digits, isDigit d = true)
    (hc : isDigit c = false) : c ∉ digits :=
  fun hmem => ne_of_isDigit (hdigits c hmem) hc rfl

namespace NumberLayout

/-- Digits with the point after the place are written in positional notation. -/
def Positional (layout : NumberLayout) (point : Int) : Prop :=
  layout.leastPoint ≤ point ∧ point ≤ layout.greatestPoint

variable {layout : NumberLayout} {digits : List Char} {point : Int}

theorem write_of_positional (h : layout.Positional point) :
    layout.write digits point =
      if (digits.length : Int) ≤ point then
        String.ofList (digits ++ List.replicate (point - digits.length).toNat '0')
      else if 0 < point then
        String.ofList (digits.take point.toNat ++ '.' :: digits.drop point.toNat)
      else String.ofList ('0' :: '.' :: List.replicate (-point).toNat '0' ++ digits) :=
  if_pos h

theorem write_of_not (h : ¬ layout.Positional point) :
    layout.write digits point =
      String.ofList ((match digits with | [] => [] | [d] => [d] | d :: rest => d :: '.' :: rest) ++
        'e' :: (if point - 1 < 0 then '-' else '+') :: Nat.toDigits 10 (point - 1).natAbs) :=
  if_neg h

theorem point_mem_write_of_positional (hnear : layout.Positional point)
    (hdigits : ∀ c ∈ digits, isDigit c = true) (hne : digits ≠ []) :
    '.' ∈ (layout.write digits point).toList ↔ point < digits.length := by
  have hnone : '.' ∉ digits := not_mem_of_isDigit hdigits rfl
  have hlength : 0 < digits.length := List.length_pos_iff.mpr hne
  rw [write_of_positional hnear]
  by_cases hwhole : (digits.length : Int) ≤ point
  · rw [if_pos hwhole, String.toList_ofList]
    exact iff_of_false (by simp [hnone]) (by omega)
  · rw [if_neg hwhole]
    by_cases hpositive : 0 < point
    · rw [if_pos hpositive, String.toList_ofList]
      exact iff_of_true (by simp) (by omega)
    · rw [if_neg hpositive, String.toList_ofList]
      exact iff_of_true (by simp) (by omega)

theorem point_mem_write_of_not (hfar : ¬ layout.Positional point)
    (hdigits : ∀ c ∈ digits, isDigit c = true) (hne : digits ≠ []) :
    '.' ∈ (layout.write digits point).toList ↔ 1 < digits.length := by
  have hexponent : '.' ∉ Nat.toDigits 10 (point - 1).natAbs :=
    not_mem_of_isDigit (fun _ => isDigit_of_mem_toDigits) rfl
  rw [write_of_not hfar, String.toList_ofList]
  obtain ⟨first, rest, rfl⟩ := List.exists_cons_of_ne_nil hne
  cases rest with
  | nil =>
      have hfirst : '.' ≠ first := (ne_of_isDigit (hdigits first List.mem_cons_self) rfl).symm
      have hsign : '.' ≠ if point - 1 < 0 then '-' else '+' := by split <;> decide
      refine iff_of_false ?_ (by simp)
      simp only [List.singleton_append, List.mem_cons, not_or]
      exact ⟨hfirst, by decide, hsign, hexponent⟩
  | cons second rest => exact iff_of_true (by simp) (by simp)

theorem exponent_mem_write_iff (hdigits : ∀ c ∈ digits, isDigit c = true) :
    'e' ∈ (layout.write digits point).toList ↔ ¬ layout.Positional point := by
  have hnone : 'e' ∉ digits := not_mem_of_isDigit hdigits rfl
  by_cases hnear : layout.Positional point
  · have htake : 'e' ∉ digits.take point.toNat := fun h => hnone (List.mem_of_mem_take h)
    have hdrop : 'e' ∉ digits.drop point.toNat := fun h => hnone (List.mem_of_mem_drop h)
    rw [write_of_positional hnear]
    refine iff_of_false ?_ (not_not.mpr hnear)
    split
    next => simp [hnone]
    next =>
      split
      next => simp [htake, hdrop]
      next => simp [hnone]
  · rw [write_of_not hnear, String.toList_ofList]
    exact iff_of_true (by simp) hnear

/-- Digits that end before the point are filled up with zeros. -/
theorem write_of_length_le (hnear : layout.Positional point) (hwhole : (digits.length : Int) ≤ point) :
    (layout.write digits point).toList =
      digits ++ List.replicate (point - digits.length).toNat '0' := by
  rw [write_of_positional hnear, if_pos hwhole, String.toList_ofList]

end NumberLayout

theorem toDigits_mul_pow {m : Nat} (hm : m ≠ 0) (k : Nat) :
    Nat.toDigits 10 (m * 10 ^ k) = Nat.toDigits 10 m ++ List.replicate k '0' := by
  induction k with
  | zero => simp
  | succ k ih =>
      have hpositive : 0 < m * 10 ^ k := Nat.mul_pos (Nat.pos_of_ne_zero hm) (Nat.pow_pos (by decide))
      have hzero : (0 : Nat).digitChar = '0' := rfl
      rw [Nat.pow_succ, ← Nat.mul_assoc, Nat.toDigits_eq_if (by decide), if_neg (by omega),
        Nat.mul_div_cancel _ (by decide), Nat.mul_mod_left, ih, hzero, List.replicate_succ',
        List.append_assoc]

namespace Decimal

variable {d : Decimal}

theorem write_eq_write_significant (d : Decimal) :
    d.write numberLayout = numberLayout.write d.significant d.point :=
  rfl

theorem length_significant_of_le (hd : d.digits ≠ 0) (hle : d.digits ≤ 10) :
    d.significant.length = 1 := by
  have hall : ∀ m ≤ 10, m ≠ 0 →
      ((Nat.toDigits 10 m).reverse.dropWhile (· == '0')).reverse.length = 1 := by decide
  exact hall d.digits hle hd

/-- A decimal that is written with one digit has the value of one digit. -/
theorem exists_digit_of_length_significant (hd : d.digits ≠ 0) (hlength : d.significant.length = 1) :
    ∃ digit exponent, digit < 10 ∧ ∀ negative,
      (Decimal.mk negative digit exponent).toBinary64 =
        (Decimal.mk negative d.digits d.exponent).toBinary64 := by
  obtain ⟨-, zeros, heq⟩ := toDigits_eq_significant hd
  have hvalue := digits_eq_significant heq
  obtain ⟨c, hc⟩ := List.length_eq_one_iff.mp hlength
  have hdigit : decimalValue [c] < 10 := by
    have hmem : isDigit c = true := isDigit_of_mem_significant (d := d) (by simp [hc])
    simp only [isDigit, Bool.and_eq_true, decide_eq_true_eq] at hmem
    have hupper : c.toNat ≤ '9'.toNat := hmem.2
    simp only [decimalValue, List.foldl_cons, List.foldl_nil]
    have hnine : '9'.toNat = 57 := rfl
    have hzero : '0'.toNat = 48 := rfl
    omega
  rw [hc] at hvalue
  refine ⟨decimalValue [c], d.exponent + zeros, hdigit, fun negative => ?_⟩
  rw [hvalue, toBinary64_mul_pow]

/-- A decimal of a whole number that is not too large is written as the digits of that number. -/
theorem write_whole (hd : d.digits ≠ 0) (hexponent : 0 ≤ d.exponent) (hpoint : d.point ≤ 21) :
    (d.write numberLayout).toList = Nat.toDigits 10 (d.digits * 10 ^ d.exponent.toNat) := by
  obtain ⟨hne, zeros, heq⟩ := toDigits_eq_significant hd
  have hlength : digitCount d.digits = d.significant.length + zeros := by
    rw [digitCount, heq, List.length_append, List.length_replicate]
  have hplaces : d.point = d.significant.length + (zeros + d.exponent.toNat : Nat) := by
    rw [point]
    omega
  have hleast : numberLayout.leastPoint = -5 := rfl
  have hnear : numberLayout.Positional d.point := ⟨by omega, hpoint⟩
  rw [write_eq_write_significant, NumberLayout.write_of_length_le hnear (by omega),
    toDigits_mul_pow hd, heq, hplaces, add_sub_cancel_left, Int.toNat_natCast,
    List.append_assoc, List.replicate_append_replicate]

end Decimal

/-! ## Reading the text -/

namespace NumberParts

variable {t : NumberParts}

/-- Only digits, points, signs and the letter of the exponent stand in the text of a number. -/
theorem Proper.mem_text (ht : t.Proper) {c : Char} (hc : c ∈ t.text) :
    isDigit c = true ∨ c ∈ ['.', 'e', '-', '+'] := by
  rw [text, List.mem_append, List.mem_append] at hc
  rcases hc with (hc | hc) | hc
  · exact .inl (ht.whole c hc)
  · split at hc
    next => simp at hc
    next =>
      rcases List.mem_cons.mp hc with rfl | hc
      · exact .inr (by decide)
      · exact .inl (ht.fraction c hc)
  · cases hexponent : t.exponent with
    | none => simp [hexponent] at hc
    | some n =>
        simp only [hexponent, Option.map_some, Option.getD_some, exponentText, List.mem_cons] at hc
        rcases hc with rfl | rfl | hc
        · exact .inr (by decide)
        · right
          split <;> decide
        · exact .inl (isDigit_of_mem_toDigits hc)

end NumberParts

theorem trimBlanks_eq_self {cs : List Char} (h : ∀ c ∈ cs, isBlank c = false) :
    trimBlanks cs = cs := by
  have hdrop {ds : List Char} (hds : ∀ c ∈ ds, isBlank c = false) : ds.dropWhile isBlank = ds := by
    cases ds with
    | nil => rfl
    | cons d ds => rw [List.dropWhile_cons_of_neg (by simp [hds d List.mem_cons_self])]
  have hreverse : ∀ c ∈ cs.reverse, isBlank c = false := fun c hc => h c (List.mem_reverse.mp hc)
  rw [trimBlanks, hdrop h, hdrop hreverse, List.reverse_reverse]

theorem isBlank_of_isDigit {c : Char} (hc : isDigit c = true) : isBlank c = false := by
  simp only [isDigit, Bool.and_eq_true, decide_eq_true_eq] at hc
  have hlower : 48 ≤ c.toNat := hc.1
  have hupper : c.toNat ≤ 57 := hc.2
  simp only [isBlank, Bool.or_eq_false_iff, Bool.and_eq_false_iff, decide_eq_false_iff_not,
    beq_eq_false_iff_ne]
  omega

namespace Numeral

variable {t : NumberParts}

/-- What has neither blanks nor the letter of a base is read as a decimal or a name. -/
theorem read?_eq_readSigned? {cs : List Char} (hne : cs ≠ [])
    (h : ∀ c ∈ cs, isBlank c = false ∧ c ∉ ['x', 'X', 'o', 'O', 'b', 'B']) :
    read? cs = readSigned? cs := by
  rw [read?, trimBlanks_eq_self fun c hc => (h c hc).1]
  split
  next => exact absurd rfl hne
  next c rest =>
    have hletter := (h c (by simp)).2
    simp only [List.mem_cons, List.not_mem_nil, or_false, not_or] at hletter
    obtain ⟨hx, hX, ho, hO, hb, hB⟩ := hletter
    rw [if_neg (by simp [hx, hX]), if_neg (by simp [ho, hO]), if_neg (by simp [hb, hB])]
  next => rfl

theorem readDecimal?_of_text (ht : t.Proper) (negative : Bool) :
    readDecimal? negative t.text = some (t.decimal negative) := by
  have hexponent : ∀ c ∈ ((t.exponent.map NumberParts.exponentText).getD []).head?,
      isDigit c = false ∧ c ≠ '.' := by
    cases t.exponent with
    | none => simp
    | some n =>
        intro c hc
        cases hc
        decide
  have hwhole : spanDigits t.text = (t.whole, (if t.fraction = [] then [] else '.' :: t.fraction) ++
      (t.exponent.map NumberParts.exponentText).getD []) := by
    rw [NumberParts.text, List.append_assoc]
    apply spanDigits_of_append ht.whole
    split
    next => exact fun c hc => (hexponent c hc).1
    next =>
      intro c hc
      cases hc
      decide
  have hfraction : spanDigits (t.fraction ++ (t.exponent.map NumberParts.exponentText).getD []) =
      (t.fraction, (t.exponent.map NumberParts.exponentText).getD []) :=
    spanDigits_of_append ht.fraction fun c hc => (hexponent c hc).1
  have hscale (n : Int) :
      Decimal.readExponent? (NumberParts.exponentText n ++ []) = some (n, []) :=
    Json.readExponent?_of_text n (by simp)
  simp only [List.append_nil, NumberParts.exponentText] at hscale
  obtain ⟨whole, fraction, exponent⟩ := t
  simp only at hwhole hfraction
  have hsome : whole.isEmpty = false := by simpa using ht.nonempty
  simp only [readDecimal?, hwhole, hsome, NumberParts.decimal]
  by_cases hnone : fraction = []
  · subst fraction
    cases exponent with
    | none => simp
    | some n => simp [NumberParts.exponentText, hscale]
  · cases exponent with
    | none =>
        simp only [Option.map_none, Option.getD_none, List.append_nil] at hfraction
        simp [hnone, hfraction]
    | some n =>
        simp only [Option.map_some, Option.getD_some, NumberParts.exponentText] at hfraction
        simp [hnone, NumberParts.exponentText, hfraction, hscale]

/-- The text of a number is read as the decimal that its parts make. -/
theorem read?_of_text (ht : t.Proper) (negative : Bool) :
    read? ((if negative then ['-'] else []) ++ t.text) = some (t.decimal negative).toBinary64 := by
  obtain ⟨first, after, hafter, hfirst⟩ := ht.head
  have hread := readDecimal?_of_text ht negative
  have hsigned : readSigned? ((if negative then ['-'] else []) ++ t.text) =
      some (t.decimal negative).toBinary64 := by
    have hinfinite : t.text ≠ "Infinity".toList := by
      rw [hafter]
      intro heq
      have hletter : first = 'I' := (List.cons.inj heq).1
      rw [hletter] at hfirst
      contradiction
    have hsplit : Decimal.splitSign ((if negative then ['-'] else []) ++ t.text) =
        (negative, t.text) := by
      cases negative with
      | true => rfl
      | false =>
          rw [hafter]
          have hplus := ne_of_isDigit hfirst (d := '+') rfl
          have hminus := ne_of_isDigit hfirst (d := '-') rfl
          simp only [Bool.false_eq_true, if_false, List.nil_append]
          rw [Decimal.splitSign.eq_def]
          split <;> simp_all
    rw [readSigned?, hsplit]
    simp only
    rw [if_neg hinfinite, hread, Option.map_some]
  rw [read?_eq_readSigned? (by simp [hafter]) ?_, hsigned]
  intro c hc
  have hchar : isDigit c = true ∨ c ∈ ['.', 'e', '-', '+'] := by
    rcases List.mem_append.mp hc with hc | hc
    · split at hc
      next =>
        rw [List.mem_singleton.mp hc]
        exact .inr (by decide)
      next => simp at hc
    · exact ht.mem_text hc
  have hletters : ∀ d ∈ ['x', 'X', 'o', 'O', 'b', 'B'], isDigit d = false := by
    simp [isDigit]
  have hothers : ∀ d ∈ ['.', 'e', '-', '+'],
      isBlank d = false ∧ d ∉ ['x', 'X', 'o', 'O', 'b', 'B'] := by
    simp [isBlank]
  rcases hchar with hdigit | hmem
  · refine ⟨isBlank_of_isDigit hdigit, fun hletter => ?_⟩
    rw [hletters c hletter] at hdigit
    exact absurd hdigit Bool.false_ne_true
  · exact hothers c hmem

end Numeral

end NestedPascal
