import NestedPascal.Json.Reader
import NestedPascal.Json.Writer
import NestedPascal.Proofs.Decimal.Writing

/-!
# Numbers in JSON

The text of a finite number is read back as that number, whatever follows it, unless that goes on with
a number.  Only the sign of zero is lost.
-/

namespace NestedPascal

theorem spanDigits_of_append {digits rest : List Char} (hdigits : ∀ c ∈ digits, isDigit c = true)
    (hrest : ∀ c ∈ rest.head?, isDigit c = false) : spanDigits (digits ++ rest) = (digits, rest) := by
  cases rest with
  | nil =>
      rw [spanDigits, List.takeWhile_append_of_pos hdigits, List.dropWhile_append_of_pos hdigits,
        List.takeWhile_nil, List.dropWhile_nil, List.append_nil]
  | cons c rest =>
      have hstop : ¬ isDigit c = true := by simp [hrest c rfl]
      rw [spanDigits, List.takeWhile_append_of_pos hdigits, List.takeWhile_cons_of_neg hstop,
        List.append_nil, List.dropWhile_append_of_pos hdigits, List.dropWhile_cons_of_neg hstop]

namespace Json

/-- A reader finds a value and leaves the given rest. -/
def Reads {α : Type} {bound : Nat} (result : Except Stop (Read α bound)) (value : α)
    (rest : List Char) : Prop :=
  result.map (fun r => (r.value, r.rest)) = .ok (value, rest)

theorem Reads.eq_ok {α : Type} {bound : Nat} {result : Except Stop (Read α bound)} {value : α}
    {rest : List Char} (h : Reads result value rest) : ∃ hshorter, result = .ok ⟨value, rest, hshorter⟩ := by
  unfold Reads at h
  cases result with
  | error e => contradiction
  | ok r =>
      obtain ⟨value', rest', hshorter⟩ := r
      cases h
      exact ⟨hshorter, rfl⟩

/-- What may follow a number. -/
def EndsNumber (rest : List Char) : Prop :=
  ∀ c ∈ rest.head?, isDigit c = false ∧ c ≠ '.' ∧ c ≠ 'e' ∧ c ≠ 'E'

theorem readFraction_of_text {fraction rest : List Char}
    (hfraction : ∀ c ∈ fraction, isDigit c = true)
    (hrest : ∀ c ∈ rest.head?, isDigit c = false ∧ c ≠ '.') :
    readFraction ((if fraction = [] then [] else '.' :: fraction) ++ rest) = .ok (fraction, rest) := by
  by_cases hnone : fraction = []
  · rw [if_pos hnone, List.nil_append, readFraction.eq_def]
    split
    next c after => exact absurd rfl (hrest '.' rfl).2
    next => rw [hnone]
  · have hspan := spanDigits_of_append hfraction (fun c hc => (hrest c hc).1)
    rw [if_neg hnone, List.cons_append, readFraction]
    simp [hspan, hnone]

theorem readScale_of_none {rest : List Char} (hrest : ∀ c ∈ rest.head?, c ≠ 'e' ∧ c ≠ 'E') :
    readScale rest = .ok (0, rest) := by
  unfold readScale
  split
  next => exact absurd rfl (hrest 'e' rfl).1
  next => exact absurd rfl (hrest 'E' rfl).2
  next => rfl

theorem readExponent?_of_text (n : Int) {rest : List Char}
    (hrest : ∀ c ∈ rest.head?, isDigit c = false) :
    Decimal.readExponent? (NumberParts.exponentText n ++ rest) = some (n, rest) := by
  have hspan (k : Nat) : spanDigits (Nat.toDigits 10 k ++ rest) = (Nat.toDigits 10 k, rest) :=
    spanDigits_of_append (fun _ => isDigit_of_mem_toDigits) hrest
  have hsome (k : Nat) : (Nat.toDigits 10 k).isEmpty = false := by simp [Nat.toDigits_ne_nil]
  cases n with
  | ofNat k =>
      change Decimal.readExponent? ('e' :: '+' :: (Nat.toDigits 10 k ++ rest)) = _
      simp [Decimal.readExponent?, Decimal.splitSign, hspan, hsome, decimalValue_toDigits]
  | negSucc k =>
      rw [NumberParts.exponentText, if_pos (Int.negSucc_lt_zero k)]
      change Decimal.readExponent? ('e' :: '-' :: (Nat.toDigits 10 (k + 1) ++ rest)) = _
      simp [Decimal.readExponent?, Decimal.splitSign, hspan, hsome, decimalValue_toDigits,
        Int.negSucc_eq]

theorem readScale_of_text (exponent : Option Int) {rest : List Char} (hrest : EndsNumber rest) :
    readScale ((exponent.map NumberParts.exponentText).getD [] ++ rest) =
      .ok (exponent.getD 0, rest) := by
  cases exponent with
  | none => exact readScale_of_none fun c hc => (hrest c hc).2.2
  | some n =>
      have hread := readExponent?_of_text n fun c hc => (hrest c hc).1
      simp only [Option.map_some, Option.getD_some, NumberParts.exponentText,
        List.cons_append] at hread ⊢
      rw [readScale, hread]

theorem readMagnitude_eq (negative : Bool) {cs whole rest fraction rest' rest'' : List Char}
    {first : Char} {scale : Int} (hwhole : spanDigits cs = (first :: whole, rest))
    (hzero : first = '0' → whole = []) (hfraction : readFraction rest = .ok (fraction, rest'))
    (hscale : readScale rest' = .ok (scale, rest'')) :
    Reads (readMagnitude negative cs)
      (.number (Decimal.ofParts negative (first :: whole) fraction scale).toBinary64) rest'' := by
  unfold Reads readMagnitude
  split
  next heq => simp [hwhole] at heq
  next heq =>
    rw [hwhole] at heq
    cases heq
    rw [if_neg (by simpa using hzero)]
    split
    next e heq => simp [hfraction] at heq
    next heq =>
      rw [hfraction] at heq
      cases heq
      split
      next e heq => simp [hscale] at heq
      next heq =>
        rw [hscale] at heq
        cases heq
        rfl

theorem readMagnitude_of_text {t : NumberParts} (ht : t.Proper) (negative : Bool)
    {rest : List Char} (hrest : EndsNumber rest) :
    Reads (readMagnitude negative (t.text ++ rest)) (.number (t.decimal negative).toBinary64)
      rest := by
  obtain ⟨first, whole, hwhole⟩ := List.exists_cons_of_ne_nil ht.nonempty
  have hscale := readScale_of_text t.exponent hrest
  have hafter : ∀ c ∈ ((t.exponent.map NumberParts.exponentText).getD [] ++ rest).head?,
      isDigit c = false ∧ c ≠ '.' := by
    cases t.exponent with
    | none => exact fun c hc => ⟨(hrest c hc).1, (hrest c hc).2.1⟩
    | some n =>
        intro c hc
        cases hc
        decide
  have hfraction := readFraction_of_text ht.fraction hafter
  have hbehind : ∀ c ∈ ((if t.fraction = [] then [] else '.' :: t.fraction) ++
      ((t.exponent.map NumberParts.exponentText).getD [] ++ rest)).head?, isDigit c = false := by
    split
    next => exact fun c hc => (hafter c hc).1
    next =>
      intro c hc
      cases hc
      decide
  have hspan := spanDigits_of_append ht.whole hbehind
  rw [hwhole] at hspan
  have hread := readMagnitude_eq negative hspan
    (fun hzero => by simpa [hwhole, hzero] using ht.zero) hfraction hscale
  rw [NumberParts.text, NumberParts.decimal, List.append_assoc, List.append_assoc, hwhole]
  exact hread

theorem readValue_of_digit {c : Char} {cs : List Char} (hc : isDigit c = true) :
    readValue (c :: cs) = readMagnitude false (c :: cs) := by
  rw [readValue] <;>
    · intro rest heq
      cases heq
      contradiction

theorem readValue_of_minus {cs rest : List Char} {value : Json}
    (h : Reads (readMagnitude true cs) value rest) : Reads (readValue ('-' :: cs)) value rest := by
  obtain ⟨hshorter, heq⟩ := h.eq_ok
  rw [readValue, heq]
  rfl

theorem readValue_of_text {t : NumberParts} (ht : t.Proper) {rest : List Char}
    (hrest : EndsNumber rest) :
    Reads (readValue (t.text ++ rest)) (.number (t.decimal false).toBinary64) rest := by
  have hread := readMagnitude_of_text ht false hrest
  obtain ⟨first, after, hafter, hfirst⟩ := ht.head
  rw [hafter, List.cons_append] at hread ⊢
  rw [readValue_of_digit hfirst]
  exact hread

/-- The text of a finite number is a sign or none and parts that make the number, zero without its
sign. -/
theorem text_of_finite {x : Binary64} (hfinite : x.isFinite = true) :
    ∃ (negative : Bool) (t : NumberParts), t.Proper ∧
      x.text.toList = (if negative then ['-'] else []) ++ t.text ∧
      (x ≠ .zero true → (t.decimal negative).toBinary64 = x) := by
  cases x with
  | nan => contradiction
  | infinity negative => contradiction
  | finite negative units hgrid =>
      rw [Binary64.text]
      by_cases hunits : units = 0
      · subst units
        rw [if_pos rfl]
        refine ⟨false, ⟨['0'], [], none⟩, ⟨by simp, by simp [isDigit], by simp, fun _ => rfl⟩, rfl, ?_⟩
        intro hzero
        have hpositive : negative = false := by
          rw [← Bool.not_eq_true]
          intro hnegative
          exact hzero (by rw [hnegative, Binary64.zero])
        subst negative
        rfl
      · obtain ⟨t, hproper, htext, hdecimal⟩ :=
          Decimal.write_eq (Binary64.digits_shortest_ne_zero hgrid hunits)
        refine ⟨negative, t, hproper, ?_, fun _ => ?_⟩
        · rw [← htext, ← Binary64.text_finite negative hgrid hunits, Binary64.text, if_neg hunits]
        · rw [hdecimal, Binary64.shortest_with_sign hgrid hunits negative]

theorem head_of_finite {x : Binary64} (hfinite : x.isFinite = true) :
    ∃ c cs, x.text.toList = c :: cs ∧ (isDigit c = true ∨ c = '-') := by
  obtain ⟨negative, t, ht, htext, -⟩ := text_of_finite hfinite
  rw [htext]
  cases negative with
  | true => exact ⟨'-', t.text, rfl, .inr rfl⟩
  | false =>
      obtain ⟨first, after, hafter, hfirst⟩ := ht.head
      exact ⟨first, after, hafter, .inl hfirst⟩

/-- The text of a finite number that is not negative zero is read back as the number. -/
theorem readValue_of_number {x : Binary64} (hfinite : x.isFinite = true) (hzero : x ≠ .zero true)
    {rest : List Char} (hrest : EndsNumber rest) :
    Reads (readValue (x.text.toList ++ rest)) (.number x) rest := by
  obtain ⟨negative, t, hproper, htext, hvalue⟩ := text_of_finite hfinite
  rw [htext, ← hvalue hzero]
  cases negative with
  | false => exact readValue_of_text hproper hrest
  | true => exact readValue_of_minus (readMagnitude_of_text hproper true hrest)

end Json

end NestedPascal
