import NestedPascal.Proofs.Decimal.Positional
import NestedPascal.Run.Frame

/-!
# How values are shown

What is shown of a finite value is read back as its number, and an INTEGER is never shown as a REAL is.
An INTEGER has no point in its text.  A REAL has one, unless it lies outside positional notation and
is the number of a single digit.
-/

namespace NestedPascal

namespace Value

/-- A REAL that arithmetic can yield. -/
def FiniteReal (v : Value) : Prop :=
  v.kind = .real ∧ v.number.isFinite = true

/-- An INTEGER of 32 bits. -/
def WholeInteger (v : Value) (n : Int) : Prop :=
  v.kind = .integer ∧ v.number.toInt? = some n ∧ InIntegerRange n

variable {v : Value}

theorem text_of_wholeInteger {n : Int} (h : v.WholeInteger n) : v.text = toString n := by
  obtain ⟨hkind, hwhole, hrange⟩ := h
  have hn : n.natAbs < 2 ^ 53 := by
    unfold InIntegerRange integerMin integerMax at hrange
    omega
  rw [text, hkind]
  exact Binary64.text_of_toInt? hwhole hn

/-- A whole REAL below 10²¹ is shown with one zero behind the point, any other as its number. -/
theorem text_of_real (hkind : v.kind = .real) :
    (∃ n, v.number.toInt? = some n ∧ n.natAbs < 10 ^ 21 ∧ v.text = toString n ++ ".0") ∨
      ((∀ n, v.number.toInt? = some n → 10 ^ 21 ≤ n.natAbs) ∧ v.text = v.number.text) := by
  rw [text, hkind]
  cases hwhole : v.number.toInt? with
  | none => exact .inr ⟨by simp, rfl⟩
  | some n =>
      by_cases hsmall : n.natAbs < 10 ^ 21
      · exact .inl ⟨n, rfl, hsmall, if_pos hsmall⟩
      · refine .inr ⟨fun m hm => ?_, if_neg hsmall⟩
        cases hm
        omega

theorem read?_text_of_real (h : v.FiniteReal) :
    ∃ x, Numeral.read? v.text.toList = some x ∧ x.SameNumber v.number := by
  obtain ⟨hkind, hfinite⟩ := h
  rcases text_of_real hkind with ⟨n, hwhole, -, htext⟩ | ⟨hlarge, htext⟩
  · have hread := Numeral.read?_toString n 1
    rw [htext, String.toList_append]
    exact ⟨_, hread, Binary64.sameNumber_of_toInt? (Binary64.toInt?_ofInt_of_toInt? hwhole) hwhole⟩
  · obtain ⟨negative, t, ht, hshown, hvalue⟩ := Json.text_of_finite hfinite
    have hzero : v.number ≠ .zero true := by
      intro heq
      have hwhole : v.number.toInt? = some 0 := by rw [heq, Binary64.zero, Binary64.toInt?_of_zero]
      exact absurd (hlarge 0 hwhole) (by decide)
    rw [htext, hshown, Numeral.read?_of_text ht, hvalue hzero]
    exact ⟨_, rfl, Binary64.sameNumber_refl hfinite⟩

theorem point_mem_text_iff (h : v.FiniteReal) :
    '.' ∈ v.text.toList ↔ v.number.Positional ∨ ¬ v.number.HasSingleDigit := by
  obtain ⟨hkind, hfinite⟩ := h
  rcases text_of_real hkind with ⟨n, hwhole, hsmall, htext⟩ | ⟨hlarge, htext⟩
  · refine iff_of_true (by simp [htext]) (.inl ?_)
    obtain ⟨negative, m, hgrid, heq, rfl⟩ := Binary64.exists_of_toInt? hwhole
    rw [heq]
    by_cases hzero : m = 0
    · exact .inl (by rw [hzero, Nat.zero_mul])
    · rw [Binary64.natAbs_signed] at hsmall
      exact Binary64.positional_of_natural negative hgrid hzero hsmall
  · rw [htext]
    cases hnumber : v.number with
    | nan => simp [hnumber, Binary64.isFinite] at hfinite
    | infinity negative => simp [hnumber, Binary64.isFinite] at hfinite
    | finite negative units hgrid => exact Binary64.point_mem_text_iff (hnumber ▸ hlarge)

theorem point_or_exponent_mem_text (h : v.FiniteReal) :
    '.' ∈ v.text.toList ∨ 'e' ∈ v.text.toList := by
  obtain ⟨hkind, hfinite⟩ := h
  rcases text_of_real hkind with ⟨n, -, -, htext⟩ | ⟨hlarge, htext⟩
  · exact .inl (by simp [htext])
  · rw [htext]
    cases hnumber : v.number with
    | nan => simp [hnumber, Binary64.isFinite] at hfinite
    | infinity negative => simp [hnumber, Binary64.isFinite] at hfinite
    | finite negative units hgrid => exact Binary64.point_or_exponent_mem_text (hnumber ▸ hlarge)

/-- The text is a sign or none and the parts of a number. -/
theorem text_of_parts {n : Int} (h : v.FiniteReal ∨ v.WholeInteger n) :
    ∃ (negative : Bool) (t : NumberParts), t.Proper ∧
      v.text.toList = (if negative then ['-'] else []) ++ t.text := by
  rcases h with ⟨hkind, hfinite⟩ | hwhole
  · rcases text_of_real hkind with ⟨n, -, -, htext⟩ | ⟨-, htext⟩
    · have hparts := toList_toString_append n 1
      rw [htext, String.toList_append]
      exact ⟨n < 0, _, NumberParts.natural_proper n.natAbs 1, by simpa using hparts⟩
    · obtain ⟨negative, t, ht, hshown, -⟩ := Json.text_of_finite hfinite
      rw [htext]
      exact ⟨negative, t, ht, hshown⟩
  · have hparts := toList_toString_append n 0
    rw [text_of_wholeInteger hwhole]
    exact ⟨n < 0, _, NumberParts.natural_proper n.natAbs 0, by simpa using hparts⟩

theorem not_mem_text_of_wholeInteger {n : Int} (h : v.WholeInteger n) {c : Char}
    (hdigit : isDigit c = false) (hsign : c ≠ '-') : c ∉ v.text.toList := by
  rw [text_of_wholeInteger h, toList_toString, List.mem_append, not_or]
  refine ⟨?_, not_mem_of_isDigit (fun _ => isDigit_of_mem_toDigits) hdigit⟩
  split
  next => simpa using hsign
  next => simp

end Value

/-! ## The lines of a frame -/

/-- What a text says behind its last space. -/
def lastWord (s : String) : List Char :=
  (s.toList.reverse.takeWhile (· != ' ')).reverse

theorem lastWord_append (label : String) {s : String} (h : ' ' ∉ s.toList) :
    lastWord (label ++ " = " ++ s) = s.toList := by
  have hall : ∀ c ∈ s.toList.reverse, (c != ' ') = true := by
    intro c hc
    rw [bne_iff_ne]
    rintro rfl
    exact h (List.mem_reverse.mp hc)
  rw [lastWord, String.toList_append, List.reverse_append, List.takeWhile_append_of_pos hall,
    String.toList_append, List.reverse_append]
  simp

namespace FrameReport

/-- The line that shows a member of a frame. -/
def memberLine (m : String × Value) : String :=
  "  " ++ m.1 ++ ": " ++ m.2.kind.text ++ " = " ++ m.2.text

theorem memberLine_mem_lines {f : FrameReport} {m : String × Value} (h : m ∈ f.members.entries) :
    memberLine m ∈ f.lines :=
  List.mem_cons_of_mem _ (List.mem_map_of_mem h)

theorem lastWord_memberLine {m : String × Value} {n : Int}
    (h : m.2.FiniteReal ∨ m.2.WholeInteger n) : lastWord (memberLine m) = m.2.text.toList := by
  obtain ⟨negative, t, ht, hshown⟩ := Value.text_of_parts h
  apply lastWord_append
  rw [hshown, List.mem_append, not_or]
  refine ⟨by cases negative <;> decide, fun hmem => ?_⟩
  rcases ht.mem_text hmem with hdigit | hother
  · contradiction
  · exact absurd hother (by decide)

end FrameReport

/-- A finite REAL is shown with a point unless it is the number of a single digit outside positional
notation; an INTEGER is shown without; both are read back; and no REAL of a frame is shown as an
INTEGER is. -/
theorem Value.shown_by_kind (v : Value) :
    (v.FiniteReal →
      ('.' ∈ v.text.toList ↔ v.number.Positional ∨ ¬ v.number.HasSingleDigit) ∧
        ∃ x, Numeral.read? v.text.toList = some x ∧ x.SameNumber v.number) ∧
      (∀ n, v.WholeInteger n →
        '.' ∉ v.text.toList ∧ Numeral.read? v.text.toList = some (.ofInt n)) ∧
      ∀ (f g : FrameReport) (name other : String) (w : Value) (n : Int),
        (name, v) ∈ f.members.entries → (other, w) ∈ g.members.entries →
          v.FiniteReal → w.WholeInteger n →
            FrameReport.memberLine (name, v) ∈ f.lines ∧ FrameReport.memberLine (other, w) ∈ g.lines ∧
              lastWord (FrameReport.memberLine (name, v)) ≠
                lastWord (FrameReport.memberLine (other, w)) := by
  refine ⟨fun h => ⟨point_mem_text_iff h, read?_text_of_real h⟩, fun n h => ⟨?_, ?_⟩, ?_⟩
  · exact not_mem_text_of_wholeInteger h rfl (by decide)
  · have hread := Numeral.read?_toString n 0
    rw [if_pos rfl, List.append_nil] at hread
    rw [text_of_wholeInteger h, hread]
  · intro f g name other w n hm hm' hreal hwhole
    refine ⟨FrameReport.memberLine_mem_lines hm, FrameReport.memberLine_mem_lines hm', ?_⟩
    rw [FrameReport.lastWord_memberLine (n := n) (.inl hreal),
      FrameReport.lastWord_memberLine (.inr hwhole)]
    intro heq
    rcases point_or_exponent_mem_text hreal with hmem | hmem
    · exact not_mem_text_of_wholeInteger hwhole rfl (by decide) (heq ▸ hmem)
    · exact not_mem_text_of_wholeInteger hwhole rfl (by decide) (heq ▸ hmem)

/-- A frame with two members: two and a half as a REAL and minus seven as an INTEGER. -/
def FrameReport.ofTwoKinds : FrameReport :=
  ⟨"p", .program, .ofNat 1, .ofNat 1,
    ⟨[("r", ⟨.real, (Decimal.mk false 25 (-1)).toBinary64⟩), ("i", .ofInt (-7))]⟩⟩

/-- Two and a half has a point in its text, minus seven has none. -/
theorem Value.shown_with_and_without_point :
    ∃ r i, ("r", r) ∈ FrameReport.ofTwoKinds.members.entries ∧
      ("i", i) ∈ FrameReport.ofTwoKinds.members.entries ∧
      '.' ∈ r.text.toList ∧ (∃ x, Numeral.read? r.text.toList = some x ∧ x.SameNumber r.number) ∧
      '.' ∉ i.text.toList ∧ Numeral.read? i.text.toList = some (.ofInt (-7)) ∧
      lastWord (FrameReport.memberLine ("r", r)) ≠ lastWord (FrameReport.memberLine ("i", i)) := by
  have hm : ("r", ⟨.real, (Decimal.mk false 25 (-1)).toBinary64⟩) ∈
      FrameReport.ofTwoKinds.members.entries := .head _
  have hm' : ("i", .ofInt (-7)) ∈ FrameReport.ofTwoKinds.members.entries := .tail _ (.head _)
  have hreal : (Value.mk .real (Decimal.mk false 25 (-1)).toBinary64).FiniteReal :=
    ⟨rfl, by decide +kernel⟩
  have hwhole : (Value.ofInt (-7)).WholeInteger (-7) := ⟨rfl, by decide +kernel, by decide⟩
  obtain ⟨hreals, -, hlines⟩ := Value.shown_by_kind ⟨.real, (Decimal.mk false 25 (-1)).toBinary64⟩
  obtain ⟨-, hwholes, -⟩ := Value.shown_by_kind (.ofInt (-7))
  obtain ⟨hpoint, hread⟩ := hreals hreal
  obtain ⟨hnone, hback⟩ := hwholes _ hwhole
  exact ⟨_, _, hm, hm', hpoint.mpr (.inl (by decide +kernel)), hread, hnone, hback,
    (hlines _ _ _ _ _ _ hm hm' hreal hwhole).2.2⟩

/-- The least REAL past positional notation, ten to the twenty-first, is shown without a point. -/
theorem Value.power_of_ten_shown_without_point :
    (Value.mk .real (.ofInt (10 ^ 21))).FiniteReal ∧
      (Value.mk .real (.ofInt (10 ^ 21))).text = "1e+21" ∧
      '.' ∉ (Value.mk .real (.ofInt (10 ^ 21))).text.toList :=
  ⟨⟨rfl, by decide +kernel⟩, by decide +kernel, by decide +kernel⟩

end NestedPascal
