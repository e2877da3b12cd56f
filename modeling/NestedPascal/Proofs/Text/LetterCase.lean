import NestedPascal.Name
import NestedPascal.Text.Blank
import NestedPascal.Text.Glyph
import NestedPascal.Token.Lexeme

/-!
# The case of ASCII letters

A capital and its small letter are one character to every class of characters that the language knows,
and take the same room.  So a text may be put in lower case before its canonical form is taken.
-/

namespace NestedPascal

/-- Whether two texts differ in the case of ASCII letters at most. -/
def SameLetters (cs ds : List Char) : Prop :=
  canonicalChars cs = canonicalChars ds

instance (cs ds : List Char) : Decidable (SameLetters cs ds) :=
  inferInstanceAs (Decidable (_ = _))

/-! ## Characters -/

/-- Lower case changes the capitals and nothing else. -/
theorem toLower_eq_or_capital (c : Char) :
    c.toLower = c ∨ ∃ n : Fin 26, c = Char.ofNat (65 + n) := by
  by_cases hcapital : 65 ≤ c.toNat ∧ c.toNat ≤ 90
  · refine .inr ⟨⟨c.toNat - 65, by omega⟩, ?_⟩
    rw [Nat.add_sub_cancel' hcapital.1, Char.ofNat_toNat]
  · refine .inl ?_
    unfold Char.toLower
    rw [dif_neg]
    intro h
    exact hcapital h

/-- What is the same for each capital and its small letter does not depend on case. -/
theorem apply_toLower {α : Type} [DecidableEq α] {f : Char → α}
    (h : ∀ n : Fin 26, f (Char.ofNat (65 + n)).toLower = f (Char.ofNat (65 + n))) (c : Char) :
    f c.toLower = f c := by
  rcases toLower_eq_or_capital c with hsame | ⟨n, rfl⟩
  · rw [hsame]
  · exact h n

@[simp] theorem isLetter_toLower (c : Char) : isLetter c.toLower = isLetter c :=
  apply_toLower (by decide) c

@[simp] theorem isDigit_toLower (c : Char) : isDigit c.toLower = isDigit c :=
  apply_toLower (by decide) c

@[simp] theorem isBlank_toLower (c : Char) : isBlank c.toLower = isBlank c :=
  apply_toLower (by decide) c

@[simp] theorem isCased_toLower (c : Char) : isCased c.toLower = isCased c :=
  apply_toLower (by decide +kernel) c

@[simp] theorem isCaseIgnorable_toLower (c : Char) :
    isCaseIgnorable c.toLower = isCaseIgnorable c :=
  apply_toLower (by decide +kernel) c

@[simp] theorem lowerForm_toLower (c : Char) : lowerForm c.toLower = lowerForm c :=
  apply_toLower (by decide) c

@[simp] theorem unitWidth_toLower (c : Char) : unitWidth c.toLower = unitWidth c :=
  apply_toLower (by decide) c

theorem toLower_of_not_letter {c : Char} (h : isLetter c = false) : c.toLower = c := by
  rcases toLower_eq_or_capital c with hsame | ⟨n, rfl⟩
  · exact hsame
  · have hletter : ∀ n : Fin 26, isLetter (Char.ofNat (65 + n)) = true := by decide
    rw [hletter n] at h
    contradiction

theorem toLower_eq_iff {c d : Char} (h : isLetter d = false) : c.toLower = d ↔ c = d := by
  constructor
  · rintro rfl
    rw [isLetter_toLower] at h
    exact (toLower_of_not_letter h).symm
  · rintro rfl
    exact toLower_of_not_letter h

/-! ## Texts -/

@[simp] theorem canonicalChars_nil : canonicalChars [] = [] := rfl

@[simp] theorem canonicalChars_cons (c : Char) (cs : List Char) :
    canonicalChars (c :: cs) = c.toLower :: canonicalChars cs := rfl

@[simp] theorem canonicalChars_canonicalChars (cs : List Char) :
    canonicalChars (canonicalChars cs) = canonicalChars cs := by
  rw [canonicalChars, canonicalChars, List.map_map]
  exact List.map_congr_left fun c _ => apply_toLower (f := Char.toLower) (by decide) c

@[simp] theorem length_canonicalChars (cs : List Char) :
    (canonicalChars cs).length = cs.length := by
  simp [canonicalChars]

@[simp] theorem isEmpty_canonicalChars (cs : List Char) :
    (canonicalChars cs).isEmpty = cs.isEmpty := by
  cases cs <;> rfl

theorem take_canonicalChars (n : Nat) (cs : List Char) :
    (canonicalChars cs).take n = canonicalChars (cs.take n) :=
  List.map_take.symm

theorem drop_canonicalChars (n : Nat) (cs : List Char) :
    (canonicalChars cs).drop n = canonicalChars (cs.drop n) :=
  List.map_drop.symm

theorem canonicalChars_of_no_letter {cs : List Char} (h : ∀ c ∈ cs, isLetter c = false) :
    canonicalChars cs = cs :=
  (List.map_congr_left fun c hc => toLower_of_not_letter (h c hc)).trans (List.map_id cs)

theorem takeWhile_canonicalChars {p : Char → Bool} (h : ∀ c, p c.toLower = p c) (cs : List Char) :
    (canonicalChars cs).takeWhile p = canonicalChars (cs.takeWhile p) := by
  rw [canonicalChars, canonicalChars, List.takeWhile_map]
  congr 2
  exact funext h

theorem dropWhile_canonicalChars {p : Char → Bool} (h : ∀ c, p c.toLower = p c) (cs : List Char) :
    (canonicalChars cs).dropWhile p = canonicalChars (cs.dropWhile p) := by
  rw [canonicalChars, canonicalChars, List.dropWhile_map]
  congr 2
  exact funext h

theorem canonicalChars_append (front back : List Char) :
    canonicalChars (front ++ back) = canonicalChars front ++ canonicalChars back :=
  List.map_append

@[simp] theorem unitLength_canonicalChars (cs : List Char) :
    unitLength (canonicalChars cs) = unitLength cs := by
  induction cs with
  | nil => rfl
  | cons c cs ih => simp [ih]

/-! ## Canonical forms -/

theorem startsCased_canonicalChars (cs : List Char) :
    startsCased (canonicalChars cs) = startsCased cs := by
  rw [startsCased, dropWhile_canonicalChars isCaseIgnorable_toLower, canonicalChars, List.head?_map,
    startsCased]
  cases (cs.dropWhile isCaseIgnorable).head? <;> simp

theorem lowerFrom_canonicalChars (before cs : List Char) :
    lowerFrom (canonicalChars before) (canonicalChars cs) = lowerFrom before cs := by
  have hsigma : isLetter '\u03A3' = false := by decide
  induction cs generalizing before with
  | nil => rfl
  | cons c cs ih =>
      rw [canonicalChars_cons, lowerFrom, lowerFrom, ← canonicalChars_cons, ih]
      simp [startsCased_canonicalChars, toLower_eq_iff hsigma]

/-- The canonical form of a name is that of the name in lower case. -/
theorem canonicalName_canonicalChars (name : String) :
    canonicalName (String.ofList (canonicalChars name.toList)) = canonicalName name := by
  rw [canonicalName, String.toList_ofList, lowerCase, ← canonicalChars_nil,
    lowerFrom_canonicalChars, canonicalName, lowerCase]

end NestedPascal
