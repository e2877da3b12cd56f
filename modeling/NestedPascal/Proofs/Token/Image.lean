import NestedPascal.Proofs.Text.LetterCase
import NestedPascal.Proofs.Token.Decomposition
import NestedPascal.Token.Basic

/-!
# Images of tokens

The image of an identifier is a letter followed by letters and digits and is no keyword in any
case; the image of a keyword is that keyword in some case.  A text that is both is a keyword, which
is why no identifier is one.
-/

namespace NestedPascal

/-- An identifier of the language, keywords excluded. -/
structure IsIdentifier (name : String) : Prop where
  shape : ∃ first rest, name.toList = first :: rest ∧ isLetter first = true ∧
    ∀ c ∈ rest, isLetterOrDigit c = true
  not_keyword : ∀ k : Keyword, canonicalChars name.toList ≠ k.spelling

theorem isLetterOrDigit_ascii {c : Char} (h : isLetterOrDigit c = true) : c.toNat < 0x80 := by
  simp only [isLetterOrDigit, Bool.or_eq_true] at h
  rcases h with h | h
  · exact isLetter_ascii h
  · exact isDigit_ascii h

theorem toLower_ascii {c : Char} (h : c.toNat < 0x80) : c.toLower.toNat < 0x80 := by
  have key : ∀ n : Fin 0x80, (Char.ofNat n).toLower.toNat < 0x80 := by decide
  simpa using key ⟨c.toNat, h⟩

theorem canonicalName_of_ascii {name : String} (h : ∀ c ∈ name.toList, c.toNat < 0x80) :
    canonicalName name = String.ofList (canonicalChars name.toList) := by
  simpa using canonicalName_ofList h

namespace IsIdentifier

variable {name : String}

theorem ascii (h : IsIdentifier name) : ∀ c ∈ name.toList, c.toNat < 0x80 := by
  obtain ⟨first, rest, hlist, hfirst, hrest⟩ := h.shape
  intro c hc
  rw [hlist, List.mem_cons] at hc
  rcases hc with rfl | hc
  · exact isLetter_ascii hfirst
  · exact isLetterOrDigit_ascii (hrest c hc)

theorem canonicalName_eq (h : IsIdentifier name) :
    canonicalName name = String.ofList (canonicalChars name.toList) :=
  canonicalName_of_ascii h.ascii

theorem canonicalName_canonicalName (h : IsIdentifier name) :
    canonicalName (canonicalName name) = canonicalName name := by
  have hascii : ∀ c ∈ canonicalChars name.toList, c.toNat < 0x80 := by
    intro c hc
    obtain ⟨d, hd, rfl⟩ := List.mem_map.mp hc
    exact toLower_ascii (h.ascii d hd)
  rw [h.canonicalName_eq, canonicalName_ofList hascii, canonicalChars_canonicalChars]

theorem canonicalName_ne_keyword (h : IsIdentifier name) (k : Keyword) :
    canonicalName name ≠ String.ofList k.spelling := by
  rw [h.canonicalName_eq]
  intro heq
  exact h.not_keyword k (String.ofList_injective heq)

end IsIdentifier

/-- What the images of tokens are. -/
structure Token.HasImage (t : Token) : Prop where
  identifier : t.kind = .identifier → IsIdentifier t.image
  keyword : ∀ k, t.kind = .keyword k → canonicalChars t.image.toList = k.spelling

theorem Token.HasImage.canonicalName_eq {t : Token} (ht : t.HasImage) {k : Keyword}
    (hkind : t.kind = .keyword k) : canonicalName t.image = String.ofList k.spelling := by
  have hascii : ∀ c ∈ t.image.toList, c.toNat < 0x80 := by
    intro c hc
    have hlower : c.toLower ∈ k.spelling := by
      rw [← ht.keyword k hkind]
      exact List.mem_map_of_mem hc
    have hspelling : k.spelling.all (fun d => d.toNat < 0x80) = true := by cases k <;> rfl
    exact ascii_of_toLower (of_decide_eq_true (List.all_eq_true.mp hspelling _ hlower))
  rw [canonicalName_of_ascii hascii, ht.keyword k hkind]

theorem hasImage_of_mem_tokensOf {source : List Char} {t : Token} (ht : t ∈ tokensOf source) :
    t.HasImage := by
  obtain ⟨s, hs, htoken⟩ := List.mem_filterMap.mp ht
  unfold Segment.token? at htoken
  split at htoken
  next kind hkind =>
    simp only [Option.some.injEq] at htoken
    subst t
    obtain ⟨rest, htakes⟩ := Segment.takes_of_mem hs
    rw [hkind] at htakes
    constructor
    · rintro rfl
      constructor
      · rw [String.toList_ofList]
        exact htakes.member
      · intro k hk
        rw [String.toList_ofList] at hk
        exact htakes.no_keyword rfl k hk
    · rintro k rfl
      rw [String.toList_ofList]
      exact htakes.member
  next => contradiction

end NestedPascal
