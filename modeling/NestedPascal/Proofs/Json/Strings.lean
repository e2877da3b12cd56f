import NestedPascal.Json.Writer
import NestedPascal.Proofs.Json.Numbers

/-!
# Strings in JSON

A quoted text is read back as that text, escapes and all.  A text with unpaired surrogates is left
out, for two of them in a row read as one character.
-/

namespace NestedPascal.Json

theorem toList_quote (t : Text) :
    (quote t).toList = '"' :: (t.flatMap fun g => (escape g).toList) ++ ['"'] := by
  have hfold (s : String) : (t.foldl (fun s g => s ++ escape g) s).toList =
      s.toList ++ t.flatMap fun g => (escape g).toList := by
    induction t generalizing s with
    | nil => simp
    | cons g t ih =>
        rw [List.foldl_cons, ih, String.toList_append, List.flatMap_cons, List.append_assoc]
  rw [quote, String.toList_append, hfold]
  rfl

/-! ## One character -/

section

variable {cs rest : List Char} {t : Text}

theorem readString_of_plain {c : Char} (hquote : c ≠ '"') (hbackslash : c ≠ '\\')
    (hcontrol : ¬ c.toNat < 0x20) (h : Reads (readString cs) t rest) :
    Reads (readString (c :: cs)) (.char c :: t) rest := by
  obtain ⟨hshorter, heq⟩ := h.eq_ok
  rw [readString, if_neg hcontrol, heq]
  · rfl
  · simpa using hquote
  · simp [hbackslash]
  · simp [hbackslash]
  · simp [hbackslash]
  · simp [hbackslash]

theorem readString_of_letter {e c : Char} (he : e ≠ 'u') (hescaped : escaped? e = some c)
    (h : Reads (readString cs) t rest) :
    Reads (readString ('\\' :: e :: cs)) (.char c :: t) rest := by
  obtain ⟨hshorter, heq⟩ := h.eq_ok
  rw [readString, hescaped]
  · simp only [heq]
    rfl
  · simp [he]
  · simp [he]

theorem readString_of_unit {a b c d : Char} {unit : Nat}
    (hunit : readInBase? 16 [a, b, c, d] = some unit) (h : Reads (readString cs) t rest) :
    Reads (readString ('\\' :: 'u' :: a :: b :: c :: d :: cs))
      (Text.push (Text.glyphOfUnit unit) t) rest := by
  obtain ⟨hshorter, heq⟩ := h.eq_ok
  rw [readString, hunit]
  simp only [heq]
  rfl

end

theorem hexDigits_of_control : ∀ n < 0x20, ∃ a b c d, (hexDigits 4 n).toList = [a, b, c, d] ∧
    readInBase? 16 [a, b, c, d] = some n := by
  intro n hn
  have hdigits : ∀ n < 0x20, (hexDigits 4 n).toList.length = 4 ∧
      readInBase? 16 (hexDigits 4 n).toList = some n := by decide +kernel
  obtain ⟨hlength, hread⟩ := hdigits n hn
  obtain ⟨a, b, c, d, heq⟩ := List.length_eq_four.mp hlength
  exact ⟨a, b, c, d, heq, heq ▸ hread⟩

/-- A character is escaped with a letter or as its unit, or stands for itself. -/
theorem escape_cases (c : Char) :
    (∃ e, e ≠ 'u' ∧ escaped? e = some c ∧ (escape (.char c)).toList = ['\\', e]) ∨
      (c.toNat < 0x20 ∧
        (escape (.char c)).toList = '\\' :: 'u' :: (hexDigits 4 c.toNat).toList) ∨
      (c ≠ '"' ∧ c ≠ '\\' ∧ ¬ c.toNat < 0x20 ∧ (escape (.char c)).toList = [c]) := by
  unfold escape
  split
  next heq =>
    cases heq
    exact .inl ⟨'"', by decide, rfl, rfl⟩
  next heq =>
    cases heq
    exact .inl ⟨'\\', by decide, rfl, rfl⟩
  next heq =>
    cases heq
    exact .inl ⟨'b', by decide, rfl, rfl⟩
  next heq =>
    cases heq
    exact .inl ⟨'t', by decide, rfl, rfl⟩
  next heq =>
    cases heq
    exact .inl ⟨'n', by decide, rfl, rfl⟩
  next heq =>
    cases heq
    exact .inl ⟨'f', by decide, rfl, rfl⟩
  next heq =>
    cases heq
    exact .inl ⟨'r', by decide, rfl, rfl⟩
  next hquote hbackslash _ _ _ _ _ heq =>
    cases heq
    right
    by_cases hcontrol : c.toNat < 0x20
    · left
      rw [if_pos hcontrol, String.toList_append]
      exact ⟨hcontrol, rfl⟩
    · right
      rw [if_neg hcontrol]
      exact ⟨by simpa using hquote, by simpa using hbackslash, hcontrol, String.toList_singleton c⟩
  next => contradiction

theorem readString_of_escape (c : Char) {cs rest : List Char} {t : Text}
    (h : Reads (readString cs) t rest) :
    Reads (readString ((escape (.char c)).toList ++ cs)) (.char c :: t) rest := by
  rcases escape_cases c with
    ⟨e, he, hescaped, htext⟩ | ⟨hcontrol, htext⟩ | ⟨hquote, hbackslash, hcontrol, htext⟩
  · rw [htext]
    exact readString_of_letter he hescaped h
  · obtain ⟨a, b, d, e, hdigits, hread⟩ := hexDigits_of_control c.toNat hcontrol
    have hchar := Text.glyphOfUnit_of_basic (show c.toNat < 0x10000 by omega)
    have hunit := readString_of_unit hread h
    rw [hchar, Text.push_char] at hunit
    rw [htext, hdigits]
    exact hunit
  · rw [htext]
    exact readString_of_plain hquote hbackslash hcontrol h

/-- A quoted text of characters is read back. -/
theorem readString_of_chars (chars rest : List Char) :
    Reads (readString (((Text.ofChars chars).flatMap fun g => (escape g).toList) ++ '"' :: rest))
      (Text.ofChars chars) rest := by
  induction chars with
  | nil =>
      change Reads (readString ('"' :: rest)) [] rest
      rw [readString]
      rfl
  | cons c chars ih =>
      have hsplit : ((Text.ofChars (c :: chars)).flatMap fun g => (escape g).toList) ++ '"' :: rest =
          (escape (.char c)).toList ++
            (((Text.ofChars chars).flatMap fun g => (escape g).toList) ++ '"' :: rest) := by
        simp [Text.ofChars]
      rw [hsplit]
      exact readString_of_escape c ih

end NestedPascal.Json
