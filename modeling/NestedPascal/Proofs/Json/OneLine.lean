import NestedPascal.Proofs.Json.RoundTrip

/-!
# JSON on one line

A compact text stands on one line: line feeds inside strings are escaped, and nothing else has any.
-/

namespace NestedPascal

theorem lineFeed_not_digit {digits : List Char} (h : ∀ c ∈ digits, isDigit c = true) :
    '\n' ∉ digits :=
  fun hmem => absurd (h _ hmem) (by decide)

theorem NumberParts.Proper.lineFeed_not_mem {t : NumberParts} (h : t.Proper) : '\n' ∉ t.text := by
  have hwhole := lineFeed_not_digit h.whole
  have hfraction : '\n' ∉ (if t.fraction = [] then [] else '.' :: t.fraction) := by
    by_cases hnone : t.fraction = []
    · simp [hnone]
    · simp [hnone, lineFeed_not_digit h.fraction]
  have hexponent : '\n' ∉ (t.exponent.map exponentText).getD [] := by
    cases t.exponent with
    | none => simp
    | some n =>
        have hdigits := lineFeed_not_digit fun c => isDigit_of_mem_toDigits (n := n.natAbs) (c := c)
        by_cases hnegative : n < 0 <;> simp [exponentText, hnegative, hdigits]
  simp only [text, List.mem_append, not_or]
  exact ⟨⟨hwhole, hfraction⟩, hexponent⟩

namespace Json

theorem lineFeed_not_mem_escape (c : Char) : '\n' ∉ (escape (.char c)).toList := by
  rcases escape_cases c with
    ⟨e, -, hescaped, htext⟩ | ⟨hcontrol, htext⟩ | ⟨-, -, hcontrol, htext⟩
  · have hletter : e ≠ '\n' := by
      rintro rfl
      contradiction
    simp [htext, hletter.symm]
  · have hdigits : ∀ n < 0x20, '\n' ∉ (hexDigits 4 n).toList := by decide +kernel
    simp [htext, hdigits c.toNat hcontrol]
  · have hplain : c ≠ '\n' := by
      rintro rfl
      exact hcontrol (by decide)
    simp [htext, hplain.symm]

theorem lineFeed_not_mem_quote (chars : List Char) :
    '\n' ∉ (quote (Text.ofChars chars)).toList := by
  simp [toList_quote, Text.ofChars, lineFeed_not_mem_escape]

theorem lineFeed_not_mem_writeNumber (x : Binary64) : '\n' ∉ (writeNumber x).toList := by
  rw [writeNumber]
  by_cases hfinite : x.isFinite = true
  · obtain ⟨negative, t, ht, htext, -⟩ := text_of_finite hfinite
    rw [if_pos hfinite, htext]
    cases negative <;> simp [ht.lineFeed_not_mem]
  · rw [if_neg hfinite]
    decide

mutual

/-- The compact text of a value has no line feed. -/
theorem lineFeed_not_mem_compact : (v : Json) → v.Told → '\n' ∉ v.compact.toList
  | .null, _ => by
    rw [compact]
    decide
  | .bool b, _ => by
    rw [compact]
    cases b <;> decide
  | .number x, _ => by
    rw [compact]
    exact lineFeed_not_mem_writeNumber x
  | .string t, hv => by
    obtain ⟨chars, rfl⟩ := hv
    rw [compact]
    exact lineFeed_not_mem_quote chars
  | .array items, hv => by
    have hitems := lineFeed_not_mem_items items hv
    simp [compact, hitems, -String.toList_intercalate]
  | .object members, hv => by
    have hmembers := lineFeed_not_mem_members members hv.1
    simp [compact, hmembers, -String.toList_intercalate]

theorem lineFeed_not_mem_items :
    (items : List Json) → itemsTold items → '\n' ∉ (",".intercalate (compactItems items)).toList
  | [], _ => by simp [compactItems]
  | v :: items, hitems => by
    have hv := lineFeed_not_mem_compact v hitems.1
    by_cases hlast : items = []
    · rw [hlast, compactItems, compactItems, String.intercalate_singleton]
      exact hv
    · have hmore := lineFeed_not_mem_items items hitems.2
      have htext := toList_compactItems v hlast []
      rw [List.append_nil, List.append_nil] at htext
      simp [htext, hv, hmore, -String.toList_intercalate]

theorem lineFeed_not_mem_members :
    (members : List (Text × Json)) → membersTold members →
      '\n' ∉ (",".intercalate (compactMembers members)).toList
  | [], _ => by simp [compactMembers]
  | (name, v) :: members, hmembers => by
    obtain ⟨⟨chars, hchars⟩, htold, hothers⟩ := hmembers
    have hv := lineFeed_not_mem_compact v htold
    have hname := lineFeed_not_mem_quote chars
    by_cases hlast : members = []
    · rw [hlast, hchars, compactMembers, compactMembers, String.intercalate_singleton]
      simp [hv, hname]
    · have hmore := lineFeed_not_mem_members members hothers
      have htext := toList_compactMembers name v hlast []
      rw [List.append_nil, List.append_nil] at htext
      rw [htext, hchars]
      simp [hv, hname, hmore, -String.toList_intercalate]

end

end Json

end NestedPascal
