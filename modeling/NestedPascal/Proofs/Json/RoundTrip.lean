import NestedPascal.Proofs.Json.Strings

/-!
# JSON that is read back

The compact text of a value is read back as the value.  Three things are lost in a text: numbers that
are not finite become null, zero loses its sign, and unpaired surrogates may come together.
-/

namespace NestedPascal.Json

mutual

/-- The text of the value tells all of it, up to numbers that are not finite. -/
def Told : Json → Prop
  | .null | .bool _ => True
  | .number x => x ≠ .zero true
  | .string t => ∃ chars, t = Text.ofChars chars
  | .array items => itemsTold items
  | .object members => membersTold members ∧ (members.map (·.1)).Nodup

def itemsTold : List Json → Prop
  | [] => True
  | v :: rest => v.Told ∧ itemsTold rest

def membersTold : List (Text × Json) → Prop
  | [] => True
  | (name, v) :: rest => (∃ chars, name = Text.ofChars chars) ∧ v.Told ∧ membersTold rest

end

mutual

/-- The value with null for each number that is not finite. -/
def finite : Json → Json
  | .null => .null
  | .bool b => .bool b
  | .number x => if x.isFinite then .number x else .null
  | .string t => .string t
  | .array items => .array (finiteItems items)
  | .object members => .object (finiteMembers members)

def finiteItems : List Json → List Json
  | [] => []
  | v :: rest => v.finite :: finiteItems rest

def finiteMembers : List (Text × Json) → List (Text × Json)
  | [] => []
  | (name, v) :: rest => (name, v.finite) :: finiteMembers rest

end

theorem names_finiteMembers (members : List (Text × Json)) :
    (finiteMembers members).map (·.1) = members.map (·.1) := by
  induction members with
  | nil => rfl
  | cons m rest ih => simp [finiteMembers, ih]

theorem replace_of_absent {κ α : Type} [DecidableEq κ] {key : κ} (value : α)
    {entries : List (κ × α)} (h : key ∉ entries.map (·.1)) :
    Register.replace key value entries = entries ++ [(key, value)] := by
  induction entries with
  | nil => rfl
  | cons e rest ih =>
      rw [List.map_cons, List.mem_cons, not_or] at h
      rw [Register.replace, if_neg (Ne.symm h.1), ih h.2, List.cons_append]

/-- Members of different names are kept as they are. -/
theorem settle_of_nodup {members : List (Text × Json)} (h : (members.map (·.1)).Nodup) :
    settle members = members := by
  have hset (before : List (Text × Json)) (hall : ((before ++ members).map (·.1)).Nodup) :
      (members.foldl (fun r m => r.set m.1 m.2) (Register.mk before)).entries = before ++ members := by
    induction members generalizing before with
    | nil => simp
    | cons m rest ih =>
        have habsent : m.1 ∉ before.map (·.1) := by
          rw [List.map_append, List.map_cons] at hall
          intro hmem
          exact (List.nodup_append.mp hall).2.2 _ hmem _ (List.mem_cons_self ..) rfl
        rw [List.foldl_cons, Register.set, replace_of_absent _ habsent, ih (List.nodup_cons.mp h).2]
        · simp
        · simpa using hall
  exact hset [] h

/-! ## How the text of a value begins -/

theorem skipSpace_of_cons {c : Char} {cs : List Char} (hc : isSpace c = false) :
    skipSpace (c :: cs) = c :: cs := by
  rw [skipSpace, List.dropWhile_cons_of_neg (by simp [hc])]

theorem not_space_of_isDigit {c : Char} (h : isDigit c = true) : isSpace c = false ∧ c ≠ ']' := by
  simp only [isDigit, Bool.and_eq_true, decide_eq_true_eq] at h
  constructor
  · rw [← Bool.not_eq_true]
    intro hspace
    simp only [isSpace, Bool.or_eq_true, beq_iff_eq] at hspace
    rcases hspace with ((rfl | rfl) | rfl) | rfl <;> exact absurd h.1 (by decide)
  · rintro rfl
    exact absurd h.2 (by decide)

/-- The text of a value begins with no space and closes nothing. -/
theorem compact_head (v : Json) :
    ∃ c cs, v.compact.toList = c :: cs ∧ isSpace c = false ∧ c ≠ ']' := by
  cases v with
  | null => exact ⟨_, _, rfl, rfl, by decide⟩
  | bool b => cases b <;> exact ⟨_, _, rfl, rfl, by decide⟩
  | number x =>
      rw [compact, writeNumber]
      by_cases hfinite : x.isFinite = true
      · obtain ⟨c, cs, htext, hc⟩ := head_of_finite hfinite
        rw [if_pos hfinite]
        refine ⟨c, cs, htext, ?_⟩
        rcases hc with hdigit | rfl
        · exact not_space_of_isDigit hdigit
        · decide
      · rw [if_neg hfinite]
        exact ⟨_, _, rfl, rfl, by decide⟩
  | string t =>
      rw [compact, toList_quote]
      exact ⟨_, _, rfl, rfl, by decide⟩
  | array items =>
      rw [compact, String.toList_append, String.toList_append]
      exact ⟨_, _, rfl, rfl, by decide⟩
  | object members =>
      rw [compact, String.toList_append, String.toList_append]
      exact ⟨_, _, rfl, rfl, by decide⟩

theorem skipSpace_compact (v : Json) (rest : List Char) :
    skipSpace (v.compact.toList ++ rest) = v.compact.toList ++ rest := by
  obtain ⟨c, cs, hcs, hc, -⟩ := compact_head v
  rw [hcs, List.cons_append, skipSpace_of_cons hc]

/-! ## Reading values -/

section

variable {cs nameStart afterName afterColon after more rest : List Char} {v : Json}
  {items : List Json} {name : Text} {members : List (Text × Json)} {nameless : FaultCause}

theorem readValue_of_array (hempty : ∀ rest', skipSpace cs ≠ ']' :: rest')
    (h : Reads (readItems cs) items rest) : Reads (readValue ('[' :: cs)) (.array items) rest := by
  obtain ⟨hshorter, heq⟩ := h.eq_ok
  unfold Reads
  rw [readValue]
  split
  next heq => exact absurd heq (hempty _)
  next =>
    rw [heq]
    rfl

theorem readValue_of_object (hempty : ∀ rest', skipSpace cs ≠ '\x7d' :: rest')
    (h : Reads (readMembers .memberOrBrace cs) members rest) :
    Reads (readValue ('\x7b' :: cs)) (.object (settle members)) rest := by
  obtain ⟨hshorter, heq⟩ := h.eq_ok
  unfold Reads
  rw [readValue]
  split
  next heq => exact absurd heq (hempty _)
  next =>
    rw [heq]
    rfl

theorem readItems_of_last (hv : Reads (readValue (skipSpace cs)) v after)
    (hafter : skipSpace after = ']' :: rest) : Reads (readItems cs) [v] rest := by
  obtain ⟨hshorter, heq⟩ := hv.eq_ok
  unfold Reads
  rw [readItems]
  simp only [heq]
  split
  next h => simp [hafter] at h
  next h =>
    rw [hafter] at h
    cases h
    rfl
  next hclosed => exact absurd hafter (hclosed _)

theorem readItems_of_more (hv : Reads (readValue (skipSpace cs)) v after)
    (hafter : skipSpace after = ',' :: more) (hmore : Reads (readItems more) items rest) :
    Reads (readItems cs) (v :: items) rest := by
  obtain ⟨hshorter, heq⟩ := hv.eq_ok
  obtain ⟨hshorter', heq'⟩ := hmore.eq_ok
  unfold Reads
  rw [readItems]
  simp only [heq]
  split
  next h =>
    rw [hafter] at h
    cases h
    rw [heq']
    rfl
  next h => simp [hafter] at h
  next hcomma _ => exact absurd hafter (hcomma _)

theorem readMembers_of_last (hname : skipSpace cs = '"' :: nameStart)
    (hread : Reads (readString nameStart) name afterName)
    (hcolon : skipSpace afterName = ':' :: afterColon)
    (hv : Reads (readValue (skipSpace afterColon)) v after)
    (hafter : skipSpace after = '\x7d' :: rest) : Reads (readMembers nameless cs) [(name, v)] rest := by
  obtain ⟨hshorter, heq⟩ := hread.eq_ok
  obtain ⟨hshorter', heq'⟩ := hv.eq_ok
  unfold Reads
  rw [readMembers]
  split
  next h =>
    rw [hname] at h
    cases h
    simp only [heq]
    split
    next h =>
      rw [hcolon] at h
      cases h
      simp only [heq']
      split
      next h => simp [hafter] at h
      next h =>
        rw [hafter] at h
        cases h
        rfl
      next hclosed => exact absurd hafter (hclosed _)
    next hcolon' => exact absurd hcolon (hcolon' _)
  next hname' => exact absurd hname (hname' _)

theorem readMembers_of_more (hname : skipSpace cs = '"' :: nameStart)
    (hread : Reads (readString nameStart) name afterName)
    (hcolon : skipSpace afterName = ':' :: afterColon)
    (hv : Reads (readValue (skipSpace afterColon)) v after)
    (hafter : skipSpace after = ',' :: more) (hmore : Reads (readMembers .memberName more) members rest) :
    Reads (readMembers nameless cs) ((name, v) :: members) rest := by
  obtain ⟨hshorter, heq⟩ := hread.eq_ok
  obtain ⟨hshorter', heq'⟩ := hv.eq_ok
  obtain ⟨hshorter'', heq''⟩ := hmore.eq_ok
  unfold Reads
  rw [readMembers]
  split
  next h =>
    rw [hname] at h
    cases h
    simp only [heq]
    split
    next h =>
      rw [hcolon] at h
      cases h
      simp only [heq']
      split
      next h =>
        rw [hafter] at h
        cases h
        rw [heq'']
        rfl
      next h => simp [hafter] at h
      next hcomma _ => exact absurd hafter (hcomma _)
    next hcolon' => exact absurd hcolon (hcolon' _)
  next hname' => exact absurd hname (hname' _)

end

/-! ## Values read back -/

theorem endsNumber_of_cons {c : Char} {rest : List Char}
    (hc : isDigit c = false ∧ c ≠ '.' ∧ c ≠ 'e' ∧ c ≠ 'E') : EndsNumber (c :: rest) := by
  intro c' hc'
  cases hc'
  exact hc

theorem readValue_of_string (chars rest : List Char) :
    Reads (readValue ((quote (Text.ofChars chars)).toList ++ rest)) (.string (Text.ofChars chars))
      rest := by
  obtain ⟨hshorter, heq⟩ := (readString_of_chars chars rest).eq_ok
  rw [toList_quote, List.append_assoc, List.cons_append, List.singleton_append]
  unfold Reads
  rw [readValue, heq]
  rfl

theorem readValue_of_empty_array (rest : List Char) :
    Reads (readValue ('[' :: ']' :: rest)) (.array []) rest := by
  unfold Reads
  rw [readValue]
  split
  next h =>
    rw [skipSpace_of_cons rfl] at h
    cases h
    rfl
  next h => exact absurd (skipSpace_of_cons rfl) (h rest)

theorem readValue_of_empty_object (rest : List Char) :
    Reads (readValue ('\x7b' :: '\x7d' :: rest)) (.object []) rest := by
  unfold Reads
  rw [readValue]
  split
  next h =>
    rw [skipSpace_of_cons rfl] at h
    cases h
    rfl
  next h => exact absurd (skipSpace_of_cons rfl) (h rest)

theorem readWord_of_append (word : List Char) (hword : word ≠ []) (value : Json)
    (rest : List Char) : Reads (readWord word value (word ++ rest)) value rest := by
  have hfront : word.isPrefixOf (word ++ rest) = true :=
    List.isPrefixOf_iff_prefix.mpr (List.prefix_append word rest)
  unfold Reads
  rw [readWord, dif_pos ⟨hfront, hword⟩]
  simp [Except.map]

theorem readValue_of_null (rest : List Char) : Reads (readValue ("null".toList ++ rest)) .null rest := by
  have hword := readWord_of_append "null".toList (by decide) .null rest
  change Reads (readValue ('n' :: ("ull".toList ++ rest))) .null rest
  rw [readValue]
  exact hword

theorem readValue_of_bool (b : Bool) (rest : List Char) :
    Reads (readValue ((if b then "true" else "false").toList ++ rest)) (.bool b) rest := by
  cases b with
  | true =>
      have hword := readWord_of_append "true".toList (by decide) (.bool true) rest
      change Reads (readValue ('t' :: ("rue".toList ++ rest))) (.bool true) rest
      rw [readValue]
      exact hword
  | false =>
      have hword := readWord_of_append "false".toList (by decide) (.bool false) rest
      change Reads (readValue ('f' :: ("alse".toList ++ rest))) (.bool false) rest
      rw [readValue]
      exact hword

theorem toList_compactMember (name : Text) (v : Json) (rest : List Char) :
    (quote name ++ ":" ++ v.compact).toList ++ rest =
      '"' :: ((name.flatMap fun g => (escape g).toList) ++
        '"' :: ':' :: (v.compact.toList ++ rest)) := by
  simp [toList_quote]

theorem toList_compactItems (v : Json) {items : List Json} (hitems : items ≠ [])
    (rest : List Char) :
    (",".intercalate (compactItems (v :: items))).toList ++ rest =
      v.compact.toList ++ ',' :: ((",".intercalate (compactItems items)).toList ++ rest) := by
  cases items with
  | nil => contradiction
  | cons w items => simp [compactItems, String.intercalate_cons_cons]

theorem toList_compactMembers (name : Text) (v : Json) {members : List (Text × Json)}
    (hmembers : members ≠ []) (rest : List Char) :
    (",".intercalate (compactMembers ((name, v) :: members))).toList ++ rest =
      (quote name ++ ":" ++ v.compact).toList ++
        ',' :: ((",".intercalate (compactMembers members)).toList ++ rest) := by
  cases members with
  | nil => contradiction
  | cons m members => simp [compactMembers, String.intercalate_cons_cons]

theorem compactItems_head (v : Json) (items : List Json) (rest : List Char) :
    ∃ c cs, (",".intercalate (compactItems (v :: items))).toList ++ rest = c :: cs ∧
      isSpace c = false ∧ c ≠ ']' := by
  obtain ⟨c, cs, hcs, hc⟩ := compact_head v
  by_cases hitems : items = []
  · refine ⟨c, cs ++ rest, ?_, hc⟩
    rw [hitems, compactItems, compactItems, String.intercalate_singleton, hcs, List.cons_append]
  · rw [toList_compactItems v hitems, hcs]
    exact ⟨c, _, rfl, hc⟩

theorem compactMembers_head (m : Text × Json) (members : List (Text × Json)) (rest : List Char) :
    ∃ cs, (",".intercalate (compactMembers (m :: members))).toList ++ rest = '"' :: cs := by
  obtain ⟨name, v⟩ := m
  by_cases hmembers : members = []
  · rw [hmembers, compactMembers, compactMembers, String.intercalate_singleton,
      toList_compactMember]
    exact ⟨_, rfl⟩
  · rw [toList_compactMembers name v hmembers, toList_compactMember]
    exact ⟨_, rfl⟩

mutual

/-- A value is read back from its compact text, whatever follows it. -/
theorem readValue_compact :
    (v : Json) → v.Told → (rest : List Char) → EndsNumber rest →
      Reads (readValue (v.compact.toList ++ rest)) v.finite rest
  | .null, _, rest, _ => by
    rw [compact, finite]
    exact readValue_of_null rest
  | .bool b, _, rest, _ => by
    rw [compact, finite]
    exact readValue_of_bool b rest
  | .number x, hv, rest, hrest => by
    rw [compact, finite, writeNumber]
    by_cases hfinite : x.isFinite = true
    · rw [if_pos hfinite, if_pos hfinite]
      exact readValue_of_number hfinite hv hrest
    · rw [if_neg hfinite, if_neg hfinite]
      exact readValue_of_null rest
  | .string t, hv, rest, _ => by
    obtain ⟨chars, rfl⟩ := hv
    rw [compact, finite]
    exact readValue_of_string chars rest
  | .array items, hv, rest, _ => by
    have htext : (compact (.array items)).toList ++ rest =
        '[' :: ((",".intercalate (compactItems items)).toList ++ ']' :: rest) := by
      simp [compact]
    rw [htext, finite]
    by_cases hitems : items = []
    · subst items
      exact readValue_of_empty_array rest
    · refine readValue_of_array ?_ (readItems_compact items hitems hv rest)
      intro rest'
      obtain ⟨v, items', rfl⟩ := List.exists_cons_of_ne_nil hitems
      obtain ⟨c, cs, hcs, hspace, hc⟩ := compactItems_head v items' (']' :: rest)
      rw [hcs, skipSpace_of_cons hspace]
      simp [hc]
  | .object members, hv, rest, _ => by
    have htext : (compact (.object members)).toList ++ rest =
        '\x7b' :: ((",".intercalate (compactMembers members)).toList ++ '\x7d' :: rest) := by
      simp [compact]
    rw [htext, finite]
    by_cases hmembers : members = []
    · subst members
      exact readValue_of_empty_object rest
    · -- A reader settles names that occur twice, and these do not.
      have hsettled : settle (finiteMembers members) = finiteMembers members := by
        apply settle_of_nodup
        rw [names_finiteMembers]
        exact hv.2
      rw [← hsettled]
      refine readValue_of_object ?_ (readMembers_compact .memberOrBrace members hmembers hv.1 rest)
      intro rest'
      obtain ⟨m, members', rfl⟩ := List.exists_cons_of_ne_nil hmembers
      obtain ⟨cs, hcs⟩ := compactMembers_head m members' ('\x7d' :: rest)
      rw [hcs, skipSpace_of_cons rfl]
      simp

theorem readItems_compact :
    (items : List Json) → items ≠ [] → itemsTold items → (rest : List Char) →
      Reads (readItems ((",".intercalate (compactItems items)).toList ++ ']' :: rest))
        (finiteItems items) rest
  | v :: items, _, hitems, rest => by
    by_cases hlast : items = []
    · have hv := readValue_compact v hitems.1
        (']' :: rest) (endsNumber_of_cons (by decide))
      rw [← skipSpace_compact] at hv
      rw [hlast, compactItems, compactItems, String.intercalate_singleton]
      exact readItems_of_last hv (skipSpace_of_cons rfl)
    · have hmore := readItems_compact items hlast hitems.2 rest
      have hv := readValue_compact v hitems.1
        (',' :: ((",".intercalate (compactItems items)).toList ++ ']' :: rest))
        (endsNumber_of_cons (by decide))
      rw [← skipSpace_compact] at hv
      rw [toList_compactItems v hlast]
      exact readItems_of_more hv (skipSpace_of_cons rfl) hmore

theorem readMembers_compact (nameless : FaultCause) :
    (members : List (Text × Json)) → members ≠ [] → membersTold members → (rest : List Char) →
      Reads (readMembers nameless
        ((",".intercalate (compactMembers members)).toList ++ '\x7d' :: rest))
        (finiteMembers members) rest
  | (name, v) :: members, _, hmembers, rest => by
    obtain ⟨⟨chars, hchars⟩, hv, hothers⟩ := hmembers
    by_cases hlast : members = []
    · have hvalue := readValue_compact v hv ('\x7d' :: rest)
        (endsNumber_of_cons (by decide))
      rw [← skipSpace_compact] at hvalue
      rw [hlast, hchars, compactMembers, compactMembers, String.intercalate_singleton,
        toList_compactMember]
      exact readMembers_of_last (skipSpace_of_cons rfl) (readString_of_chars chars _)
        (skipSpace_of_cons rfl) hvalue (skipSpace_of_cons rfl)
    · have hmore := readMembers_compact .memberName members hlast hothers rest
      have hvalue := readValue_compact v hv
        (',' :: ((",".intercalate (compactMembers members)).toList ++ '\x7d' :: rest))
        (endsNumber_of_cons (by decide))
      rw [← skipSpace_compact] at hvalue
      rw [toList_compactMembers name v hlast, hchars, toList_compactMember]
      exact readMembers_of_more (skipSpace_of_cons rfl) (readString_of_chars chars _)
        (skipSpace_of_cons rfl) hvalue (skipSpace_of_cons rfl) hmore

end

/-- A text that is the compact one of a value is read as the value. -/
theorem read?_compact {v : Json} (hv : v.Told) : read? v.compact.toList = some v.finite := by
  have hread := readValue_compact v hv [] (fun c hc => nomatch hc)
  rw [← skipSpace_compact, List.append_nil] at hread
  obtain ⟨hshorter, heq⟩ := hread.eq_ok
  have hwhole : readWhole v.compact.toList = .ok v.finite := by
    rw [readWhole, heq]
    rfl
  rw [read?, read, hwhole]
  rfl

end NestedPascal.Json
