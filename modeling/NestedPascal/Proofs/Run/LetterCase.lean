import NestedPascal.Proofs.Grammar.Relabelling
import NestedPascal.Proofs.Grammar.SourceTree
import NestedPascal.Proofs.Paired
import NestedPascal.Proofs.Run.Relabelling
import NestedPascal.Proofs.Scope.Relabelling
import NestedPascal.Proofs.Token.LetterCase

/-!
# Case does not matter

A source in lower case lexes, parses, is analysed and runs as the source itself does, with names in
lower case wherever they are shown as they are written.  So two sources that differ in the case of
letters at most go the same way at every stage, and what is told of them differs in case at most.
-/

namespace NestedPascal

/-! ## What is told, in lower case -/

def Glyph.lower : Glyph → Glyph
  | .char c => .char c.toLower
  | .unpaired unit => .unpaired unit

def Text.lower (t : Text) : Text :=
  t.map Glyph.lower

mutual

/-- The value with its texts in lower case. -/
def Json.lower : Json → Json
  | .string t => .string t.lower
  | .array items => .array (lowerItems items)
  | .object members => .object (lowerMembers members)
  | .null => .null
  | .bool value => .bool value
  | .number value => .number value

def lowerItems : List Json → List Json
  | [] => []
  | item :: rest => item.lower :: lowerItems rest

def lowerMembers : List (Text × Json) → List (Text × Json)
  | [] => []
  | (name, value) :: rest => (name, value.lower) :: lowerMembers rest

end

def Diagnostic.lower (d : Diagnostic) : Diagnostic :=
  { d with message := d.message.lower }

theorem Text.lower_ofString (s : String) :
    (Text.ofString s).lower = Text.ofChars (canonicalChars s.toList) := by
  simp [lower, ofString, ofChars, canonicalChars, Glyph.lower]

theorem Text.lower_append (front back : Text) :
    Text.lower (front ++ back) = front.lower ++ back.lower :=
  List.map_append

theorem canonicalChars_text (name : String) :
    canonicalChars (Relabelling.lowerCase.text name).toList = canonicalChars name.toList := by
  simp [Relabelling.lowerCase]

theorem Json.lower_ofFields_name (name : String) (fields : List (String × Option Json)) :
    (Json.ofFields (("name", some (.ofString (Relabelling.lowerCase.text name))) :: fields)).lower =
      (Json.ofFields (("name", some (.ofString name)) :: fields)).lower := by
  simp [Json.ofFields, Json.ofString, Json.lower, lowerMembers, Text.lower_ofString,
    canonicalChars_text]

theorem SemanticCause.message_relabel (c : SemanticCause) :
    canonicalChars (c.relabel .lowerCase).message.toList = canonicalChars c.message.toList := by
  unfold message
  cases c <;>
    simp only [relabel, String.toList_append, canonicalChars_append, canonicalChars_text]

theorem SemanticCause.details_relabel (c : SemanticCause) :
    (c.relabel .lowerCase).details.lower = c.details.lower := by
  cases c with
  | mixedOperands op left right => rfl
  | undefinedOperands op kind => rfl
  | _ => exact Json.lower_ofFields_name _ _

theorem EvaluationCause.message_relabel (c : EvaluationCause) :
    canonicalChars (c.relabel .lowerCase).message.toList = canonicalChars c.message.toList := by
  unfold message
  cases c <;>
    simp only [relabel, String.toList_append, canonicalChars_append, canonicalChars_text]

theorem EvaluationCause.details?_relabel (c : EvaluationCause) :
    (c.relabel .lowerCase).details?.map Json.lower = c.details?.map Json.lower := by
  cases c with
  | unassigned name => exact congrArg some (Json.lower_ofFields_name name [])
  | _ => rfl

theorem ParseError.message_relabel (e : ParseError) :
    canonicalChars (e.relabel .lowerCase).message.toList = canonicalChars e.message.toList := by
  obtain ⟨expected, found⟩ := e
  cases found with
  | none => rfl
  | some t =>
      simp only [relabel, message, Option.map_some, Token.image_relabel, String.toList_append,
        canonicalChars_append, canonicalChars_text]

theorem ParseError.detailedMessage_relabel (e : ParseError) :
    canonicalChars (e.relabel .lowerCase).detailedMessage.toList =
      canonicalChars e.detailedMessage.toList := by
  have hfound : canonicalChars (e.relabel .lowerCase).foundImage.toList =
      canonicalChars e.foundImage.toList := by
    obtain ⟨expected, found⟩ := e
    cases found with
    | none => rfl
    | some t => exact canonicalChars_text t.image
  have hexpected : (e.relabel .lowerCase).expected = e.expected := rfl
  unfold detailedMessage
  rw [hexpected]
  cases e.expected <;> simp only [String.toList_append, canonicalChars_append, hfound]

theorem ParseError.diagnostic_relabel (file : String) (detailed : Bool) (ts : List Token)
    (e : ParseError) :
    ((e.relabel .lowerCase).diagnostic file detailed (ts.map (·.relabel .lowerCase))).lower =
      (e.diagnostic file detailed ts).lower := by
  have hplace : (e.relabel .lowerCase).found.or (ts.map (·.relabel .lowerCase)).getLast? =
      (e.found.or ts.getLast?).map (·.relabel .lowerCase) := by
    rw [List.getLast?_map]
    cases h : e.found <;> simp [relabel, h]
  have hmessage : ∀ m m' : String, canonicalChars m.toList = canonicalChars m'.toList →
      (Text.ofString m).lower = (Text.ofString m').lower := by
    intro m m' h
    rw [Text.lower_ofString, h, Text.lower_ofString]
  simp only [diagnostic, Diagnostic.lower, hplace, Diagnostic.mk.injEq, true_and, and_true]
  constructor
  · cases detailed with
    | false => exact hmessage _ _ e.message_relabel
    | true => exact hmessage _ _ e.detailedMessage_relabel
  · cases e.found.or ts.getLast? <;> rfl

/-! ## Parsing -/

theorem Token.outOfRange_relabel {R : Relabelling} {ts : List Token} (hts : R.KeepsNumerals ts)
    {t : Token} (ht : t ∈ ts) : (t.relabel R).outOfRange = t.outOfRange := by
  rw [outOfRange, outOfRange, Token.kind_relabel, Token.image_relabel]
  by_cases hkind : t.kind = .integerNumber
  · rw [hts t ht (.inl hkind)]
  · rw [beq_eq_false_iff_ne.mpr hkind, Bool.false_and, Bool.false_and]

theorem find?_outOfRange_relabel {R : Relabelling} {ts : List Token} (hts : R.KeepsNumerals ts) :
    (ts.map (·.relabel R)).find? Token.outOfRange =
      (ts.find? Token.outOfRange).map (·.relabel R) := by
  induction ts with
  | nil => rfl
  | cons t rest ih =>
      have hfirst := Token.outOfRange_relabel hts List.mem_cons_self
      cases h : t.outOfRange <;> simp [h, hfirst, ih hts.tail]

theorem Token.rangeDiagnostic_relabel (file : String) (t : Token) :
    ((t.relabel .lowerCase).rangeDiagnostic file).lower = (t.rangeDiagnostic file).lower := by
  simp only [rangeDiagnostic, Diagnostic.lower, Text.lower_append, Text.lower_ofString,
    Token.image_relabel, canonicalChars_text]
  rfl

theorem Program.parse_canonicalChars (source : List Char) (file : String) (detailed : Bool) :
    (parse (canonicalChars source) file detailed).mapError (List.map Diagnostic.lower) =
      ((parse source file detailed).map (·.relabel .lowerCase)).mapError
        (List.map Diagnostic.lower) := by
  have hts := keepsNumerals_tokensOf source
  simp only [parse, lexicalErrors_canonicalChars, tokensOf_canonicalChars, ofTokens_relabel file hts,
    find?_outOfRange_relabel hts]
  by_cases herrors : (lexicalErrors source).isEmpty = true
  · simp only [if_pos herrors]
    cases ofTokens file (tokensOf source) with
    | error e =>
        simp only [Except.map, mapError_error, List.map_cons, List.map_nil, e.diagnostic_relabel]
    | ok p =>
        simp only [Except.map, mapError_ok]
        cases (tokensOf source).find? Token.outOfRange with
        | none => rfl
        | some t =>
            simp only [Option.map_some, mapError_error, List.map_cons, List.map_nil,
              t.rangeDiagnostic_relabel]
  · simp only [if_neg herrors]
    rfl

/-! ## Two sources -/

structure Token.SameButCase (t t' : Token) : Prop where
  kind : t.kind = t'.kind
  offset : t.offset = t'.offset
  span : t.span = t'.span
  image : SameLetters t.image.toList t'.image.toList

def Diagnostic.SameButCase (d d' : Diagnostic) : Prop :=
  d.lower = d'.lower

/-- The trees are the same, symbols too, but for how names are written. -/
def Program.SameButCase (p p' : Program) : Prop :=
  p.relabel .lowerCase = p'.relabel .lowerCase

structure SemanticError.SameButCase (e e' : SemanticError) : Prop where
  code : e.cause.code = e'.cause.code
  span : e.span = e'.span
  message : SameLetters e.cause.message.toList e'.cause.message.toList
  details : e.cause.details.lower = e'.cause.details.lower

structure EvaluationError.SameButCase (e e' : EvaluationError) : Prop where
  code : e.cause.code = e'.cause.code
  span : e.span = e'.span
  message : SameLetters e.cause.message.toList e'.cause.message.toList
  details : e.cause.details?.map Json.lower = e'.cause.details?.map Json.lower

/-- The frames are the same, but for how the program's name is written. -/
structure Frame.SameButCase (f f' : Frame Nat) : Prop where
  role : f.role = f'.role
  nesting : f.nesting = f'.nesting
  level : f.level = f'.level
  link : f.link = f'.link
  members : f.members = f'.members
  procedure : f.role = .procedure → f.name = f'.name
  program : SameLetters f.name.toList f'.name.toList

/-- Two programs that go the same way, under any limit on the depth of calls. -/
structure Program.GoesLike (p p' : Program) : Prop where
  tree : p.SameButCase p'
  annotated : p.analyze.program.SameButCase p'.analyze.program
  scopes : Paired SemanticError.SameButCase Eq p.analyze.scopes p'.analyze.scopes
  stack : ∀ limit, List.Forall₂ Frame.SameButCase
    (p.analyze.program.run limit).stack.frames.toList
    (p'.analyze.program.run limit).stack.frames.toList
  error : ∀ limit, Option.Rel EvaluationError.SameButCase (p.analyze.program.run limit).error
    (p'.analyze.program.run limit).error

theorem Token.sameButCase_of_relabel_eq {t t' : Token}
    (h : t.relabel .lowerCase = t'.relabel .lowerCase) : t.SameButCase t' := by
  simp only [relabel, mk.injEq] at h
  obtain ⟨hkind, himage, hoffset, hspan⟩ := h
  exact ⟨hkind, hoffset, hspan, String.ofList_injective himage⟩

theorem SemanticError.sameButCase_of_relabel_eq {e e' : SemanticError}
    (h : e.relabel .lowerCase = e'.relabel .lowerCase) : e.SameButCase e' := by
  simp only [relabel, mk.injEq] at h
  obtain ⟨hcause, hspan⟩ := h
  refine ⟨?_, hspan, ?_, ?_⟩
  · rw [← SemanticCause.code_relabel, hcause, SemanticCause.code_relabel]
  · rw [SameLetters, ← SemanticCause.message_relabel, hcause,
      SemanticCause.message_relabel]
  · rw [← SemanticCause.details_relabel, hcause, SemanticCause.details_relabel]

theorem EvaluationError.sameButCase_of_relabel_eq {e e' : EvaluationError}
    (h : e.relabel .lowerCase = e'.relabel .lowerCase) : e.SameButCase e' := by
  simp only [relabel, mk.injEq] at h
  obtain ⟨hcause, hspan⟩ := h
  refine ⟨?_, hspan, ?_, ?_⟩
  · rw [← EvaluationCause.code_relabel, hcause, EvaluationCause.code_relabel]
  · rw [SameLetters, ← EvaluationCause.message_relabel, hcause,
      EvaluationCause.message_relabel]
  · rw [← EvaluationCause.details?_relabel, hcause, EvaluationCause.details?_relabel]

theorem Frame.sameButCase_of_relabel_eq {f f' : Frame Nat}
    (h : f.relabel .lowerCase = f'.relabel .lowerCase) : f.SameButCase f' := by
  simp only [relabel, mk.injEq] at h
  obtain ⟨hname, hrole, hnesting, hlevel, hlink, hmembers⟩ := h
  rw [← hrole] at hname
  refine ⟨hrole, hnesting, hlevel, hlink, hmembers, ?_, ?_⟩
  · intro hprocedure
    rwa [hprocedure] at hname
  · cases hprogram : f.role with
    | program =>
        rw [hprogram] at hname
        exact String.ofList_injective hname
    | procedure =>
        rw [hprogram] at hname
        have hsame : f.name = f'.name := hname
        rw [SameLetters, hsame]

theorem Program.goesLike_of_sameButCase {p p' : Program} (h : p.SameButCase p') : p.GoesLike p' := by
  obtain ⟨hannotated, hscopes⟩ := analyze_eq_of_relabel_eq h
  refine ⟨h, hannotated, ?_, fun limit => ?_, fun limit => ?_⟩
  · refine Paired.of_mapError_eq (f := id) (g := (·.relabel .lowerCase)) (fun _ _ heq => heq)
      (fun _ _ => SemanticError.sameButCase_of_relabel_eq) ?_
    simpa using hscopes
  · apply forall₂_of_map_eq fun _ _ => Frame.sameButCase_of_relabel_eq
    have hframes := congrArg (fun s => s.frames.toList) (run_eq_of_relabel_eq hannotated limit).1
    simpa [CallStack.relabel] using hframes
  · exact optionRel_of_map_eq (fun _ _ => EvaluationError.sameButCase_of_relabel_eq)
      (run_eq_of_relabel_eq hannotated limit).2

namespace Program

/-- Sources that differ in the case of letters at most lex, parse, are analysed and run alike. -/
theorem case_insensitive {source source' : List Char} (h : SameLetters source source')
    (file : String) (detailed : Bool) :
    List.Forall₂ Token.SameButCase (tokensOf source) (tokensOf source') ∧
      lexicalErrors source = lexicalErrors source' ∧
      Paired (List.Forall₂ Diagnostic.SameButCase) GoesLike (parse source file detailed)
        (parse source' file detailed) := by
  refine ⟨?_, ?_, ?_⟩
  · apply forall₂_of_map_eq (f := (·.relabel .lowerCase)) fun _ _ => Token.sameButCase_of_relabel_eq
    rw [← tokensOf_canonicalChars, h, tokensOf_canonicalChars]
  · rw [← lexicalErrors_canonicalChars, h, lexicalErrors_canonicalChars]
  · refine Paired.of_mapError_eq (f := fun p : Program => p.relabel .lowerCase)
      (g := List.map Diagnostic.lower) (fun p p' hsame => goesLike_of_sameButCase hsame)
      (fun ds ds' => forall₂_of_map_eq fun _ _ heq => heq) ?_
    rw [← parse_canonicalChars, h, parse_canonicalChars]

/-- A program in capitals goes like the same program in small letters. -/
theorem case_insensitive_of_capitals :
    ∃ p p', parse "PROGRAM P; VAR N: REAL; BEGIN N := 1 END.".toList "p.pas" false = .ok p ∧
      parse "program p; var n: real; begin n := 1 end.".toList "p.pas" false = .ok p' ∧
      p.name = "P" ∧ p'.name = "p" ∧ p.GoesLike p' := by
  have hsame : SameLetters "PROGRAM P; VAR N: REAL; BEGIN N := 1 END.".toList
      "program p; var n: real; begin n := 1 end.".toList := by decide +kernel
  have hcapitals : (parse "PROGRAM P; VAR N: REAL; BEGIN N := 1 END.".toList "p.pas"
      false).toOption.any (fun p => p.name = "P") = true := by decide +kernel
  have hsmall : (parse "program p; var n: real; begin n := 1 end.".toList "p.pas"
      false).toOption.any (fun p => p.name = "p") = true := by decide +kernel
  obtain ⟨-, -, hparsed⟩ := case_insensitive hsame "p.pas" false
  obtain ⟨p, hp, hname⟩ := parse_of_any hcapitals
  obtain ⟨p', hp', hname'⟩ := parse_of_any hsmall
  rw [hp, hp'] at hparsed
  cases hparsed with
  | ok hlike => exact ⟨p, p', hp, hp', of_decide_eq_true hname, of_decide_eq_true hname', hlike⟩

end Program

end NestedPascal
