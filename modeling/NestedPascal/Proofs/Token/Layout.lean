import NestedPascal.Proofs.Token.Lexing

/-!
# Layout

Between its tokens a source has gaps: blanks and closed comments in any number.  A gap may be put
between any two tokens, and where there is one it may be replaced by any other.  No token holds a
character that a gap can start with, so a token ends where a gap begins; and where no gap is put,
what follows is as it was up to the next gap.
-/

namespace NestedPascal

/-! ## Gaps -/

/-- Blanks and closed comments, in any order and number. -/
inductive IsGap : List Char → Prop where
  | nil : IsGap []
  | blank {c : Char} {rest : List Char} : isBlank c = true → IsGap rest → IsGap (c :: rest)
  | comment {inside rest : List Char} : '\x7d' ∉ inside → IsGap rest →
    IsGap ('\x7b' :: (inside ++ '\x7d' :: rest))

/-- Whether a gap can start with the character. -/
def startsGap (c : Char) : Bool :=
  isBlank c || c == '\x7b'

theorem IsGap.startsGap {gap : List Char} (h : IsGap gap) (hne : gap ≠ []) :
    ∃ c rest, gap = c :: rest ∧ startsGap c = true := by
  cases h with
  | nil => contradiction
  | blank hblank _ => exact ⟨_, _, rfl, by simp [NestedPascal.startsGap, hblank]⟩
  | comment _ _ => exact ⟨_, _, rfl, by decide⟩

theorem isGap_of_blanks {run : List Char} (h : ∀ c ∈ run, isBlank c = true) : IsGap run := by
  induction run with
  | nil => exact .nil
  | cons c run ih =>
      obtain ⟨hc, hrun⟩ := List.forall_mem_cons.mp h
      exact .blank hc (ih hrun)

theorem startsGap_letterOrDigit {c : Char} (h : isLetterOrDigit c = true) :
    startsGap c = false := by
  have key : ∀ n : Fin 0x80, isLetterOrDigit (Char.ofNat n) = true →
      startsGap (Char.ofNat n) = false := by decide
  have hascii : c.toNat < 0x80 := by
    rcases Bool.or_eq_true_iff.mp h with h | h
    · exact isLetter_ascii h
    · exact isDigit_ascii h
  simpa only [Char.ofNat_toNat] using key ⟨c.toNat, hascii⟩ (by simpa using h)

namespace Lexeme

variable {l l' : Lexeme} {k : TokenKind} {text rest rest' inside run : List Char}

theorem eq_blank_of_opening (h : l.opening = .blank) : l = blank := by
  cases l with
  | blank => rfl
  | comment => contradiction
  | token k => cases k <;> contradiction

theorem eq_comment_of_opening (h : l.opening = .brace) : l = comment := by
  cases l with
  | blank => contradiction
  | comment => rfl
  | token k => cases k <;> contradiction

theorem exists_token_of_opening (h : l.opening = (token k).opening) : ∃ k', l = token k' := by
  cases l with
  | blank => cases k <;> contradiction
  | comment => cases k <;> contradiction
  | token k' => exact ⟨k', rfl⟩

/-- No token holds a character that a gap can start with. -/
theorem Member.startsGap_eq_false (h : (token k).Member text) :
    ∀ c ∈ text, startsGap c = false := by
  have digits {cs : List Char} (hcs : ∀ c ∈ cs, isDigit c = true) :
      ∀ c ∈ cs, startsGap c = false := fun c hc =>
    startsGap_letterOrDigit (Bool.or_eq_true_iff.mpr (.inr (hcs c hc)))
  have word (h : (token .identifier).Member text) : ∀ c ∈ text, startsGap c = false := by
    obtain ⟨first, rest, rfl, hfirst, hrest⟩ := h
    refine List.forall_mem_cons.mpr ⟨?_, fun c hc => startsGap_letterOrDigit (hrest c hc)⟩
    exact startsGap_letterOrDigit (Bool.or_eq_true_iff.mpr (.inl hfirst))
  match k, h with
  | .keyword k, h => exact word h.of_keyword
  | .identifier, h => exact word h
  | .realNumber, ⟨whole, fraction, htext, ⟨_, hwhole⟩, _, hfraction⟩ =>
      intro c hc
      rw [htext, List.mem_append, List.mem_cons] at hc
      rcases hc with hc | rfl | hc
      · exact digits hwhole c hc
      · decide
      · exact digits hfraction c hc
  | .integerNumber, h => exact digits h.2
  | .mark m, h =>
      obtain rfl : text = m.spelling := h
      have hall : m.spelling.all (fun c => !startsGap c) = true := by cases m <;> decide
      simpa using hall

/-! ## The longest match at a gap and before one -/

theorem isLongest_blank (hne : run ≠ []) (hrun : ∀ c ∈ run, isBlank c = true)
    (hrest : ∀ c ∈ rest.head?, isBlank c = false) : IsLongest blank run rest where
  member := ⟨hne, hrun⟩
  longest l' text' hmember hfront := by
    have hblank : blank.Member run := ⟨hne, hrun⟩
    have hopening := opening_eq hmember hfront hblank (List.prefix_append ..)
    obtain rfl := eq_blank_of_opening hopening
    have hnone : rest.takeWhile isBlank = [] := by
      cases rest with
      | nil => rfl
      | cons c rest => exact List.takeWhile_cons_of_neg (by simp [hrest c rfl])
    have hle := length_le_takeWhile hmember.2 hfront
    rwa [List.takeWhile_append_of_pos hrun, hnone, List.append_nil] at hle
  no_keyword h := nomatch h

theorem isLongest_comment (hinside : '\x7d' ∉ inside) (rest : List Char) :
    IsLongest comment ('\x7b' :: (inside ++ ['\x7d'])) rest where
  member := ⟨inside, rfl, hinside⟩
  longest l' text' hmember hfront := by
    have hcomment : comment.Member ('\x7b' :: (inside ++ ['\x7d'])) := ⟨inside, rfl, hinside⟩
    have hopening := opening_eq hmember hfront hcomment (List.prefix_append ..)
    obtain rfl := eq_comment_of_opening hopening
    obtain ⟨inside', rfl, hinside'⟩ := hmember
    obtain ⟨more, hsame⟩ := hfront
    have hsame : inside' ++ '\x7d' :: more = inside ++ '\x7d' :: rest := by
      simpa using hsame
    have hnot {cs : List Char} (h : '\x7d' ∉ cs) : ∀ c ∈ cs, (c != '\x7d') = true := by
      intro c hc
      rw [bne_iff_ne]
      rintro rfl
      exact h hc
    have htake := congrArg (List.takeWhile (· != '\x7d')) hsame
    rw [takeWhile_append_stop (hnot hinside') (by simp),
      takeWhile_append_stop (hnot hinside) (by simp)] at htake
    rw [htake]
  no_keyword h := nomatch h

/-- The blanks that are the longest match are all that stand there. -/
theorem IsLongest.not_isBlank (h : IsLongest blank run rest) :
    ∀ c ∈ rest.head?, isBlank c = false := by
  intro c hc
  cases hblank : isBlank c with
  | false => rfl
  | true =>
      obtain ⟨more, rfl⟩ := List.head?_eq_some_iff.mp hc
      have hmember : blank.Member (run ++ [c]) := by
        refine ⟨by simp, fun d hd => ?_⟩
        rcases List.mem_append.mp hd with hd | hd
        · exact h.member.2 d hd
        · rw [List.mem_singleton.mp hd, hblank]
      have hle := h.longest blank (run ++ [c]) hmember
        ((List.prefix_append_right_inj run).mpr ⟨more, rfl⟩)
      rw [List.length_append, List.length_singleton] at hle
      omega

theorem Member.not_isBlank (h : l.Member text) (hl : l ≠ blank) :
    ∀ c ∈ (text ++ rest).head?, isBlank c = false := by
  obtain ⟨first, more, rfl, hopening⟩ := h.exists_cons
  rintro c hc
  obtain rfl : first = c := by simpa using hc
  cases hblank : isBlank first with
  | false => rfl
  | true =>
      rw [Opening.ofChar, if_pos hblank] at hopening
      exact absurd (eq_blank_of_opening hopening.symm) hl

/-- A token stays the longest match when what follows it changes from the next gap on. -/
theorem IsLongest.of_rest (h : IsLongest (token k) text rest)
    (hrest : ∀ front, front <+: rest' → (∀ c ∈ front, startsGap c = false) → front <+: rest) :
    IsLongest (token k) text rest' where
  member := h.member
  longest l' text' hmember hfront := by
    by_contra hlonger
    obtain ⟨front, rfl⟩ : text <+: text' :=
      List.prefix_of_prefix_length_le (List.prefix_append text rest') hfront (by omega)
    have hopening := opening_eq hmember hfront h.member (List.prefix_append ..)
    obtain ⟨k', rfl⟩ := exists_token_of_opening hopening
    have hclear := hmember.startsGap_eq_false
    have hbefore : front <+: rest := hrest front ((List.prefix_append_right_inj text).mp hfront)
      fun c hc => hclear c (List.mem_append_right text hc)
    exact hlonger (h.longest _ _ hmember ((List.prefix_append_right_inj text).mpr hbefore))
  no_keyword := h.no_keyword

end Lexeme

open Lexeme (IsLongest)

/-! ## Sources without dropped input -/

/-- Nothing of a source is dropped, and it has the given tokens. -/
def LexesTo (source : List Char) (tokens : List (SegmentKind × List Char)) : Prop :=
  ∃ pieces, Decomposes source pieces ∧ (∀ piece ∈ pieces, piece.1 ≠ .dropped) ∧
    pieces.filter (·.1.isToken) = tokens

namespace LexesTo

variable {rest : List Char} {tokens : List (SegmentKind × List Char)}

theorem nil : LexesTo [] [] :=
  ⟨[], rfl, by simp, rfl⟩

/-- A lexeme is put in front. -/
theorem lexeme {l : Lexeme} {text : List Char} {pieces : List (SegmentKind × List Char)}
    (hlongest : IsLongest l text rest) (hpieces : Decomposes rest pieces)
    (hclean : ∀ piece ∈ pieces, piece.1 ≠ .dropped) :
    LexesTo (text ++ rest) (((.lexeme l, text) :: pieces).filter (·.1.isToken)) := by
  refine ⟨(.lexeme l, text) :: pieces, ⟨rest, rfl, hlongest, hpieces⟩, ?_, rfl⟩
  exact List.forall_mem_cons.mpr ⟨by simp, hclean⟩

theorem token {k : TokenKind} {text : List Char} (hlongest : IsLongest (.token k) text rest)
    (h : LexesTo rest tokens) :
    LexesTo (text ++ rest) ((.lexeme (.token k), text) :: tokens) := by
  obtain ⟨pieces, hpieces, hclean, rfl⟩ := h
  exact lexeme hlongest hpieces hclean

theorem comment {inside : List Char} (hinside : '\x7d' ∉ inside) (h : LexesTo rest tokens) :
    LexesTo ('\x7b' :: (inside ++ '\x7d' :: rest)) tokens := by
  obtain ⟨pieces, hpieces, hclean, rfl⟩ := h
  have hlexes := lexeme (Lexeme.isLongest_comment hinside rest) hpieces hclean
  rwa [List.cons_append, List.append_assoc, List.singleton_append] at hlexes

/-- A blank joins the blanks that follow it. -/
theorem blank {c : Char} (hblank : isBlank c = true) (h : LexesTo rest tokens) :
    LexesTo (c :: rest) tokens := by
  obtain ⟨pieces, hpieces, hclean, rfl⟩ := h
  have halone (hnext : ∀ d ∈ rest.head?, isBlank d = false) :
      LexesTo (c :: rest) (pieces.filter (·.1.isToken)) :=
    lexeme (Lexeme.isLongest_blank (List.cons_ne_nil c []) (by simpa using hblank) hnext) hpieces
      hclean
  cases pieces with
  | nil =>
      obtain rfl : rest = [] := hpieces
      exact halone (by simp)
  | cons piece pieces =>
      obtain ⟨kind, text⟩ := piece
      obtain ⟨after, rfl, htakes, hafter⟩ := hpieces
      cases kind with
      | dropped => exact absurd rfl (hclean _ List.mem_cons_self)
      | lexeme l =>
          have htakes : IsLongest l text after := htakes
          by_cases hl : l = .blank
          · subst hl
            have hblanks : ∀ d ∈ c :: text, isBlank d = true :=
              List.forall_mem_cons.mpr ⟨hblank, htakes.member.2⟩
            have hlongest :=
              Lexeme.isLongest_blank (List.cons_ne_nil c text) hblanks htakes.not_isBlank
            exact lexeme hlongest hafter (List.forall_mem_cons.mp hclean).2
          · exact halone (htakes.member.not_isBlank hl)

theorem gap {gap : List Char} (hgap : IsGap gap) (h : LexesTo rest tokens) :
    LexesTo (gap ++ rest) tokens := by
  induction hgap with
  | nil => exact h
  | blank hblank _ ih => exact ih.blank hblank
  | comment hinside _ ih =>
      rw [List.cons_append, List.append_assoc, List.cons_append]
      exact ih.comment hinside

end LexesTo

/-! ## Sources laid out anew -/

theorem Decomposes.exists_of_append {source : List Char}
    {before pieces : List (SegmentKind × List Char)} (h : Decomposes source (before ++ pieces)) :
    ∃ rest, Decomposes rest pieces := by
  induction before generalizing source with
  | nil => exact ⟨source, h⟩
  | cons piece before ih =>
      obtain ⟨rest, -, -, hrest⟩ := h
      exact ih hrest

def SegmentKind.isGap : SegmentKind → Bool
  | lexeme .blank => true
  | lexeme .comment => true
  | _ => false

/-- A source is laid out anew from the pieces of another: tokens stand as they are, and wherever
there is a gap of some pieces, or none, another that is not empty may stand. -/
inductive LaidOutAs : List (SegmentKind × List Char) → List Char → Prop where
  | nil : LaidOutAs [] []
  | token {k : TokenKind} {text rest' : List Char} {pieces : List (SegmentKind × List Char)} :
    LaidOutAs pieces rest' → LaidOutAs ((.lexeme (.token k), text) :: pieces) (text ++ rest')
  | gap {gap pieces : List (SegmentKind × List Char)} {gap' rest' : List Char} :
    (∀ piece ∈ gap, piece.1.isGap = true) → IsGap gap' → gap' ≠ [] → LaidOutAs pieces rest' →
    LaidOutAs (gap ++ pieces) (gap' ++ rest')

/-- Two sources lex without errors and differ in layout at most: in what stands between tokens where
there is something. -/
def Relaid (source source' : List Char) : Prop :=
  LaidOutAs ((Segment.ofSource source).map Segment.piece) source'

namespace LaidOutAs

variable {pieces : List (SegmentKind × List Char)} {source source' : List Char}

theorem not_dropped (h : LaidOutAs pieces source') : ∀ piece ∈ pieces, piece.1 ≠ .dropped := by
  induction h with
  | nil => simp
  | token _ ih => exact List.forall_mem_cons.mpr ⟨nofun, ih⟩
  | gap hgap _ _ _ ih =>
      intro piece hpiece hdropped
      rcases List.mem_append.mp hpiece with hpiece | hpiece
      · have hkind := hgap piece hpiece
        rw [hdropped] at hkind
        contradiction
      · exact ih piece hpiece hdropped

/-- Up to the next gap the sources are the same. -/
theorem front (h : LaidOutAs pieces source') (hsource : Decomposes source pieces) :
    ∀ front, front <+: source' → (∀ c ∈ front, startsGap c = false) → front <+: source := by
  induction h generalizing source with
  | nil =>
      intro front hfront _
      rw [List.prefix_nil.mp hfront]
      exact List.nil_prefix
  | @token k text rest' pieces h ih =>
      obtain ⟨rest, rfl, -, hrest⟩ := hsource
      intro front hfront hclear
      rcases List.prefix_or_prefix_of_prefix hfront (List.prefix_append text rest') with hle | hle
      · exact hle.trans (List.prefix_append text rest)
      · obtain ⟨more, rfl⟩ := hle
        have hmore := ih hrest more ((List.prefix_append_right_inj text).mp hfront)
          fun c hc => hclear c (List.mem_append_right text hc)
        exact (List.prefix_append_right_inj text).mpr hmore
  | gap _ hgap' hne _ _ =>
      obtain ⟨c, more, rfl, hc⟩ := hgap'.startsGap hne
      intro front hfront hclear
      cases front with
      | nil => exact List.nil_prefix
      | cons d front =>
          obtain ⟨rfl, -⟩ := List.cons_prefix_cons.mp hfront
          have hfalse := hclear d List.mem_cons_self
          rw [hc] at hfalse
          contradiction

/-- What is laid out anew has the same tokens. -/
theorem lexesTo (h : LaidOutAs pieces source') (hsource : Decomposes source pieces) :
    LexesTo source' (pieces.filter (·.1.isToken)) := by
  induction h generalizing source with
  | nil => exact .nil
  | token h ih =>
      obtain ⟨rest, rfl, hlongest, hrest⟩ := hsource
      rw [List.filter_cons_of_pos rfl]
      exact (ih hrest).token (Lexeme.IsLongest.of_rest hlongest (h.front hrest))
  | @gap gap pieces _ _ hgap hgap' _ _ ih =>
      have hnone : gap.filter (·.1.isToken) = [] := by
        refine List.filter_eq_nil_iff.mpr fun piece hpiece htoken => ?_
        have hkind := hgap piece hpiece
        match piece, hkind, htoken with
        | (.lexeme (.token _), _), hkind, _ => contradiction
      obtain ⟨rest, hrest⟩ := hsource.exists_of_append
      rw [List.filter_append, hnone, List.nil_append]
      exact (ih hrest).gap hgap'

/-- A lexeme may stay as it is. -/
theorem lexeme {l : Lexeme} {text : List Char} (hmember : l.Member text)
    (h : LaidOutAs pieces source') :
    LaidOutAs ((.lexeme l, text) :: pieces) (text ++ source') := by
  match l, hmember with
  | .token _, _ => exact .token h
  | .blank, hmember =>
      have hgap : ∀ piece ∈ [(SegmentKind.lexeme .blank, text)], piece.1.isGap = true :=
        List.forall_mem_singleton.mpr rfl
      exact .gap hgap (isGap_of_blanks hmember.2) hmember.1 h
  | .comment, ⟨inside, htext, hinside⟩ =>
      obtain rfl : text = '\x7b' :: (inside ++ '\x7d' :: []) := htext
      have hgap : ∀ piece ∈ [(SegmentKind.lexeme .comment, '\x7b' :: (inside ++ ['\x7d']))],
          piece.1.isGap = true :=
        List.forall_mem_singleton.mpr rfl
      exact .gap hgap (.comment hinside .nil) (List.cons_ne_nil _ _) h

/-- Lexemes may stay as they are in front of what is laid out anew. -/
theorem append {before : List (SegmentKind × List Char)} (h : LaidOutAs pieces source')
    (hbefore : ∀ piece ∈ before, ∃ l, piece.1 = .lexeme l ∧ l.Member piece.2) :
    LaidOutAs (before ++ pieces) (before.flatMap (·.2) ++ source') := by
  induction before with
  | nil => exact h
  | cons piece before ih =>
      obtain ⟨⟨l, hl, hmember⟩, hrest⟩ := List.forall_mem_cons.mp hbefore
      obtain ⟨kind, text⟩ := piece
      obtain rfl : kind = .lexeme l := hl
      rw [List.cons_append, List.flatMap_cons, List.append_assoc]
      exact (ih hrest).lexeme hmember

end LaidOutAs

/-! ## Tokens of sources that differ in layout -/

/-- A token without its place. -/
def Token.piece (t : Token) : SegmentKind × List Char :=
  (.lexeme (.token t.kind), t.image.toList)

theorem map_piece_tokensOf (source : List Char) :
    (tokensOf source).map Token.piece =
      ((Segment.ofSource source).map Segment.piece).filter (·.1.isToken) := by
  have hemitted := tokensOf_emitted source
  rw [List.filter_map]
  change _ = ((Segment.ofSource source).filter (·.kind.isToken)).map Segment.piece
  generalize (Segment.ofSource source).filter (·.kind.isToken) = segments at hemitted ⊢
  generalize tokensOf source = tokens at hemitted ⊢
  induction hemitted with
  | nil => rfl
  | cons h _ ih =>
      rw [List.map_cons, List.map_cons, ih, Token.piece, Segment.piece, h.kind, h.image]

theorem lexicalErrors_eq_nil_iff {source : List Char} : lexicalErrors source = [] ↔
    ∀ piece ∈ (Segment.ofSource source).map Segment.piece, piece.1 ≠ .dropped := by
  have hreported := lexicalErrors_reported source
  calc lexicalErrors source = []
      ↔ (Segment.ofSource source).filter (·.kind = .dropped) = [] := by
        constructor
        · intro h
          rw [h] at hreported
          exact List.forall₂_nil_right_iff.mp hreported
        · intro h
          rw [h] at hreported
          exact List.forall₂_nil_left_iff.mp hreported
    _ ↔ ∀ piece ∈ (Segment.ofSource source).map Segment.piece, piece.1 ≠ .dropped := by
        simp [Segment.piece]

namespace Relaid

variable {source source' : List Char}

theorem lexicalErrors_left (h : Relaid source source') : lexicalErrors source = [] :=
  lexicalErrors_eq_nil_iff.mpr h.not_dropped

theorem lexesTo (h : Relaid source source') :
    LexesTo source' ((tokensOf source).map Token.piece) := by
  rw [map_piece_tokensOf]
  exact LaidOutAs.lexesTo h (Segment.decomposes_cut .start source)

theorem lexicalErrors_right (h : Relaid source source') : lexicalErrors source' = [] := by
  obtain ⟨pieces, hpieces, hclean, -⟩ := h.lexesTo
  rw [Segment.decomposes_iff.mp hpieces] at hclean
  exact lexicalErrors_eq_nil_iff.mpr hclean

theorem map_piece_eq (h : Relaid source source') :
    (tokensOf source').map Token.piece = (tokensOf source).map Token.piece := by
  obtain ⟨pieces, hpieces, -, htokens⟩ := h.lexesTo
  rw [map_piece_tokensOf, ← htokens, Segment.decomposes_iff.mp hpieces]

/-- A gap is put between two pieces of a source, or stands for some pieces that are a gap. -/
theorem splice {before gap after : List (SegmentKind × List Char)} {gap' : List Char}
    (hsource : (Segment.ofSource source).map Segment.piece = before ++ (gap ++ after))
    (hlexical : lexicalErrors source = []) (hgap : ∀ piece ∈ gap, piece.1.isGap = true)
    (hgap' : IsGap gap') (hne : gap ≠ [] → gap' ≠ []) :
    Relaid source (before.flatMap (·.2) ++ (gap' ++ after.flatMap (·.2))) := by
  have hclean := lexicalErrors_eq_nil_iff.mp hlexical
  have hdecomposes := Segment.decomposes_cut .start source
  change Decomposes source ((Segment.ofSource source).map Segment.piece) at hdecomposes
  rw [hsource] at hclean hdecomposes
  have hmember : ∀ piece ∈ before ++ (gap ++ after),
      ∃ l, piece.1 = .lexeme l ∧ l.Member piece.2 := by
    rintro ⟨kind, text⟩ hpiece
    obtain ⟨rest, htakes⟩ := hdecomposes.takes_of_mem _ hpiece
    match kind, htakes with
    | .lexeme l, htakes => exact ⟨l, rfl, htakes.member⟩
    | .dropped, _ => exact absurd rfl (hclean _ hpiece)
  have hafter := LaidOutAs.append LaidOutAs.nil fun piece hpiece =>
    hmember piece (List.mem_append_right before (List.mem_append_right gap hpiece))
  rw [List.append_nil, List.append_nil] at hafter
  rw [Relaid, hsource]
  refine LaidOutAs.append ?_ fun piece hpiece => hmember piece (List.mem_append_left _ hpiece)
  by_cases hempty : gap' = []
  · have hnone : gap = [] := by
      by_contra hsome
      exact hne hsome hempty
    rw [hnone, hempty]
    exact hafter
  · exact .gap hgap hgap' hempty hafter

end Relaid

/-! ## Tokens by their number -/

theorem unitLength_pos {cs : List Char} (h : cs ≠ []) : 0 < unitLength cs := by
  obtain ⟨c, rest, rfl⟩ := List.exists_cons_of_ne_nil h
  exact Nat.lt_of_lt_of_le (unitWidth_pos c) (Nat.le_add_right ..)

/-- Segments stand one after another. -/
theorem Segment.pairwise_cut (place : Position) (cs : List Char) :
    (cut place cs).Pairwise fun s s' => s.place.offset < s'.place.offset := by
  fun_induction cut place cs with
  | case1 => exact .nil
  | case2 place c rest text ih =>
      refine List.pairwise_cons.mpr ⟨fun s hs => ?_, ih⟩
      obtain ⟨before, after, hsplit⟩ := List.append_of_mem hs
      have hpositive : 0 < unitLength text := unitLength_pos (takes_first c rest).ne_nil
      rw [offset_of_cut hsplit, offset_advance]
      change place.offset < place.offset + unitLength text + _
      omega

theorem nodup_tokensOf (source : List Char) : (tokensOf source).Nodup := by
  have hoffset {s : Segment} {t : Token} (h : s.token? = some t) : t.offset = s.place.offset :=
    congrArg Token.offset (Segment.token?_eq_some h).2
  refine (Segment.pairwise_cut .start source).filterMap Segment.token?
    fun s s' hlt t ht t' ht' heq => ?_
  rw [← hoffset ht, ← hoffset ht', heq] at hlt
  exact Nat.lt_irrefl _ hlt

end NestedPascal
