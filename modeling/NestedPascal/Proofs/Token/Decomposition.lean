import NestedPascal.Proofs.Token.LongestMatch
import NestedPascal.Token.Segment

/-!
# Decompositions

A source is taken apart into pieces, each the longest member of a class at its place or a run in
which no class starts anywhere.  There is one way to do so, and the segments are its pieces.
-/

namespace NestedPascal

open Lexeme (IsLongest NoneAt)

/-- No class starts anywhere in a text, and one starts after it or nothing is left. -/
structure IsDropped (text rest : List Char) : Prop where
  nonempty : text ≠ []
  noneInside : ∀ after, after ≠ [] → after <:+ text → NoneAt (after ++ rest)
  ends : rest = [] ∨ ¬ NoneAt rest

/-- What a text is that stands before another. -/
def SegmentKind.Takes : SegmentKind → List Char → List Char → Prop
  | lexeme l, text, rest => IsLongest l text rest
  | dropped, text, rest => IsDropped text rest

/-- Pieces that come one after another from the start of a source to its end. -/
def Decomposes : List Char → List (SegmentKind × List Char) → Prop
  | source, [] => source = []
  | source, (kind, text) :: pieces =>
    ∃ rest, source = text ++ rest ∧ kind.Takes text rest ∧ Decomposes rest pieces

/-! ## There is one decomposition -/

theorem IsDropped.noneAt {text rest : List Char} (h : IsDropped text rest) : NoneAt (text ++ rest) :=
  h.noneInside text h.nonempty List.suffix_rfl

theorem IsDropped.length_le {text text' rest rest' : List Char} (h : IsDropped text rest)
    (h' : IsDropped text' rest') (hsame : text ++ rest = text' ++ rest') :
    text'.length ≤ text.length := by
  by_contra hlt
  obtain ⟨more, rfl⟩ : text <+: text' :=
    List.prefix_of_prefix_length_le (hsame ▸ List.prefix_append text rest)
      (List.prefix_append text' rest') (by omega)
  have hrest : rest = more ++ rest' := by simpa using hsame
  have hmore : more ≠ [] := by
    rintro rfl
    simp at hlt
  rcases h.ends with hnil | hsome
  · simp [hnil, hmore] at hrest
  · exact hsome (hrest ▸ h'.noneInside more hmore (List.suffix_append text more))

/-- One piece at most can stand at the front of a source. -/
theorem SegmentKind.Takes.unique {kind kind' : SegmentKind} {text text' rest rest' : List Char}
    (h : kind.Takes text rest) (h' : kind'.Takes text' rest') (hsame : text ++ rest = text' ++ rest') :
    kind = kind' ∧ text = text' :=
  match kind, kind', h, h' with
  | lexeme _, lexeme _, h, h' => by
      obtain ⟨rfl, htext⟩ := IsLongest.unique h h' hsame
      exact ⟨rfl, htext⟩
  | lexeme l, dropped, h, h' =>
      absurd (hsame ▸ List.prefix_append text rest) (IsDropped.noneAt h' l text h.member)
  | dropped, lexeme l, h, h' =>
      absurd (hsame ▸ List.prefix_append text' rest') (IsDropped.noneAt h l text' h'.member)
  | dropped, dropped, h, h' =>
      ⟨rfl, (List.append_inj hsame
        (Nat.le_antisymm (IsDropped.length_le h' h hsame.symm) (IsDropped.length_le h h' hsame))).1⟩

theorem SegmentKind.Takes.ne_nil {kind : SegmentKind} {text rest : List Char}
    (h : kind.Takes text rest) : text ≠ [] :=
  match kind, h with
  | lexeme _, h => by
      obtain ⟨c, more, rfl, -⟩ := h.member.exists_cons
      exact List.cons_ne_nil c more
  | dropped, h => h.nonempty

theorem Decomposes.unique {source : List Char} {pieces pieces' : List (SegmentKind × List Char)}
    (h : Decomposes source pieces) (h' : Decomposes source pieces') : pieces = pieces' := by
  induction pieces generalizing source pieces' with
  | nil =>
      obtain rfl : source = [] := h
      cases pieces' with
      | nil => rfl
      | cons piece' pieces' =>
          obtain ⟨rest', hsource, htakes, -⟩ := h'
          exact absurd (List.append_eq_nil_iff.mp hsource.symm).1 htakes.ne_nil
  | cons piece pieces ih =>
      obtain ⟨rest, rfl, htakes, hrest⟩ := h
      cases pieces' with
      | nil =>
          have hnil : piece.2 ++ rest = [] := h'
          exact absurd (List.append_eq_nil_iff.mp hnil).1 htakes.ne_nil
      | cons piece' pieces' =>
          obtain ⟨rest', hsource, htakes', hrest'⟩ := h'
          obtain ⟨hkind, htext⟩ := htakes.unique htakes' hsource
          obtain rfl : piece = piece' := Prod.ext hkind htext
          obtain rfl := List.append_cancel_left hsource
          rw [ih hrest hrest']

theorem Decomposes.flatMap_eq {source : List Char} {pieces : List (SegmentKind × List Char)}
    (h : Decomposes source pieces) : pieces.flatMap (·.2) = source := by
  induction pieces generalizing source with
  | nil => exact h.symm
  | cons piece pieces ih =>
      obtain ⟨rest, rfl, -, hrest⟩ := h
      rw [List.flatMap_cons, ih hrest]

/-! ## The segments are a decomposition -/

namespace Segment

theorem droppedRun_spec (cs : List Char) :
    ∃ rest, cs = droppedRun cs ++ rest ∧
      (∀ after, after ≠ [] → after <:+ droppedRun cs → NoneAt (after ++ rest)) ∧
      (rest = [] ∨ ¬ NoneAt rest) := by
  induction cs with
  | nil => exact ⟨[], rfl, fun after hne hsuffix => absurd (List.suffix_nil.mp hsuffix) hne, .inl rfl⟩
  | cons c cs ih =>
      unfold droppedRun
      split
      next hsome =>
        refine ⟨c :: cs, rfl, fun after hne hsuffix => ?_, .inr fun hnone => ?_⟩
        · exact absurd (List.suffix_nil.mp hsuffix) hne
        · simp [Lexeme.match?_eq_none_iff.mpr hnone] at hsome
      next hnone =>
        obtain ⟨rest, hsplit, hinside, hends⟩ := ih
        refine ⟨rest, by rw [List.cons_append, ← hsplit], fun after hne hsuffix => ?_, hends⟩
        rcases List.suffix_cons_iff.mp hsuffix with rfl | hsuffix
        · rw [List.cons_append, ← hsplit]
          exact Lexeme.match?_eq_none_iff.mp (by simpa using hnone)
        · exact hinside after hne hsuffix

theorem takes_first (c : Char) (cs : List Char) :
    (first c cs).1.Takes ((c :: cs).take (first c cs).2) ((c :: cs).drop (first c cs).2) := by
  unfold first
  split
  next l n hmatch =>
    obtain ⟨text, rest, hsplit, rfl, hlongest⟩ := Lexeme.exists_of_match? hmatch
    rw [hsplit, List.take_left, List.drop_left]
    exact hlongest
  next hnone =>
    obtain ⟨rest, hsplit, hinside, hends⟩ := droppedRun_spec cs
    have hfront := droppedRun_prefix cs
    have htake : cs.take (droppedRun cs).length = droppedRun cs :=
      (List.prefix_iff_eq_take.mp hfront).symm
    have hdrop : cs.drop (droppedRun cs).length = rest :=
      List.append_cancel_left ((List.prefix_iff_eq_append.mp hfront).trans hsplit)
    simp only [List.take_succ_cons, List.drop_succ_cons, htake, hdrop]
    refine ⟨List.cons_ne_nil _ _, fun after hne hsuffix => ?_, hends⟩
    rcases List.suffix_cons_iff.mp hsuffix with rfl | hsuffix
    · rw [List.cons_append, ← hsplit]
      exact Lexeme.match?_eq_none_iff.mp hnone
    · exact hinside after hne hsuffix

/-- A segment without its place. -/
def piece (s : Segment) : SegmentKind × List Char :=
  (s.kind, s.text)

theorem decomposes_cut (place : Position) (cs : List Char) :
    Decomposes cs ((cut place cs).map piece) := by
  fun_induction cut place cs with
  | case1 => rfl
  | case2 place c rest text ih =>
      exact ⟨_, (List.take_append_drop _ _).symm, takes_first c rest, ih⟩

/-- The segments of a source are its only decomposition. -/
theorem decomposes_iff {source : List Char} {pieces : List (SegmentKind × List Char)} :
    Decomposes source pieces ↔ pieces = (ofSource source).map piece := by
  constructor
  · intro h
    exact h.unique (decomposes_cut .start source)
  · rintro rfl
    exact decomposes_cut .start source

end Segment

theorem Decomposes.takes_of_mem {source : List Char} {pieces : List (SegmentKind × List Char)}
    (h : Decomposes source pieces) : ∀ piece ∈ pieces, ∃ rest, piece.1.Takes piece.2 rest := by
  induction pieces generalizing source with
  | nil => exact fun _ hmem => absurd hmem List.not_mem_nil
  | cons piece pieces ih =>
      obtain ⟨rest, -, htakes, hrest⟩ := h
      exact List.forall_mem_cons.mpr ⟨⟨rest, htakes⟩, ih hrest⟩

namespace Segment

theorem takes_of_mem {source : List Char} {s : Segment} (hs : s ∈ ofSource source) :
    ∃ rest, s.kind.Takes s.text rest :=
  (decomposes_cut .start source).takes_of_mem _ (List.mem_map_of_mem hs)

/-! ## Places -/

theorem offset_advance (p : Position) (cs : List Char) :
    (p.advance cs).offset = p.offset + unitLength cs := by
  fun_induction Position.advance p cs with
  | case1 p => rfl
  | case2 p rest ih =>
      rw [ih]
      simp [unitWidth]
      omega
  | case3 p c rest hreturn hbreak ih =>
      rw [ih]
      rcases hbreak with rfl | rfl <;> simp [unitWidth] <;> omega
  | case4 p c rest hreturn hbreak ih =>
      rw [ih, unitLength_cons, Nat.add_assoc]

/-- The offset of a segment is the length of what stands before it. -/
theorem offset_of_cut {place : Position} {cs : List Char} {before after : List Segment} {s : Segment}
    (h : cut place cs = before ++ s :: after) :
    s.place.offset = place.offset + unitLength (before.flatMap (·.text)) := by
  cases cs with
  | nil => simp [cut] at h
  | cons c rest =>
      rw [cut] at h
      cases before with
      | nil =>
          obtain ⟨rfl, -⟩ := List.cons.inj h
          rfl
      | cons first before =>
          obtain ⟨rfl, hrest⟩ := List.cons.inj h
          rw [offset_of_cut hrest, offset_advance, List.flatMap_cons, unitLength_append,
            Nat.add_assoc]
termination_by before.length

end Segment

end NestedPascal
