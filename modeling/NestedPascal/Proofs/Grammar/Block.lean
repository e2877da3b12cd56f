import NestedPascal.Grammar.Block
import NestedPascal.Proofs.Grammar.Declaration
import NestedPascal.Proofs.Grammar.Statement

/-!
# The grammar of blocks

The sections of variables and the procedures of a block stand in any order, and its tree has their
names in that order.  The words VAR, PROCEDURE and BEGIN tell them and the compound statement apart.
-/

namespace NestedPascal

namespace Grammar

open Parse

mutual

inductive Block where
  | mk (declarations : Declarations) (body : Compound)

/-- The sections of variables and the procedures of a block. -/
inductive Declarations where
  | none
  | variables (word : Terminal (.keyword .var)) (groups : Groups) (more : Declarations)
  | procedure (first : Procedure) (more : Declarations)

inductive Procedure where
  | mk (word : Terminal (.keyword .procedure)) (name : Terminal .identifier) (header : Header)
      (block : Block) (closing : Terminal (.mark .semicolon))

end

mutual

def Block.tokens : Block → List Token
  | .mk declarations body => declarations.tokens ++ body.tokens

def Declarations.tokens : Declarations → List Token
  | .none => []
  | .variables word groups more => word.token :: (groups.tokens ++ more.tokens)
  | .procedure first more => first.tokens ++ more.tokens

def Procedure.tokens : Procedure → List Token
  | .mk word name header block closing =>
    word.token :: name.token :: (header.tokens ++ (block.tokens ++ [closing.token]))

end

def Block.span (d : Block) : Span := spanOver d.tokens

def Procedure.span (d : Procedure) : Span := spanOver d.tokens

mutual

def Block.tree : Block → NestedPascal.Block
  | .mk declarations body =>
    .mk (Block.mk declarations body).span declarations.trees body.span body.tree

/-- The declarations in their order, one for each name. -/
def Declarations.trees : Declarations → List Declaration
  | .none => []
  | .variables _ groups more => groups.tree.map .variable ++ more.trees
  | .procedure first more => first.tree :: more.trees

def Procedure.tree : Procedure → Declaration
  | .mk word name header block closing =>
    .procedure (Procedure.mk word name header block closing).span name.token.image header.tree
      block.tree

end

/-! ## The tokens of a block -/

section

variable {word : Terminal (.keyword .var)} {groups : Groups} {first : Procedure}
  {more : Declarations} {body : Compound}

@[simp, grind =]
theorem Block.tokens_none : (Block.mk .none body).tokens = body.tokens := rfl

@[simp, grind =]
theorem Block.tokens_variables :
    (Block.mk (.variables word groups more) body).tokens =
      word.token :: (groups.tokens ++ (Block.mk more body).tokens) := by
  simp [Block.tokens, Declarations.tokens]

@[simp, grind =]
theorem Block.tokens_procedure :
    (Block.mk (.procedure first more) body).tokens =
      first.tokens ++ (Block.mk more body).tokens := by
  simp [Block.tokens, Declarations.tokens]

end

theorem Compound.opening (d : Compound) :
    ∃ t : Terminal (.keyword .blockBegin), ∃ ts, d.tokens = t.token :: ts := by
  obtain ⟨opening, _, _⟩ := d
  exact ⟨opening, _, rfl⟩

theorem Procedure.opening (d : Procedure) :
    ∃ t : Terminal (.keyword .procedure), ∃ ts, d.tokens = t.token :: ts := by
  obtain ⟨word, _, _, _, _⟩ := d
  exact ⟨word, _, rfl⟩

/-- No block starts with a name, so one ends the section of variables before it. -/
theorem Block.opening (d : Block) : ∃ t ts, d.tokens = t :: ts ∧ t.kind ≠ .identifier := by
  match d with
  | .mk .none body =>
      obtain ⟨t, ts, htokens⟩ := body.opening
      exact ⟨t.token, ts, htokens, by simp [t.kind_eq]⟩
  | .mk (.variables word _ _) _ => exact ⟨_, _, rfl, by simp [word.kind_eq]⟩
  | .mk (.procedure first more) body =>
      obtain ⟨t, ts, htokens⟩ := first.opening
      exact ⟨t.token, ts ++ (Block.mk more body).tokens, by simp [htokens], by simp [t.kind_eq]⟩

theorem Block.headIs (d : Block) (rest : List Token) :
    HeadIs (· ≠ .identifier) (d.tokens ++ rest) := by
  obtain ⟨t, ts, htokens, hkind⟩ := d.opening
  rw [htokens, List.cons_append, headIs_cons]
  exact hkind

mutual

theorem Block.unambiguous (d d' : Block) {rest rest' : List Token}
    (h : d.tokens ++ rest = d'.tokens ++ rest') : d = d' ∧ rest = rest' := by
  match d, d' with
  | .mk .none body, .mk .none body' =>
      obtain ⟨rfl, hafter⟩ := body.unambiguous body' h
      exact ⟨rfl, hafter⟩
  | .mk (.variables word groups more) body, .mk (.variables word' groups' more') body' =>
      rw [Block.tokens_variables, Block.tokens_variables, List.cons_append, List.cons_append,
        List.append_assoc, List.append_assoc] at h
      obtain ⟨rfl, hgroups⟩ := word.unambiguous word' h
      obtain ⟨rfl, hmore⟩ := Groups.unambiguous groups groups' _ _ hgroups
        (Block.headIs (.mk more body) rest) (Block.headIs (.mk more' body') rest')
      obtain ⟨hblock, hafter⟩ := Block.unambiguous (.mk more body) (.mk more' body') hmore
      cases hblock
      exact ⟨rfl, hafter⟩
  | .mk (.procedure first more) body, .mk (.procedure first' more') body' =>
      rw [Block.tokens_procedure, Block.tokens_procedure, List.append_assoc,
        List.append_assoc] at h
      obtain ⟨rfl, hmore⟩ := first.unambiguous first' h
      obtain ⟨hblock, hafter⟩ := Block.unambiguous (.mk more body) (.mk more' body') hmore
      cases hblock
      exact ⟨rfl, hafter⟩
  -- The words VAR, PROCEDURE and BEGIN tell the other cases apart.
  | .mk .none body, .mk (.variables word' groups' more') body' =>
      obtain ⟨t, ts, htokens⟩ := body.opening
      grind
  | .mk .none body, .mk (.procedure first' more') body' =>
      obtain ⟨t, ts, htokens⟩ := body.opening
      obtain ⟨t', ts', htokens'⟩ := first'.opening
      grind
  | .mk (.variables word groups more) body, .mk .none body' =>
      obtain ⟨t', ts', htokens'⟩ := body'.opening
      grind
  | .mk (.variables word groups more) body, .mk (.procedure first' more') body' =>
      obtain ⟨t', ts', htokens'⟩ := first'.opening
      grind
  | .mk (.procedure first more) body, .mk .none body' =>
      obtain ⟨t, ts, htokens⟩ := first.opening
      obtain ⟨t', ts', htokens'⟩ := body'.opening
      grind
  | .mk (.procedure first more) body, .mk (.variables word' groups' more') body' =>
      obtain ⟨t, ts, htokens⟩ := first.opening
      grind

theorem Procedure.unambiguous (d d' : Procedure) {rest rest' : List Token}
    (h : d.tokens ++ rest = d'.tokens ++ rest') : d = d' ∧ rest = rest' := by
  match d, d' with
  | .mk word name header block closing, .mk word' name' header' block' closing' =>
      simp only [Procedure.tokens, List.cons_append, List.append_assoc, List.nil_append] at h
      obtain ⟨rfl, hname⟩ := word.unambiguous word' h
      obtain ⟨rfl, hheader⟩ := name.unambiguous name' hname
      obtain ⟨rfl, hblock⟩ := Header.unambiguous header header' _ _ hheader headIs_true headIs_true
      obtain ⟨rfl, hclosing⟩ := block.unambiguous block' hblock
      obtain ⟨rfl, hafter⟩ := closing.unambiguous closing' hclosing
      exact ⟨rfl, hafter⟩

end

/-! ## The parts of a block -/

/-- The declarations and the body of the tree. -/
def Block.parts : Block → BlockParts
  | .mk declarations body => ⟨declarations.trees, body.span, body.tree⟩

theorem Block.block_parts (d : Block) (before : Span) (rest : List Token) :
    d.parts.block (d.tokens ++ rest) (endOf before d.tokens) = d.tree := by
  obtain ⟨t, ts, htokens, _⟩ := d.opening
  have hspan : d.span = t.span.to (endOf t.span ts) := by rw [Block.span, htokens, spanOver]
  rw [htokens]
  obtain ⟨declarations, body⟩ := d
  rw [Block.tree, hspan]
  rfl

end Grammar

namespace Parse

open Grammar

mutual

theorem blockParts_reads (before : Span) (ts : List Token) :
    Reads Block.tokens Block.parts before ts (blockParts ts) := by
  rw [blockParts.eq_def]
  match ts with
  | [] => exact .fail
  | t :: rest =>
      simp only
      split
      next hkind =>
        apply (variableSection_reads t.span rest).bind
        intro groups left _ hrest
        apply (blockParts_reads (endOf t.span groups.tokens) left).bind
        intro ⟨more, body⟩ left' _ hleft
        exact .ok (.mk (.variables ⟨t, hkind⟩ groups more) body) (by simp [hrest, hleft]) rfl
          (by simp)
      next hkind =>
        apply (procedure_reads before ⟨t, hkind⟩ rest).bind
        intro first left _ hts
        apply (blockParts_reads (endOf before first.tokens) left).bind
        intro ⟨more, body⟩ left' _ hleft
        exact .ok (.mk (.procedure first more) body) (by simp [hts, hleft]) rfl (by simp)
      next =>
        apply (compound_reads before (t :: rest)).bind
        intro body left _ hts
        exact .ok (.mk .none body) hts rfl rfl
termination_by 2 * ts.length

/-- The parser meets a procedure after the word that opens it. -/
theorem procedure_reads (before : Span) (word : Terminal (.keyword .procedure)) (ts : List Token) :
    Reads Procedure.tokens Procedure.tree before (word.token :: ts)
      (procedure word.token.span ts) := by
  rw [procedure.eq_def]
  apply (token_reads .identifier word.token.span ts).bind
  intro name left hleft hname
  apply (header_reads name.token.span left).bind
  intro header left' hleft' hheader
  apply (blockParts_reads header.closing.token.span left').bind
  intro block left _ hblock
  apply (token_reads (.mark .semicolon) (endOf header.closing.token.span block.tokens) left).bind
  intro closing left _ hclosing
  refine .ok (.mk word name header block closing) ?_ ?_ ?_
  · simp [Procedure.tokens, hname, hheader, hblock, hclosing]
  · simp [Procedure.tree, Procedure.span, Procedure.tokens, spanOver, hblock, Block.block_parts]
  · simp [Procedure.tokens]
termination_by 2 * ts.length + 1

end

mutual

theorem blockParts_gives (d : Grammar.Block) (before : Span) (rest : List Token) :
    Gives (blockParts (d.tokens ++ rest)) d.parts (endOf before d.tokens) rest := by
  match d with
  | .mk .none body =>
      have hbody := compound_gives body before rest
      obtain ⟨t, ts, htokens⟩ := body.opening
      rw [Block.tokens_none]
      rw [htokens, List.cons_append] at hbody ⊢
      rw [blockParts.eq_def]
      simp only [t.kind_eq]
      apply hbody.bind
      intro _
      exact .ok
  | .mk (.variables word groups more) body =>
      rw [Block.tokens_variables, List.cons_append, List.append_assoc, endOf_cons, endOf_append,
        blockParts.eq_def]
      simp only [word.kind_eq]
      apply (variableSection_gives groups word.token.span _
        (Block.headIs (.mk more body) rest)).bind
      intro _
      apply (blockParts_gives (.mk more body) (endOf word.token.span groups.tokens) rest).bind
      intro _
      exact .ok
  | .mk (.procedure first more) body =>
      obtain ⟨word, ts, hfirst, hgives⟩ :=
        procedure_gives first before ((Grammar.Block.mk more body).tokens ++ rest)
      rw [Block.tokens_procedure, List.append_assoc, endOf_append, hfirst, List.cons_append,
        blockParts.eq_def]
      simp only [word.kind_eq]
      rw [hfirst] at hgives
      apply hgives.bind
      intro _
      apply (blockParts_gives (.mk more body) (endOf before (word.token :: ts)) rest).bind
      intro _
      exact .ok

theorem procedure_gives (d : Procedure) (before : Span) (rest : List Token) :
    ∃ word : Terminal (.keyword .procedure), ∃ ts, d.tokens = word.token :: ts ∧
      Gives (procedure word.token.span (ts ++ rest)) d.tree (endOf before d.tokens) rest := by
  match d with
  | .mk word name header block closing =>
      refine ⟨word, _, rfl, ?_⟩
      rw [List.cons_append, List.append_assoc, List.append_assoc, List.singleton_append,
        procedure.eq_def]
      apply (token_gives name _).bind
      intro _
      apply (header_gives header name.token.span _).bind
      intro _
      apply (blockParts_gives block header.closing.token.span _).bind
      intro _
      apply (token_gives closing rest).bind
      intro _
      refine .of_eq ?_ ?_ rfl
      · simp [Procedure.tree, Procedure.span, Procedure.tokens, spanOver, Block.block_parts]
      · simp [Procedure.tokens]

end

theorem block_reads (before : Span) (ts : List Token) :
    Reads Block.tokens Block.tree before ts (block ts) := by
  apply (blockParts_reads before ts).bind
  rintro d left _ rfl
  exact .ok d rfl (d.block_parts before left) rfl

theorem block_gives (d : Grammar.Block) (before : Span) (rest : List Token) :
    Gives (block (d.tokens ++ rest)) d.tree (endOf before d.tokens) rest := by
  apply (blockParts_gives d before rest).bind
  intro _
  exact .of_eq (d.block_parts before rest) rfl rfl

end Parse

end NestedPascal
