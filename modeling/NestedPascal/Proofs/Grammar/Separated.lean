import NestedPascal.Proofs.Grammar.Phrase

/-!
# Repeated phrases

Where a phrase can be repeated, the class of the next token tells whether another one follows.
Arguments, names and groups of parameters are all items with one separator between them and a token
after the last that closes them, and the parser goes through the three of them in one way.
-/

namespace NestedPascal

namespace Grammar

/-! ## Phrases in a row -/

section

variable {δ : Type} {itemTokens : δ → List Token} {opening : TokenKind} {Ends : TokenKind → Prop}

theorem headIs_flatMap (hopening : ∀ d, ∃ t : Terminal opening, ∃ ts, itemTokens d = t.token :: ts)
    (hends : Ends opening) (items : List δ) {rest : List Token} (hrest : HeadIs Ends rest) :
    HeadIs Ends (items.flatMap itemTokens ++ rest) := by
  cases items with
  | nil => exact hrest
  | cons d items =>
      obtain ⟨t, ts, hts⟩ := hopening d
      rw [List.flatMap_cons, hts]
      exact t.headIs hends

/-- Phrases in a row are unambiguous if a token that opens another one can end each of them. -/
theorem flatMap_unambiguous (hitem : Unambiguous itemTokens Ends)
    (hopening : ∀ d, ∃ t : Terminal opening, ∃ ts, itemTokens d = t.token :: ts)
    (hends : Ends opening) :
    Unambiguous (fun items : List δ => items.flatMap itemTokens)
      fun kind => Ends kind ∧ kind ≠ opening := by
  intro items items' rest rest' h hrest hrest'
  induction items generalizing items' with
  | nil =>
      cases items' with
      | nil => exact ⟨rfl, h⟩
      | cons d' items' =>
          obtain ⟨t, ts, hts⟩ := hopening d'
          grind
  | cons d items ih =>
      cases items' with
      | nil =>
          obtain ⟨t, ts, hts⟩ := hopening d
          grind
      | cons d' items' =>
          simp only [List.flatMap_cons, List.append_assoc] at h
          obtain ⟨rfl, hmore⟩ := hitem d d' _ _ h
            (headIs_flatMap hopening hends items (hrest.mono fun _ h => h.1))
            (headIs_flatMap hopening hends items' (hrest'.mono fun _ h => h.1))
          obtain ⟨rfl, hafter⟩ := ih items' hmore
          exact ⟨rfl, hafter⟩

end

/-! ## Separated and closed phrases -/

/-- A phrase and the token that closes it. -/
structure Closed (δ : Type) (close : TokenKind) where
  phrase : δ
  closing : Terminal close

/-- One item and the others, each after a separator. -/
structure Separated (δ : Type) (separator : TokenKind) where
  first : δ
  more : List (Terminal separator × δ)

section

variable {δ : Type} {separator close : TokenKind} (itemTokens : δ → List Token)

def Closed.tokens (d : Closed δ close) : List Token :=
  itemTokens d.phrase ++ [d.closing.token]

/-- The tokens of items that each follow a separator. -/
def tokensAfter (items : List (Terminal separator × δ)) : List Token :=
  items.flatMap fun item => item.1.token :: itemTokens item.2

def Separated.tokens (d : Separated δ separator) : List Token :=
  itemTokens d.first ++ tokensAfter itemTokens d.more

def Separated.items (d : Separated δ separator) : List δ :=
  d.first :: d.more.map Prod.snd

variable {itemTokens} {Ends : TokenKind → Prop}

theorem Closed.tokens_append (d : Closed δ close) (rest : List Token) :
    d.tokens itemTokens ++ rest = itemTokens d.phrase ++ d.closing.token :: rest := by
  simp [Closed.tokens]

@[simp]
theorem Closed.endOf_tokens (d : Closed δ close) (before : Span) :
    endOf before (d.tokens itemTokens) = d.closing.token.span := by simp [Closed.tokens]

@[simp]
theorem tokensAfter_nil :
    tokensAfter itemTokens ([] : List (Terminal separator × δ)) = [] := rfl

@[simp]
theorem tokensAfter_cons (item : Terminal separator × δ) (items : List (Terminal separator × δ)) :
    tokensAfter itemTokens (item :: items) =
      item.1.token :: (itemTokens item.2 ++ tokensAfter itemTokens items) := by
  simp [tokensAfter]

theorem headIs_tokensAfter (items : List (Terminal separator × δ)) {rest : List Token}
    (hseparator : Ends separator) (hrest : HeadIs Ends rest) :
    HeadIs Ends (tokensAfter itemTokens items ++ rest) := by
  apply headIs_flatMap _ hseparator items hrest
  intro item
  exact ⟨item.1, _, rfl⟩

theorem Closed.unambiguous (hphrase : Unambiguous itemTokens Ends) (hclose : Ends close) :
    Unambiguous (fun d : Closed δ close => d.tokens itemTokens) fun _ => True := by
  intro d d' rest rest' h _ _
  rw [d.tokens_append, d'.tokens_append] at h
  obtain ⟨hphrase, hclosing⟩ :=
    hphrase _ _ _ _ h (d.closing.headIs hclose) (d'.closing.headIs hclose)
  obtain ⟨hclosing, hrest⟩ := d.closing.unambiguous d'.closing hclosing
  cases d
  cases d'
  cases hphrase
  cases hclosing
  exact ⟨rfl, hrest⟩

theorem tokensAfter_unambiguous (hitem : Unambiguous itemTokens Ends)
    (hseparator : Ends separator) :
    Unambiguous (fun items : List (Terminal separator × δ) => tokensAfter itemTokens items)
      fun kind => Ends kind ∧ kind ≠ separator := by
  refine flatMap_unambiguous ?_ ?_ hseparator
  · intro item item' rest rest' h hrest hrest'
    obtain ⟨hseparator, h⟩ := item.1.unambiguous item'.1 h
    obtain ⟨hitem, hafter⟩ := hitem _ _ _ _ h hrest hrest'
    exact ⟨Prod.ext hseparator hitem, hafter⟩
  · intro item
    exact ⟨item.1, _, rfl⟩

theorem Separated.unambiguous (hitem : Unambiguous itemTokens Ends) (hseparator : Ends separator) :
    Unambiguous (fun d : Separated δ separator => d.tokens itemTokens)
      fun kind => Ends kind ∧ kind ≠ separator := by
  intro d d' rest rest' h hrest hrest'
  obtain ⟨first, more⟩ := d
  obtain ⟨first', more'⟩ := d'
  simp only [Separated.tokens, List.append_assoc] at h
  obtain ⟨rfl, hmore⟩ := hitem _ _ _ _ h
    (headIs_tokensAfter more hseparator (hrest.mono fun _ h => h.1))
    (headIs_tokensAfter more' hseparator (hrest'.mono fun _ h => h.1))
  obtain ⟨rfl, hafter⟩ := tokensAfter_unambiguous hitem hseparator _ _ _ _ hmore hrest hrest'
  exact ⟨rfl, hafter⟩

end

end Grammar

namespace Parse

open Grammar

/-- One step through items that each follow a separator, up to the token that closes them; the given
function goes on after an item. -/
def closedItems {α β : Type} (separator close : TokenKind) (item : (ts : List Token) → Parse α ts)
    (values : α → List β) (more : (ts : List Token) → Parse (List β) ts) (ts : List Token) :
    Parse (List β) ts :=
  match ts with
  | [] => fail (.token close) []
  | t :: rest =>
    if t.kind = separator then do
      let first ← item rest
      let others ← more first.rest
      .ok ⟨values first.tree ++ others.tree, others.last, others.rest,
        Nat.lt_trans others.shorter (Nat.lt_trans first.shorter (rest_shorter t rest))⟩
    else if t.kind = close then .ok ⟨[], t.span, rest, rest_shorter t rest⟩
    else fail (.token close) (t :: rest)

section

variable {δ α β : Type} {separator close : TokenKind} {item : (ts : List Token) → Parse α ts}
  {itemTokens : δ → List Token} {itemTree : δ → α} {Ends : TokenKind → Prop} {values : α → List β}
  {parse : (ts : List Token) → Parse (List β) ts}

theorem closedItems_reads
    (hparse : ∀ ts, parse ts = closedItems separator close item values parse ts)
    (hitem : ∀ before ts, Reads itemTokens itemTree before ts (item ts))
    (before : Span) (ts : List Token) :
    Reads
      (fun d : Closed (List (Terminal separator × δ)) close => d.tokens (tokensAfter itemTokens))
      (fun d => d.phrase.flatMap fun item => values (itemTree item.2)) before ts (parse ts) := by
  rw [hparse, closedItems.eq_def]
  cases ts with
  | nil => exact .fail
  | cons t rest =>
      simp only
      split
      next hseparator =>
        apply (hitem t.span rest).bind
        intro first left _ hrest
        apply (closedItems_reads hparse hitem (endOf t.span (itemTokens first)) left).bind
        intro more left' _ hleft
        exact .ok ⟨(⟨t, hseparator⟩, first) :: more.phrase, more.closing⟩
          (by simp [Closed.tokens, tokensAfter_cons, hrest, hleft]) rfl
          (by simp [Closed.tokens, tokensAfter_cons])
      next =>
        split
        next hclose => exact .ok ⟨[], ⟨t, hclose⟩⟩ rfl rfl rfl
        next => exact .fail
termination_by ts.length

theorem closedItems_gives
    (hparse : ∀ ts, parse ts = closedItems separator close item values parse ts)
    (hitem : ∀ d before rest, HeadIs Ends rest →
      Gives (item (itemTokens d ++ rest)) (itemTree d) (endOf before (itemTokens d)) rest)
    (hseparator : Ends separator) (hclose : Ends close) (hne : close ≠ separator)
    (items : List (Terminal separator × δ)) (closing : Terminal close) (rest : List Token) :
    Gives (parse (tokensAfter itemTokens items ++ closing.token :: rest))
      (items.flatMap fun item => values (itemTree item.2)) closing.token.span rest := by
  induction items with
  | nil =>
      rw [tokensAfter_nil, List.nil_append, hparse, closedItems]
      simp only [closing.kind_eq, hne, if_false, if_true]
      exact .ok
  | cons first more ih =>
      rw [tokensAfter_cons, List.cons_append, List.append_assoc, hparse, closedItems]
      simp only [first.1.kind_eq, if_true]
      apply (hitem first.2 first.1.token.span _
        (headIs_tokensAfter more hseparator (closing.headIs hclose))).bind
      intro _
      exact ih.bind fun _ => .ok

theorem closedItems_parses
    (hparse : ∀ ts, parse ts = closedItems separator close item values parse ts)
    (hitem : Parses item itemTokens itemTree Ends)
    (hseparator : Ends separator) (hclose : Ends close) (hne : close ≠ separator) :
    Parses parse
      (fun d : Closed (List (Terminal separator × δ)) close => d.tokens (tokensAfter itemTokens))
      (fun d => d.phrase.flatMap fun item => values (itemTree item.2)) fun _ => True where
  reads := closedItems_reads hparse hitem.reads
  gives d before rest _ := by
    rw [d.tokens_append, d.endOf_tokens]
    exact closedItems_gives hparse hitem.gives hseparator hclose hne d.phrase d.closing rest

end

end Parse

end NestedPascal
