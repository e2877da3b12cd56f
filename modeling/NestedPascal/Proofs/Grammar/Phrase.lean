import NestedPascal.Grammar.Parsed

/-!
# Phrases and their tokens

A derivation is data: it holds every token of its phrase in its place, so its tokens and its tree are
functions of it.  What a function of the parser reads is always a derivation of one kind, with what
is left after it.  The other way round, a derivation is read back as what it is made of if the token
after it cannot go on with it; and no tokens are those of two derivations.
-/

namespace NestedPascal

/-! ## Tokens in their places -/

/-- A token of one class. -/
@[ext]
structure Terminal (kind : TokenKind) where
  token : Token
  kind_eq : token.kind = kind

attribute [grind! .] Terminal.kind_eq

/-- A token whose class has a meaning in a table. -/
structure Meaningful {α : Type} (meaning? : TokenKind → Option α) where
  token : Token
  meaning : α
  means : meaning? token.kind = some meaning

attribute [grind! .] Meaningful.means

theorem Meaningful.ext {α : Type} {meaning? : TokenKind → Option α} {a b : Meaningful meaning?}
    (h : a.token = b.token) : a = b := by
  obtain ⟨token, meaning, hmeaning⟩ := a
  obtain ⟨_, _, hb⟩ := b
  cases h
  rw [hmeaning] at hb
  cases hb
  rfl

theorem Terminal.unambiguous {kind : TokenKind} (a b : Terminal kind) {rest rest' : List Token}
    (h : a.token :: rest = b.token :: rest') : a = b ∧ rest = rest' :=
  ⟨Terminal.ext (List.cons.inj h).1, (List.cons.inj h).2⟩

theorem Meaningful.unambiguous {α : Type} {meaning? : TokenKind → Option α}
    (a b : Meaningful meaning?) {rest rest' : List Token}
    (h : a.token :: rest = b.token :: rest') : a = b ∧ rest = rest' :=
  ⟨Meaningful.ext (List.cons.inj h).1, (List.cons.inj h).2⟩

/-- Whether the tokens are none or start with one of a class with the property. -/
def HeadIs (P : TokenKind → Prop) (ts : List Token) : Prop :=
  ∀ t ∈ ts.head?, P t.kind

@[simp]
theorem headIs_nil {P : TokenKind → Prop} : HeadIs P [] := by simp [HeadIs]

@[simp, grind =]
theorem headIs_cons {P : TokenKind → Prop} {t : Token} {ts : List Token} :
    HeadIs P (t :: ts) ↔ P t.kind := by simp [HeadIs]

@[simp]
theorem headIs_true {ts : List Token} : HeadIs (fun _ => True) ts := fun _ _ => trivial

theorem HeadIs.mono {P Q : TokenKind → Prop} {ts : List Token} (h : HeadIs P ts)
    (hPQ : ∀ kind, P kind → Q kind) : HeadIs Q ts :=
  fun t ht => hPQ t.kind (h t ht)

theorem Terminal.headIs {kind : TokenKind} {P : TokenKind → Prop} (t : Terminal kind)
    (h : P kind) {rest : List Token} : HeadIs P (t.token :: rest) := by
  rw [headIs_cons, t.kind_eq]
  exact h

/-- No tokens come from two derivations of a kind, whatever follows that ends them. -/
def Unambiguous {δ : Type} (tokens : δ → List Token) (Ends : TokenKind → Prop) : Prop :=
  ∀ d d' rest rest', tokens d ++ rest = tokens d' ++ rest' →
    HeadIs Ends rest → HeadIs Ends rest' → d = d' ∧ rest = rest'

theorem unambiguous_terminal (kind : TokenKind) :
    Unambiguous (fun d : Terminal kind => [d.token]) fun _ => True :=
  fun d d' _ _ h _ _ => d.unambiguous d' h

/-! ## Spans of phrases -/

/-- The span of the last token, or the given one if there is none. -/
def endOf (before : Span) (ts : List Token) : Span :=
  ts.foldl (fun _ t => t.span) before

@[simp]
theorem endOf_nil (before : Span) : endOf before [] = before := rfl

@[simp]
theorem endOf_cons (before : Span) (t : Token) (ts : List Token) :
    endOf before (t :: ts) = endOf t.span ts := rfl

@[simp]
theorem endOf_append (before : Span) (ts us : List Token) :
    endOf before (ts ++ us) = endOf (endOf before ts) us := by simp [endOf]

/-- The span from the first token to the last one. -/
def spanOver : List Token → Span
  | [] => default
  | t :: ts => t.span.to (endOf t.span ts)

namespace Parse

/-! ## What the parser reads -/

/-- If the phrase is there, what is left comes after a derivation with that tree and that end. -/
def Reads {δ α : Type} {n : Nat} (tokens : δ → List Token) (tree : δ → α) (before : Span)
    (ts : List Token) (r : Except ParseError (Parsed α n)) : Prop :=
  ∀ parsed, r = .ok parsed → ∃ d : δ,
    ts = tokens d ++ parsed.rest ∧ parsed.tree = tree d ∧ parsed.last = endOf before (tokens d)

section

variable {δ ε α β : Type} {m n : Nat} {tokens : δ → List Token} {tree : δ → α} {before : Span}
  {ts : List Token}

theorem Reads.ok {parsed : Parsed α n} (d : δ) (htokens : ts = tokens d ++ parsed.rest)
    (htree : parsed.tree = tree d) (hlast : parsed.last = endOf before (tokens d)) :
    Reads tokens tree before ts (.ok parsed) := by
  intro _ hparsed
  cases hparsed
  exact ⟨d, htokens, htree, hlast⟩

theorem Reads.fail {expected : Expected} {us : List Token} :
    Reads tokens tree before ts (Parse.fail expected us : Except ParseError (Parsed α n)) := by
  intro _ hparsed
  contradiction

theorem Reads.bind {tokens' : ε → List Token} {tree' : ε → β} {before' : Span} {ts' : List Token}
    {r : Except ParseError (Parsed α m)} {next : Parsed α m → Except ParseError (Parsed β n)}
    (hr : Reads tokens tree before ts r)
    (hnext : ∀ d rest h, ts = tokens d ++ rest →
      Reads tokens' tree' before' ts' (next ⟨tree d, endOf before (tokens d), rest, h⟩)) :
    Reads tokens' tree' before' ts' (r >>= next) := by
  cases r with
  | error e =>
      intro _ hparsed
      contradiction
  | ok parsed =>
      obtain ⟨d, htokens, htree, hlast⟩ := hr parsed rfl
      obtain ⟨tree, last, rest, h⟩ := parsed
      cases htree
      cases hlast
      exact hnext d rest h htokens

/-- The phrase is there, with that tree and that end, and those tokens are left. -/
def Gives (r : Except ParseError (Parsed α n)) (tree : α) (last : Span) (rest : List Token) :
    Prop :=
  ∃ h, r = .ok ⟨tree, last, rest, h⟩

theorem Gives.ok {parsed : Parsed α n} :
    Gives (.ok parsed) parsed.tree parsed.last parsed.rest :=
  ⟨parsed.shorter, rfl⟩

theorem Gives.of_eq {parsed : Parsed α n} {tree : α} {last : Span} {rest : List Token}
    (htree : parsed.tree = tree) (hlast : parsed.last = last) (hrest : parsed.rest = rest) :
    Gives (.ok parsed) tree last rest := by
  cases htree
  cases hlast
  cases hrest
  exact .ok

theorem Gives.bind {r : Except ParseError (Parsed α m)}
    {next : Parsed α m → Except ParseError (Parsed β n)} {tree : α} {tree' : β} {last last' : Span}
    {rest rest' : List Token} (hr : Gives r tree last rest)
    (hnext : ∀ h, Gives (next ⟨tree, last, rest, h⟩) tree' last' rest') :
    Gives (r >>= next) tree' last' rest' := by
  obtain ⟨h, rfl⟩ := hr
  exact hnext h

end

theorem token_reads (kind : TokenKind) (before : Span) (ts : List Token) :
    Reads (fun d : Terminal kind => [d.token]) Terminal.token before ts (token kind ts) := by
  cases ts with
  | nil => exact .fail
  | cons t rest =>
      rw [token]
      split
      next hkind => exact .ok ⟨t, hkind⟩ rfl rfl rfl
      next => exact .fail

theorem token_gives {kind : TokenKind} (d : Terminal kind) (rest : List Token) :
    Gives (token kind (d.token :: rest)) d.token d.token.span rest := by
  rw [token, if_pos d.kind_eq]
  exact .ok

/-- A function of the parser reads the derivations of a kind and nothing else, each of them as what
it is made of, wherever the class of the next token ends it. -/
structure Parses {δ α : Type} (parse : (ts : List Token) → Parse α ts) (tokens : δ → List Token)
    (tree : δ → α) (Ends : TokenKind → Prop) : Prop where
  reads : ∀ before ts, Reads tokens tree before ts (parse ts)
  gives : ∀ d before rest, HeadIs Ends rest →
    Gives (parse (tokens d ++ rest)) (tree d) (endOf before (tokens d)) rest

theorem token_parses (kind : TokenKind) :
    Parses (token kind) (fun d : Terminal kind => [d.token]) Terminal.token fun _ => True where
  reads := token_reads kind
  gives d _ rest _ := token_gives d rest

end Parse

end NestedPascal
