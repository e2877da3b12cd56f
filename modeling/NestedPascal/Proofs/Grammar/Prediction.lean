import NestedPascal.Proofs.Grammar.Separated

/-!
# Parsing by one token

The parser looks one token ahead.  Where it stops, the tokens before the offending one begin some
phrase of the kind that it reads, and it stops there whatever comes after that token.  Where it reads
a phrase, it reads the same phrase before anything that starts with the same token.
-/

namespace NestedPascal

namespace Grammar

instance {kind : TokenKind} : Inhabited (Terminal kind) := ⟨⟨⟨kind, "", 0, default⟩, rfl⟩⟩

instance {δ : Type} {close : TokenKind} [Inhabited δ] : Inhabited (Closed δ close) :=
  ⟨⟨default, default⟩⟩

instance {δ : Type} {separator : TokenKind} [Inhabited δ] : Inhabited (Separated δ separator) :=
  ⟨⟨default, []⟩⟩

end Grammar

namespace Parse

open Grammar

/-- The tokens that the parser leaves. -/
def remaining {α : Type} {n : Nat} (r : Except ParseError (Parsed α n)) :
    Except ParseError (List Token) := do
  let parsed ← r
  .ok parsed.rest

@[simp]
theorem remaining_ok {α : Type} {n : Nat} (parsed : Parsed α n) :
    remaining (.ok parsed) = .ok parsed.rest := rfl

@[simp]
theorem remaining_fail {α : Type} {n : Nat} (expected : Expected) (ts : List Token) :
    remaining (fail expected ts : Except ParseError (Parsed α n)) = fail expected ts := rfl

@[simp]
theorem remaining_bind {α β : Type} {m n : Nat} (r : Except ParseError (Parsed α m))
    (next : Parsed α m → Except ParseError (Parsed β n)) :
    remaining (r >>= next) = r >>= fun parsed => remaining (next parsed) := by
  cases r <;> rfl

@[simp]
theorem remaining_then {α β : Type} {n : Nat} (r : Except ParseError (Parsed α n))
    (next : List Token → Except ParseError β) :
    remaining r >>= next = r >>= fun parsed => next parsed.rest := by
  cases r <;> rfl

theorem remaining_shorter {α : Type} {n : Nat} {r : Except ParseError (Parsed α n)}
    {rest : List Token} (h : remaining r = .ok rest) : rest.length < n := by
  cases r with
  | error e => contradiction
  | ok parsed =>
      cases h
      exact parsed.shorter

/-- What a function of the parser leaves of the tokens depends on those that it takes and on the next
one.  Those that it takes are a derivation or, if it stops, begin one. -/
structure PredictiveAt {δ : Type} (tokens : δ → List Token)
    (leave : List Token → Except ParseError (List Token)) (ts : List Token) : Prop where
  reads : ∀ rest, leave ts = .ok rest → ∃ d, ts = tokens d ++ rest ∧
    ∀ rest', rest'.head? = rest.head? → leave (tokens d ++ rest') = .ok rest'
  stops : ∀ e, leave ts = .error e → ∃ taken rest, ts = taken ++ rest ∧ e.found = rest.head? ∧
    (∃ d, taken <+: tokens d) ∧
    ∀ rest', rest'.head? = rest.head? → leave (taken ++ rest') = .error e

namespace PredictiveAt

variable {δ ε η : Type} {tokens : δ → List Token} {tokens' : ε → List Token}
  {tokens'' : η → List Token} {leave leave' leave'' : List Token → Except ParseError (List Token)}
  {ts rest : List Token} {t : Token}

theorem head?_append_congr {us vs : List Token} (ts : List Token) (h : us.head? = vs.head?) :
    (ts ++ us).head? = (ts ++ vs).head? := by
  rw [List.head?_append, List.head?_append, h]

theorem nothing (ts : List Token) : PredictiveAt (fun _ : Unit => []) .ok ts where
  reads rest h := by
    cases h
    exact ⟨(), rfl, fun _ _ => rfl⟩
  stops e h := by contradiction

theorem fail [Nonempty δ] (expected : Expected) (ts : List Token) :
    PredictiveAt tokens (Parse.fail expected) ts where
  reads rest h := by contradiction
  stops e h := by
    obtain ⟨d⟩ := ‹Nonempty δ›
    cases h
    refine ⟨[], ts, rfl, rfl, ⟨d, List.nil_prefix⟩, ?_⟩
    intro rest' hhead
    rw [List.nil_append, Parse.fail, hhead]

theorem map (h : PredictiveAt tokens leave ts) (f : δ → ε)
    (hf : ∀ d, tokens' (f d) = tokens d) : PredictiveAt tokens' leave ts where
  reads rest hrest := by
    obtain ⟨d, hts, hsame⟩ := h.reads rest hrest
    exact ⟨f d, by rwa [hf], by rwa [hf]⟩
  stops e he := by
    obtain ⟨taken, rest, hts, hfound, ⟨d, htaken⟩, hsame⟩ := h.stops e he
    exact ⟨taken, rest, hts, hfound, ⟨f d, by rwa [hf]⟩, hsame⟩

/-- Functions that agree wherever the next token is the same. -/
theorem congr (h : PredictiveAt tokens leave ts)
    (hleave : ∀ us : List Token, us.head? = ts.head? → leave' us = leave us) :
    PredictiveAt tokens leave' ts where
  reads rest hrest := by
    rw [hleave ts rfl] at hrest
    obtain ⟨d, hts, hsame⟩ := h.reads rest hrest
    refine ⟨d, hts, ?_⟩
    intro rest' hhead
    rw [hleave, hsame rest' hhead]
    rw [hts]
    exact head?_append_congr _ hhead
  stops e he := by
    rw [hleave ts rfl] at he
    obtain ⟨taken, rest, hts, hfound, htaken, hsame⟩ := h.stops e he
    refine ⟨taken, rest, hts, hfound, htaken, ?_⟩
    intro rest' hhead
    rw [hleave, hsame rest' hhead]
    rw [hts]
    exact head?_append_congr _ hhead

theorem congr_nil (h : PredictiveAt tokens leave []) (hleave : leave' [] = leave []) :
    PredictiveAt tokens leave' [] := by
  apply h.congr
  intro us hhead
  rw [List.head?_nil, List.head?_eq_none_iff] at hhead
  rw [hhead, hleave]

theorem congr_cons (h : PredictiveAt tokens leave (t :: rest))
    (hleave : ∀ us, leave' (t :: us) = leave (t :: us)) :
    PredictiveAt tokens leave' (t :: rest) := by
  apply h.congr
  intro us hhead
  obtain ⟨us, rfl⟩ := List.head?_eq_some_iff.mp hhead
  exact hleave us

/-- The next token is taken, and the rest read. -/
theorem cons (h : PredictiveAt tokens leave rest) (f : δ → ε)
    (hf : ∀ d, tokens' (f d) = t :: tokens d) (hleave : ∀ us, leave' (t :: us) = leave us) :
    PredictiveAt tokens' leave' (t :: rest) where
  reads left hleft := by
    rw [hleave] at hleft
    obtain ⟨d, hrest, hsame⟩ := h.reads left hleft
    refine ⟨f d, by rw [hf, hrest, List.cons_append], ?_⟩
    intro rest' hhead
    rw [hf, List.cons_append, hleave, hsame rest' hhead]
  stops e he := by
    rw [hleave] at he
    obtain ⟨taken, left, hrest, hfound, ⟨d, htaken⟩, hsame⟩ := h.stops e he
    refine ⟨t :: taken, left, by rw [hrest, List.cons_append], hfound, ⟨f d, ?_⟩, ?_⟩
    · rw [hf]
      exact List.cons_prefix_cons.mpr ⟨rfl, htaken⟩
    · intro rest' hhead
      rw [List.cons_append, hleave, hsame rest' hhead]

/-- One phrase is read, and then another one from what is left. -/
theorem bind [Nonempty ε] (h : PredictiveAt tokens leave ts)
    (hnext : ∀ rest, leave ts = .ok rest → PredictiveAt tokens' leave' rest) :
    PredictiveAt (fun d : δ × ε => tokens d.1 ++ tokens' d.2) (fun us => leave us >>= leave')
      ts := by
  cases hleave : leave ts with
  | error e =>
      obtain ⟨taken, rest, hts, hfound, ⟨d, htaken⟩, hsame⟩ := h.stops e hleave
      obtain ⟨d'⟩ := ‹Nonempty ε›
      refine ⟨fun left hleft => ?_, fun e' he => ?_⟩
      · rw [hleave] at hleft
        contradiction
      · rw [hleave] at he
        cases he
        refine ⟨taken, rest, hts, hfound, ⟨(d, d'), htaken.trans (List.prefix_append _ _)⟩, ?_⟩
        intro rest' hhead
        rw [hsame rest' hhead]
        rfl
  | ok rest =>
      obtain ⟨d, rfl, hsame⟩ := h.reads rest hleave
      have hrest := hnext rest hleave
      have hbind : ∀ us : List Token, us.head? = rest.head? →
          (leave (tokens d ++ us) >>= leave') = leave' us := by
        intro us hhead
        rw [hsame us hhead]
        rfl
      refine ⟨fun left hleft => ?_, fun e he => ?_⟩
      · rw [hbind rest rfl] at hleft
        obtain ⟨d', rfl, hsame'⟩ := hrest.reads left hleft
        refine ⟨(d, d'), by rw [List.append_assoc], ?_⟩
        intro rest' hhead
        rw [List.append_assoc, hbind _ (head?_append_congr _ hhead), hsame' rest' hhead]
      · rw [hbind rest rfl] at he
        obtain ⟨taken, left, rfl, hfound, ⟨d', htaken⟩, hsame'⟩ := hrest.stops e he
        refine ⟨tokens d ++ taken, left, by rw [List.append_assoc], hfound,
          ⟨(d, d'), (List.prefix_append_right_inj _).mpr htaken⟩, ?_⟩
        intro rest' hhead
        rw [List.append_assoc, hbind _ (head?_append_congr _ hhead), hsame' rest' hhead]

end PredictiveAt

/-! ## Tokens and repeated phrases -/

theorem token_predictive (kind : TokenKind) (ts : List Token) :
    PredictiveAt (fun d : Terminal kind => [d.token]) (fun us => remaining (token kind us)) ts := by
  cases ts with
  | nil => exact (PredictiveAt.fail (.token kind) []).congr_nil rfl
  | cons t rest =>
      by_cases hkind : t.kind = kind
      · apply (PredictiveAt.nothing rest).cons (fun _ => ⟨t, hkind⟩) (fun _ => rfl)
        intro us
        rw [token, if_pos hkind, remaining_ok]
      · apply (PredictiveAt.fail (.token kind) (t :: rest)).congr_cons
        intro us
        rw [token, if_neg hkind, remaining_fail]

section

variable {δ α β : Type} {separator close : TokenKind} {item : (ts : List Token) → Parse α ts}
  {itemTokens : δ → List Token} {values : α → List β}
  {parse : (ts : List Token) → Parse (List β) ts}

theorem closedItems_predictive
    (hparse : ∀ ts, parse ts = closedItems separator close item values parse ts)
    (hitem : ∀ ts, PredictiveAt itemTokens (fun us => remaining (item us)) ts)
    (ts : List Token) :
    PredictiveAt
      (fun d : Closed (List (Terminal separator × δ)) close => d.tokens (tokensAfter itemTokens))
      (fun us => remaining (parse us)) ts := by
  cases ts with
  | nil =>
      apply (PredictiveAt.fail (.token close) []).congr_nil
      rw [hparse, closedItems, remaining_fail]
  | cons t rest =>
      by_cases hseparator : t.kind = separator
      · have hmore := (hitem rest).bind fun left hleft => by
          have := remaining_shorter hleft
          exact closedItems_predictive hparse hitem left
        apply hmore.cons (fun d => ⟨(⟨t, hseparator⟩, d.1) :: d.2.phrase, d.2.closing⟩)
        · intro d
          simp [Closed.tokens]
        · intro us
          rw [hparse, closedItems, if_pos hseparator]
          simp only [remaining_bind, remaining_ok, remaining_then]
          rfl
      · by_cases hclose : t.kind = close
        · apply (PredictiveAt.nothing rest).cons (fun _ => ⟨[], ⟨t, hclose⟩⟩) (fun _ => rfl)
          intro us
          rw [hparse, closedItems, if_neg hseparator, if_pos hclose, remaining_ok]
        · apply (PredictiveAt.fail (.token close) (t :: rest)).congr_cons
          intro us
          rw [hparse, closedItems, if_neg hseparator, if_neg hclose, remaining_fail]
termination_by ts.length

end

end Parse

end NestedPascal
