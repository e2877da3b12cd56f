import NestedPascal.Proofs.Grammar.Numerals
import NestedPascal.Proofs.Run.TypedEvaluation

/-!
# Finite numbers

Operators check that what they yield is finite, and so are the integers of 32 bits.  The one other
source of values is the literals, and a real numeral may be written with so many digits that the
nearest binary64 number is infinite.  So a number that a run comes to is finite unless it is that of a
numeral of the source.
-/

namespace NestedPascal

/-! ## Values -/

namespace Value

/-- The number of a value is finite, unless the value is of an exceptional sort. -/
def FiniteUnless (exceptional : Value → Prop) (v : Value) : Prop :=
  v.number.isFinite = true ∨ exceptional v

variable {exceptional : Value → Prop} {v : Value}

theorem isFinite_of_inRange (h : v.InRange) (hkind : v.kind = .integer) :
    v.number.isFinite = true := by
  obtain ⟨n, hn, hnumber⟩ := h hkind
  rw [hnumber, Binary64.ofInt_of_le_pow hn.natAbs_le, Binary64.isFinite]

theorem isFinite_of_checkInteger {x : Binary64} (h : checkInteger x = .ok v) :
    v.number.isFinite = true := by
  obtain ⟨hkind, hrange⟩ := checkInteger_eq_ok h
  exact isFinite_of_inRange hrange hkind

theorem isFinite_of_checkReal {x : Binary64} (h : checkReal x = .ok v) :
    v.number.isFinite = true := by
  unfold checkReal at h
  split at h
  next hfinite =>
    cases h
    exact hfinite
  next => contradiction

theorem sign_apply_finiteUnless {sign : Sign} {operand : Value}
    (hoperand : operand.FiniteUnless exceptional) (h : sign.apply operand = .ok v) :
    v.FiniteUnless exceptional := by
  unfold Sign.apply at h
  split at h
  next =>
    cases h
    exact hoperand
  next => exact .inl (isFinite_of_checkInteger (ok_of_mapError h))
  next => exact .inl (isFinite_of_checkReal (ok_of_mapError h))

/-- What an operator yields is finite, whatever it is applied to. -/
theorem operator_apply_isFinite {op : BinaryOperator} {left right : Value}
    (h : op.apply left right = .ok v) : v.number.isFinite = true := by
  obtain ⟨leftKind, x⟩ := left
  obtain ⟨rightKind, y⟩ := right
  cases leftKind <;> cases rightKind
  case integer.real => contradiction
  case real.integer => contradiction
  case integer.integer =>
    cases op with
    | add => exact isFinite_of_checkInteger (ok_of_mapError h)
    | sub => exact isFinite_of_checkInteger (ok_of_mapError h)
    | mul => exact isFinite_of_checkInteger (ok_of_mapError h)
    | intDiv => exact isFinite_of_checkInteger (ok_of_division h)
    | realDiv => contradiction
  case real.real =>
    cases op with
    | add => exact isFinite_of_checkReal (ok_of_mapError h)
    | sub => exact isFinite_of_checkReal (ok_of_mapError h)
    | mul => exact isFinite_of_checkReal (ok_of_mapError h)
    | realDiv => exact isFinite_of_checkReal (ok_of_division h)
    | intDiv => contradiction

theorem FiniteUnless.widen (hreal : ∀ v, exceptional v → v.kind = .real)
    (h : v.FiniteUnless exceptional) (target : Kind) :
    (v.widen target).FiniteUnless exceptional := by
  unfold Value.widen
  split
  next hkind =>
    rcases h with hfinite | hexceptional
    · exact .inl hfinite
    · have hcontrary := hkind.symm.trans (hreal v hexceptional)
      contradiction
  next => exact h

end Value

/-! ## Evaluation -/

/-- Every number in a frame is finite, unless its value is of an exceptional sort. -/
def CallStack.FiniteUnless (exceptional : Value → Prop) (stack : CallStack (Frame Nat)) : Prop :=
  ∀ (i : Nat) f, stack.frames[i]? = some f → ∀ name v, (name, v) ∈ f.members.entries →
    v.FiniteUnless exceptional

section

variable {exceptional : Value → Prop} {stack : CallStack (Frame Nat)} {v : Value}

theorem CallStack.FiniteUnless.push (h : stack.FiniteUnless exceptional) {f : Frame Nat}
    (hf : ∀ name v, (name, v) ∈ f.members.entries → v.FiniteUnless exceptional) :
    (stack.push f).FiniteUnless exceptional := by
  intro i g hg
  rw [CallStack.push, Array.getElem?_push] at hg
  split at hg
  next =>
    cases hg
    exact hf
  next => exact h i g hg

theorem VariableRef.eval_finiteUnless (hstack : stack.FiniteUnless exceptional) {r : VariableRef}
    (h : r.eval stack = .ok v) : v.FiniteUnless exceptional := by
  unfold eval at h
  obtain ⟨⟨symbol, place⟩, -, hslot⟩ := bind_eq_ok_iff.mp h
  simp only at hslot
  split at hslot
  next value hvalue =>
    cases hslot
    obtain ⟨f, hf, hmember⟩ := Option.bind_eq_some_iff.mp hvalue
    exact hstack place f hf symbol.name _ (Register.mem_of_get? hmember)
  next => contradiction

theorem Expr.eval_finiteUnless (hstack : stack.FiniteUnless exceptional) {e : Expr}
    (he : ∀ w ∈ e.literals, w.FiniteUnless exceptional) (h : e.eval stack = .ok v) :
    v.FiniteUnless exceptional := by
  induction e generalizing v with
  | literal span value =>
      cases h
      exact he _ List.mem_cons_self
  | «variable» r => exact VariableRef.eval_finiteUnless hstack h
  | unary span sign operand ih =>
      obtain ⟨w, hw, hsign⟩ := Expr.eval_unary_eq_ok h
      exact Value.sign_apply_finiteUnless (ih he hw) hsign
  | binary span op left right =>
      obtain ⟨l, r, -, -, hop⟩ := Expr.eval_binary_eq_ok h
      exact .inl (Value.operator_apply_isFinite hop)

theorem bindArguments_finiteUnless (hreal : ∀ v, exceptional v → v.kind = .real)
    (hstack : stack.FiniteUnless exceptional) {c : Call} {params : List VariableSymbol}
    {args : List Expr} (hargs : ∀ w ∈ args.flatMap Expr.literals, w.FiniteUnless exceptional)
    {members members' : Register String Value}
    (hmembers : ∀ name v, (name, v) ∈ members.entries → v.FiniteUnless exceptional)
    (h : bindArguments stack c members params args = .ok members') :
    ∀ name v, (name, v) ∈ members'.entries → v.FiniteUnless exceptional := by
  induction params generalizing members args with
  | nil =>
      cases h
      exact hmembers
  | cons param params ih =>
      cases args with
      | nil => contradiction
      | cons arg args =>
          rw [List.flatMap_cons, List.forall_mem_append] at hargs
          rw [bindArguments] at h
          obtain ⟨w, hw, hrest⟩ := bind_eq_ok_iff.mp h
          refine ih hargs.2 ?_ hrest
          intro name v hv
          rcases Register.mem_replace hv with heq | hmem
          · cases heq
            exact (Expr.eval_finiteUnless hstack hargs.1 hw).widen hreal param.kind
          · exact hmembers name v hmem

end

/-! ## Runs -/

namespace Configuration

/-- Every number in a frame and every number still to be read off a literal is finite, unless its
value is of an exceptional sort. -/
structure FiniteUnless (exceptional : Value → Prop) (c : Configuration) : Prop where
  stack : c.machine.stack.FiniteUnless exceptional
  todo : ∀ a ∈ c.activations, ∀ v ∈ statementLiterals a.todo, v.FiniteUnless exceptional

variable {exceptional : Value → Prop} {p : Program} {limit : DepthLimit} {c c' : Configuration}

theorem FiniteUnless.start (hp : ∀ v ∈ p.block.literals, v.FiniteUnless exceptional) :
    p.start.FiniteUnless exceptional := by
  constructor
  · have hempty : CallStack.empty.FiniteUnless exceptional := by
      intro i f hf
      contradiction
    exact hempty.push fun name v hv => absurd hv List.not_mem_nil
  · intro a ha v hv
    rw [List.mem_singleton.mp ha] at hv
    exact hp v (p.block.body_literals_subset hv)

theorem FiniteUnless.step (hreal : ∀ v, exceptional v → v.kind = .real)
    (hp : ∀ v ∈ p.block.literals, v.FiniteUnless exceptional) (h : c.FiniteUnless exceptional)
    (hstep : Step p.block limit c c') : c'.FiniteUnless exceptional := by
  cases hstep with
  | @leave m declaration name span below =>
      refine ⟨?_, (List.forall_mem_cons.mp h.todo).2⟩
      intro i f hf
      simp only [Machine.leave, Machine.emit, CallStack.pop, Array.getElem?_pop] at hf
      split at hf
      next => exact h.stack i f hf
      next => contradiction
  | @compound m declaration call span children rest below =>
      obtain ⟨hfirst, hbelow⟩ := List.forall_mem_cons.mp h.todo
      refine ⟨h.stack, List.forall_mem_cons.mpr ⟨?_, hbelow⟩⟩
      rw [statementLiterals_append]
      exact hfirst
  | @assignment m m' declaration call span target value rest below hassign =>
      obtain ⟨hfirst, hbelow⟩ := List.forall_mem_cons.mp h.todo
      obtain ⟨hvalue, hrest⟩ := List.forall_mem_append.mp hfirst
      obtain ⟨w, symbol, place, hw, -, rfl⟩ := Machine.assign_eq_ok hassign
      refine ⟨?_, List.forall_mem_cons.mpr ⟨hrest, hbelow⟩⟩
      intro i g hg name v hv
      obtain ⟨f, hf, ⟨-, rfl⟩ | ⟨-, rfl⟩⟩ := CallStack.frame_of_set hg
      · rcases Register.mem_replace hv with heq | hmem
        · cases heq
          exact (Expr.eval_finiteUnless h.stack hvalue hw).widen hreal symbol.kind
        · exact h.stack i f hf name v hmem
      · exact h.stack i g hf name v hv
  | @call m m' declaration call callee entered rest below henter =>
      obtain ⟨hfirst, hbelow⟩ := List.forall_mem_cons.mp h.todo
      obtain ⟨hargs, hrest⟩ := List.forall_mem_append.mp hfirst
      obtain ⟨q, k, members, -, -, -, hmembers, hstack, rfl⟩ := Call.enter_eq_ok henter
      refine ⟨?_, List.forall_mem_cons.mpr ⟨?_, List.forall_mem_cons.mpr ⟨hrest, hbelow⟩⟩⟩
      · rw [hstack]
        refine h.stack.push (bindArguments_finiteUnless hreal h.stack hargs ?_ hmembers)
        exact fun name v hv => absurd hv List.not_mem_nil
      · intro v hv
        cases hblock : p.block.at? q.declaration with
        | none => simp [hblock, statementLiterals] at hv
        | some b =>
            rw [hblock, Option.map_some, Option.getD_some] at hv
            exact hp v (Block.literals_subset_of_at? hblock (b.body_literals_subset hv))

theorem finiteUnless_of_reaches (hreal : ∀ v, exceptional v → v.kind = .real)
    (hp : ∀ v ∈ p.block.literals, v.FiniteUnless exceptional) (hc : p.Reaches limit c) :
    c.FiniteUnless exceptional := by
  induction hc with
  | refl => exact .start hp
  | tail _ hstep ih => exact ih.step hreal hp (step_of_eq_next hstep)

/-- In a state of a run the numbers in frames are finite, and so is what is evaluated next, unless
the value is of an exceptional sort. -/
structure NumbersFinite (exceptional : Value → Prop) (c : Configuration) : Prop where
  members : ∀ (i : Nat) f, c.machine.stack.frames[i]? = some f →
    ∀ name v, (name, v) ∈ f.members.entries → v.number.isFinite = true ∨ exceptional v
  evaluated : ∀ a below, c.activations = a :: below → ∀ st ∈ simpleStatements a.todo,
    ∀ x ∈ st.expressions, ∀ e ∈ x.subterms, ∀ v, e.eval c.machine.stack = .ok v →
      v.number.isFinite = true ∨ exceptional v

theorem FiniteUnless.numbersFinite (h : c.FiniteUnless exceptional) :
    c.NumbersFinite exceptional where
  members := h.stack
  evaluated a below hactivations st hst x hx e he v hv := by
    refine Expr.eval_finiteUnless h.stack (fun w hw => h.todo a ?_ w ?_) hv
    · rw [hactivations]
      exact List.mem_cons_self
    · exact simpleStatements_literals_subset a.todo st hst
        (Statement.expression_literals_subset hx (Expr.literals_subset_of_mem_subterms he hw))

end Configuration

/-- The value is that of a real numeral of the source. -/
def IsNumeralOf (source : List Char) (v : Value) : Prop :=
  ∃ t ∈ tokensOf source, t.kind = .realNumber ∧ v = Parse.realLiteral t.image

theorem IsNumeralOf.kind_eq {source : List Char} {v : Value} (h : IsNumeralOf source v) :
    v.kind = .real := by
  obtain ⟨t, -, -, rfl⟩ := h
  rfl

namespace Program

variable {p : Program} {source : List Char} {file : String} {detailed : Bool}

theorem literals_finiteUnless (hparse : parse source file detailed = .ok p) :
    ∀ v ∈ p.block.literals, v.FiniteUnless (IsNumeralOf source) := by
  intro v hv
  rw [literals_of_parse hparse, literalsOf, List.mem_filterMap] at hv
  obtain ⟨t, ht, hliteral⟩ := hv
  obtain ⟨-, hrange⟩ := (parse_eq_ok_iff (lexes_of_parse hparse)).mp hparse
  unfold Token.literal? at hliteral
  split at hliteral
  next hkind =>
    cases hliteral
    have hproper : t.Proper := ⟨hasImage_of_mem_tokensOf ht, hrange t ht⟩
    exact .inl (Value.isFinite_of_inRange (Parse.integerLiteral_inRange hproper hkind) rfl)
  next hkind =>
    cases hliteral
    exact .inr ⟨t, ht, hkind, rfl⟩
  next => contradiction

/-- In a run of a program that went through analysis, whether it was accepted or not, a number is
finite unless it is that of a real numeral of the source.  So if all of these are finite every number
is, and none is written as null. -/
theorem numbers_finite_unless_numeral_infinite (hparse : parse source file detailed = .ok p)
    (limit : DepthLimit) {c : Configuration} (hc : p.analyze.program.Reaches limit c) :
    c.NumbersFinite (IsNumeralOf source) ∧
      ((∀ t ∈ tokensOf source, t.kind = .realNumber →
          (Parse.realLiteral t.image).number.isFinite = true) →
        c.NumbersFinite (fun _ => False) ∧
          ∀ (i : Nat) f, c.machine.stack.frames[i]? = some f →
            ∀ name v, (name, v) ∈ f.members.entries →
              (Json.number v.number).compact = v.number.text) := by
  have hliterals : ∀ v ∈ p.analyze.program.block.literals, v.FiniteUnless (IsNumeralOf source) := by
    rw [analyze_literals]
    exact literals_finiteUnless hparse
  refine ⟨?_, fun hnumerals => ?_⟩
  · exact (Configuration.finiteUnless_of_reaches (fun _ => IsNumeralOf.kind_eq) hliterals
      hc).numbersFinite
  · have hfinite : ∀ v ∈ p.analyze.program.block.literals, v.FiniteUnless fun _ => False := by
      intro v hv
      rcases hliterals v hv with hfinite | ⟨t, ht, hkind, rfl⟩
      · exact .inl hfinite
      · exact .inl (hnumerals t ht hkind)
    have hnumbers := (Configuration.finiteUnless_of_reaches (fun _ => False.elim) hfinite
      hc).numbersFinite
    refine ⟨hnumbers, ?_⟩
    intro i f hf name v hv
    have hv := (hnumbers.members i f hf name v hv).resolve_right id
    rw [Json.compact, Json.writeNumber, if_pos hv]

/-- Numbers stay finite where a REAL overflows. -/
theorem numbers_finite_up_to_overflow :
    ∃ p, parse "program p; var r : real; begin r := 2.5; r := r / 0.0 end.".toList "p.pas" false =
        .ok p ∧
      (∀ t ∈ tokensOf "program p; var r : real; begin r := 2.5; r := r / 0.0 end.".toList,
        t.kind = .realNumber → (Parse.realLiteral t.image).number.isFinite = true) ∧
      ∃ c, p.analyze.program.Reaches (.ofInt 5) c ∧
        (c.machine.stack.frames[0]?.any fun f => f.members.entries.length = 1) = true ∧
        c.NumbersFinite (fun _ => False) := by
  have hruns : (parse "program p; var r : real; begin r := 2.5; r := r / 0.0 end.".toList "p.pas"
      false).toOption.any (fun p => (p.analyze.program.run (.ofInt 5)).stack.frames[0]?.any
        fun f => f.members.entries.length = 1) = true := by decide +kernel
  have hnumerals : ∀ t ∈ tokensOf "program p; var r : real; begin r := 2.5; r := r / 0.0 end.".toList,
      t.kind = .realNumber → (Parse.realLiteral t.image).number.isFinite = true := by decide +kernel
  obtain ⟨p, hp, hmember⟩ := parse_of_any hruns
  obtain ⟨c, hc, -, hstack, -⟩ := run_reaches p.analyze.program (.ofInt 5)
  rw [hstack] at hmember
  exact ⟨p, hp, hnumerals, c, hc, hmember,
    ((numbers_finite_unless_numeral_infinite hp (.ofInt 5) hc).2 hnumerals).1⟩

/-- A numeral of 310 digits before its point is infinite, and nothing keeps it out of a variable. -/
theorem infinite_numeral_is_stored :
    ∃ p, parse ("program p; var r : real; begin r := 1".toList ++ List.replicate 309 '0' ++
        ".0 end.".toList) "p.pas" false = .ok p ∧
      p.analyze.scopes.isOk = true ∧
      ∃ c, p.analyze.program.Reaches (.ofInt defaultCallDepth) c ∧
        ∃ f, c.machine.stack.frames[0]? = some f ∧
          ("r", ⟨.real, .infinity false⟩) ∈ f.members.entries ∧
          (Json.number (.infinity false)).compact = "null" := by
  have hruns : (parse ("program p; var r : real; begin r := 1".toList ++ List.replicate 309 '0' ++
      ".0 end.".toList) "p.pas" false).toOption.any (fun p => p.analyze.scopes.isOk &&
        (p.analyze.program.run (.ofInt defaultCallDepth)).stack.frames[0]?.any fun f =>
          ("r", ⟨.real, .infinity false⟩) ∈ f.members.entries) = true := by decide +kernel
  obtain ⟨p, hp, hend⟩ := parse_of_any hruns
  obtain ⟨hok, hmember⟩ := Bool.and_eq_true_iff.mp hend
  obtain ⟨c, hc, -, hstack, -⟩ := run_reaches p.analyze.program (.ofInt defaultCallDepth)
  rw [hstack, Option.any_eq_true] at hmember
  obtain ⟨f, hf, hmember⟩ := hmember
  exact ⟨p, hp, hok, c, hc, f, hf, of_decide_eq_true hmember, rfl⟩

end Program

end NestedPascal
