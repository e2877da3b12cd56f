import NestedPascal.Proofs.Scope.Visibility
import NestedPascal.Run.Execute

/-!
# Lexical environments

What programs mean without frames: an activation of a block gives each of its parameters and
variables a fresh location, an environment is the activations of the blocks around a place, and a
procedure is a closure, its declaration with the environment of the activation that declares it.  A
symbol that a reference was resolved to stands for its declaration, and is looked for as such, by
what it is and not by where it should be.
-/

namespace NestedPascal

/-- Values by location; a location that holds none is unassigned. -/
structure Store where
  cells : List (Option Value)

namespace Store

def empty : Store := ⟨[]⟩

def read? (store : Store) (location : Nat) : Option Value :=
  store.cells[location]?.join

def write (store : Store) (location : Nat) (value : Value) : Store :=
  ⟨store.cells.set location (some value)⟩

def allocate (store : Store) (count : Nat) : Store :=
  ⟨store.cells ++ List.replicate count none⟩

end Store

/-- One activation of a block: where its parameters and variables are, and what it declares. -/
structure Instance where
  slots : List (VariableSymbol × Nat)
  procedures : List ProcedureSymbol

/-- The activations of the blocks around a place, innermost first. -/
abbrev Environment := List Instance

structure Closure where
  declaration : DeclarationPath
  environment : Environment

def Instance.location? (inst : Instance) (v : VariableSymbol) : Option Nat :=
  (inst.slots.find? (·.1 = v)).map (·.2)

namespace Environment

def location? (env : Environment) (v : VariableSymbol) : Option Nat :=
  env.findSome? (·.location? v)

def closure? : Environment → ProcedureSymbol → Option Closure
  | [], _ => none
  | inst :: outer, q =>
    if q ∈ inst.procedures then some ⟨q.declaration, inst :: outer⟩ else closure? outer q

end Environment

/-- The activation of a scope whose locations start at a place. -/
def LexicalScope.instanceAt (s : LexicalScope) (base : Nat) : Instance :=
  ⟨s.locals.zipIdx base, s.procedures⟩

/-- Activates a scope with fresh locations. -/
def LexicalScope.activate (s : LexicalScope) (store : Store) : Instance × Store :=
  (s.instanceAt store.cells.length, store.allocate s.locals.length)

/-! ## Evaluation -/

/-- The declaration that a reference was resolved to, and where it is. -/
def VariableRef.locationIn (env : Environment) (r : VariableRef) :
    Except EvaluationError (VariableSymbol × Nat) :=
  match r.symbol with
  | none => .error ⟨.unresolvedVariable r.name, r.span⟩
  | some v =>
    match env.location? v with
    | none => .error ⟨.unresolvedVariable r.name, r.span⟩
    | some location => .ok (v, location)

def VariableRef.valueIn (env : Environment) (store : Store) (r : VariableRef) :
    Except EvaluationError Value := do
  let (_, location) ← r.locationIn env
  match store.read? location with
  | some value => .ok value
  | none => .error ⟨.unassigned r.name, r.span⟩

def Expr.valueIn (env : Environment) (store : Store) : Expr → Except EvaluationError Value
  | .literal _ value => .ok value
  | .variable r => r.valueIn env store
  | .unary span sign operand => do
    let v ← operand.valueIn env store
    located span (sign.apply v)
  | .binary span op left right => do
    let l ← left.valueIn env store
    let r ← right.valueIn env store
    located span (op.apply l r)

def valuesIn (env : Environment) (store : Store) :
    List Expr → Except EvaluationError (List Value)
  | [] => .ok []
  | e :: rest => do
    let value ← e.valueIn env store
    let values ← valuesIn env store rest
    .ok (value :: values)

/-! ## Execution -/

def Instance.bind (inst : Instance) (store : Store) : List VariableSymbol → List Value → Store
  | param :: params, value :: values =>
    let bound := match inst.location? param with
      | some location => store.write location (value.widen param.kind)
      | none => store
    inst.bind bound params values
  | _, _ => store

mutual

/-- What a statement does to the store, given what calls do. -/
def Statement.interpret (onCall : Environment → Call → Store → Except EvaluationError Store)
    (env : Environment) : Statement → Store → Except EvaluationError Store
  | .compound _ children, store => interpretAll onCall env children store
  | .assignment _ target value, store => do
    let v ← value.valueIn env store
    let (symbol, location) ← target.locationIn env
    .ok (store.write location (v.widen symbol.kind))
  | .call c, store => onCall env c store

def interpretAll (onCall : Environment → Call → Store → Except EvaluationError Store)
    (env : Environment) : List Statement → Store → Except EvaluationError Store
  | [], store => .ok store
  | s :: rest, store => do
    let store ← s.interpret onCall env store
    interpretAll onCall env rest store

end

/-- What a call does to the store when so many calls may still be nested.  The arguments are evaluated
where the call stands, the body runs in the environment of the closure. -/
def Call.interpret (p : Program) (limit : DepthLimit) :
    Nat → Environment → Call → Store → Except EvaluationError Store
  | allowed, env, c, store =>
    match c.symbol with
    | none => .error ⟨.unresolvedCall c.name, c.span⟩
    | some q =>
      match allowed with
      | 0 => .error ⟨.depthLimit limit c.name q.name, c.span⟩
      | allowed + 1 =>
        match env.closure? q with
        | none => .error ⟨.unresolvedCall c.name, c.span⟩
        | some closure =>
          match p.scope? closure.declaration with
          | none => .error ⟨.unresolvedCall c.name, c.span⟩
          | some s => do
            let values ← valuesIn env store c.args
            let (inst, fresh) := s.activate store
            interpretAll (Call.interpret p limit allowed) (inst :: closure.environment) s.block.body
              (inst.bind fresh s.parameters values)

/-- What a program means: where its variables are, and the store in the end. -/
def Program.interpret (p : Program) (limit : DepthLimit) :
    Except EvaluationError (Instance × Store) := do
  let (globals, fresh) := p.globalScope.activate .empty
  let store ← interpretAll (Call.interpret p limit limit.calls) [globals] p.block.body fresh
  .ok (globals, store)

end NestedPascal
