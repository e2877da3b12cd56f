import NestedPascal.Tree.Basic

/-!
# The procedures of a block

The procedures declared in a block, those inside others included: how many there are, and the paths
that lead to them.
-/

namespace NestedPascal

mutual

/-- The number of procedures declared in a block, those inside others included. -/
def Block.procedureCount : Block → Nat
  | .mk _ declarations _ _ => procedureCount declarations

def procedureCount : List Declaration → Nat
  | [] => 0
  | .variable _ :: rest => procedureCount rest
  | .procedure _ _ _ block :: rest => 1 + block.procedureCount + procedureCount rest

end

mutual

/-- The paths to the procedures declared in a block, in the order of their headings. -/
def Block.procedurePaths : Block → List DeclarationPath
  | .mk _ declarations _ _ => procedurePathsFrom 0 declarations

def procedurePathsFrom (place : Nat) : List Declaration → List DeclarationPath
  | [] => []
  | .variable _ :: rest => procedurePathsFrom (place + 1) rest
  | .procedure _ _ _ block :: rest =>
    ([] :: block.procedurePaths).map (place :: ·) ++ procedurePathsFrom (place + 1) rest

end

mutual

theorem Block.length_procedurePaths :
    (block : Block) → block.procedurePaths.length = block.procedureCount
  | .mk _ declarations _ _ => by
    rw [Block.procedurePaths, Block.procedureCount]
    exact length_procedurePathsFrom 0 declarations

theorem length_procedurePathsFrom (place : Nat) :
    (declarations : List Declaration) →
      (procedurePathsFrom place declarations).length = procedureCount declarations
  | [] => rfl
  | .variable _ :: rest => length_procedurePathsFrom (place + 1) rest
  | .procedure _ _ _ block :: rest => by
    simp only [procedurePathsFrom, procedureCount, List.length_append, List.length_map,
      List.length_cons, block.length_procedurePaths, length_procedurePathsFrom (place + 1) rest]
    omega

end

theorem mem_procedurePathsFrom {declarations : List Declaration} {i place : Nat} {span : Span}
    {name : String} {params : List TypedName} {block : Block} {path : DeclarationPath}
    (hi : declarations[i]? = some (.procedure span name params block))
    (hpath : path ∈ [] :: block.procedurePaths) :
    (place + i) :: path ∈ procedurePathsFrom place declarations := by
  induction declarations generalizing i place with
  | nil => simp at hi
  | cons d rest ih =>
      cases i with
      | zero =>
          simp only [List.getElem?_cons_zero, Option.some.injEq] at hi
          subst d
          exact List.mem_append_left _ (List.mem_map_of_mem hpath)
      | succ i =>
          have hrest : (place + 1 + i) :: path ∈ procedurePathsFrom (place + 1) rest := ih hi
          rw [Nat.add_right_comm] at hrest
          cases d with
          | «variable» v => exact hrest
          | procedure => exact List.mem_append_right _ hrest

theorem exists_of_mem_procedurePathsFrom {declarations : List Declaration} {place : Nat}
    {path : DeclarationPath} (hpath : path ∈ procedurePathsFrom place declarations) :
    ∃ i span name params block inner,
      declarations[i]? = some (.procedure span name params block) ∧
        inner ∈ [] :: block.procedurePaths ∧ path = (place + i) :: inner := by
  induction declarations generalizing place with
  | nil => simp [procedurePathsFrom] at hpath
  | cons d rest ih =>
      have hlater (h : path ∈ procedurePathsFrom (place + 1) rest) :
          ∃ i span name params block inner,
            (d :: rest)[i]? = some (.procedure span name params block) ∧
              inner ∈ [] :: block.procedurePaths ∧ path = (place + i) :: inner := by
        obtain ⟨i, span, name, params, block, inner, hi, hinner, rfl⟩ := ih h
        refine ⟨i + 1, span, name, params, block, inner, hi, hinner, ?_⟩
        rw [Nat.add_right_comm, Nat.add_assoc]
      cases d with
      | «variable» v => exact hlater hpath
      | procedure span name params block =>
          rw [procedurePathsFrom, List.mem_append] at hpath
          rcases hpath with hfirst | hrest
          · obtain ⟨inner, hinner, rfl⟩ := List.mem_map.mp hfirst
            exact ⟨0, span, name, params, block, inner, rfl, hinner, rfl⟩
          · exact hlater hrest

mutual

/-- In the order of the headings what encloses comes before what is inside it, and what is declared
first before what is declared later. -/
theorem Block.procedurePaths_pairwise :
    (block : Block) → ([] :: block.procedurePaths).Pairwise (· < ·)
  | .mk _ declarations _ _ => by
    refine List.pairwise_cons.mpr ⟨?_, procedurePathsFrom_pairwise 0 declarations⟩
    intro path hpath
    obtain ⟨i, -, -, -, -, inner, -, -, rfl⟩ := exists_of_mem_procedurePathsFrom hpath
    exact List.nil_lt_cons _ _

theorem procedurePathsFrom_pairwise (place : Nat) :
    (declarations : List Declaration) →
      (procedurePathsFrom place declarations).Pairwise (· < ·)
  | [] => .nil
  | .variable _ :: rest => procedurePathsFrom_pairwise (place + 1) rest
  | .procedure _ _ _ block :: rest => by
    refine List.pairwise_append.mpr ⟨?_, procedurePathsFrom_pairwise (place + 1) rest, ?_⟩
    · refine List.pairwise_map.mpr (block.procedurePaths_pairwise.imp ?_)
      intro path path' hlt
      exact List.cons_lt_cons_iff.mpr (.inr ⟨rfl, hlt⟩)
    · intro path hpath path' hpath'
      obtain ⟨inner, -, rfl⟩ := List.mem_map.mp hpath
      obtain ⟨i, -, -, -, -, inner', -, -, rfl⟩ := exists_of_mem_procedurePathsFrom hpath'
      exact List.cons_lt_cons_iff.mpr (.inl (by omega))

end

end NestedPascal
