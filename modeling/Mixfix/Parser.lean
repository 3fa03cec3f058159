import Mixfix.Proofs.Size

/-!
# Parsers

A parser goes from section to section with a count of the sections that it is in. It counts a section before it looks
at it, checks the count against the limit of the depth, and takes the section off the count again when it leaves it,
be it with a tree or with an error (`Descent.into`). What it parses is the same as what `Grammar.parse` gives, and no
list that it has parsed or failed to parse before makes a difference.
-/

namespace Mixfix

/-! ## Descents -/

/-- What a parser does: a result, and the count of the sections that it is in afterwards, whatever the result is. -/
abbrev Descent (β : Type) := ExceptT ExprError (StateM Int) β

namespace Descent

variable {β γ : Type}

/-- Goes into a section and out of it again: the section counts while it is looked at, and is off the count afterwards,
even if an error comes out of it. -/
def into (check : Int → Except ExprError Unit) (body : Descent β) : Descent β := do
  modify (· + 1)
  try
    match check (← get) with
    | .ok _ => body
    | .error e => throw e
  finally
    modify (· - 1)

/-- Goes through a list from left to right. -/
def inTurn : (xs : List γ) → ((x : γ) → x ∈ xs → Descent β) → Descent (List β)
  | [], _ => return []
  | x :: xs, visit => do
    let y ← visit x List.mem_cons_self
    let ys ← inTurn xs fun x' hx' => visit x' (List.mem_cons_of_mem x hx')
    return y :: ys

end Descent

/-! ## Parsers -/

/-- A parser of the lists of a source. -/
structure Parser (α : Type) where
  grammar : Grammar α
  /-- The groups of the operators, as they were when the parser was made. -/
  groups : List (Group α)
  source : Text
  /-- The count of the sections that the parser is in. -/
  depth : Int

namespace Parser

variable {α : Type} (p : Parser α)

/-- A parser that has parsed nothing yet. -/
def fresh (g : Grammar α) (source : Text) : Parser α := ⟨g, g.operators.groups.1, source, 0⟩

/-- The tree of a section and of the sections below it. -/
def visit (l : TokenList) : Descent (Tree α) :=
  .into (fun depth => p.grammar.limits.check .treeDepth depth (some l.position) (some p.source)) do
    match _hread : p.grammar.read p.source p.groups l with
    | .error e => throw e
    | .ok (.brackets inner) => visit inner
    | .ok (.reference name) => return .reference l.position name
    | .ok (.number value) => return .number l.position value
    | .ok (.call name args) =>
      let trees ← Descent.inTurn args fun arg _harg => do
        if arg.isEmpty then
          throw (Grammar.errorAt p.source arg.offset (.emptyArgument name l.text))
        visit arg
      return .call l.position name trees
    | .ok (.operation position operator operands) =>
      let trees ← Descent.inTurn operands fun operand _hoperand => visit operand
      return .operation position operator trees
termination_by l.size
decreasing_by
  · exact Grammar.size_lt_of_read _hread _ List.mem_cons_self
  · exact Grammar.size_lt_of_read _hread _ _harg
  · exact Grammar.size_lt_of_read _hread _ _hoperand

/-- The tree of a list that covers the whole source. -/
def visitWhole (l : TokenList) : Descent (Tree α) := do
  let tree ← p.visit l
  match p.grammar.limits.check .treeNodes tree.nodeCount (some l.position) (some p.source) with
  | .ok _ => return tree
  | .error e => throw e

/-- Parses a list that covers the whole source. Afterwards the parser has the count that it is left with. -/
def parse (l : TokenList) : Except ExprError (Tree α) × Parser α :=
  let (result, depth) := (p.visitWhole l).run.run p.depth
  (result, { p with depth })

end Parser

end Mixfix
