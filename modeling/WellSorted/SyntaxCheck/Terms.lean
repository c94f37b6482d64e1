import WellSorted.SyntaxCheck.Words

/-!
# Terms

Binders bind at least one name, and distinct ones. A match has a case and an annotated term an
attribute. Findings about the shape of a term come before those about its parts.
-/

namespace WellSorted.SyntaxCheck

def qualIdentifier (s : Spot) (q : QualIdentifier) : List Finding :=
  identifier (q.nameSpot s) q.name
    ++ q.ascription.toList.flatMap (sort (QualIdentifier.sortSpot s))

/-- A pattern at `s` in the match `n`. -/
def pattern (n : Node) (s : Spot) (p : Pattern) : List Finding :=
  symbol (p.headSpot s) p.head ++ p.sort?.toList.flatMap (sort (p.sortSpot s))
    ++ match p with
      | .applied ctor _ arguments =>
        require (!arguments.isEmpty) n (.patternWithoutBinder (quoteSymbol ctor))
          ++ distinctBinders n arguments ++ symbols (p.argumentSpots s)
      | _ => []

mutual

def term (s : Spot) : Term → List Finding
  | .constant _ => []
  | .ident name => qualIdentifier s name
  | .app function args => qualIdentifier (s.item 0) function ++ termsFrom s 1 args
  | .letIn bindings body =>
    let n := s.node (.term (.letIn bindings body))
    require (!bindings.isEmpty) n (.bindersMissing "let")
      ++ distinctBinders n (bindings.map (·.1))
      ++ bindingsFrom (s.item 1) 0 bindings ++ term (s.item 2) body
  | .quantified q vars body =>
    let n := s.node (.term (.quantified q vars body))
    require (!vars.isEmpty) n (.bindersMissing q.word)
      ++ distinctBinders n (vars.map (·.name))
      ++ each sortedVar ((s.item 1).along 0 vars) ++ term (s.item 2) body
  | .matching scrutinee arms =>
    let n := s.node (.term (.matching scrutinee arms))
    require (!arms.isEmpty) n .casesMissing ++ term (s.item 1) scrutinee
      ++ armsFrom n (s.item 2) 0 arms
  | .annotated t attributes =>
    require (!attributes.isEmpty) (s.node (.term (.annotated t attributes))) .attributesMissing
      ++ term (s.item 1) t ++ attributesFrom s 2 attributes

/-- The terms that start at item `i`. -/
def termsFrom (s : Spot) (i : Nat) : List Term → List Finding
  | [] => []
  | t :: rest => term (s.item i) t ++ termsFrom s (i + 1) rest

def bindingsFrom (s : Spot) (i : Nat) : List (String × Term) → List Finding
  | [] => []
  | (x, t) :: rest =>
    symbol ((s.item i).item 0) x ++ term ((s.item i).item 1) t ++ bindingsFrom s (i + 1) rest

def armsFrom (n : Node) (s : Spot) (i : Nat) : List (Pattern × Term) → List Finding
  | [] => []
  | (p, t) :: rest =>
    pattern n ((s.item i).item 0) p ++ term ((s.item i).item 1) t ++ armsFrom n s (i + 1) rest

end

end WellSorted.SyntaxCheck
