import WellSorted.Source.Node

/-!
# Where the parts of a tree stand

For each construct, the items of its form that its parts were built from.
-/

namespace WellSorted

/-- The symbol of an identifier at `s`. -/
def Identifier.symbolSpot (i : Identifier) (s : Spot) : Spot :=
  if i.isIndexed then s.item 1 else s

def Identifier.indexSpots (i : Identifier) (s : Spot) : List (Spot × Index) :=
  s.along 2 i.indices

/-- The identifier that a sort at `s` starts with. -/
def SmtSort.headSpot (sort : SmtSort) (s : Spot) : Spot :=
  if sort.args.isEmpty then s else s.item 0

def QualIdentifier.nameSpot (q : QualIdentifier) (s : Spot) : Spot :=
  if q.ascription.isSome then s.item 1 else s

/-- The sort of an ascription at `s`. -/
def QualIdentifier.sortSpot (s : Spot) : Spot := s.item 2

namespace Pattern

def headSpot (s : Spot) : Pattern → Spot
  | symbol _ => s
  | qualified _ _ => s.item 1
  | applied _ none _ => s.item 0
  | applied _ (some _) _ => (s.item 0).item 1

def sortSpot (s : Spot) : Pattern → Spot
  | applied _ _ _ => (s.item 0).item 2
  | _ => s.item 2

def argumentSpots (p : Pattern) (s : Spot) : List (Spot × String) := s.along 1 p.arguments

end Pattern

def SortedVar.nameSpot (s : Spot) : Spot := s.item 0

def SortedVar.sortSpot (s : Spot) : Spot := s.item 1

namespace DatatypeDec

def paramSpots (d : DatatypeDec) (s : Spot) : List (Spot × String) := (s.item 1).along 0 d.params

def constructorSpots (d : DatatypeDec) (s : Spot) : List (Spot × ConstructorDec) :=
  (if d.binder.isSome then s.item 2 else s).along 0 d.constructors

end DatatypeDec

def ConstructorDec.selectorSpots (c : ConstructorDec) (s : Spot) : List (Spot × SortedVar) :=
  s.along 1 c.selectors

namespace FunctionDec

/-- The variables of a function whose declaration starts at item `i` of `s`. -/
def varSpots (d : FunctionDec) (s : Spot) (i : Nat) : List (Spot × SortedVar) :=
  (s.item (i + 1)).along 0 d.vars

end FunctionDec

/-- The attributes that start at item `i` of `s`, each at its keyword. -/
def Attribute.spots (s : Spot) (i : Nat) (as : List Attribute) : List (Spot × Attribute) :=
  s.spread Attribute.width i as

namespace FunSymbolDec

/-- The list of a declaration that holds its name, signature and attributes. -/
def bodySpot (s : Spot) : FunSymbolDec → Spot
  | parametric _ _ _ _ _ => s.item 2
  | _ => s

/-- The sorts of the signature, the result last. -/
def signature : FunSymbolDec → List SmtSort
  | literal _ sort _ => [sort]
  | literals _ sort _ => [sort]
  | simple _ args result _ => args ++ [result]
  | parametric _ _ args result _ => args ++ [result]

def signatureSpots (d : FunSymbolDec) (s : Spot) : List (Spot × SmtSort) :=
  (d.bodySpot s).along 1 d.signature

def attributeSpots (d : FunSymbolDec) (s : Spot) : List (Spot × Attribute) :=
  Attribute.spots (d.bodySpot s) (1 + d.signature.length) d.attributes

end FunSymbolDec

def Theory.attributeSpots (t : Theory) (s : Spot) : List (Spot × TheoryAttribute) :=
  s.spread TheoryAttribute.width 2 t.attributes

def Logic.attributeSpots (l : Logic) (s : Spot) : List (Spot × LogicAttribute) :=
  s.spread LogicAttribute.width 2 l.attributes

end WellSorted
