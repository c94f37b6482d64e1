import WellSorted.Findings.Logged
import WellSorted.Source.Layout

/-!
# Symbols, sorts and attributes

Every symbol of a tree has to consist of legal characters and every keyword has to be one. A sort
parameter has to be distinct from the others, to occur in the declaration, and never to be applied.
-/

namespace WellSorted.SyntaxCheck

def symbol (s : Spot) (text : String) : List Finding :=
  if isLegalSymbol text then [] else [(s.node (.word text)).finding (.symbolIllegal text)]

def keyword (s : Spot) (text : String) : List Finding :=
  if isKeyword text then [] else [(s.node (.word text)).finding (.keywordIllegal text)]

/-- Check values at their spots, one after another. -/
def each {α : Type} (check : Spot → α → List Finding) (items : List (Spot × α)) : List Finding :=
  items.flatMap fun (s, a) => check s a

def symbols (items : List (Spot × String)) : List Finding := each symbol items

def index (s : Spot) : Index → List Finding
  | .numeral _ => []
  | .symbol text => symbol s text

def identifier (s : Spot) (i : Identifier) : List Finding :=
  symbol (i.symbolSpot s) i.symbol ++ each index (i.indexSpots s)

mutual

def sort (s : Spot) : SmtSort → List Finding
  | .mk head args => identifier (SmtSort.headSpot (.mk head args) s) head ++ sortsFrom s 1 args

/-- The sorts that start at item `i`. -/
def sortsFrom (s : Spot) (i : Nat) : List SmtSort → List Finding
  | [] => []
  | t :: rest => sort (s.item i) t ++ sortsFrom s (i + 1) rest

end

mutual

def datum (s : Spot) : Datum → List Finding
  | .constant _ => []
  | .symbol text => symbol s text
  | .keyword text => keyword s text
  | .list items => dataFrom s 0 items

/-- The data that start at item `i`. -/
def dataFrom (s : Spot) (i : Nat) : List Datum → List Finding
  | [] => []
  | d :: rest => datum (s.item i) d ++ dataFrom s (i + 1) rest

end

def attributeValue (s : Spot) : AttributeValue → List Finding
  | .constant _ => []
  | .symbol text => symbol s text
  | .list items => dataFrom s 0 items

def oneAttribute (s : Spot) (a : Attribute) : List Finding :=
  keyword s a.keyword ++ (a.value.toList.flatMap (attributeValue s.next))

/-- The attributes that start at item `i`. -/
def attributesFrom (s : Spot) (i : Nat) (as : List Attribute) : List Finding :=
  each oneAttribute (Attribute.spots s i as)

/-- The names that occur again, each once, in the order of their second occurrences; `seen` are the
names before. -/
def repeatedFrom (seen : List String) (reported : List String) : List String → List String
  | [] => []
  | name :: rest =>
    if name ∈ seen ∧ name ∉ reported then name :: repeatedFrom seen (name :: reported) rest
    else repeatedFrom (name :: seen) reported rest

def repeated (names : List String) : List String := repeatedFrom [] [] names

/-- Bound names have to be distinct. -/
def distinctBinders (n : Node) (names : List String) : List Finding :=
  (repeated names).map fun name => n.finding (.binderDuplicated (quoteSymbol name))

mutual

/-- The uses of sort parameters as heads of a sort and of its arguments, with whether they are
applied. -/
def paramUses (params : List String) : SmtSort → List (String × Bool)
  | .mk head args =>
    (if !head.isIndexed && params.contains head.symbol then [(head.symbol, !args.isEmpty)]
      else []) ++ allParamUses params args

def allParamUses (params : List String) : List SmtSort → List (String × Bool)
  | [] => []
  | s :: rest => paramUses params s ++ allParamUses params rest

end

/-- Sort parameters have to be distinct, and to be used in the sorts without arguments. -/
def sortParams (n : Node) (params : List String) (sorts : List SmtSort) : List Finding :=
  let uses := allParamUses params sorts
  let applied := (uses.filter (·.2)).map (·.1)
  let unused := params.filter fun p => !(uses.map (·.1)).contains p
  (repeated params).map (fun p => n.finding (.sortParamDuplicated (quoteSymbol p)))
    ++ applied.map (fun p => n.finding (.sortParamApplied (quoteSymbol p)))
    ++ unused.map (fun p => n.finding (.sortParamUnused (quoteSymbol p)))

def sortedVar (s : Spot) (v : SortedVar) : List Finding :=
  symbol (SortedVar.nameSpot s) v.name ++ sort (SortedVar.sortSpot s) v.sort

/-- The finding of a problem, if there is one. -/
def require (holds : Bool) (n : Node) (p : Problem) : List Finding :=
  if holds then [] else [n.finding p]

end WellSorted.SyntaxCheck
