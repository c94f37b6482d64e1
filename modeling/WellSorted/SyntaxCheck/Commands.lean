import WellSorted.SyntaxCheck.Terms

/-!
# Commands

Declarations have to agree in number and arity, datatypes have a constructor, and predefined
options take values of their kind.
-/

namespace WellSorted.SyntaxCheck

def stringOptions : List String := [":diagnostic-output-channel", ":regular-output-channel"]

def numeralOptions : List String :=
  [":random-seed", ":verbosity", ":reproducible-resource-limit"]

def truthValueOptions : List String :=
  [":expand-definitions", ":global-declarations", ":interactive-mode", ":print-success",
    ":produce-assertions", ":produce-assignments", ":produce-models", ":produce-proofs",
    ":produce-unsat-assumptions", ":produce-unsat-cores"]

def optionKind? (keyword : String) : Option OptionKind :=
  if stringOptions.contains keyword then some .string
  else if numeralOptions.contains keyword then some .numeral
  else if truthValueOptions.contains keyword then some .truthValue
  else none

/-- Whether a value is of the kind that an option takes. -/
def hasKind (value : Option AttributeValue) : OptionKind → Bool
  | .string => value.any AttributeValue.isString
  | .numeral => value.any AttributeValue.isNumeral
  | .truthValue => value.any AttributeValue.isTruthValue

def optionValue (n : Node) (a : Attribute) : List Finding :=
  match optionKind? a.keyword with
  | some kind => require (hasKind a.value kind) n (.optionValue a.keyword kind)
  | none => []

def constructorDec (s : Spot) (c : ConstructorDec) : List Finding :=
  symbol (s.item 0) c.name ++ each sortedVar (c.selectorSpots s)

/-- A datatype at `s` in the command `n`. -/
def datatype (n : Node) (s : Spot) (d : DatatypeDec) : List Finding :=
  require (d.binder != some []) n .sortParamsMissing
    ++ require (!d.constructors.isEmpty) n .constructorsMissing
    ++ symbols (d.paramSpots s)
    ++ each constructorDec (d.constructorSpots s)
    ++ match d.binder with
      | some params =>
        sortParams n params (d.constructors.flatMap fun c => c.selectors.map (·.sort))
      | none => []

/-- A function declaration that starts at item `i` of `s`. -/
def functionDec (s : Spot) (i : Nat) (d : FunctionDec) : List Finding :=
  symbol (s.item i) d.name ++ each sortedVar (d.varSpots s i) ++ sort (s.item (i + 2)) d.result

def datatypeArities (n : Node) (sorts : List SortDec) (decs : List DatatypeDec) :
    List Finding :=
  (sorts.zip decs).flatMap fun (d, dec) =>
    require (d.arity == dec.params.length) n
      (.datatypeArity (quoteSymbol d.name) d.arity dec.params.length)

def command (s : Spot) (c : Command) : List Finding :=
  let n := s.node (.command c)
  match c with
  | .assert t => term (s.item 1) t
  | .checkSatAssuming ts => termsFrom (s.item 1) 0 ts
  | .declareConst name t => symbol (s.item 1) name ++ sort (s.item 2) t
  | .declareDatatype name dec => symbol (s.item 1) name ++ datatype n (s.item 2) dec
  | .declareDatatypes sorts decs =>
    require (sorts.length == decs.length) n (.datatypeCount sorts.length decs.length)
      ++ datatypeArities n sorts decs
      ++ each (fun s d => symbol (s.item 0) d.name) ((s.item 1).along 0 sorts)
      ++ each (datatype n) ((s.item 2).along 0 decs)
  | .declareFun name args result =>
    symbol (s.item 1) name ++ sortsFrom (s.item 2) 0 args ++ sort (s.item 3) result
  | .declareSort name _ => symbol (s.item 1) name
  | .defineConst name t body =>
    symbol (s.item 1) name ++ sort (s.item 2) t ++ term (s.item 3) body
  | .defineFun dec body => functionDec s 1 dec ++ term (s.item 4) body
  | .defineFunRec dec body => functionDec s 1 dec ++ term (s.item 4) body
  | .defineFunsRec decs bodies =>
    (if decs.isEmpty then [n.finding .functionsMissing]
      else require (decs.length == bodies.length) n (.bodyCount decs.length bodies.length))
      ++ each (fun s d => functionDec s 0 d) ((s.item 1).along 0 decs)
      ++ termsFrom (s.item 2) 0 bodies
  | .defineSort name params t =>
    symbol (s.item 1) name ++ symbols ((s.item 2).along 0 params) ++ sort (s.item 3) t
      ++ sortParams n params [t]
  | .echo text => require (!text.isEmpty) n .echoMissing
  | .getInfo kw => keyword (s.item 1) kw
  | .getOption kw => keyword (s.item 1) kw
  | .getValue ts => require (!ts.isEmpty) n .valuesMissing ++ termsFrom (s.item 1) 0 ts
  | .setInfo a => oneAttribute (s.item 1) a
  | .setLogic name => symbol (s.item 1) name
  | .setOption a => oneAttribute (s.item 1) a ++ optionValue n a
  | .pop _ => []
  | .push _ => []
  | .reset => []
  | .plain _ => []

def script (source : Source) (commands : List Command) : List Finding :=
  each command ((Spot.top source).along 0 commands)

end WellSorted.SyntaxCheck
