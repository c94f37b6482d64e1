import WellSorted.Build.Fault
import WellSorted.Symbols.Declaration

/-!
# Problems

What the checks can find, and the message for each. Names are given in their written form.
-/

namespace WellSorted

/-- The kind of value that a predefined option takes. -/
inductive OptionKind where
  | string
  | numeral
  | truthValue
deriving DecidableEq, Repr

def OptionKind.description : OptionKind → String
  | string => "a string"
  | numeral => "a numeral"
  | truthValue => "'true' or 'false'"

/-- The things that an attribute lists. -/
inductive Listing where
  | sortSymbols
  | functionSymbols
  | theoryNames
deriving DecidableEq, Repr

def Listing.description : Listing → String
  | sortSymbols => "sort symbol declarations"
  | functionSymbols => "function symbol declarations"
  | theoryNames => "theory names"

inductive Problem where
  -- sorts
  | sortUnknown (name : String)
  | sortArity (name : String) (expected actual : Nat)
  | sortExists (name : String)
  -- terms
  | functionExists (name : String)
  | functionUnknown (name : String) (args : List SmtSort) (result : Option SmtSort)
  | functionAmbiguous (name : String) (args results : List SmtSort)
  | constructorUnknown (name : String) (binders : Nat) (sort : SmtSort)
  | constructorAmbiguous (name : String) (binders : Nat) (sort : SmtSort)
  | literalUnknown (kind : String)
  | literalAmbiguous (kind : String) (sorts : List SmtSort)
  | constantUnknown (name : String)
  | constantAmbiguous (name : String) (sorts : List SmtSort)
  | constantSort (name : String) (expected : SmtSort) (sorts : List SmtSort)
  | quantifiedSort (body : Term) (actual : SmtSort)
  | patternSort (sort : SmtSort) (pattern : Pattern)
  | casesDiffer (sorts : List SmtSort)
  -- commands
  | bodySort (name : String) (expected actual : SmtSort)
  | bodyIllSorted (name : String)
  | assertionIllSorted
  | assertionSort (actual : SmtSort)
  | termIllSorted
  | termSort (actual : SmtSort)
  | cannotPop (levels : Nat)
  | cannotPush (levels : Nat)
  | logicAlreadySet (current : String)
  -- theories and logics
  | leftAndRightAssoc (name : String)
  | assocArity (side : Assoc) (name : String)
  | assocResult (side : Assoc) (name : String)
  | chainableAndPairwise (name : String)
  | chainArity (chain : Chain) (name : String)
  | chainArguments (chain : Chain) (name : String)
  | chainResult (chain : Chain) (name : String)
  | literalExists (name : String)
  | literalClassExists (name : String)
  | libraryUnknown (what : Library) (name : String)
  | libraryUnloadable (what : Library) (name : String)
  | libraryAlreadyLoaded (what : Library) (name : String)
  -- syntax
  | symbolIllegal (symbol : String)
  | keywordIllegal (keyword : String)
  | binderDuplicated (name : String)
  | bindersMissing (binder : String)
  | sortParamDuplicated (name : String)
  | sortParamUnused (name : String)
  | sortParamApplied (name : String)
  | sortParamsMissing
  | constructorsMissing
  | datatypeCount (sorts datatypes : Nat)
  | datatypeArity (name : String) (arity params : Nat)
  | functionsMissing
  | bodyCount (functions bodies : Nat)
  | echoMissing
  | valuesMissing
  | optionValue (option : String) (kind : OptionKind)
  | casesMissing
  | attributesMissing
  | patternWithoutBinder (constructor : String)
  | attributeList (keyword : String) (what : Listing)
  | attributeString (keyword : String)
  | libraryWithoutAttributes (what : Library) (name : String)
  /-- A message in words of its own. -/
  | remark (text : String)

namespace Problem

/-- Sorts in a message. -/
def listing (sorts : List SmtSort) : String := ", ".intercalate (sorts.map SmtSort.render)

def libraryTitle : Library → String
  | .theory => "Theory"
  | .logic => "Logic"

def sideTitle : Assoc → String
  | .left => "first"
  | .right => "second"

def message : Problem → String
  | sortUnknown name => "Unknown sort '" ++ name ++ "'"
  | sortArity name expected actual =>
    "Sort '" ++ name ++ "' expects " ++ toString expected ++ " argument(s), but got "
      ++ toString actual
  | sortExists name => "Sort symbol '" ++ name ++ "' already exists"
  | functionExists name =>
    "Function symbol '" ++ name ++ "' already exists with the same signature"
  | functionUnknown name args none =>
    "No declarations for function symbol '" ++ name ++ "' with argument sorts ("
      ++ listing args ++ ")"
  | functionUnknown name args (some result) =>
    "No declarations for function symbol '" ++ name ++ "' with argument sorts ("
      ++ listing args ++ ") and return sort " ++ result.render
  | functionAmbiguous name args results =>
    "Multiple declarations for function symbol '" ++ name ++ "' with argument sorts ("
      ++ listing args ++ "); possible return sorts: " ++ listing results
  | constructorUnknown name binders sort =>
    "No constructor '" ++ name ++ "' with " ++ toString binders ++ " argument(s) for sort "
      ++ sort.render
  | constructorAmbiguous name binders sort =>
    "Multiple constructors '" ++ name ++ "' with " ++ toString binders
      ++ " argument(s) for sort " ++ sort.render
  | literalUnknown kind => "No sort declared for literals of kind " ++ kind
  | literalAmbiguous kind sorts =>
    "Multiple sorts declared for literals of kind " ++ kind ++ ": " ++ listing sorts
  | constantUnknown name => "Unknown constant or variable '" ++ name ++ "'"
  | constantAmbiguous name sorts =>
    "Constant '" ++ name ++ "' has multiple possible sorts: " ++ listing sorts
  | constantSort name expected sorts =>
    "Constant '" ++ name ++ "' cannot have sort " ++ expected.render ++ "; possible sorts: "
      ++ listing sorts
  | quantifiedSort body actual =>
    "The quantified term '" ++ body.render ++ "' has sort " ++ actual.render
      ++ " instead of Bool"
  | patternSort sort pattern =>
    "Pattern '" ++ pattern.render ++ "' cannot match a term of sort " ++ sort.render
  | casesDiffer sorts => "The cases of the match have different sorts: " ++ listing sorts
  | bodySort name expected actual =>
    "The body of '" ++ name ++ "' has sort " ++ actual.render ++ ", but the declared sort is "
      ++ expected.render
  | bodyIllSorted name => "The body of '" ++ name ++ "' is not well-sorted"
  | assertionIllSorted => "Asserted term is not well-sorted"
  | assertionSort actual => "Asserted term has sort " ++ actual.render ++ " instead of Bool"
  | termIllSorted => "Term is not well-sorted"
  | termSort actual => "Term has sort " ++ actual.render ++ " instead of Bool"
  | cannotPop levels => "Cannot pop " ++ toString levels ++ " level(s) from the stack"
  | cannotPush levels => "Cannot push " ++ toString levels ++ " level(s) onto the stack"
  | logicAlreadySet current => "Logic already set to '" ++ current ++ "'"
  | leftAndRightAssoc name =>
    "Function '" ++ name ++ "' cannot be both left- and right-associative"
  | assocArity side name =>
    "Function '" ++ name ++ "' is " ++ side.name
      ++ "-associative, but it does not take exactly 2 arguments"
  | assocResult side name =>
    "Function '" ++ name ++ "' is " ++ side.name ++ "-associative, but its " ++ sideTitle side
      ++ " argument sort differs from its return sort"
  | chainableAndPairwise name =>
    "Function '" ++ name ++ "' cannot be both chainable and pairwise"
  | chainArity chain name =>
    "Function '" ++ name ++ "' is " ++ chain.name
      ++ ", but it does not take exactly 2 arguments"
  | chainArguments chain name =>
    "Function '" ++ name ++ "' is " ++ chain.name ++ ", but its argument sorts differ"
  | chainResult chain name =>
    "Function '" ++ name ++ "' is " ++ chain.name ++ ", but its return sort is not Bool"
  | literalExists name => "Specification constant '" ++ name ++ "' already exists"
  | literalClassExists name => "A sort for " ++ name ++ " literals was already declared"
  | libraryUnknown what name => "Unknown " ++ what.name ++ " '" ++ name ++ "'"
  | libraryUnloadable what name => libraryTitle what ++ " '" ++ name ++ "' could not be loaded"
  | libraryAlreadyLoaded .theory name => "Theory '" ++ name ++ "' was already loaded"
  | libraryAlreadyLoaded .logic name => "Logic '" ++ name ++ "' is already being loaded"
  | symbolIllegal symbol =>
    "Symbol '" ++ symbol ++ "' may only contain printable characters and white spaces, but not "
      ++ "`\\` or `|`"
  | keywordIllegal keyword => "Invalid keyword '" ++ keyword ++ "'"
  | binderDuplicated name => "Duplicated bound symbol '" ++ name ++ "'"
  | bindersMissing binder => "'" ++ binder ++ "' expects at least one binding"
  | sortParamDuplicated name => "Duplicated sort parameter '" ++ name ++ "'"
  | sortParamUnused name => "Unused sort parameter '" ++ name ++ "'"
  | sortParamApplied name => "Sort parameter '" ++ name ++ "' cannot be applied to arguments"
  | sortParamsMissing => "Empty sort parameter list"
  | constructorsMissing => "A datatype needs at least one constructor"
  | datatypeCount sorts datatypes =>
    toString sorts ++ " sort(s) are declared, but " ++ toString datatypes
      ++ " datatype(s) are defined"
  | datatypeArity name arity params =>
    "Sort '" ++ name ++ "' is declared with arity " ++ toString arity
      ++ ", but its datatype has " ++ toString params ++ " parameter(s)"
  | functionsMissing => "At least one function must be defined"
  | bodyCount functions bodies =>
    toString functions ++ " function(s) are declared, but " ++ toString bodies
      ++ " bodies are given"
  | echoMissing => "'echo' expects a non-empty string"
  | valuesMissing => "'get-value' expects at least one term"
  | optionValue option kind => "Option '" ++ option ++ "' expects " ++ kind.description
  | casesMissing => "'match' expects at least one case"
  | attributesMissing => "An annotated term expects at least one attribute"
  | patternWithoutBinder constructor => "Pattern of '" ++ constructor ++ "' binds no symbol"
  | attributeList keyword what =>
    "Attribute '" ++ keyword ++ "' expects a non-empty list of " ++ what.description
  | attributeString keyword => "Attribute '" ++ keyword ++ "' expects a string"
  | libraryWithoutAttributes what name =>
    libraryTitle what ++ " '" ++ name ++ "' has no attributes"
  | remark text => text

end Problem

end WellSorted
