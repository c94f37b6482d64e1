import WellSorted.Source.Parse
import WellSorted.SyntaxCheck.Commands

/-!
# Theories, logics and roots

A theory or logic has an attribute. `:sorts`, `:funs` and `:theories` are only plain attributes if
their value has the wrong shape; descriptive attributes hold strings.
-/

namespace WellSorted.SyntaxCheck

def theoryStrings : List String :=
  [":sorts-description", ":funs-description", ":definition", ":values", ":notes"]

def logicStrings : List String := [":language", ":extensions", ":values", ":notes"]

def holdsString (n : Node) (a : Attribute) : List Finding :=
  require (a.value.any AttributeValue.isString) n (.attributeString a.keyword)

def sortSymbolDec (s : Spot) (d : SortSymbolDec) : List Finding :=
  identifier (s.item 0) d.name ++ attributesFrom s 2 d.attributes

def funSymbolDec (s : Spot) (d : FunSymbolDec) : List Finding :=
  let n := s.node (.funDec d)
  each oneAttribute (d.attributeSpots s)
    ++ match d with
      | .literal _ _ _ => each sort (d.signatureSpots s)
      | .literals _ _ _ => each sort (d.signatureSpots s)
      | .simple name _ _ _ => identifier (s.item 0) name ++ each sort (d.signatureSpots s)
      | .parametric params name _ _ _ =>
        require (!params.isEmpty) n .sortParamsMissing
          ++ symbols ((s.item 1).along 0 params)
          ++ identifier ((d.bodySpot s).item 0) name
          ++ each sort (d.signatureSpots s)
          ++ sortParams n params d.signature

def theoryAttribute (s : Spot) (a : TheoryAttribute) : List Finding :=
  let n := s.node (.theoryAttribute a)
  match a with
  | .sorts decs => each sortSymbolDec (s.next.along 0 decs)
  | .funs decs => each funSymbolDec (s.next.along 0 decs)
  | .other a =>
    oneAttribute s a
      ++ if a.keyword = ":sorts" then [n.finding (.attributeList a.keyword .sortSymbols)]
        else if a.keyword = ":funs" then [n.finding (.attributeList a.keyword .functionSymbols)]
        else if theoryStrings.contains a.keyword then holdsString n a
        else []

def theory (s : Spot) (t : Theory) : List Finding :=
  symbol (s.item 1) t.name
    ++ require (!t.attributes.isEmpty) (s.node (.theory t))
      (.libraryWithoutAttributes .theory (quoteSymbol t.name))
    ++ each theoryAttribute (t.attributeSpots s)

def logicAttribute (s : Spot) (a : LogicAttribute) : List Finding :=
  let n := s.node (.logicAttribute a)
  match a with
  | .theories names => symbols (s.next.along 0 names)
  | .other a =>
    oneAttribute s a
      ++ if a.keyword = ":theories" then [n.finding (.attributeList a.keyword .theoryNames)]
        else if logicStrings.contains a.keyword then holdsString n a
        else []

def logic (s : Spot) (l : Logic) : List Finding :=
  symbol (s.item 1) l.name
    ++ require (!l.attributes.isEmpty) (s.node (.logic l))
      (.libraryWithoutAttributes .logic (quoteSymbol l.name))
    ++ each logicAttribute (l.attributeSpots s)

/-- All findings of the syntax check in a parsed root. -/
def root (p : Parsed Root) : List Finding :=
  match p.tree with
  | .script commands => script p.source commands
  | .theory t => theory p.spot t
  | .logic l => logic p.spot l

end WellSorted.SyntaxCheck
