import WellSorted.Check.Datatypes
import WellSorted.Check.Definitions
import WellSorted.Check.Loading

/-!
# Commands

What each command does to the context. Findings are reported at the command; checking goes on with
the next one.
-/

namespace WellSorted.Check

/-- Check that the term at `s` is a formula. -/
def formula (G : Stack) (n : Node) (illSorted : Problem) (wrongSort : SmtSort → Problem)
    (s : Spot) (t : Term) : Logged Unit := do
  match ← infer G s t with
  | none => Logged.report (n.finding illSorted)
  | some sort =>
    if sort.isBool then return () else Logged.report (n.finding (wrongSort sort))

/-- Check that the term at `s` has a sort. -/
def sorted (G : Stack) (n : Node) (s : Spot) (t : Term) : Logged Unit := do
  match ← infer G s t with
  | none => Logged.report (n.finding .termIllSorted)
  | some _ => return ()

/-- The terms that start at the first item of `s`, one after another. -/
def eachTerm (check : Spot → Term → Logged Unit) (s : Spot) (ts : List Term) : Logged Unit :=
  (s.along 0 ts).forM fun (s, t) => check s t

def defineSort (G : Stack) (n : Node) (name : String) (params : List String) (sort : SmtSort) :
    Logged Stack := do
  let params := params.map quoteSymbol
  Logged.reportAll (G.checkSort params n sort)
  G.declareSort (.aliasOf (quoteSymbol name) params (G.resolve params sort) n)

/-- The number of scopes that a single command cannot enter. -/
def pushLimit : Nat := 0x10000000000000000

def push (G : Stack) (n : Node) (levels : Nat) : Logged Stack :=
  if levels < pushLimit then pure (G.pushMany levels)
  else do
    Logged.report (n.finding (.cannotPush levels))
    return G

def pop (G : Stack) (n : Node) (levels : Nat) : Logged Stack :=
  match G.pop? levels with
  | some G' => pure G'
  | none => do
    Logged.report (n.finding (.cannotPop levels))
    return G

/-- What a command at `s` does to the declarations. Commands that are not listed leave them
alone; those that concern more than the declarations are in `command`. -/
def declarations (s : Spot) (c : Command) (G : Stack) : Logged Stack :=
  let n := s.node (.command c)
  match c with
  | .assert t => do
    formula G n .assertionIllSorted .assertionSort (s.item 1) t
    return G
  | .checkSatAssuming ts => do
    eachTerm (formula G n .termIllSorted .termSort) (s.item 1) ts
    return G
  | .getValue ts => do
    eachTerm (sorted G n) (s.item 1) ts
    return G
  | .declareConst name sort => declareFun G n name [] sort
  | .declareFun name args result => declareFun G n name args result
  | .declareSort name arity => declareSort n G ⟨name, arity⟩
  | .declareDatatype name dec => declareDatatypes G n [⟨name, dec.params.length⟩] [dec]
  | .declareDatatypes sorts decs => declareDatatypes G n sorts decs
  | .defineConst name sort t => defineFun G n false ⟨name, [], sort⟩ [] (s.item 3) t
  | .defineFun dec t => defineFun G n false dec (dec.varSpots s 1) (s.item 4) t
  | .defineFunRec dec t => defineFun G n true dec (dec.varSpots s 1) (s.item 4) t
  | .defineFunsRec decs ts =>
    defineFunsRec G n ((s.item 1).along 0 decs) ((s.item 2).along 0 ts)
  | .defineSort name params sort => defineSort G n name params sort
  | .push levels => push G n levels
  | .pop levels => pop G n levels
  | _ => pure G

/-- Set the logic, once. -/
def setLogic (setup : Setup) (n : Node) (name : String) (ctx : Context) : Logged Context :=
  match ctx.logic with
  | some current => do
    Logged.report (n.finding (.logicAlreadySet current))
    return ctx
  | none =>
    let name := quoteSymbol name
    loadLogic setup n name { ctx with logic := some name }

/-- Run the command at `s`. -/
def command (setup : Setup) (ctx : Context) (s : Spot) (c : Command) : Logged Context :=
  let n := s.node (.command c)
  match c with
  | .reset => loadCore setup n ctx.reset
  | .setLogic name => setLogic setup n name ctx
  | c => ctx.onStack (declarations s c)

/-- Run the commands of a script. -/
def script (setup : Setup) (ctx : Context) (source : Source) (cs : List Command) :
    Logged Context :=
  ((Spot.top source).along 0 cs).foldlM (fun ctx (s, c) => command setup ctx s c) ctx

/-- Whether a root is the core theory itself, which is not loaded before it is checked. -/
def isCore : Root → Bool
  | .theory t => t.name == coreName
  | _ => false

/-- Check a root. -/
def root (setup : Setup) (ctx : Context) (p : Parsed Root) : Logged Context := do
  let ctx ←
    if isCore p.tree then pure ctx else loadCore setup (p.tree.node p.source) ctx
  match p.tree with
  | .script cs => script setup ctx p.source cs
  | .theory t => ctx.onStack (theory · p.spot t)
  | .logic l => logic setup ctx p.spot l

end WellSorted.Check
