import WellSorted.Check.Theories
import WellSorted.Environment.Context
import WellSorted.SyntaxCheck.Roots

/-!
# Loading theories and logics

A theory or logic is read from its file, its syntax is checked, and it is entered if nothing was
found. A load that cannot be carried out is reported at the node that asks for it. A logic loads
the theories it names, each one once; a theory loads nothing, so that loads are never nested more
than twice.
-/

namespace WellSorted

def Context.onStack (ctx : Context) (f : Stack → Logged Stack) : Logged Context := do
  let G ← f ctx.stack
  return { ctx with stack := G }

namespace Check

/-- How libraries of one kind are taken from their files and entered. -/
structure Loader (α : Type) where
  what : Library
  select? : Root → Option α
  syntaxCheck : Spot → α → List Finding
  enter : Context → Spot → α → Logged Context

/-- Read and parse a library, or say why that is impossible. -/
def Loader.fetch {α : Type} (l : Loader α) (setup : Setup) (serial : Nat) (name : String) :
    Except Problem (Parsed α) :=
  let path := setup.config.path l.what name
  match setup.files path with
  | .text text =>
    match parseRoot ⟨some path, serial⟩ text with
    | .error _ => .error (.libraryUnloadable l.what name)
    | .ok p =>
      match l.select? p.tree with
      | some a => .ok ⟨p.source, a⟩
      | none => .error (.libraryUnloadable l.what name)
  | content =>
    .error (if content.isFile then .libraryUnloadable l.what name else .libraryUnknown l.what name)

/-- Enter a library that was fetched, unless its syntax is wrong. -/
def Loader.checked {α : Type} (l : Loader α) (n : Node) (name : String) (p : Parsed α)
    (ctx : Context) : Logged Context :=
  match l.syntaxCheck p.spot p.tree with
  | [] => l.enter ctx p.spot p.tree
  | findings => do
    Logged.reportAll findings
    Logged.report (n.finding (.libraryUnloadable l.what name))
    return ctx

/-- Load a library at the request of a node. -/
def Loader.load {α : Type} (l : Loader α) (setup : Setup) (n : Node) (name : String)
    (ctx : Context) : Logged Context :=
  if (l.what, name) ∈ ctx.loading then do
    Logged.report (n.finding (.libraryAlreadyLoaded l.what name))
    return ctx
  else
    match l.fetch setup ctx.nextSerial name with
    | .error problem => do
      Logged.report (n.finding problem)
      return ctx
    | .ok p => do
      let ctx ← l.checked n name p (ctx.startLoad l.what name)
      return ctx.endLoad l.what name

/-! ### Theories -/

def theoryLoader : Loader Theory where
  what := .theory
  select?
    | .theory t => some t
    | _ => none
  syntaxCheck := SyntaxCheck.theory
  enter ctx s t := ctx.onStack (theory · s t)

def loadTheory (setup : Setup) (n : Node) (name : String) (ctx : Context) : Logged Context :=
  theoryLoader.load setup n name ctx

/-- The name of the core theory. -/
def coreName : String := "Core"

/-- Load the core theory, if it is enabled and was not loaded yet. -/
def loadCore (setup : Setup) (n : Node) (ctx : Context) : Logged Context :=
  if setup.config.coreEnabled && !ctx.coreLoaded then
    loadTheory setup n coreName { ctx with coreLoaded := true }
  else pure ctx

/-! ### Logics -/

/-- Load a theory that a logic names. -/
def namedTheory (setup : Setup) (n : Node) (ctx : Context) (name : String) : Logged Context :=
  let name := quoteSymbol name
  let named := { ctx with theories := ctx.theories ++ [name] }
  if name ∈ ctx.theories then do
    Logged.report (n.finding (.libraryAlreadyLoaded .theory name))
    return ctx
  else if name = coreName ∧ ctx.coreLoaded then pure named
  else loadTheory setup n name named

def logicAttribute (setup : Setup) (ctx : Context) (item : Spot × LogicAttribute) :
    Logged Context :=
  let (s, a) := item
  match a with
  | .theories names => names.foldlM (namedTheory setup (s.node (.logicAttribute a))) ctx
  | .other _ => pure ctx

/-- Load the theories of the logic at `s`. -/
def logic (setup : Setup) (ctx : Context) (s : Spot) (l : Logic) : Logged Context :=
  (l.attributeSpots s).foldlM (logicAttribute setup) ctx

def logicLoader (setup : Setup) : Loader Logic where
  what := .logic
  select?
    | .logic l => some l
    | _ => none
  syntaxCheck := SyntaxCheck.logic
  enter := logic setup

def loadLogic (setup : Setup) (n : Node) (name : String) (ctx : Context) : Logged Context :=
  (logicLoader setup).load setup n name ctx

end Check

end WellSorted
