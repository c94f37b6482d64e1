import WellSorted.Symbols.Declaration

/-!
# Scopes

One scope keeps its declarations in the order they were made. Sorts and variables are unique by
name, functions may be overloaded.
-/

namespace WellSorted

structure Scope where
  sorts : List SortDecl
  funs : List FunDecl
  vars : List VarDecl

namespace Scope

def empty : Scope := ⟨[], [], []⟩

def isEmpty (s : Scope) : Bool := s.sorts.isEmpty && s.funs.isEmpty && s.vars.isEmpty

def sort? (s : Scope) (name : String) : Option SortDecl := s.sorts.find? (·.name == name)

/-- The overloads of a name, in the order they were declared. -/
def overloads (s : Scope) (name : String) : List FunDecl := s.funs.filter (·.name == name)

def var? (s : Scope) (name : String) : Option VarDecl := s.vars.find? (·.name == name)

/-- Enter a declaration after the others. -/
def put (s : Scope) : Declaration → Scope
  | .sort d => { s with sorts := s.sorts ++ [d] }
  | .function d => { s with funs := s.funs ++ [d] }
  | .var d => { s with vars := s.vars ++ [d] }

/-- The declaration that keeps another one out of the scope. -/
def taken? (s : Scope) : Declaration → Option Declaration
  | .sort d => (s.sort? d.name).map .sort
  | .function _ => none
  | .var d => (s.var? d.name).map .var

/-- Enter a declaration, unless its name is taken; the one that takes it is the error. -/
def insert (s : Scope) (d : Declaration) : Except Declaration Scope :=
  match s.taken? d with
  | some previous => .error previous
  | none => .ok (s.put d)

end Scope

end WellSorted
