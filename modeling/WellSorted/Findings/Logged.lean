import WellSorted.Findings.Problem

/-!
# Findings and logged computations

A finding is a problem at a node, possibly with the earlier declaration it conflicts with. A logged
computation gives a value together with the findings made on the way, in order. It also lists the
declarations that a scope turned away without a message.
-/

namespace WellSorted

structure Finding where
  node : Node
  problem : Problem
  previous : Option Declaration

def Finding.message (f : Finding) : String := f.problem.message

def Node.finding (n : Node) (p : Problem) : Finding := ⟨n, p, none⟩

def Node.conflict (n : Node) (p : Problem) (previous : Declaration) : Finding :=
  ⟨n, p, some previous⟩

structure Logged (α : Type) where
  value : α
  findings : List Finding
  dropped : List Declaration

namespace Logged

def pure {α : Type} (a : α) : Logged α := ⟨a, [], []⟩

def bind {α β : Type} (x : Logged α) (f : α → Logged β) : Logged β :=
  let y := f x.value
  ⟨y.value, x.findings ++ y.findings, x.dropped ++ y.dropped⟩

instance : Monad Logged where
  pure := Logged.pure
  bind := Logged.bind

def report (f : Finding) : Logged Unit := ⟨(), [f], []⟩

def reportAll (fs : List Finding) : Logged Unit := ⟨(), fs, []⟩

def drop (d : Declaration) : Logged Unit := ⟨(), [], [d]⟩

@[simp] theorem value_pure {α : Type} (a : α) : (Pure.pure a : Logged α).value = a := rfl

@[simp] theorem findings_pure {α : Type} (a : α) : (Pure.pure a : Logged α).findings = [] := rfl

@[simp] theorem dropped_pure {α : Type} (a : α) : (Pure.pure a : Logged α).dropped = [] := rfl

@[simp] theorem value_bind {α β : Type} (x : Logged α) (f : α → Logged β) :
    (x >>= f).value = (f x.value).value := rfl

@[simp] theorem findings_bind {α β : Type} (x : Logged α) (f : α → Logged β) :
    (x >>= f).findings = x.findings ++ (f x.value).findings := rfl

@[simp] theorem dropped_bind {α β : Type} (x : Logged α) (f : α → Logged β) :
    (x >>= f).dropped = x.dropped ++ (f x.value).dropped := rfl

@[ext] theorem ext {α : Type} {x y : Logged α} (value : x.value = y.value)
    (findings : x.findings = y.findings) (dropped : x.dropped = y.dropped) : x = y := by
  cases x; cases y; simp_all

instance : LawfulMonad Logged := LawfulMonad.mk' Logged
  (fun _ => ext rfl (List.append_nil _) (List.append_nil _))
  (fun _ _ => ext rfl rfl rfl)
  (fun _ _ _ => ext rfl (List.append_assoc _ _ _) (List.append_assoc _ _ _))

end Logged

end WellSorted
