import WellSorted.Form.Basic

/-!
# Reading forms

The reader walks the text once. It keeps the lists that are open, innermost first, each with the
offset of its parenthesis and the items that stood before it; the items of the innermost list are
kept apart, newest first. Blanks and comments may stand between any two items and are needed
between none. At each other place the reader tries a token, a list, and the end of what it is in;
it stops where all of them fail, and tells what it tried there.
-/

namespace WellSorted

/-- What the reader tries at a place. -/
inductive Awaited where
  | token
  | opening
  | closing
  | ending
deriving DecidableEq, Repr

def Awaited.text : Awaited → String
  | token => "token"
  | opening => "\"(\""
  | closing => "\")\""
  | ending => "EOF"

/-- Where reading stopped, and what was tried there. -/
structure Unreadable where
  offset : Nat
  expected : List Awaited
deriving DecidableEq, Repr

namespace Form

def isBlank (c : Char) : Bool := c == ' ' || c == '\t' || c == '\n' || c == '\r'

/-- How reading goes on with a text: the end of the text is the end of reading, and otherwise its
first character is taken with some `more` after it. -/
inductive Step : List Char → Type
  | done (forms : List Form) : Step []
  | take {c : Char} {cs : List Char} (opened : List (Nat × List Form)) (items : List Form)
      (more : Nat) : Step (c :: cs)

/-- A step, or what was tried in vain. -/
abbrev Attempt (text : List Char) := Except (List Awaited) (Step text)

/-- The first of two attempts that succeeds. -/
def Attempt.or {text : List Char} (x y : Attempt text) : Attempt text :=
  match x, y with
  | .ok step, _ => .ok step
  | .error _, .ok step => .ok step
  | .error tried, .error tried' => .error (tried ++ tried')

theorem Attempt.or_eq_ok {text : List Char} {x y : Attempt text} {step : Step text} :
    x.or y = .ok step ↔ x = .ok step ∨ (∃ tried, x = .error tried) ∧ y = .ok step := by
  cases x <;> cases y <;> simp [Attempt.or]

theorem Attempt.or_eq_error {text : List Char} {x y : Attempt text} {tried : List Awaited} :
    x.or y = .error tried ↔
      ∃ first second, x = .error first ∧ y = .error second ∧ tried = first ++ second := by
  cases x <;> cases y <;> simp [Attempt.or, eq_comm]

section

variable (opened : List (Nat × List Form)) (items : List Form) (offset : Nat)

def tryToken : (text : List Char) → Attempt text
  | [] => .error [.token]
  | c :: cs =>
    match Token.scan (c :: cs) with
    | none => .error [.token]
    | some (token, n) =>
      let stop := offset + Text.byteLength ((c :: cs).take n)
      .ok (.take opened (.atom ⟨offset, stop⟩ token :: items) (n - 1))

def tryOpening : (text : List Char) → Attempt text
  | [] => .error [.opening]
  | c :: _ => if c = '(' then .ok (.take ((offset, items) :: opened) [] 0) else .error [.opening]

/-- Try the end of the innermost list, or of the text if no list is open. -/
def tryEnd (text : List Char) : Attempt text :=
  match opened, text with
  | [], [] => .ok (.done items.reverse)
  | [], _ :: _ => .error [.ending]
  | _ :: _, [] => .error [.closing]
  | (start, before) :: outer, c :: _ =>
    if c = ')' then .ok (.take outer (.list ⟨start, offset + 1⟩ items.reverse :: before) 0)
    else .error [.closing]

def tryItem (text : List Char) : Attempt text :=
  ((tryToken opened items offset text).or (tryOpening opened items offset text)).or
    (tryEnd opened items offset text)

end

/-- Read on at `offset`, after passing over the next `skip` characters. -/
def readFrom (opened : List (Nat × List Form)) (items : List Form) (offset : Nat) (skip : Nat) :
    List Char → Except Unreadable (List Form)
  | [] =>
    match tryItem opened items offset [] with
    | .error expected => .error ⟨offset, expected⟩
    | .ok (.done forms) => .ok forms
  | c :: cs =>
    let next := offset + c.utf8Size
    match skip with
    | skip + 1 => readFrom opened items next skip cs
    | 0 =>
      if isBlank c then readFrom opened items next 0 cs
      else if c = ';' then readFrom opened items next (cs.takeWhile (· != '\n')).length cs
      else
        match tryItem opened items offset (c :: cs) with
        | .error expected => .error ⟨offset, expected⟩
        | .ok (.take opened items more) => readFrom opened items next more cs

/-- All forms of a text. -/
def read (text : List Char) : Except Unreadable (List Form) := readFrom [] [] 0 0 text

end Form

end WellSorted
