import WellSorted.Lexical.Decimal
import WellSorted.Lexical.Symbol

/-!
# Tokens

`Token.scan` reads the token at the front of a text and says how many characters it takes. A
numeral or a decimal is only a token if no symbol character follows; symbols and keywords take as
many symbol characters as there are. `Token.lexeme` is the way a token is written.
-/

namespace WellSorted

inductive Token where
  | numeral (n : Nat)
  | decimal (d : Decimal)
  | hexadecimal (digits : String)
  | binary (digits : String)
  | string (s : String)
  | symbol (s : String)
  /-- The text starts with the colon. -/
  | keyword (s : String)
deriving DecidableEq

namespace Token

def lexeme : Token → List Char
  | numeral n => Nat.toDigits 10 n
  | decimal d => d.chars
  | hexadecimal digits => '#' :: 'x' :: digits.toList
  | binary digits => '#' :: 'b' :: digits.toList
  | string s => (quoteString s).toList
  | symbol s => (quoteSymbol s).toList
  | keyword s => s.toList

def isHexDigit (c : Char) : Bool :=
  c.isDigit || ('a' ≤ c && c ≤ 'f') || ('A' ≤ c && c ≤ 'F')

def isBinaryDigit (c : Char) : Bool := c == '0' || c == '1'

def decimalValue (digits : List Char) : Nat :=
  digits.foldl (fun n c => 10 * n + (c.toNat - '0'.toNat)) 0

/-- The digits of the numeral at the front: a zero alone, or digits without a leading zero. -/
def wholePart : List Char → List Char
  | '0' :: _ => ['0']
  | cs => cs.takeWhile Char.isDigit

def continuesSymbol : List Char → Bool
  | [] => false
  | c :: _ => isSymbolChar c

def scanNumber (cs : List Char) : Option (Token × Nat) :=
  let whole := wholePart cs
  match cs.drop whole.length with
  | '.' :: rest =>
    let fraction := rest.takeWhile Char.isDigit
    if fraction.isEmpty || continuesSymbol (rest.drop fraction.length) then none
    else
      some (.decimal (.reduce (decimalValue (whole ++ fraction)) fraction.length),
        whole.length + 1 + fraction.length)
  | rest =>
    if continuesSymbol rest then none
    else some (.numeral (decimalValue whole), whole.length)

/-- The content of a string literal after its opening quote, and how many characters it takes
with its closing quote. -/
def scanString : List Char → Option (List Char × Nat)
  | [] => none
  | '"' :: '"' :: cs => (scanString cs).map fun (s, n) => ('"' :: s, n + 2)
  | '"' :: _ => some ([], 1)
  | c :: cs => (scanString cs).map fun (s, n) => (c :: s, n + 1)

/-- A literal after `#`. -/
def scanHash : List Char → Option (Token × Nat)
  | 'x' :: cs =>
    let digits := cs.takeWhile isHexDigit
    if digits.isEmpty then none
    else some (.hexadecimal (String.ofList digits), digits.length + 2)
  | 'b' :: cs =>
    let digits := cs.takeWhile isBinaryDigit
    if digits.isEmpty then none
    else some (.binary (String.ofList digits), digits.length + 2)
  | _ => none

/-- A symbol after its opening bar. -/
def scanQuoted (cs : List Char) : Option (Token × Nat) :=
  let body := cs.takeWhile (· != '|')
  if body.length < cs.length then some (.symbol (String.ofList body), body.length + 2) else none

/-- A keyword after its colon. -/
def scanKeyword (cs : List Char) : Option (Token × Nat) :=
  let body := cs.takeWhile isSymbolChar
  if body.isEmpty then none else some (.keyword (String.ofList (':' :: body)), body.length + 1)

/-- The token at the front of a text and the number of its characters. -/
def scan : List Char → Option (Token × Nat)
  | [] => none
  | c :: cs =>
    if c.isDigit then scanNumber (c :: cs)
    else if c = '#' then scanHash cs
    else if c = '"' then
      (scanString cs).map fun (s, n) => (.string (String.ofList s), n + 1)
    else if c = ':' then scanKeyword cs
    else if c = '|' then scanQuoted cs
    else
      let body := (c :: cs).takeWhile isSymbolChar
      if body.isEmpty then none else some (.symbol (String.ofList body), body.length)

end Token

end WellSorted
