/-!
# Symbols, keywords and their quoting

A simple symbol is a non-empty run of symbol characters that does not start with a digit. Any
other symbol, and every reserved word used as a symbol, is written between bars. Inside a string a
double quote is written twice.
-/

namespace WellSorted

def symbolMarks : List Char :=
  ['~', '!', '@', '$', '%', '^', '&', '*', '_', '-', '+', '=', '<', '>', '.', '?', '/']

def isSymbolChar (c : Char) : Bool := c.isAlphanum || symbolMarks.contains c

def isSimpleSymbol (s : String) : Bool :=
  match s.toList with
  | [] => false
  | c :: cs => !c.isDigit && (c :: cs).all isSymbolChar

def isKeyword (s : String) : Bool :=
  match s.toList with
  | ':' :: c :: cs => (c :: cs).all isSymbolChar
  | _ => false

/-- Words that a symbol can only spell between bars. -/
def reservedWords : List String :=
  ["!", "_", "as", "BINARY", "DECIMAL", "exists", "forall", "HEXADECIMAL", "let", "match",
    "NUMERAL", "par", "STRING"]

/-- How a symbol is written, which is also the key it is declared under. -/
def quoteSymbol (s : String) : String :=
  if isSimpleSymbol s && !reservedWords.contains s then s else "|" ++ s ++ "|"

/-- The characters of a string literal between its outer quotes. -/
def escapeQuotes : List Char → List Char
  | [] => []
  | c :: cs => if c = '"' then '"' :: '"' :: escapeQuotes cs else c :: escapeQuotes cs

def quoteString (s : String) : String :=
  String.ofList ('"' :: escapeQuotes s.toList ++ ['"'])

/-- What a symbol may contain: printable characters, white space and everything beyond ASCII,
but neither a backslash nor a bar. -/
def isLegalChar (c : Char) : Bool :=
  ((32 ≤ c.toNat && c.toNat ≤ 126) || 128 ≤ c.toNat
    || ['\t', '\n', '\x0c', '\r'].contains c) && c != '\\' && c != '|'

def isLegalSymbol (s : String) : Bool := s.toList.all isLegalChar

end WellSorted
