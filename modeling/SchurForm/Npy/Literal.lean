import SchurForm.Decimal.Style
import SchurForm.Decimal.Reader

/-!
# Literals in array headers

The header of an array file is a literal of a small data language: texts, numbers, truth values, and
tuples, lists, sets and dictionaries of literals. A comma may follow the last element. Reading
answers a value with the text behind it, or the text at which it had to stop.
-/

namespace SchurForm

namespace Npy

/-- A value of the header language. -/
inductive Literal where
  | nothing
  | truth (value : Bool)
  | whole (value : Int)
  | real (value : Float)
  | text (value : List Char)
  | tuple (items : List Literal)
  | list (items : List Literal)
  | set (items : List Literal)
  | dictionary (entries : List (Literal × Literal))
  deriving Inhabited

namespace Literal

/-- A character inside single quotes. -/
def escaped (c : Char) : List Char :=
  if c = '\'' then ['\\', '\'']
  else if c = '\\' then ['\\', '\\']
  else if c = '\n' then ['\\', 'n']
  else if c = '\r' then ['\\', 'r']
  else if c = '\t' then ['\\', 't']
  else [c]

mutual

/-- A literal as it is written in messages. -/
def render : Literal → List Char
  | nothing => "None".toList
  | truth true => "True".toList
  | truth false => "False".toList
  | whole n => (toString n).toList
  | real x => (Decimal.Style.scientific.write x).toList
  | text cs => '\'' :: cs.flatMap escaped ++ ['\'']
  | tuple [] => ['(', ')']
  | tuple [item] => '(' :: item.render ++ [',', ')']
  | tuple items => '(' :: renderItems items ++ [')']
  | list items => '[' :: renderItems items ++ [']']
  | set items => '\x7b' :: renderItems items ++ ['\x7d']
  | dictionary entries => '\x7b' :: renderEntries entries ++ ['\x7d']

/-- Literals with commas between them. -/
def renderItems : List Literal → List Char
  | [] => []
  | [item] => item.render
  | item :: more => item.render ++ ',' :: ' ' :: renderItems more

/-- The entries of a dictionary with commas between them. -/
def renderEntries : List (Literal × Literal) → List Char
  | [] => []
  | [(key, value)] => key.render ++ ':' :: ' ' :: value.render
  | (key, value) :: more =>
    key.render ++ ':' :: ' ' :: value.render ++ ',' :: ' ' :: renderEntries more

end

/-- Blanks between the parts of a literal. -/
def skipBlanks (cs : List Char) : List Char :=
  cs.dropWhile fun c => c == ' ' || c == '\t' || c == '\n' || c == '\r' || c == '\x0c'

/-- The characters up to the closing quote. -/
def readQuoted (quote : Char) : List Char → Except (List Char) (List Char × List Char)
  | [] => .error []
  | '\\' :: c :: rest => do
    let plain ←
      match c with
      | '\\' => .ok '\\'
      | '\'' => .ok '\''
      | '"' => .ok '"'
      | 'n' => .ok '\n'
      | 'r' => .ok '\r'
      | 't' => .ok '\t'
      | _ => .error ('\\' :: c :: rest)
    let (cs, rest) ← readQuoted quote rest
    return (plain :: cs, rest)
  | c :: rest =>
    if c = quote then .ok ([], rest)
    else if c = '\n' then .error (c :: rest)
    else do
      let (cs, rest) ← readQuoted quote rest
      return (c :: cs, rest)

/-- A character of a number, the sign of an exponent included. -/
def isNumeric (c : Char) : Bool :=
  c.isDigit || c == '.' || c == 'e' || c == 'E' || c == '+' || c == '-'

/-- A whole number, or a real one if there is a point or an exponent. -/
def readNumber (cs : List Char) : Except (List Char) (Literal × List Char) :=
  let word := cs.takeWhile isNumeric
  let rest := cs.dropWhile isNumeric
  let signed := Decimal.splitSign word
  if signed.2 ≠ [] ∧ signed.2.all Char.isDigit then
    let n := Int.ofNat (Decimal.ofDigits signed.2)
    .ok (whole (if signed.1 then -n else n), rest)
  else
    match Decimal.readUnsigned signed.2 with
    | some d => .ok (real (Decimal.toFloat signed.1 d), rest)
    | none => .error cs

/-- A word of the language in front of a text. -/
def readWord : List Char → Except (List Char) (Literal × List Char)
  | 'T' :: 'r' :: 'u' :: 'e' :: rest => .ok (truth true, rest)
  | 'F' :: 'a' :: 'l' :: 's' :: 'e' :: rest => .ok (truth false, rest)
  | 'N' :: 'o' :: 'n' :: 'e' :: rest => .ok (nothing, rest)
  | cs => .error cs

/-- Elements up to a closing bracket, with commas between them and maybe behind them. The flag tells
whether a comma stands behind the last one. -/
def readItems {β : Type} (item : List Char → Except (List Char) (β × List Char)) (close : Char) :
    Nat → List Char → Except (List Char) ((List β × Bool) × List Char)
  | 0, cs => .error cs
  | fuel + 1, cs =>
    match skipBlanks cs with
    | [] => .error []
    | c :: rest =>
      if c = close then .ok (([], true), rest)
      else do
        let (first, behind) ← item (c :: rest)
        match skipBlanks behind with
        | ',' :: rest => do
          let ((items, comma), rest) ← readItems item close fuel rest
          return ((first :: items, comma), rest)
        | d :: rest => if d = close then .ok (([first], false), rest) else .error (d :: rest)
        | [] => .error []

/-- An element of a set, or the key and the value of a dictionary. -/
def readEntry (value : List Char → Except (List Char) (Literal × List Char)) (cs : List Char) :
    Except (List Char) ((Literal × Option Literal) × List Char) := do
  let (key, rest) ← value cs
  match skipBlanks rest with
  | ':' :: rest => do
    let (v, rest) ← value (skipBlanks rest)
    return ((key, some v), rest)
  | _ => return ((key, none), rest)

/-- What stands in braces: entries throughout, or elements throughout. -/
def ofBraces (entries : List (Literal × Option Literal)) : Option Literal :=
  match entries.mapM fun e => e.2.map fun v => (e.1, v) with
  | some entries => some (dictionary entries)
  | none => if entries.all fun e => e.2.isNone then some (set (entries.map Prod.fst)) else none

/-- A single element in parentheses is a tuple only with a comma behind it. -/
def ofParentheses : List Literal × Bool → Literal
  | ([item], false) => item
  | (items, _) => tuple items

/-- A literal at the start of a text. Every level of nesting uses up fuel. -/
def readValue : Nat → List Char → Except (List Char) (Literal × List Char)
  | 0, cs => .error cs
  | _, [] => .error []
  | fuel + 1, '(' :: rest => do
    let (items, behind) ← readItems (readValue fuel) ')' rest.length rest
    return (ofParentheses items, behind)
  | fuel + 1, '[' :: rest => do
    let (items, behind) ← readItems (readValue fuel) ']' rest.length rest
    return (list items.1, behind)
  | fuel + 1, '\x7b' :: rest => do
    let (entries, behind) ← readItems (readEntry (readValue fuel)) '\x7d' rest.length rest
    match ofBraces entries.1 with
    | some value => return (value, behind)
    | none => .error rest
  | _, c :: rest =>
    if c = '\'' ∨ c = '"' then do
      let (cs, behind) ← readQuoted c rest
      return (text cs, behind)
    else if c.isDigit ∨ c = '.' ∨ c = '-' ∨ c = '+' then readNumber (c :: rest)
    else readWord (c :: rest)

/-- The literal that a whole text is, or the number of characters in front of the first one that
does not fit. -/
def ofText (cs : List Char) : Except Nat Literal :=
  match readValue cs.length (skipBlanks cs) with
  | .error rest => .error (cs.length - rest.length)
  | .ok (value, rest) =>
    match skipBlanks rest with
    | [] => .ok value
    | behind => .error (cs.length - behind.length)

end Literal

end Npy

end SchurForm
