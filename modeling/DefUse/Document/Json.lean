import DefUse.Document.Basic
import DefUse.Text.Hex

/-!
# Documents as indented text

**Results.** `Doc.Json.render` writes a document with two blanks a level, one item a line.
-/

namespace DefUse
namespace Doc
namespace Json

/-- The controls that are written by a letter. -/
def shortEscapes : List (Char × Char) :=
  [('"', '"'), ('\\', '\\'), (Char.ofNat 0x08, 'b'), (Char.ofNat 0x0c, 'f'), ('\n', 'n'),
    ('\r', 'r'), ('\t', 't')]

/-- The printable characters that are written by their number, because documents may end up in a
page of markup or in a script. -/
def guarded : List Char := ['<', '>', '&', Char.ofNat 0x2028, Char.ofNat 0x2029]

def escapeChar (c : Char) : List Char :=
  match shortEscapes.lookup c with
  | some letter => ['\\', letter]
  | none =>
    if c.toNat < 0x20 || guarded.contains c then '\\' :: 'u' :: Text.hexDigits 4 c.toNat
    else [c]

def quoted (s : String) : List Char :=
  '"' :: (s.toList.flatMap escapeChar ++ ['"'])

def newline (level : Nat) : List Char := '\n' :: List.replicate (2 * level) ' '

mutual

def renderAt (level : Nat) : Doc → List Char
  | .null => "null".toList
  | .flag b => (if b then "true" else "false").toList
  | .int n => (toString n).toList
  | .text s => quoted s
  | .other => "null".toList
  | .list [] => "[]".toList
  | .list (doc :: rest) =>
    '[' :: (newline (level + 1) ++ renderAt (level + 1) doc ++ renderItems (level + 1) rest ++
      newline level ++ [']'])
  | .record [] => "\x7b\x7d".toList
  | .record ((key, doc) :: rest) =>
    '\x7b' :: (newline (level + 1) ++ quoted key ++ ": ".toList ++ renderAt (level + 1) doc ++
      renderFields (level + 1) rest ++ newline level ++ ['\x7d'])

def renderItems (level : Nat) : List Doc → List Char
  | [] => []
  | doc :: rest => ',' :: (newline level ++ renderAt level doc ++ renderItems level rest)

def renderFields (level : Nat) : List (String × Doc) → List Char
  | [] => []
  | (key, doc) :: rest =>
    ',' :: (newline level ++ quoted key ++ ": ".toList ++ renderAt level doc ++
      renderFields level rest)

end

/-- A document as text that ends in a new line. -/
def render (doc : Doc) : String := String.ofList (renderAt 0 doc ++ ['\n'])

end Json
end Doc
end DefUse
