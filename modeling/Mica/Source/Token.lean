/-! # Tokens

The smallest pieces of a source text. A token is recognised at the front of a list of characters,
and as much of the text as possible goes into it.
-/
namespace Mica

inductive Token where
  | word (name : String)
  | otherwise
  | number (lexeme : String)
  | text (body : String)
  | openBrace
  | closeBrace
  | openParen
  | closeParen
  | semicolon
  | equals
deriving DecidableEq, Repr

namespace Token

/-- The source text of a token. -/
def lexeme : Token → String
  | word name => name
  | otherwise => "else"
  | number lexeme => lexeme
  | text body => "\"" ++ body ++ "\""
  | openBrace => "\x7b"
  | closeBrace => "\x7d"
  | openParen => "("
  | closeParen => ")"
  | semicolon => ";"
  | equals => "="

def width (token : Token) : Nat := token.lexeme.length

def isNameStart (c : Char) : Bool := c.isAlpha || c == '_'

def isNamePart (c : Char) : Bool := c.isAlphanum || c == '_'

def isDigitPart (c : Char) : Bool := c.isDigit || c == '_'

/-- The characters of a string literal up to its closing quotation mark, when there is one. An
escaped character never closes the literal, and no literal goes past the end of a line. -/
def literalBody : List Char → Option (List Char)
  | [] => none
  | '"' :: _ => some []
  | '\n' :: _ => none
  | '\\' :: c :: cs => if c = '\n' then none else (literalBody cs).map fun body => '\\' :: c :: body
  | c :: cs => (literalBody cs).map (c :: ·)

/-- The longest token at the front of a text. -/
def longest? : List Char → Option Token
  | [] => none
  | '\x7b' :: _ => some openBrace
  | '\x7d' :: _ => some closeBrace
  | '(' :: _ => some openParen
  | ')' :: _ => some closeParen
  | ';' :: _ => some semicolon
  | '=' :: _ => some equals
  | '"' :: cs => (literalBody cs).map fun body => text (String.ofList body)
  | c :: cs =>
    if isNameStart c then some (word (String.ofList (c :: cs.takeWhile isNamePart)))
    else if c.isDigit then some (number (String.ofList (c :: cs.takeWhile isDigitPart)))
    else if c = '+' ∨ c = '-' then
      match cs with
      | d :: ds =>
        if d.isDigit then some (number (String.ofList (c :: d :: ds.takeWhile isDigitPart)))
        else none
      | [] => none
    else none

end Token

/-- The words that cannot be used as names. -/
def keywords : List String := ["class", "def", "true", "false", "if", "else", "let", "in"]

end Mica
