import Mica.Source.Token

/-! # Lexemes

A source text as its tokens, each with the number of characters before it. Blanks and comments
separate tokens and are left out.

Two things depend on where in a program a token stands. Where only a class can follow, the word that
opens a class needs no blank after it, and likewise for methods inside a class. And the word that
opens the second branch of a choice is one only directly after a closing brace; anywhere else it
reads like a name.
-/
namespace Mica

structure Lexeme where
  token : Token
  offset : Nat
deriving DecidableEq, Repr

/-- The part of a program that the next token belongs to. Inside a method, `depth` counts the
brackets that are open. -/
inductive Region where
  | top
  | header
  | members
  | body (depth : Nat)
deriving DecidableEq, Repr

namespace Region

def after (region : Region) (token : Token) : Region :=
  match region, token with
  | top, .word "class" => header
  | header, .openBrace => members
  | members, .word "def" => body 0
  | members, .closeBrace => top
  | body depth, .openBrace | body depth, .openParen => body (depth + 1)
  | body depth, .closeBrace | body depth, .closeParen => body (depth - 1)
  | body 0, .semicolon => members
  | region, _ => region

/-- The word that is recognised in a region even when a name would go on. -/
def opener : Region → Option String
  | top => some "class"
  | members => some "def"
  | _ => none

/-- The token at the front of a text that stands in a region, possibly right after a block. -/
def token? (region : Region) (afterBlock : Bool) (cs : List Char) : Option Token :=
  match region.opener.filter fun word => word.toList.isPrefixOf cs with
  | some word => some (.word word)
  | none =>
    match Token.longest? cs with
    | some (.word "else") => some (if afterBlock then .otherwise else .word "else")
    | found => found

end Region

/-- The characters between tokens. -/
def isLayout (c : Char) : Bool :=
  c == ' ' || c == '\t' || c == '\n' || c == '\r' || c == '\x0c'

def startsComment : List Char → Bool
  | '/' :: '/' :: _ => true
  | _ => false

/-- The tokens of a text, up to the first character at which no token starts. -/
structure Lexing where
  lexemes : List Lexeme
  stuck : Option (Char × Nat)
deriving DecidableEq, Repr

namespace Lexing

def cons (lexeme : Lexeme) (lexing : Lexing) : Lexing :=
  ⟨lexeme :: lexing.lexemes, lexing.stuck⟩

/-- Reads a text of which `offset` characters went before. The first `skip` characters belong to a
token or comment that has been dealt with. -/
def scan (region : Region) (afterBlock : Bool) (offset skip : Nat) : List Char → Lexing
  | [] => ⟨[], none⟩
  | c :: cs =>
    match skip with
    | skip + 1 => scan region afterBlock (offset + 1) skip cs
    | 0 =>
      if isLayout c then scan region afterBlock (offset + 1) 0 cs
      else if startsComment (c :: cs) then
        scan region afterBlock (offset + 1) (cs.takeWhile (· ≠ '\n')).length cs
      else
        match region.token? afterBlock (c :: cs) with
        | none => ⟨[], some (c, offset)⟩
        | some token =>
          (scan (region.after token) (token == .closeBrace) (offset + 1) (token.width - 1) cs).cons
            ⟨token, offset⟩

def ofProgram (source : String) : Lexing := scan .top false 0 0 source.toList

def ofExpr (source : String) : Lexing := scan (.body 0) false 0 0 source.toList

end Lexing

end Mica
