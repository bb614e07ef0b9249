import Mica.Expr
import Mica.Source.Escape
import Mica.Source.Phrase

/-! # Parsing

From source texts to programs and expressions. A text is first read as phrases in full. Then the
phrases are checked, operands before the names they belong to and from left to right: numerals have
to fit, escapes have to decode, and names must not be keywords. The first fault found is the answer.

Texts are taken to be sequences of Unicode scalar values: a surrogate on its own is no character of one.
-/
namespace Mica

def digitLimit : Nat := 4300

/-- What checking can find: a fault and where it lies, or a numeral too long to be looked at. -/
inductive Flaw where
  | fault (found : SourceFault) (offset : Nat)
  | tooLong
deriving DecidableEq, Repr

namespace Flaw

def toProblem (source : String) : Flaw → Problem
  | fault found offset => .ofCause (.source found (.ofOffset source.toList offset))
  | tooLong => .literalTooLong

end Flaw

/-- The value of the digits of a numeral, sign and underscores aside. -/
def digitsValue (digits : List Char) : Nat :=
  digits.foldl (fun n c => 10 * n + (c.toNat - '0'.toNat)) 0

/-- The integer that a numeral stands for. -/
def numeralValue (lexeme : String) : Int :=
  let magnitude := digitsValue (lexeme.toList.filter Char.isDigit)
  if lexeme.toList.head? = some '-' then -magnitude else magnitude

def checkNumeral (lexeme : String) (offset : Nat) : Except Flaw Value :=
  if digitLimit < (lexeme.toList.filter Char.isDigit).length then .error .tooLong
  else
    match I32.ofInt? (numeralValue lexeme) with
    | some number => .ok (.i32 number)
    | none => .error (.fault (.integerRange lexeme) offset)

def checkLiteral (body : String) (offset : Nat) : Except Flaw Value :=
  match Escape.decode body with
  | .ok text => .ok (.string text)
  | .error fault => .error (.fault fault offset)

namespace Word

def check (word : Word) : Except Flaw String :=
  if word.text ∈ keywords then .error (.fault (.keyword word.text) word.offset) else .ok word.text

end Word

namespace Phrase

mutual

def check : Phrase → Except Flaw Named
  | unit => .ok (.lit .unit)
  | bool flag => .ok (.lit (.bool flag))
  | numeral lexeme offset => return .lit (← checkNumeral lexeme offset)
  | literal body offset => return .lit (← checkLiteral body offset)
  | name word => return .var (← word.check)
  | call head receiver args => do
    let receiver ← check receiver
    let args ← checkAll args
    return .call (← head.check) receiver args
  | letIn binder bound body => do
    let bound ← check bound
    let body ← check body
    return .letIn (← binder.check) bound body
  | cond test yes no => do
    let test ← check test
    let yes ← checkAll yes
    let no ← checkAll no
    return .cond test (.seq yes) (.seq no)
  | block steps => return .seq (← checkAll steps)

def checkAll : List Phrase → Except Flaw (List Named)
  | [] => .ok []
  | phrase :: phrases => do
    let first ← check phrase
    let rest ← checkAll phrases
    return first :: rest

end

theorem checkAll_eq_mapM (phrases : List Phrase) : checkAll phrases = phrases.mapM check := by
  induction phrases with
  | nil => rfl
  | cons phrase phrases ih => rw [checkAll, List.mapM_cons, ih]

end Phrase

namespace MethodPhrase

def check (method : MethodPhrase) : Except Flaw MethodDef := do
  let params ← method.params.mapM Word.check
  let body ← method.body.check
  return ⟨← method.name.check, params, body⟩

end MethodPhrase

namespace ClassPhrase

def check (cls : ClassPhrase) : Except Flaw ClassDef := do
  let methods ← cls.methods.mapM MethodPhrase.check
  return ⟨← cls.name.check, methods⟩

end ClassPhrase

/-- Reads a lexed text in full and checks what was read. -/
def Lexing.parse {α β : Type} (lexing : Lexing) (reader : Nat → Reader α)
    (check : α → Except Flaw β) : Except Flaw β :=
  match lexing.readAll reader with
  | .ok phrase => check phrase
  | .error (fault, offset) => .error (.fault fault offset)

def Named.parse (source : String) : Except Problem Named :=
  ((Lexing.ofExpr source).parse Reader.expr Phrase.check).mapError (Flaw.toProblem source)

def Program.parse (source : String) : Except Problem Program :=
  (((Lexing.ofProgram source).parse Reader.classes (List.mapM ClassPhrase.check)).map Program.mk).mapError
    (Flaw.toProblem source)

/-- The text that the body of a string literal at a given place stands for. -/
def decodeLiteral (body : String) (place : Place) : Except Problem String :=
  (Escape.decode body).mapError fun fault => .ofCause (.source fault place)

end Mica
