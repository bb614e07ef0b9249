import Mica.Text.Quoted
import Mica.Value

/-! # Failures

A failure is a cause and the methods that were being run when it arose. Causes fall into a small
family of categories. Apart from failures there are misuses, which no source text brings about:
they show that the machine was handed something that is not a program.
-/
namespace Mica

/-- Where something lies in a source text, as far as that is known. In a text that was read, lines and
columns count from one; a place that was handed in may have any numbers. -/
inductive Place where
  | nowhere
  | line (line : Int)
  | point (line column : Int)
deriving DecidableEq, Repr

namespace Place

def ofOffset (source : List Char) (offset : Nat) : Place :=
  let before := source.take offset
  .point (before.count '\n' + 1 : Nat) ((before.reverse.takeWhile (· ≠ '\n')).length + 1 : Nat)

def suffix : Place → String
  | nowhere => ""
  | line l => s!" (line {l})"
  | point l c => s!" (line {l}, col {c})"

end Place

inductive SourceFault where
  | endOfInput
  | character (c : Char)
  | token (lexeme : String)
  | keyword (word : String)
  | integerRange (lexeme : String)
  | escape (c : Char)
  | codePoint (code : Nat)
  | other (text : String)
deriving DecidableEq, Repr

namespace SourceFault

def message : SourceFault → String
  | endOfInput => "unexpected end of input"
  | character c => s!"unexpected character {Text.quote c.toString}"
  | token lexeme => s!"unexpected token {Text.quote lexeme}"
  | keyword word => s!"expected identifier, found keyword '{word}'"
  | integerRange lexeme => s!"integer literal {lexeme} does not fit in I32"
  | escape c => "invalid escape sequence '\\" ++ c.toString ++ "'"
  | codePoint code => "invalid code point U+" ++ (String.ofList (Nat.toDigits 16 code)).toUpper
  | other text => text

end SourceFault

inductive Category where
  | any
  | source
  | unboundVariable
  | load
  | duplicateClass
  | missingEntry
  | runtime
  | noSuchMethod
  | typeMismatch
  | arityMismatch
  | internal
  | indexRange
deriving DecidableEq, Repr

namespace Category

def parent? : Category → Option Category
  | any => none
  | duplicateClass => some load
  | noSuchMethod | typeMismatch | arityMismatch => some runtime
  | indexRange => some internal
  | _ => some any

/-- A kind followed by the wider and wider kinds it belongs to. -/
def lineage : Category → List Category
  | any => [any]
  | duplicateClass => [duplicateClass, load, any]
  | noSuchMethod => [noSuchMethod, runtime, any]
  | typeMismatch => [typeMismatch, runtime, any]
  | arityMismatch => [arityMismatch, runtime, any]
  | indexRange => [indexRange, internal, any]
  | category => [category, any]

theorem lineage_eq (category : Category) :
    category.lineage = category :: (category.parent?.map lineage).getD [] := by
  cases category <;> rfl

end Category

/-- Why a failure arose. A `described` failure is known by its category and wording alone. -/
inductive Cause where
  | source (fault : SourceFault) (place : Place)
  | unbound (name : String)
  | duplicateClass (name : String)
  | noEntryClass (name : String)
  | noEntryMethod
  | noSuchMethod (type : TypeKey) (name : String)
  | conditionType (type : TypeKey)
  | argumentType (method : String) (position : Option Nat) (type : TypeKey)
  | arity (callee : String) (expected : Int) (given : Nat)
  | indexRange (index depth : Int)
  | described (category : Category) (text : String)
deriving DecidableEq, Repr

namespace Cause

def category : Cause → Category
  | source .. => .source
  | unbound _ => .unboundVariable
  | duplicateClass _ => .duplicateClass
  | noEntryClass _ | noEntryMethod => .missingEntry
  | noSuchMethod .. => .noSuchMethod
  | conditionType _ | argumentType .. => .typeMismatch
  | arity .. => .arityMismatch
  | indexRange .. => .indexRange
  | described category _ => category

def message : Cause → String
  | source fault place => fault.message ++ place.suffix
  | unbound name => s!"variable `{name}` is not defined"
  | duplicateClass name => s!"class `{name}` is already defined"
  | noEntryClass name => s!"program has no `{name}` class"
  | noEntryMethod => "program has no entry point"
  | noSuchMethod type name => s!"type `{type.display}` has no method named `{name}`"
  | conditionType type => s!"if condition must be Bool, got {type.display}"
  | argumentType method none type => s!"{method} expects a String argument, got {type.display}"
  | argumentType method (some position) type =>
    s!"{method} expects a String argument at position {position}, got {type.display}"
  | arity callee expected given => s!"{callee} expects {expected} argument(s); got {given}"
  | indexRange index depth =>
    s!"De Bruijn index {index} is out of range (stack depth {depth})"
  | described _ text => text

end Cause

/-- A cause with the methods being run when it arose, innermost first. -/
structure Failure where
  cause : Cause
  trace : List String
deriving DecidableEq, Repr

namespace Failure

def message (failure : Failure) : String := failure.cause.message

/-- The lines shown to a user. With `debug` they announce a listing of the interpreter's own calls. -/
def report (debug : Bool) (failure : Failure) : String :=
  s!"Error: {failure.message}\n" ++ String.join (failure.trace.map fun owner => s!"  in {owner}\n") ++
    if debug then "\nPython traceback:\n" else ""

end Failure

/-- Handing the interpreter something that is not of the kind it works on. -/
inductive Misuse where
  | unresolvable (text : String)
  | unprintable (text : String)
  | unevaluable (text : String)
  | notMethod (text : String)
  | outOfRange (number : Int)
deriving DecidableEq, Repr

namespace Misuse

def message : Misuse → String
  | unresolvable text => s!"cannot resolve {Text.quote text}"
  | unprintable text => s!"not an expression: {Text.quote text}"
  | unevaluable text => s!"cannot evaluate {Text.quote text}"
  | notMethod text => s!"not a method: {Text.quote text}"
  | outOfRange number => s!"{number} does not fit in I32"

end Misuse

/-- Why a computation has no value. Only a `failure` is reported to a user; the others end the
program. An integer literal with too many digits is not even read. -/
inductive Problem where
  | failure (failure : Failure)
  | misuse (misuse : Misuse)
  | literalTooLong
deriving DecidableEq, Repr

namespace Problem

def ofCause (cause : Cause) : Problem := .failure ⟨cause, []⟩

def leaving (owner : String) : Problem → Problem
  | failure ⟨cause, trace⟩ => .failure ⟨cause, trace ++ [owner]⟩
  | problem => problem

end Problem

end Mica
