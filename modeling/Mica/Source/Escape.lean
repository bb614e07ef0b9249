import Mica.Failure

/-! # String literals

What the characters between the quotation marks of a literal stand for. A backslash and what
follows it is an escape; a backslash with nothing after it stands for itself.
-/
namespace Mica.Escape

def simple? : Char → Option Char
  | '"' => some '"'
  | '\'' => some '\''
  | '\\' => some '\\'
  | 'n' => some '\n'
  | 't' => some '\t'
  | 'r' => some '\r'
  | 'b' => some '\x08'
  | 'f' => some '\x0c'
  | 'v' => some '\x0b'
  | _ => none

def hexValue? (c : Char) : Option Nat :=
  if c.isDigit then some (c.toNat - '0'.toNat)
  else if 'a' ≤ c ∧ c ≤ 'f' then some (c.toNat - 'a'.toNat + 10)
  else if 'A' ≤ c ∧ c ≤ 'F' then some (c.toNat - 'A'.toNat + 10)
  else none

def isHexDigit (c : Char) : Bool := (hexValue? c).isSome

def hexNumber (digits : List Char) : Nat :=
  digits.foldl (fun n c => 16 * n + (hexValue? c).getD 0) 0

def scalar (code : Nat) : Except SourceFault Char :=
  if code.isValidChar then .ok (Char.ofNat code) else .error (.codePoint code)

def braced? (cs : List Char) : Option (List Char) :=
  -- the opening brace has been read
  let digits := cs.takeWhile isHexDigit
  if 1 ≤ digits.length ∧ digits.length ≤ 6 ∧ (cs.drop digits.length).head? = some '\x7d'
  then some digits else none

def fixed? (count : Nat) (cs : List Char) : Option (List Char) :=
  let digits := cs.take count
  if digits.length = count ∧ digits.all isHexDigit then some digits else none

/-- Reads an escape from the character after its backslash on: the character it stands for, and how
many characters it takes. -/
def read (c : Char) (cs : List Char) : Except SourceFault (Char × Nat) :=
  match c, cs with
  | 'u', '\x7b' :: rest =>
    match braced? rest with
    | some digits => (scalar (hexNumber digits)).map (·, digits.length + 3)
    | none => .error (.escape 'u')
  | 'u', _ =>
    match fixed? 4 cs with
    | some digits => (scalar (hexNumber digits)).map (·, 5)
    | none => .error (.escape 'u')
  | 'x', _ =>
    match fixed? 2 cs with
    | some digits => (scalar (hexNumber digits)).map (·, 3)
    | none => .error (.escape 'x')
  | '0', _ => if cs.head?.any Char.isDigit then .error (.escape '0') else .ok ('\x00', 1)
  | _, _ =>
    match simple? c with
    | some value => .ok (value, 1)
    | none => .error (.escape c)

/-- What a body starts with: the character that its first unit stands for, and how many characters
belong to the unit beside `c`. -/
def unit (c : Char) (cs : List Char) : Except SourceFault (Char × Nat) :=
  match c, cs with
  | '\\', d :: ds => read d ds
  | _, _ => .ok (c, 0)

/-- Decodes a text whose first `skip` characters belong to a unit that has been read. -/
def decodeFrom (skip : Nat) : List Char → Except SourceFault (List Char)
  | [] => .ok []
  | c :: cs =>
    match skip with
    | skip + 1 => decodeFrom skip cs
    | 0 => do
      let (value, width) ← unit c cs
      return value :: (← decodeFrom width cs)

def decode (body : String) : Except SourceFault String :=
  (decodeFrom 0 body.toList).map String.ofList

end Mica.Escape
