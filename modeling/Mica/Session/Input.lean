/-! # Typed input

What happens to a line of input before it is looked at: invisible characters are taken out, and a line
with open brackets is continued on the next. The bracket scanner reads a text character by character
and knows only whether it is inside a string or a comment.
-/
namespace Mica

def isInvisible (c : Char) : Bool :=
  c == '\r' || c == '\xa0' || (0x200B ≤ c.toNat && c.toNat ≤ 0x200D) || c.toNat == 0xFEFF

/-- The text without its invisible characters. -/
def visible (s : String) : String := String.ofList (s.toList.filter (!isInvisible ·))

namespace Brackets

/-- What the scanner is inside of. After a `slash` another one would open a comment. -/
inductive Mode where
  | code
  | slash
  | string
  | escaped
  | comment
deriving DecidableEq, Repr

structure State where
  mode : Mode
  depth : Int
deriving DecidableEq, Repr

def weight (c : Char) : Int :=
  if c = '\x7b' ∨ c = '(' then 1 else if c = '\x7d' ∨ c = ')' then -1 else 0

def modeAfter : Mode → Char → Mode
  | .string, c => if c = '"' ∨ c = '\n' then .code else if c = '\\' then .escaped else .string
  | .escaped, _ => .string
  | .comment, c => if c = '\n' then .code else .comment
  | .slash, c => if c = '"' then .string else if c = '/' then .comment else .code
  | .code, c => if c = '"' then .string else if c = '/' then .slash else .code

def step (state : State) (c : Char) : State :=
  ⟨modeAfter state.mode c,
    match state.mode with
    | .code | .slash => state.depth + weight c
    | _ => state.depth⟩

def scan (cs : List Char) : State := cs.foldl step ⟨.code, 0⟩

/-- The number of brackets opened less those closed, outside strings and comments. -/
def depth (s : String) : Int := (scan s.toList).depth

end Brackets

/-- What a line break adds to a text in which some brackets are open. -/
def continuation (depth : Int) : String :=
  String.ofList ('\n' :: List.replicate (4 * depth.toNat) ' ')

end Mica
