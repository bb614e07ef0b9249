import Mica.Failure
import Mica.Source.Lexeme

/-! # Phrases

A phrase is a source text by its grammar: names, numerals and literals stand in it as they are
written, with the place where they start, and nothing about them has been checked yet.

Phrases are read from lexemes by recursive descent, and reading is greedy: a call takes every operand
that can follow it. When reading fails, what is left of the lexemes starts with the one that does not
fit. The bound on the depth of the descent is computed from the number of lexemes and is never met.
-/
namespace Mica

structure Word where
  text : String
  offset : Nat
deriving DecidableEq, Repr

inductive Phrase where
  | unit
  | bool (flag : Bool)
  | numeral (lexeme : String) (offset : Nat)
  | literal (body : String) (offset : Nat)
  | name (word : Word)
  | call (name : Word) (receiver : Phrase) (args : List Phrase)
  | letIn (name : Word) (bound body : Phrase)
  | cond (test : Phrase) (yes no : List Phrase)
  | block (steps : List Phrase)

/-- A property of all phrases follows from the same property of their parts. -/
@[elab_as_elim, induction_eliminator]
theorem Phrase.induct {motive : Phrase → Prop} (unit : motive unit) (bool : ∀ flag, motive (bool flag))
    (numeral : ∀ lexeme offset, motive (numeral lexeme offset))
    (literal : ∀ body offset, motive (literal body offset)) (name : ∀ word, motive (name word))
    (call : ∀ name receiver args, motive receiver → (∀ arg ∈ args, motive arg) →
      motive (call name receiver args))
    (letIn : ∀ name bound body, motive bound → motive body → motive (letIn name bound body))
    (cond : ∀ test yes no, motive test → (∀ step ∈ yes, motive step) → (∀ step ∈ no, motive step) →
      motive (cond test yes no))
    (block : ∀ steps, (∀ step ∈ steps, motive step) → motive (block steps)) (phrase : Phrase) :
    motive phrase :=
  Phrase.rec (motive_1 := motive) (motive_2 := fun phrases => ∀ phrase ∈ phrases, motive phrase)
    unit bool numeral literal name call letIn cond block (by simp)
    (fun _ _ first rest => List.forall_mem_cons.2 ⟨first, rest⟩) phrase

structure MethodPhrase where
  name : Word
  params : List Word
  body : Phrase

structure ClassPhrase where
  name : Word
  methods : List MethodPhrase

/-- A reader takes lexemes from the front; a failing one leaves those it could not take. -/
abbrev Reader := EStateM Unit (List Lexeme)

namespace Reader

def refuse {α : Type} : Reader α := fun ls => .error () ls

def expect (token : Token) : Reader Unit
  | l :: ls => if l.token = token then .ok () ls else .error () (l :: ls)
  | [] => .error () []

def word : Reader Word
  | ⟨.word text, offset⟩ :: ls => .ok ⟨text, offset⟩ ls
  | ls => .error () ls

def words : Reader (List Word)
  | ⟨.word text, offset⟩ :: ls =>
    match words ls with
    | .ok rest ls => .ok (⟨text, offset⟩ :: rest) ls
    | .error e ls => .error e ls
  | ls => .ok [] ls

/-- The words that have a meaning of their own where an expression starts. -/
inductive Leader where
  | truth
  | falsity
  | choice
  | binding
deriving DecidableEq, Repr

def Leader.ofWord? : String → Option Leader
  | "true" => some truth
  | "false" => some falsity
  | "if" => some choice
  | "let" => some binding
  | _ => none

def startsAtom : Token → Bool
  | .word name => name != "in"
  | .number _ | .text _ | .openBrace | .openParen => true
  | _ => false

mutual

def expr : Nat → Reader Phrase
  | 0 => refuse
  | bound + 1 => fun ls =>
    match ls with
    | ⟨.word text, offset⟩ :: rest =>
      if (Leader.ofWord? text).isSome then atom bound ls
      else
        match atoms bound rest with
        | .ok [] ls => .ok (.name ⟨text, offset⟩) ls
        | .ok (receiver :: args) ls => .ok (.call ⟨text, offset⟩ receiver args) ls
        | .error e ls => .error e ls
    | _ => atom bound ls

def atom : Nat → Reader Phrase
  | 0 => refuse
  | bound + 1 => fun ls =>
    match ls with
    | [] => .error () []
    | ⟨token, offset⟩ :: rest =>
      match token with
      | .number lexeme => .ok (.numeral lexeme offset) rest
      | .text body => .ok (.literal body offset) rest
      | .openBrace => (do return .block (← block bound) : Reader Phrase) rest
      | .openParen => parens bound rest
      | .word text =>
        match Leader.ofWord? text with
        | none => .ok (.name ⟨text, offset⟩) rest
        | some .truth => .ok (.bool true) rest
        | some .falsity => .ok (.bool false) rest
        | some .choice =>
          (do
            expect .openParen
            let test ← expr bound
            expect .closeParen
            expect .openBrace
            let yes ← block bound
            expect .otherwise
            expect .openBrace
            let no ← block bound
            return .cond test yes no : Reader Phrase) rest
        | some .binding =>
          (do
            let name ← word
            expect .equals
            let value ← expr bound
            expect (.word "in")
            let body ← expr bound
            return .letIn name value body : Reader Phrase) rest
      | _ => .error () ls

/-- What follows an opening parenthesis. -/
def parens : Nat → Reader Phrase
  | 0 => refuse
  | bound + 1 => fun ls =>
    match ls with
    | ⟨.closeParen, _⟩ :: rest => .ok .unit rest
    | _ =>
      (do
        let inner ← expr bound
        expect .closeParen
        return inner : Reader Phrase) ls

def atoms : Nat → Reader (List Phrase)
  | 0 => refuse
  | bound + 1 => fun ls =>
    match ls with
    | [] => .ok [] []
    | l :: _ =>
      if startsAtom l.token then
        (do
          let first ← atom bound
          let rest ← atoms bound
          return first :: rest : Reader (List Phrase)) ls
      else .ok [] ls

def block : Nat → Reader (List Phrase)
  | 0 => refuse
  | bound + 1 => fun ls =>
    match ls with
    | ⟨.closeBrace, _⟩ :: rest => .ok [] rest
    | _ => steps bound ls

/-- One step of a block or more, and the brace that closes it. -/
def steps : Nat → Reader (List Phrase)
  | 0 => refuse
  | bound + 1 => do
    let first ← expr bound
    fun ls =>
      match ls with
      | ⟨.semicolon, _⟩ :: rest => (do return first :: (← steps bound) : Reader (List Phrase)) rest
      | ⟨.closeBrace, _⟩ :: rest => .ok [first] rest
      | _ => .error () ls

end

def members : Nat → Reader (List MethodPhrase)
  | 0 => refuse
  | bound + 1 => fun ls =>
    match ls with
    | ⟨.closeBrace, _⟩ :: rest => .ok [] rest
    | _ =>
      (do
        expect (.word "def")
        let name ← word
        let params ← words
        expect .equals
        let body ← expr bound
        expect .semicolon
        let rest ← members bound
        return ⟨name, params, body⟩ :: rest : Reader (List MethodPhrase)) ls

def classes : Nat → Reader (List ClassPhrase)
  | 0 => refuse
  | bound + 1 => fun ls =>
    match ls with
    | [] => .ok [] []
    | _ =>
      (do
        expect (.word "class")
        let name ← word
        expect .openBrace
        let methods ← members bound
        let rest ← classes bound
        return ⟨name, methods⟩ :: rest : Reader (List ClassPhrase)) ls

/-- A depth that no reading of so many lexemes reaches: a lexeme is taken at every fourth level. -/
def depthBound (count : Nat) : Nat := 4 * count + 4

end Reader

/-- What is wrong at the place where reading stopped with `left` still to come. -/
def Lexing.blame (lexing : Lexing) (left : List Lexeme) : SourceFault × Nat :=
  match left, lexing.stuck, lexing.lexemes.getLast? with
  | l :: _, _, _ => (.token l.token.lexeme, l.offset)
  | [], some (c, offset), _ => (.character c, offset)
  | [], none, some l => (.endOfInput, l.offset)
  | [], none, none => (.endOfInput, 0)

def Lexing.readAll {α : Type} (lexing : Lexing) (reader : Nat → Reader α) :
    Except (SourceFault × Nat) α :=
  match reader (Reader.depthBound lexing.lexemes.length) lexing.lexemes with
  | .ok result [] => if lexing.stuck.isNone then .ok result else .error (lexing.blame [])
  | .ok _ left | .error _ left => .error (lexing.blame left)

end Mica
