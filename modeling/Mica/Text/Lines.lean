import Mica.Text.Blank

/-! # Lines

Cutting a text into lines, each with the break that ends it, and indenting those lines that show
something. A carriage return directly before a line feed belongs to the same break.
-/
namespace Mica.Text

def isLineBreak (c : Char) : Bool :=
  (0x0A ≤ c.toNat && c.toNat ≤ 0x0D) || (0x1C ≤ c.toNat && c.toNat ≤ 0x1E) ||
    c.toNat == 0x85 || c.toNat == 0x2028 || c.toNat == 0x2029

/-- The lines of a text whose current line has so far the characters of `line`, last one first. -/
def linesFrom (line : List Char) : List Char → List (List Char)
  | [] => if line.isEmpty then [] else [line.reverse]
  | '\r' :: '\n' :: cs => ('\n' :: '\r' :: line).reverse :: linesFrom [] cs
  | c :: cs =>
    if isLineBreak c then (c :: line).reverse :: linesFrom [] cs else linesFrom (c :: line) cs

def lines (s : String) : List (List Char) := linesFrom [] s.toList

def indent (pad s : String) : String :=
  String.join ((lines s).map fun line =>
    if line.all isBlank then String.ofList line else pad ++ String.ofList line)

/-- Writes every line break as one line feed: a carriage return counts as a break, and together
with a line feed as one. -/
def unifyBreaks : List Char → List Char
  | [] => []
  | '\r' :: '\n' :: cs => '\n' :: unifyBreaks cs
  | c :: cs => (if c = '\r' then '\n' else c) :: unifyBreaks cs

/-- No character is lost or added by cutting a text into lines. -/
theorem flatten_linesFrom (line cs : List Char) :
    (linesFrom line cs).flatten = line.reverse ++ cs := by
  fun_induction linesFrom line cs with
  | case1 line h => simp_all
  | case2 line h => simp
  | case3 line cs ih => simp [ih]
  | case4 line c cs _ h ih => simp [ih]
  | case5 line c cs _ h ih => simp [ih]

end Mica.Text
