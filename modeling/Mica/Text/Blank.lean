/-! # White space

The characters that separate the words of a command and are trimmed from the ends of a text:
the white space of Unicode together with the four information separators.
-/
namespace Mica.Text

/-- First and last code points of the runs of blank characters, in ascending order. -/
def blankRanges : List (Nat × Nat) :=
  [(0x09, 0x0D), (0x1C, 0x20), (0x85, 0x85), (0xA0, 0xA0), (0x1680, 0x1680), (0x2000, 0x200A),
    (0x2028, 0x2029), (0x202F, 0x202F), (0x205F, 0x205F), (0x3000, 0x3000)]

def isBlank (c : Char) : Bool :=
  blankRanges.any fun range => range.1 ≤ c.toNat && c.toNat ≤ range.2

def trimStart (cs : List Char) : List Char := cs.dropWhile isBlank

def trimEnd (cs : List Char) : List Char := (cs.reverse.dropWhile isBlank).reverse

/-- The text without the blanks at its two ends. -/
def trim (s : String) : String := String.ofList (trimEnd (trimStart s.toList))

/-- Whether nothing but blanks is there. -/
def allBlank (s : String) : Bool := s.toList.all isBlank

/-- The first word of a text and what follows it, the blanks between them left out. -/
def firstWord (s : String) : String × String :=
  let cs := trimStart s.toList
  (String.ofList (cs.takeWhile (!isBlank ·)), String.ofList (trimStart (cs.dropWhile (!isBlank ·))))

theorem isBlank_of_isWhitespace {c : Char} (h : c.isWhitespace = true) : isBlank c = true := by
  simp only [Char.isWhitespace, Bool.or_eq_true, decide_eq_true_eq] at h
  rcases h with ((rfl | rfl) | rfl) | rfl <;> decide

end Mica.Text
