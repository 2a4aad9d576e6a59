/-!
# Blank characters

Calendar texts may be spread out with blanks: the characters that Unicode marks `White_Space`.
-/

namespace SqlSelect.Text

/-- The code points of property `White_Space`, in order. -/
def blankCodePoints : List Nat :=
  [0x09, 0x0A, 0x0B, 0x0C, 0x0D, 0x20, 0x85, 0xA0, 0x1680,
   0x2000, 0x2001, 0x2002, 0x2003, 0x2004, 0x2005, 0x2006, 0x2007, 0x2008, 0x2009, 0x200A,
   0x2028, 0x2029, 0x202F, 0x205F, 0x3000]

/-- Whether a character is blank. -/
def isBlank (c : Char) : Bool :=
  blankCodePoints.contains c.toNat

/-- Drop the blanks in front. -/
def skipBlanks (text : List Char) : List Char :=
  text.dropWhile isBlank

end SqlSelect.Text
