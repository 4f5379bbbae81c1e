/-!
# Blank characters

The characters with the Unicode property `White_Space`, and trimming by that class.
-/

namespace Stylesheet.Text

/-- The 25 code points with the property `White_Space`. -/
def blanks : List Char :=
  ['\t', '\n', '\x0b', '\x0c', '\r', ' ', '\u0085', '\u00a0', '\u1680', '\u2000', '\u2001', '\u2002',
    '\u2003', '\u2004', '\u2005', '\u2006', '\u2007', '\u2008', '\u2009', '\u200a', '\u2028', '\u2029',
    '\u202f', '\u205f', '\u3000']

def isBlank (c : Char) : Bool := blanks.contains c

def trimStart (s : String) : String := .ofList (s.toList.dropWhile isBlank)

/-- The white space that `trimStart` removes. -/
def margin (s : String) : String := .ofList (s.toList.takeWhile isBlank)

def removeBlanks (s : String) : String := .ofList (s.toList.filter fun c => !isBlank c)

theorem margin_append_trimStart (s : String) : margin s ++ trimStart s = s := by
  rw [margin, trimStart, ← String.ofList_append, List.takeWhile_append_dropWhile, String.ofList_toList]

end Stylesheet.Text
