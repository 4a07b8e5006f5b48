/-!
# Braces

The two symbols that enclose class bodies, subroutine bodies and blocks.
-/

namespace Jack

/-- The left brace. -/
def openBrace : String := "\x7b"

/-- The right brace. -/
def closeBrace : String := "\x7d"

end Jack
