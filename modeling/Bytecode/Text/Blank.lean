import Bytecode.Text
/-!
# Blanks

The white space that may surround literals, method identifiers and numbers: the Unicode space
separators, the ASCII line and tab characters, the two line separators and the byte order mark.
U+0085, U+180E and U+200B are not blanks.
-/
namespace Bytecode

def CodeUnit.isBlank (u : CodeUnit) : Bool :=
  (9 ≤ u && u ≤ 13) || u == 32 || u == 0xA0 || u == 0x1680 || (0x2000 ≤ u && u ≤ 0x200A) ||
    u == 0x2028 || u == 0x2029 || u == 0x202F || u == 0x205F || u == 0x3000 || u == 0xFEFF

namespace Text

def dropBlanks (t : Text) : Text := t.dropWhile CodeUnit.isBlank

/-- The text without the blanks at its two ends. -/
def trim (t : Text) : Text := (dropBlanks (dropBlanks t).reverse).reverse

end Text

end Bytecode
