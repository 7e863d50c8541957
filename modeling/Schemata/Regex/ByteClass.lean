import Schemata.Text

/-! Named sets of bytes for regular expressions. The character classes and the collating symbols are
those of the portable ASCII character set; a byte from 128 on is in no class and has no name. -/
namespace Schemata.Regex

abbrev ByteSet := UInt8 → Bool

namespace ByteSet

def isUpper : ByteSet := fun b => 65 ≤ b && b ≤ 90
def isLower : ByteSet := fun b => 97 ≤ b && b ≤ 122
def isAlpha : ByteSet := fun b => isUpper b || isLower b
def isAlnum : ByteSet := fun b => isAlpha b || Text.isDigit b
def isBlank : ByteSet := fun b => b == 32 || b == 9
def isControl : ByteSet := fun b => b < 32 || b == 127
def isGraph : ByteSet := fun b => 33 ≤ b && b ≤ 126
def isPrint : ByteSet := fun b => 32 ≤ b && b ≤ 126
def isPunct : ByteSet := fun b => isGraph b && !isAlnum b
def isHexDigit : ByteSet := fun b =>
  Text.isDigit b || (97 ≤ b && b ≤ 102) || (65 ≤ b && b ≤ 70)

def isWord : ByteSet := fun b => isAlnum b || b == 95

end ByteSet

def classNames : List (Text × ByteSet) :=
  [(Text.ofString "d", Text.isDigit), (Text.ofString "w", ByteSet.isWord),
    (Text.ofString "s", Text.isSpace), (Text.ofString "alnum", ByteSet.isAlnum),
    (Text.ofString "alpha", ByteSet.isAlpha), (Text.ofString "blank", ByteSet.isBlank),
    (Text.ofString "cntrl", ByteSet.isControl), (Text.ofString "digit", Text.isDigit),
    (Text.ofString "graph", ByteSet.isGraph), (Text.ofString "lower", ByteSet.isLower),
    (Text.ofString "print", ByteSet.isPrint), (Text.ofString "punct", ByteSet.isPunct),
    (Text.ofString "space", Text.isSpace), (Text.ofString "upper", ByteSet.isUpper),
    (Text.ofString "xdigit", ByteSet.isHexDigit)]

/-- The class of a name, in letters of any case. Where case is ignored, the lower-case and the
upper-case letters are all letters. -/
def classOfName? (ignoreCase : Bool) (name : Text) : Option ByteSet :=
  let name := name.map Text.lowerByte
  if ignoreCase && (name == Text.ofString "lower" || name == Text.ofString "upper") then
    some ByteSet.isAlpha
  else classNames.lookup name

/-- The names of the 128 ASCII bytes, in order. -/
def symbolNames : List String :=
  ["NUL", "SOH", "STX", "ETX", "EOT", "ENQ", "ACK", "alert", "backspace", "tab", "newline",
    "vertical-tab", "form-feed", "carriage-return", "SO", "SI", "DLE", "DC1", "DC2", "DC3", "DC4",
    "NAK", "SYN", "ETB", "CAN", "EM", "SUB", "ESC", "IS4", "IS3", "IS2", "IS1", "space",
    "exclamation-mark", "quotation-mark", "number-sign", "dollar-sign", "percent-sign",
    "ampersand", "apostrophe", "left-parenthesis", "right-parenthesis", "asterisk", "plus-sign",
    "comma", "hyphen", "period", "slash", "zero", "one", "two", "three", "four", "five", "six",
    "seven", "eight", "nine", "colon", "semicolon", "less-than-sign", "equals-sign",
    "greater-than-sign", "question-mark", "commercial-at", "A", "B", "C", "D", "E", "F", "G", "H",
    "I", "J", "K", "L", "M", "N", "O", "P", "Q", "R", "S", "T", "U", "V", "W", "X", "Y", "Z",
    "left-square-bracket", "backslash", "right-square-bracket", "circumflex", "underscore",
    "grave-accent", "a", "b", "c", "d", "e", "f", "g", "h", "i", "j", "k", "l", "m", "n", "o",
    "p", "q", "r", "s", "t", "u", "v", "w", "x", "y", "z", "left-curly-bracket", "vertical-line",
    "right-curly-bracket", "tilde", "DEL"]

def byteOfSymbol? (name : Text) : Option UInt8 :=
  (symbolNames.findIdx? fun s => Text.ofString s == name).map UInt8.ofNat

/-- A byte as a signed number, the order in which ranges run. -/
def signedByte (b : UInt8) : Int := b.toInt8.toInt

namespace ByteSet

def single (ignoreCase : Bool) (b : UInt8) : ByteSet := fun c =>
  if ignoreCase then Text.lowerByte c == Text.lowerByte b else c == b

/-- All bytes of one letter in either case. -/
def equivalent (b : UInt8) : ByteSet := fun c => Text.lowerByte c == Text.lowerByte b

/-- The bytes between two signed bounds. Where case is ignored, a byte is inside if its lower case
or its upper case is. -/
def range (ignoreCase : Bool) (first last : UInt8) : ByteSet := fun c =>
  let inside (c : UInt8) : Bool :=
    signedByte first ≤ signedByte c && signedByte c ≤ signedByte last
  if ignoreCase then inside (Text.lowerByte c) || inside (Text.upperByte c) else inside c

def union (a b : ByteSet) : ByteSet := fun c => a c || b c

def complement (a : ByteSet) : ByteSet := fun c => !a c

def notLineEnd : ByteSet := fun c => c != 10 && c != 13

end ByteSet
end Schemata.Regex
