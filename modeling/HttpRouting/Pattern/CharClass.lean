import HttpRouting.Bytes

namespace HttpRouting.Pattern

inductive CharClass
  | alnum | alpha | blank | cntrl | digit | graph | lower
  | print | punct | space | upper | xdigit | word
deriving DecidableEq, Repr

namespace CharClass

def holds : CharClass → UInt8 → Bool
  | alnum, b => Byte.isAlnum b
  | alpha, b => Byte.isUpper b || Byte.isLower b
  | blank, b => Byte.isBlank b
  | cntrl, b => b < 32 || b = 127
  | digit, b => Byte.isDigit b
  | graph, b => 33 ≤ b && b ≤ 126
  | lower, b => Byte.isLower b
  | print, b => 32 ≤ b && b ≤ 126
  | punct, b => 33 ≤ b && b ≤ 126 && !Byte.isAlnum b
  | space, b => Byte.isSpace b
  | upper, b => Byte.isUpper b
  | xdigit, b => Byte.isDigit b || (97 ≤ Byte.toLower b && Byte.toLower b ≤ 102)
  | word, b => Byte.isName b

def names : List (String × CharClass) :=
  [("d", digit), ("w", word), ("s", space), ("alnum", alnum), ("alpha", alpha), ("blank", blank),
    ("cntrl", cntrl), ("digit", digit), ("graph", graph), ("lower", lower), ("print", print),
    ("punct", punct), ("space", space), ("upper", upper), ("xdigit", xdigit)]

def ofName? (name : Bytes) : Option CharClass :=
  (names.find? (fun entry => ascii entry.1 = name.map Byte.toLower)).map (·.2)

end CharClass

def collatingNames : List String :=
  ["NUL", "SOH", "STX", "ETX", "EOT", "ENQ", "ACK", "alert", "backspace", "tab", "newline",
    "vertical-tab", "form-feed", "carriage-return", "SO", "SI", "DLE", "DC1", "DC2", "DC3", "DC4",
    "NAK", "SYN", "ETB", "CAN", "EM", "SUB", "ESC", "IS4", "IS3", "IS2", "IS1", "space",
    "exclamation-mark", "quotation-mark", "number-sign", "dollar-sign", "percent-sign",
    "ampersand", "apostrophe", "left-parenthesis", "right-parenthesis", "asterisk", "plus-sign",
    "comma", "hyphen", "period", "slash", "zero", "one", "two", "three", "four", "five", "six",
    "seven", "eight", "nine", "colon", "semicolon", "less-than-sign", "equals-sign",
    "greater-than-sign", "question-mark", "commercial-at", "A", "B", "C", "D", "E", "F", "G", "H",
    "I", "J", "K", "L", "M", "N", "O", "P", "Q", "R", "S", "T", "U", "V", "W", "X", "Y", "Z",
    "left-square-bracket", "backslash", "right-square-bracket", "circumflex", "underscore",
    "grave-accent", "a", "b", "c", "d", "e", "f", "g", "h", "i", "j", "k", "l", "m", "n", "o", "p",
    "q", "r", "s", "t", "u", "v", "w", "x", "y", "z", "left-curly-bracket", "vertical-line",
    "right-curly-bracket", "tilde", "DEL"]

def collatingByte? (name : Bytes) : Option UInt8 :=
  (collatingNames.findIdx? (fun n => ascii n = name)).map (·.toUInt8)

end HttpRouting.Pattern
