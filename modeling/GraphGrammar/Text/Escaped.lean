import GraphGrammar.Text.Printable

/-!
# Text between quotes

Writes a text so that it can stand between quotes of either sort on one line:
quotes and backslashes get a backslash, a few control characters a letter, and
what does not show a hexadecimal code, wherever it stands. A character that shows
on the one before it is written as it is, except at the very beginning, where
there is none before it.
-/

namespace GraphGrammar

namespace Text

/-- The code of a character in hexadecimal, as in `\u{200b}`. -/
def codeEscape (c : Char) : String :=
  "\\u\x7b" ++ String.ofList (Nat.toDigits 16 c.toNat) ++ "\x7d"

/-- A character in escaped form, at the beginning of a text or further on. -/
def escapeChar (atStart : Bool) (c : Char) : String :=
  match c with
  | '\x00' => "\\0"
  | '\t' => "\\t"
  | '\r' => "\\r"
  | '\n' => "\\n"
  | '\\' => "\\\\"
  | '"' => "\\\""
  | '\'' => "\\'"
  | c =>
    if atStart && needsBase c then codeEscape c
    else if isPrintable c then c.toString
    else codeEscape c

/-- A text in escaped form. -/
def escape (text : String) : String :=
  match text.toList with
  | [] => ""
  | first :: rest => String.join (escapeChar true first :: rest.map (escapeChar false))

end Text

end GraphGrammar
