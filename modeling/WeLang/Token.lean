import WeLang.Token.KindSet
import WeLang.Span
import WeLang.Diagnostic

/-!
# Tokens

A token is what the scanner hands out: a kind, the text, and where it stands.
The text of a string literal is what is between its quotes, with every escape
left as it was written; the span covers the quotes as well.
-/

namespace WeLang

/-- A piece of a source with its kind. -/
structure Token where
  kind : TokenKind
  text : String
  span : Span
  /-- Where `span` starts. -/
  location : Location
deriving DecidableEq, Inhabited, Repr

namespace Token

/-- A character as it stands between the quotes of an inspected text. -/
def escapeChar : Char → String
  | '"' => "\\\""
  | '\\' => "\\\\"
  | '\n' => "\\n"
  | '\r' => "\\r"
  | '\t' => "\\t"
  | c => c.toString

/-- A text in quotes, with quotes, backslashes, line ends and tabs escaped. -/
def quote (text : String) : String :=
  "\"" ++ String.join (text.toList.map escapeChar) ++ "\""

/-- A token on one line, for a developer. -/
def inspect (t : Token) : String :=
  t.kind.name ++ "(" ++ quote t.text ++ ") @ " ++ t.span.render ++ " [" ++
    t.location.render ++ "]"

end Token

end WeLang
