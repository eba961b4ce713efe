import LineGrep.Regex.Basic
import LineGrep.Text.ByteEscape

/-!
The bracket form of a tree, such as `alt('a', cat('b', star('c')))`: each node by its name with its
children in parentheses, and each literal between apostrophes.
-/

namespace LineGrep.Regex

/-- Text between a name with an opening parenthesis and the closing one. -/
def call (name : String) (inner : List Char) : List Char :=
  name.toList ++ '(' :: inner ++ [')']

def bracketed : Regex → List Char
  | literal b => Text.apostrophe :: Text.escapeByte b ++ [Text.apostrophe]
  | dot => "dot".toList
  | cat left right => call "cat" (left.bracketed ++ ", ".toList ++ right.bracketed)
  | alt left right => call "alt" (left.bracketed ++ ", ".toList ++ right.bracketed)
  | star body => call "star" body.bracketed

end LineGrep.Regex
