/-! The lines of a text.

A line ends at a line feed; one carriage return right before the line feed
belongs to the line's end. What follows the last line feed is a line of its own
when there is any of it, and keeps all its characters. -/
namespace Reckoner.Text

/-- The line of these characters, last first, without the carriage return that
its end may carry. -/
def endedLine : List Char → String
  | '\r' :: before => String.ofList before.reverse
  | line => String.ofList line.reverse

/-- The lines of a text, when `read`, last character first, has been read of its
first line. -/
def linesFrom (read : List Char) : List Char → List String
  | [] => if read = [] then [] else [String.ofList read.reverse]
  | c :: rest => if c = '\n' then endedLine read :: linesFrom [] rest else linesFrom (c :: read) rest

def lines (text : String) : List String :=
  linesFrom [] text.toList

example : lines "a\r\nb\n\nc\r" = ["a", "b", "", "c\r"] := by decide
example : lines "" = [] ∧ lines "\n" = [""] ∧ lines "\r\r\n" = ["\r"] := by decide

end Reckoner.Text
