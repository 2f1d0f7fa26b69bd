/-!
# Lines of a text

A line ends at a line feed, which may follow a carriage return; the last line may lack its end.
A text that ends with a line feed has no empty line after it.
-/

namespace PhraseStructure.Text

/-- The lines of a text, without their ends. -/
def lines : List Char → List (List Char)
  | [] => []
  | '\n' :: rest => [] :: lines rest
  | '\r' :: '\n' :: rest => [] :: lines rest
  | c :: rest =>
    match lines rest with
    | [] => [[c]]
    | line :: later => (c :: line) :: later

end PhraseStructure.Text
