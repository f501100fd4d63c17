namespace SyntaxMarkup.Text

/-- A line ends at a line feed, or at a carriage return with a line feed after it. -/
def lines : List Char → List (List Char)
  | [] => []
  | '\r' :: '\n' :: rest => [] :: lines rest
  | '\n' :: rest => [] :: lines rest
  | c :: rest =>
    match lines rest with
    | [] => [[c]]
    | line :: others => (c :: line) :: others

end SyntaxMarkup.Text
