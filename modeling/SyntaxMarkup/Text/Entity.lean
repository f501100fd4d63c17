namespace SyntaxMarkup.Text

/-- Character data: the ampersand and the angle brackets are written as entities. -/
def dataEntity : Char → List Char
  | '&' => "&amp;".toList
  | '<' => "&lt;".toList
  | '>' => "&gt;".toList
  | c => [c]

/-- Values in double quotes: the quote is an entity as well. -/
def quotedEntity : Char → List Char
  | '"' => "&quot;".toList
  | c => dataEntity c

def escapeData (text : String) : String :=
  String.ofList (text.toList.flatMap dataEntity)

def escapeQuoted (text : String) : String :=
  String.ofList (text.toList.flatMap quotedEntity)

end SyntaxMarkup.Text
