import SyntaxMarkup.Markup.Fragment
import SyntaxMarkup.Text.Entity

namespace SyntaxMarkup

namespace Fragment

def startTag (id : Nat) (label title : String) : String :=
  "<span class=\"" ++ Text.escapeQuoted label ++ "\" title=\"" ++ Text.escapeQuoted title ++
    "\" data-unit=\"" ++ toString id ++ "\">"

mutual

def html : Fragment → String
  | .text content => Text.escapeData content
  | .unit id label title _ children =>
    startTag id label (title.getD label) ++ htmlOf children ++ "</span>"

def htmlOf : List Fragment → String
  | [] => ""
  | fragment :: rest => fragment.html ++ htmlOf rest

end

end Fragment

namespace Document

def stylesheetLink (href : String) : String :=
  "<link rel=\"stylesheet\" href=\"" ++ Text.escapeQuoted href ++ "\">"

/-- The HTML text of a document, which names the generation that the document belongs to. -/
def html (document : Document) (generation : Nat) (stylesheet : Option String) : String :=
  stylesheet.elim "" stylesheetLink ++
    "<code class=\"squirrel-pie\" data-generation=\"" ++ toString generation ++ "\">" ++
    Fragment.htmlOf document.roots ++ "</code>"

def page (document : Document) (title : String) (stylesheet : Option String) : String :=
  "<!DOCTYPE html>\n<html>\n<head>\n  <meta charset=\"UTF-8\">\n  <title>" ++
    Text.escapeData title ++ "</title>\n</head>\n<body>\n<pre>" ++
    document.html 1 stylesheet ++ "</pre>\n</body>\n</html>\n"

end Document

end SyntaxMarkup
