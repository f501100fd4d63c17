import SyntaxMarkup.Layout.Piece

namespace SyntaxMarkup

open Piece

namespace Template

def function (async generator : Bool) (name : Option Part) (params : List Part) (body : Part) :
    List Piece :=
  litIf async "async " ++ lit "function" ++ litIf generator "*" ++ lit " " ++
    name.elim [] plain ++ parameters params body

def classOf (name base : Option Part) (body : Part) : List Piece :=
  lit "class" ++ given " " plain name ++ given " extends " (atLeast .call) base ++ lit " " ++
    plain body

def specifiers (kind : Kind) (parts : List Part) : List Part :=
  parts.filter (·.node.kind == kind)

/-- Defaults come first, then namespaces, then names in braces. -/
def importClause (parts : List Part) : List Piece :=
  let outside := specifiers .importDefaultSpecifier parts ++
    specifiers .importNamespaceSpecifier parts
  let inside := specifiers .importSpecifier parts
  separated (lit ", ")
    (outside.map plain ++
      if inside.isEmpty then [] else [lit "\x7b " ++ commas inside ++ lit " \x7d"])

/-- Text and expressions of a template in turn; an expression after the last text is left out. -/
def interleave : List Part → List Part → List Piece
  | [], _ => []
  | quasi :: quasis, [] => plain quasi ++ interleave quasis []
  | quasi :: quasis, expression :: expressions =>
    plain quasi ++ lit "$\x7b" ++ atLeast .sequence expression ++ lit "\x7d" ++
      interleave quasis expressions

/-- The text of a node from its type and its children; children that do not fit the type leave no
text. -/
def pieces (kind : Kind) (slots : List (Slot Part)) : List Piece :=
  match kind with
  | .program _ =>
    match slots with
    | [.many body] => lines body
    | _ => []
  | .identifier name => lit name
  | .privateIdentifier name => lit "#" ++ lit name
  | .literal _ (some regex) _ =>
    lit "/" ++ lit regex.pattern ++ lit "/" ++ lit regex.flags
  | .literal raw none _ => lit raw
  | .templateElement raw _ _ => lit raw
  | .thisExpression => lit "this"
  | .super => lit "super"
  | .emptyStatement => lit ";"
  | .debuggerStatement => lit "debugger;"
  | .expressionStatement _ =>
    match slots with
    | [.one expression] =>
      let least : Strength :=
        if expression.node.startsWithBrace || expression.node.startsWithDeclaration then
          .parenthesized
        else .sequence
      atLeast least expression ++ lit ";"
    | _ => []
  | .blockStatement =>
    match slots with
    | [.many body] => block body
    | _ => []
  | .staticBlock =>
    match slots with
    | [.many body] => lit "static " ++ block body
    | _ => []
  | .withStatement =>
    match slots with
    | [.one object, .one body] =>
      lit "with (" ++ atLeast .sequence object ++ lit ") " ++ plain body
    | _ => []
  | .returnStatement =>
    match slots with
    | [.maybe argument] =>
      lit "return" ++ given " " (atLeast .sequence) argument ++ lit ";"
    | _ => []
  | .labeledStatement =>
    match slots with
    | [.one label, .one body] => plain label ++ lit ": " ++ plain body
    | _ => []
  | .breakStatement =>
    match slots with
    | [.maybe label] => lit "break" ++ given " " plain label ++ lit ";"
    | _ => []
  | .continueStatement =>
    match slots with
    | [.maybe label] => lit "continue" ++ given " " plain label ++ lit ";"
    | _ => []
  | .ifStatement =>
    match slots with
    | [.one test, .one consequent, .maybe alternate] =>
      lit "if (" ++ atLeast .sequence test ++ lit ") " ++ plain consequent ++
        given " else " plain alternate
    | _ => []
  | .switchStatement =>
    match slots with
    | [.one discriminant, .many cases] =>
      lit "switch (" ++ atLeast .sequence discriminant ++ lit ") " ++ block cases
    | _ => []
  | .switchCase =>
    match slots with
    | [.maybe test, .many consequent] =>
      test.elim (lit "default:") (fun test => lit "case " ++ atLeast .sequence test ++ lit ":") ++
        consequent.flatMap fun statement => [.text "\n", .pad 1, .child statement .plain 1]
    | _ => []
  | .throwStatement =>
    match slots with
    | [.one argument] => lit "throw " ++ atLeast .sequence argument ++ lit ";"
    | _ => []
  | .tryStatement =>
    match slots with
    | [.one body, .maybe handler, .maybe finalizer] =>
      lit "try " ++ plain body ++ given " " plain handler ++ given " finally " plain finalizer
    | _ => []
  | .catchClause =>
    match slots with
    | [.maybe param, .one body] =>
      lit "catch" ++ given " (" (fun param => plain param ++ lit ")") param ++ lit " " ++
        plain body
    | _ => []
  | .whileStatement =>
    match slots with
    | [.one test, .one body] =>
      lit "while (" ++ atLeast .sequence test ++ lit ") " ++ plain body
    | _ => []
  | .doWhileStatement =>
    match slots with
    | [.one body, .one test] =>
      lit "do " ++ plain body ++ lit " while (" ++ atLeast .sequence test ++ lit ");"
    | _ => []
  | .forStatement =>
    match slots with
    | [.maybe init, .maybe test, .maybe update, .one body] =>
      lit "for (" ++ init.elim [] header ++ lit ";" ++ given " " (atLeast .sequence) test ++
        lit ";" ++ given " " (atLeast .sequence) update ++ lit ") " ++ plain body
    | _ => []
  | .forInStatement =>
    match slots with
    | [.one left, .one right, .one body] =>
      lit "for (" ++ header left ++ lit " in " ++ atLeast .sequence right ++ lit ") " ++ plain body
    | _ => []
  | .forOfStatement await =>
    match slots with
    | [.one left, .one right, .one body] =>
      lit (if await then "for await (" else "for (") ++ header left ++ lit " of " ++
        atLeast .assignment right ++ lit ") " ++ plain body
    | _ => []
  | .functionDeclaration async generator =>
    match slots with
    | [.maybe name, .many params, .one body] =>
      function async generator name params body
    | _ => []
  | .functionExpression async generator =>
    match slots with
    | [.maybe name, .many params, .one body] =>
      function async generator name params body
    | _ => []
  | .variableDeclaration kind =>
    match slots with
    | [.many declarations] =>
      lit kind.word ++ lit " " ++ commas declarations ++ lit ";"
    | _ => []
  | .variableDeclarator =>
    match slots with
    | [.one target, .maybe init] =>
      plain target ++ given " = " (atLeast .assignment) init
    | _ => []
  | .classDeclaration =>
    match slots with
    | [.maybe name, .maybe base, .one body] => classOf name base body
    | _ => []
  | .classExpression =>
    match slots with
    | [.maybe name, .maybe base, .one body] => classOf name base body
    | _ => []
  | .classBody =>
    match slots with
    | [.many body] => block body
    | _ => []
  | .methodDefinition kind computed static =>
    match slots with
    | [.one key, .one value] =>
      litIf static "static " ++ litIf (kind == .getter) "get " ++ litIf (kind == .setter) "set " ++
        method computed key value
    | _ => []
  | .propertyDefinition computed static =>
    match slots with
    | [.one key, .maybe value] =>
      litIf static "static " ++ Piece.key computed key ++
        given " = " (atLeast .assignment) value ++ lit ";"
    | _ => []
  | .arrayExpression =>
    match slots with
    | [.sparse elements] => lit "[" ++ sparseCommas elements ++ lit "]"
    | _ => []
  | .arrayPattern =>
    match slots with
    | [.sparse elements] => lit "[" ++ sparseCommas elements ++ lit "]"
    | _ => []
  | .objectExpression =>
    match slots with
    | [.many properties] => braces properties
    | _ => []
  | .objectPattern =>
    match slots with
    | [.many properties] => braces properties
    | _ => []
  | .property .init false true _ =>
    match slots with
    | [.one key, .one value] =>
      plain value ++ [.share key.node.id value.node.named.id]
    | _ => []
  | .property .init false false computed =>
    match slots with
    | [.one key, .one value] =>
      Piece.key computed key ++ lit ": " ++ atLeast .assignment value
    | _ => []
  | .property kind _ _ computed =>
    match slots with
    | [.one key, .one value] =>
      litIf (kind == .getter) "get " ++ litIf (kind == .setter) "set " ++ method computed key value
    | _ => []
  | .arrowFunctionExpression async =>
    match slots with
    | [.many params, .one body] =>
      litIf async "async " ++ lit "(" ++ commas params ++ lit ") => " ++
        atLeast (if body.node.startsWithBrace then .parenthesized else .assignment) body
    | _ => []
  | .unaryExpression operator =>
    match slots with
    | [.one argument] =>
      lit operator.word ++
        litIf (operator.isKeyword || argument.node.kind.runsInto operator) " " ++
        atLeast .unary argument
    | _ => []
  | .updateExpression operator true =>
    match slots with
    | [.one argument] =>
      lit operator.word ++ atLeast .update argument
    | _ => []
  | .updateExpression operator false =>
    match slots with
    | [.one argument] =>
      atLeast .update argument ++ lit operator.word
    | _ => []
  | .binaryExpression operator =>
    match slots with
    | [.one left, .one right] =>
      let least : Strength × Strength :=
        if operator = .power then (.update, operator.strength)
        else (operator.strength, operator.strength + 1)
      atLeast least.1 left ++ lit " " ++ lit operator.word ++ lit " " ++ atLeast least.2 right
    | _ => []
  | .logicalExpression operator =>
    match slots with
    | [.one left, .one right] =>
      let least (part : Part) (usual : Strength) : Strength :=
        if part.node.kind.clashesWith operator then .parenthesized else usual
      atLeast (least left operator.strength) left ++ lit " " ++ lit operator.word ++ lit " " ++
        atLeast (least right (operator.strength + 1)) right
    | _ => []
  | .assignmentExpression operator =>
    match slots with
    | [.one left, .one right] =>
      plain left ++ lit " " ++ lit operator.word ++ lit " " ++ atLeast .assignment right
    | _ => []
  | .memberExpression true optional =>
    match slots with
    | [.one object, .one property] =>
      atLeast .call object ++ lit (if optional then "?.[" else "[") ++
        atLeast .sequence property ++ lit "]"
    | _ => []
  | .memberExpression false optional =>
    match slots with
    | [.one object, .one property] =>
      atLeast (if object.node.kind.isBareInteger then .parenthesized else .call) object ++
        lit (if optional then "?." else ".") ++ plain property
    | _ => []
  | .conditionalExpression =>
    match slots with
    | [.one test, .one consequent, .one alternate] =>
      atLeast (Strength.conditional + 1) test ++ lit " ? " ++ atLeast .assignment consequent ++
        lit " : " ++ atLeast .assignment alternate
    | _ => []
  | .callExpression optional =>
    match slots with
    | [.one callee, .many arguments] =>
      atLeast .call callee ++ litIf optional "?." ++ lit "(" ++ commas arguments ++ lit ")"
    | _ => []
  | .newExpression =>
    match slots with
    | [.one callee, .many arguments] =>
      lit "new " ++ atLeast (if callee.node.containsCall then .parenthesized else .call) callee ++
        lit "(" ++ commas arguments ++ lit ")"
    | _ => []
  | .sequenceExpression =>
    match slots with
    | [.many expressions] => commas expressions
    | _ => []
  | .yieldExpression delegate =>
    match slots with
    | [.maybe argument] =>
      lit (if delegate then "yield*" else "yield") ++ given " " (atLeast .assignment) argument
    | _ => []
  | .awaitExpression =>
    match slots with
    | [.one argument] => lit "await " ++ atLeast .unary argument
    | _ => []
  | .templateLiteral =>
    match slots with
    | [.many quasis, .many expressions] =>
      lit "`" ++ interleave quasis expressions ++ lit "`"
    | _ => []
  | .taggedTemplateExpression =>
    match slots with
    | [.one tag, .one quasi] => atLeast .call tag ++ plain quasi
    | _ => []
  | .metaProperty =>
    match slots with
    | [.one object, .one property] => plain object ++ lit "." ++ plain property
    | _ => []
  | .importExpression =>
    match slots with
    | [.one source] => lit "import(" ++ atLeast .assignment source ++ lit ")"
    | _ => []
  | .chainExpression =>
    match slots with
    | [.one expression] => plain expression
    | _ => []
  | .parenthesizedExpression =>
    match slots with
    | [.one expression] =>
      lit "(" ++ atLeast .sequence expression ++ lit ")"
    | _ => []
  | .spreadElement =>
    match slots with
    | [.one argument] => lit "..." ++ atLeast .assignment argument
    | _ => []
  | .restElement =>
    match slots with
    | [.one argument] => lit "..." ++ atLeast .assignment argument
    | _ => []
  | .assignmentPattern =>
    match slots with
    | [.one left, .one right] =>
      plain left ++ lit " = " ++ atLeast .assignment right
    | _ => []
  | .importDeclaration =>
    match slots with
    | [.many specifiers, .one source] =>
      lit "import " ++
        (if specifiers.isEmpty then [] else importClause specifiers ++ lit " from ") ++
        plain source ++ lit ";"
    | _ => []
  | .importSpecifier =>
    match slots with
    | [.one imported, .one binding] => renamed imported binding
    | _ => []
  | .importDefaultSpecifier =>
    match slots with
    | [.one binding] => plain binding
    | _ => []
  | .importNamespaceSpecifier =>
    match slots with
    | [.one binding] => lit "* as " ++ plain binding
    | _ => []
  | .exportNamedDeclaration =>
    match slots with
    | [.maybe declaration, .many specifiers, .maybe source] =>
      lit "export " ++ declaration.elim
        (braces specifiers ++ given " from " plain source ++ lit ";") plain
    | _ => []
  | .exportSpecifier =>
    match slots with
    | [.one binding, .one exported] => renamed binding exported
    | _ => []
  | .exportDefaultDeclaration =>
    match slots with
    | [.one declaration] =>
      lit "export default " ++
        match declaration.node.kind with
        | .functionDeclaration _ _ | .classDeclaration => plain declaration
        | _ =>
          atLeast (if declaration.node.startsWithDeclaration then .parenthesized else .assignment)
            declaration ++ lit ";"
    | _ => []
  | .exportAllDeclaration =>
    match slots with
    | [.maybe exported, .one source] =>
      lit "export *" ++ given " as " plain exported ++ lit " from " ++ plain source ++ lit ";"
    | _ => []
  | .unknown typeName => lit ("/* Unknown: " ++ typeName ++ " */")

end Template

end SyntaxMarkup
