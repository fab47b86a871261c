import ScriptInventory.Script.Grammar.Rule

/-!
# The rules of scripts

The grammar of scripts, markup elements and decorators included, and how tightly
its pieces bind. The grammar is generous: what it lets through need not make
sense when it is run. `terminals` and `rules` are in the order in which they are
considered where two of them would do.
-/

namespace ScriptInventory.Script.Grammar

open Rule

def terminals : List Terminal :=
  [.endOfText, .word, .mark "export", .mark "*", .mark "default", .mark "as", .mark "\x7b",
   .mark ",", .mark "\x7d", .mark "import", .mark "from", .mark "with", .mark "var",
   .mark "let", .mark "const", .mark "else", .mark "if", .mark "switch", .mark "for",
   .mark "(", .mark ";", .mark ")", .mark "await", .mark "in", .mark "of", .mark "while",
   .mark "do", .mark "try", .mark "break", .mark "continue", .mark "debugger",
   .mark "return", .mark "throw", .mark ":", .mark "case", .mark "catch", .mark "finally",
   .mark "yield", .mark "=", .mark "[", .mark "]", .mark "<", .mark ">", .mark ".",
   .mark "</", .mark "/>", .mark "\"", .mark "'", .mark "class", .mark "extends",
   .mark "async", .mark "function", .mark "=>", .named .optionalChain "?.", .mark "new",
   .mark "+=", .mark "-=", .mark "*=", .mark "/=", .mark "%=", .mark "^=", .mark "&=",
   .mark "|=", .mark ">>=", .mark ">>>=", .mark "<<=", .mark "**=", .mark "&&=",
   .mark "||=", .mark "??=", .mark "...", .mark "&&", .mark ">>", .mark ">>>", .mark "<<",
   .mark "&", .mark "^", .mark "|", .mark "+", .mark "-", .mark "/", .mark "%", .mark "**",
   .mark "<=", .mark "==", .mark "===", .mark "!=", .mark "!==", .mark ">=", .mark "??",
   .mark "instanceof", .mark "!", .mark "~", .mark "typeof", .mark "void", .mark "delete",
   .mark "++", .mark "--", .mark "`", .mark "$\x7b", .mark "target", .mark "meta",
   .named .this "this", .named .super "super", .named .trueLiteral "true",
   .named .falseLiteral "false", .named .null "null", .named .undefined "undefined",
   .mark "@", .mark "static", .mark "get", .mark "set", .hashBang, .reference,
   .dashedName, .doubleMarkupText, .singleMarkupText, .doubleText, .singleText,
   .regexFlags, .number, .privateName, .comment, .regexClose, .staticGet, .lineEnd,
   .templateText, .questionMark, .markupComment, .mark "||", .escape, .regexBody,
   .elementText]

/-! ## Pieces that recur -/

def word : Rule := token .word

/-- A word that is a name, also if it is one of the reserved names. -/
def anyName : Rule := .choice [word, part .reservedName]

/-- A name, read as `kind`. -/
def nameAs (kind : Kind) : Rule := .renames kind anyName

/-- The decorators in front of a class or a member. -/
def decorators : Rule := rep (node .decorator)

/-- A line end that belongs to a declaration, if there is one. -/
def optLineEnd : Rule := opt (token .lineEnd)

def binding : Rule := .choice [word, part .destructuring]

def holed (opening closing : String) (items : List Rule) : Rule :=
  .seq [opening, list (opt (.choice items)), closing]

/-- Names in braces; the last one may have a comma behind it. -/
def braced (item : Rule) : Rule := .seq ["\x7b", list item, opt ",", "\x7d"]

def staticModifier : Rule :=
  opt (.choice ["static", .renames (.token "static get") (token .staticGet)])

def functionHead (star : List Rule) (name : Rule) : List Rule :=
  [opt "async", "function"] ++ star ++ [.plays .name name, node .formalParameters,
    node .statementBlock]

/-- A binary operator that binds at `level`. -/
def binary (op : String) (level : Level) (grouping : Grouping) : Rule :=
  let left := part .expression
  let left := if op = "in" then .choice [left, token .privateName] else left
  .binds (some level) (some grouping) (.seq [.plays .left left, op, part .expression])

/-- A quoted text of `pieces`. -/
def quotedBy (quote : String) (pieces : List Rule) : Rule :=
  .seq [quote, rep (.choice pieces), quote]

/-! ## Statements -/

/-- The rules of modules and statements. -/
def statementRules : List (Construct × Rule) :=
  [(.node .program, .seq [opt (token .hashBang), rep (part .statement)]),
   (.node .exportStatement, .choice [
      .seq ["export", .choice [
        .seq ["*", part .source],
        .seq [node .namespaceExport, part .source],
        .seq [node .exportClause, part .source],
        node .exportClause], part .semicolon],
      .seq [decorators, "export", .choice [
        part .declaration,
        .seq ["default", .choice [
          part .declaration,
          .seq [.plays .value (part .expression), part .semicolon]]]]]]),
   (.node .namespaceExport, .seq ["*", "as", part .moduleName]),
   (.node .exportClause, braced (node .exportSpecifier)),
   (.node .exportSpecifier,
      .seq [.plays .name (part .moduleName), opt (.seq ["as", part .moduleName])]),
   (.part .moduleName, .choice [word, node .string]),
   (.part .declaration, .choice [node .functionDeclaration,
      node .generatorFunctionDeclaration, node .classDeclaration,
      node .lexicalDeclaration, node .variableDeclaration]),
   (.node .importWord, oneOf ["import"]),
   (.node .importStatement, .seq ["import",
      .choice [.seq [node .importClause, part .source], node .string],
      opt (node .importAttribute), part .semicolon]),
   (.node .importClause, .choice [node .namespaceImport, node .namedImports,
      .seq [word, opt (.seq [",", .choice [node .namespaceImport, node .namedImports]])]]),
   (.part .source, .seq ["from", node .string]),
   (.node .namespaceImport, .seq ["*", "as", word]),
   (.node .namedImports, braced (node .importSpecifier)),
   (.node .importSpecifier, .choice [.plays .name word,
      .seq [.plays .name (part .moduleName), "as", word]]),
   (.node .importAttribute, .seq ["with", node .object]),
   (.part .statement, .choice [node .exportStatement, node .importStatement,
      node .debuggerStatement, node .expressionStatement, part .declaration,
      node .statementBlock, node .ifStatement, node .switchStatement, node .forStatement,
      node .forInStatement, node .whileStatement, node .doStatement, node .tryStatement,
      node .withStatement, node .breakStatement, node .continueStatement,
      node .returnStatement, node .throwStatement, node .emptyStatement,
      node .labeledStatement]),
   (.node .expressionStatement, .seq [part .expressions, part .semicolon]),
   (.node .variableDeclaration,
      .seq ["var", list1 (node .variableDeclarator), part .semicolon]),
   (.node .lexicalDeclaration, .seq [.plays .kind (oneOf ["let", "const"]),
      list1 (node .variableDeclarator), part .semicolon]),
   (.node .variableDeclarator, .seq [.plays .name binding, opt (part .initializer)]),
   (.node .statementBlock, .binds none (some .right)
      (.seq ["\x7b", rep (part .statement), "\x7d", optLineEnd])),
   (.node .elseClause, .seq ["else", part .statement]),
   (.node .ifStatement, .binds none (some .right) (.seq ["if",
      node .parenthesizedExpression, part .statement, opt (node .elseClause)])),
   (.node .switchStatement,
      .seq ["switch", .plays .value (node .parenthesizedExpression), node .switchBody]),
   (.node .forStatement, .seq ["for", "(", .choice [
        .choice [node .lexicalDeclaration, node .variableDeclaration],
        .seq [part .expressions, ";"],
        node .emptyStatement],
      .choice [.seq [part .expressions, ";"], node .emptyStatement],
      opt (part .expressions), ")", part .statement]),
   (.node .forInStatement, .seq ["for", opt "await", part .loopHeader, part .statement]),
   (.part .loopHeader, .seq ["(", .choice [
        .plays .left (.choice [part .place, node .parenthesizedExpression]),
        .seq [.plays .kind "var", .plays .left binding, opt (part .initializer)],
        .seq [.plays .kind (oneOf ["let", "const"]), .plays .left binding, optLineEnd]],
      oneOf ["in", "of"], part .expressions, ")"]),
   (.node .whileStatement,
      .seq ["while", node .parenthesizedExpression, part .statement]),
   (.node .doStatement, .binds none (some .right) (.seq ["do", part .statement, "while",
      node .parenthesizedExpression, opt (part .semicolon)])),
   (.node .tryStatement, .seq ["try", node .statementBlock, opt (node .catchClause),
      opt (node .finallyClause)]),
   (.node .withStatement, .seq ["with", node .parenthesizedExpression, part .statement]),
   (.node .breakStatement,
      .seq ["break", opt (.renames .statementIdentifier word), part .semicolon]),
   (.node .continueStatement,
      .seq ["continue", opt (.renames .statementIdentifier word), part .semicolon]),
   (.node .debuggerStatement, .seq ["debugger", part .semicolon]),
   (.node .returnStatement, .seq ["return", opt (part .expressions), part .semicolon]),
   (.node .throwStatement, .seq ["throw", part .expressions, part .semicolon]),
   (.node .emptyStatement, oneOf [";"]),
   (.node .labeledStatement,
      .weighs (-1) (.seq [nameAs .statementIdentifier, ":", part .statement])),
   (.node .switchBody,
      .seq ["\x7b", rep (.choice [node .switchCase, node .switchDefault]), "\x7d"]),
   (.node .switchCase,
      .seq ["case", .plays .value (part .expressions), ":", rep (part .statement)]),
   (.node .switchDefault, .seq ["default", ":", rep (part .statement)]),
   (.node .catchClause, .seq ["catch", opt (.seq ["(", .plays .parameter binding, ")"]),
      node .statementBlock]),
   (.node .finallyClause, .seq ["finally", node .statementBlock])]

/-! ## Expressions -/

/-- The rules of expressions and patterns up to bracketed lists. -/
def expressionRules : List (Construct × Rule) :=
  [(.node .parenthesizedExpression, .seq ["(", part .expressions, ")"]),
   (.part .expressions, .choice [part .expression, node .sequenceExpression]),
   (.part .expression, .choice [part .primary, part .markup, node .assignmentExpression,
      node .augmentedAssignmentExpression, node .awaitExpression, node .unaryExpression,
      node .binaryExpression, node .ternaryExpression, node .updateExpression,
      node .newExpression, node .yieldExpression]),
   (.part .primary, .choice [node .subscriptExpression, node .memberExpression,
      node .parenthesizedExpression, part .name, .renames .identifier (part .reservedName),
      token (.named .this "this"), token (.named .super "super"), token .number,
      node .string, node .templateString, node .regex,
      token (.named .trueLiteral "true"), token (.named .falseLiteral "false"),
      token (.named .null "null"), node .object, node .array, node .functionExpression,
      node .arrowFunction, node .generatorFunction, node .classExpression,
      node .metaProperty, node .callExpression]),
   (.node .yieldExpression, .binds none (some .right) (.seq ["yield",
      .choice [.seq ["*", part .expression], opt (part .expression)]])),
   (.node .object, .binds (some .object) none (holed "\x7b" "\x7d" [node .pair,
      node .spreadElement, node .methodDefinition, nameAs .shorthandPropertyIdentifier])),
   (.node .objectPattern, .binds (some .object) none (holed "\x7b" "\x7d" [
      node .pairPattern, node .restPattern, node .objectAssignmentPattern,
      nameAs .shorthandPropertyIdentifierPattern])),
   (.node .assignmentPattern,
      .seq [.plays .left (part .pattern), "=", part .expression]),
   (.node .objectAssignmentPattern, .seq [.plays .left (.choice [
      .renames .shorthandPropertyIdentifierPattern (.choice [part .reservedName, word]),
      part .destructuring]), "=", part .expression]),
   (.node .array, holed "[" "]" [part .expression, node .spreadElement]),
   (.node .arrayPattern, holed "[" "]" [part .pattern, node .assignmentPattern])]

def markupRules : List (Construct × Rule) :=
  [(.part .markup, .choice [node .element, node .selfClosingElement]),
   (.node .element,
      .seq [node .openingElement, rep (part .child), node .closingElement]),
   (.node .elementExpression, .seq ["\x7b", opt (.choice [part .expression,
      node .sequenceExpression, node .spreadElement]), "\x7d"]),
   (.part .child, .choice [token .elementText, token .reference, part .markup,
      node .elementExpression]),
   (.node .openingElement, .weighs (-1) (.seq ["<", opt (.seq [
      .plays .name (part .elementName), rep (part .attribute)]), ">"])),
   (.part .markupName, .choice [.renames .identifier (token .dashedName), word]),
   (.part .dottedName, .binds (some .member) none (.seq [
      .choice [word, .renames .memberExpression (part .dottedName)], ".",
      .plays .property (.renames .propertyIdentifier word)])),
   (.node .namespaceName, .seq [part .markupName, ":", part .markupName]),
   (.part .elementName, .choice [part .markupName,
      .renames .memberExpression (part .dottedName), node .namespaceName]),
   (.node .closingElement,
      .seq ["</", opt (.plays .name (part .elementName)), ">"]),
   (.node .selfClosingElement, .seq ["<", .plays .name (part .elementName),
      rep (part .attribute), "/>"]),
   (.part .attribute, .choice [node .elementAttribute, node .elementExpression]),
   (.part .attributeName, .choice [.renames .propertyIdentifier (part .markupName),
      node .namespaceName]),
   (.node .elementAttribute,
      .seq [part .attributeName, opt (.seq ["=", part .attributeValue])]),
   (.part .markupString, .choice [
      quotedBy "\"" [.renames .stringFragment (token .doubleMarkupText), token .reference],
      quotedBy "'" [.renames .stringFragment (token .singleMarkupText), token .reference]]),
   (.part .attributeValue, .choice [.renames .string (part .markupString),
      node .elementExpression, part .markup])]

/-- The rules of functions, classes, calls and operators. -/
def operandRules : List (Construct × Rule) :=
  [(.node .classExpression, .binds (some .literal) none (.seq [decorators, "class",
      .plays .name (opt word), opt (node .classHeritage), node .classBody])),
   (.node .classDeclaration, .binds (some .declare) none (.seq [decorators, "class",
      .plays .name word, opt (node .classHeritage), node .classBody, optLineEnd])),
   (.node .classHeritage, .seq ["extends", part .expression]),
   (.node .functionExpression,
      .binds (some .literal) none (.seq (functionHead [] (opt word)))),
   (.node .functionDeclaration, .binds (some .declare) (some .right)
      (.seq (functionHead [] word ++ [optLineEnd]))),
   (.node .generatorFunction,
      .binds (some .literal) none (.seq (functionHead ["*"] (opt word)))),
   (.node .generatorFunctionDeclaration, .binds (some .declare) (some .right)
      (.seq (functionHead ["*"] word ++ [optLineEnd]))),
   (.node .arrowFunction, .seq [opt "async", .choice [
        .plays .parameter (.choice [.renames .identifier (part .reservedName), word]),
        node .formalParameters], "=>",
      .choice [part .expression, node .statementBlock]]),
   (.part .parameter, .choice [part .pattern, node .assignmentPattern]),
   (.node .callExpression, .choice [
      .binds (some .call) none (.seq [.choice [part .expression, node .importWord],
        .choice [node .arguments, node .templateString]]),
      .binds (some .templateCall) none (.seq [
        .choice [part .primary, node .newExpression], node .templateString]),
      .binds (some .member) none (.seq [part .primary,
        token (.named .optionalChain "?."), node .arguments])]),
   (.node .newExpression, .binds (some .new) (some .right) (.seq ["new",
      .choice [part .primary, node .newExpression],
      opt (.weighs 1 (node .arguments))])),
   (.node .awaitExpression,
      .binds (some .unary) none (.seq ["await", part .expression])),
   (.node .memberExpression, .binds (some .member) none (.seq [
      .choice [part .expression, part .primary, node .importWord],
      .choice [".", token (.named .optionalChain "?.")],
      .plays .property (.choice [token .privateName, .renames .propertyIdentifier word])])),
   (.node .subscriptExpression, .binds (some .member) (some .right) (.seq [
      .choice [part .expression, part .primary],
      opt (token (.named .optionalChain "?.")), "[", part .expressions, "]"])),
   (.part .place, .choice [node .memberExpression, node .subscriptExpression, part .name,
      .renames .identifier (part .reservedName), part .destructuring]),
   (.node .assignmentExpression, .binds (some .assign) (some .right) (.seq [
      .plays .left (.choice [node .parenthesizedExpression, part .place]), "=",
      part .expression])),
   (.part .combinedTarget, .choice [node .memberExpression, node .subscriptExpression,
      .renames .identifier (part .reservedName), word, node .parenthesizedExpression]),
   (.node .augmentedAssignmentExpression, .binds (some .assign) (some .right) (.seq [
      .plays .left (part .combinedTarget),
      oneOf ["+=", "-=", "*=", "/=", "%=", "^=", "&=", "|=", ">>=", ">>>=", "<<=", "**=",
        "&&=", "||=", "??="],
      part .expression])),
   (.part .initializer, .seq ["=", .plays .value (part .expression)]),
   (.part .destructuring, .choice [node .objectPattern, node .arrayPattern]),
   (.node .spreadElement, .seq ["...", part .expression]),
   (.node .ternaryExpression, .binds (some .condition) (some .right) (.seq [
      part .expression, .renames (.token "?") (token .questionMark), part .expression, ":",
      part .expression])),
   (.node .binaryExpression, .choice [
      binary "&&" .and .left, binary "||" .or .left, binary ">>" .shift .left,
      binary ">>>" .shift .left, binary "<<" .shift .left, binary "&" .bitAnd .left,
      binary "^" .bitXor .left, binary "|" .bitOr .left, binary "+" .sum .left,
      binary "-" .sum .left, binary "*" .product .left, binary "/" .product .left,
      binary "%" .product .left, binary "**" .power .right, binary "<" .relation .left,
      binary "<=" .relation .left, binary "==" .equality .left,
      binary "===" .equality .left, binary "!=" .equality .left,
      binary "!==" .equality .left, binary ">=" .relation .left,
      binary ">" .relation .left, binary "??" .condition .left,
      binary "instanceof" .relation .left, binary "in" .relation .left]),
   (.node .unaryExpression, .binds (some .unary) (some .left) (.seq [
      oneOf ["!", "~", "-", "+", "typeof", "void", "delete"], part .expression])),
   (.node .updateExpression, .binds none (some .left) (.choice [
      .seq [part .expression, oneOf ["++", "--"]],
      .seq [oneOf ["++", "--"], part .expression]])),
   (.node .sequenceExpression, .binds none (some .right) (list1 (part .expression)))]

/-- The rules of literals, members and names. -/
def leafRules : List (Construct × Rule) :=
  [(.node .string, .choice [
      quotedBy "\"" [.renames .stringFragment (token .doubleText), token .escape],
      quotedBy "'" [.renames .stringFragment (token .singleText), token .escape]]),
   (.node .templateString, quotedBy "`" [.renames .stringFragment (token .templateText),
      token .escape, node .templateSubstitution]),
   (.node .templateSubstitution, .seq ["$\x7b", part .expressions, "\x7d"]),
   (.node .regex, .seq ["/", token .regexBody, token .regexClose,
      opt (token .regexFlags)]),
   (.part .name, .choice [token (.named .undefined "undefined"), word]),
   (.node .metaProperty,
      .choice [.seq ["new", ".", "target"], .seq ["import", ".", "meta"]]),
   (.node .arguments, holed "(" ")" [part .expression, node .spreadElement]),
   (.node .decorator, .seq ["@", .choice [word,
      .renames .memberExpression (part .dottedDecorator),
      .renames .callExpression (part .calledDecorator)]]),
   (.part .dottedDecorator, .binds (some .member) none (.seq [
      .choice [word, .renames .memberExpression (part .dottedDecorator)], ".",
      .plays .property (.renames .propertyIdentifier word)])),
   (.part .calledDecorator, .binds (some .call) none (.seq [
      .choice [word, .renames .memberExpression (part .dottedDecorator)],
      node .arguments])),
   (.node .classBody, .seq ["\x7b", rep (.choice [
      .seq [node .methodDefinition, opt ";"],
      .seq [node .fieldDefinition, .choice [token .lineEnd, ";"]],
      node .classStaticBlock, ";"]), "\x7d"]),
   (.node .fieldDefinition, .seq [decorators, staticModifier,
      .plays .property (part .propertyName), opt (part .initializer)]),
   (.node .formalParameters,
      .seq ["(", opt (.seq [list1 (part .parameter), opt ","]), ")"]),
   (.node .classStaticBlock, .seq ["static", optLineEnd, node .statementBlock]),
   (.part .pattern, .weighs (-1) (.choice [part .place, node .restPattern])),
   (.node .restPattern, .binds none (some .right) (.seq ["...", part .place])),
   (.node .methodDefinition, .seq [decorators, staticModifier, opt "async",
      opt (oneOf ["get", "set", "*"]), .plays .name (part .propertyName),
      node .formalParameters, node .statementBlock]),
   (.node .pair, .seq [part .propertyName, ":", .plays .value (part .expression)]),
   (.node .pairPattern, .seq [part .propertyName, ":",
      .plays .value (.choice [part .pattern, node .assignmentPattern])]),
   (.part .propertyName, .choice [nameAs .propertyIdentifier, token .privateName,
      node .string, token .number, node .computedPropertyName]),
   (.node .computedPropertyName, .seq ["[", part .expression, "]"]),
   (.part .reservedName, oneOf ["get", "set", "async", "static", "export", "let"]),
   (.part .semicolon, .choice [token .lineEnd, ";"])]

def rules : List (Construct × Rule) :=
  statementRules ++ expressionRules ++ markupRules ++ operandRules ++ leafRules

/-! ## How pieces bind -/

/-- An entry in an order of levels: a level, or all that a construct gives. -/
inductive Rank where
  | level (l : Level)
  | whole (c : Construct)
deriving DecidableEq, Repr, Inhabited

/-- Orders of levels, the tightest first. -/
def orders : List (List Rank) :=
  [[.level .member, .level .templateCall, .level .call, .whole (.node .updateExpression),
    .level .unary, .level .power, .level .product, .level .sum, .level .shift,
    .level .relation, .level .equality, .level .bitAnd, .level .bitXor, .level .bitOr,
    .level .and, .level .or, .level .condition, .whole (.node .sequenceExpression),
    .whole (.node .arrowFunction)],
   [.level .assign, .whole (.part .primary)],
   [.level .member, .level .templateCall, .level .new, .level .call,
    .whole (.part .expression)],
   [.level .declare, .level .literal],
   [.whole (.part .primary), .whole (.node .statementBlock), .level .object],
   [.whole (.node .metaProperty), .whole (.node .importWord)],
   [.whole (.node .importStatement), .whole (.node .importWord)],
   [.whole (.node .exportStatement), .whole (.part .primary)],
   [.whole (.node .lexicalDeclaration), .whole (.part .primary)]]

end ScriptInventory.Script.Grammar
