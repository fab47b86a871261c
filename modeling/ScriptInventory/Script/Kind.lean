/-!
# Kinds and roles of syntax nodes

A `Kind` says what a node of the syntax tree is, a `Role` what it does for its
parent. `Kind.label` is the name under which a kind appears in messages.
-/

namespace ScriptInventory.Script

/-- What a node does for its parent, for the children that are looked up. -/
inductive Role where
  | name
  | property
  | value
  | left
  | kind
  | parameter
deriving DecidableEq, Repr, Inhabited

/-- What a node of the syntax tree is. A `token` is punctuation, an operator or a
keyword; such nodes are anonymous, and a tree need not hold those that no role
asks for. -/
inductive Kind where
  | program
  | error
  | comment
  | markupComment
  | hashBangLine
  | token (text : String)
  -- statements
  | importStatement
  | importClause
  | namespaceImport
  | namedImports
  | importSpecifier
  | importAttribute
  | exportStatement
  | exportClause
  | exportSpecifier
  | namespaceExport
  | debuggerStatement
  | expressionStatement
  | variableDeclaration
  | lexicalDeclaration
  | variableDeclarator
  | statementBlock
  | ifStatement
  | elseClause
  | switchStatement
  | switchBody
  | switchCase
  | switchDefault
  | forStatement
  | forInStatement
  | whileStatement
  | doStatement
  | tryStatement
  | catchClause
  | finallyClause
  | withStatement
  | breakStatement
  | continueStatement
  | returnStatement
  | throwStatement
  | emptyStatement
  | labeledStatement
  -- functions and classes
  | functionDeclaration
  | generatorFunctionDeclaration
  | functionExpression
  | generatorFunction
  | arrowFunction
  | formalParameters
  | classDeclaration
  | classExpression
  | classHeritage
  | classBody
  | classStaticBlock
  | methodDefinition
  | fieldDefinition
  | decorator
  -- expressions
  | parenthesizedExpression
  | sequenceExpression
  | assignmentExpression
  | augmentedAssignmentExpression
  | ternaryExpression
  | binaryExpression
  | unaryExpression
  | updateExpression
  | awaitExpression
  | yieldExpression
  | newExpression
  | callExpression
  | memberExpression
  | subscriptExpression
  | metaProperty
  | importWord
  | optionalChain
  | arguments
  | spreadElement
  | array
  | object
  | pair
  | templateString
  | templateSubstitution
  | escapeSequence
  | stringFragment
  | regex
  | regexPattern
  | regexFlags
  | element
  | openingElement
  | closingElement
  | selfClosingElement
  | elementAttribute
  | elementExpression
  | elementText
  | namespaceName
  | characterReference
  /-- A bracketed list that reads as a pattern only, such as one with a
  shorthand default; it never stands in a finished tree. -/
  | patternOnly
  -- patterns
  | arrayPattern
  | objectPattern
  | pairPattern
  | restPattern
  | assignmentPattern
  | objectAssignmentPattern
  -- names and other leaves
  | identifier
  | propertyIdentifier
  | privatePropertyIdentifier
  | shorthandPropertyIdentifier
  | shorthandPropertyIdentifierPattern
  | statementIdentifier
  | computedPropertyName
  | undefined
  | this
  | super
  | trueLiteral
  | falseLiteral
  | null
  | number
  | string
deriving DecidableEq, Repr, Inhabited

def Kind.label : Kind → String
  | .program => "program"
  | .error => "ERROR"
  | .comment => "comment"
  | .markupComment => "html_comment"
  | .hashBangLine => "hash_bang_line"
  | .token text => text
  | .importStatement => "import_statement"
  | .importClause => "import_clause"
  | .namespaceImport => "namespace_import"
  | .namedImports => "named_imports"
  | .importSpecifier => "import_specifier"
  | .importAttribute => "import_attribute"
  | .exportStatement => "export_statement"
  | .exportClause => "export_clause"
  | .exportSpecifier => "export_specifier"
  | .namespaceExport => "namespace_export"
  | .debuggerStatement => "debugger_statement"
  | .expressionStatement => "expression_statement"
  | .variableDeclaration => "variable_declaration"
  | .lexicalDeclaration => "lexical_declaration"
  | .variableDeclarator => "variable_declarator"
  | .statementBlock => "statement_block"
  | .ifStatement => "if_statement"
  | .elseClause => "else_clause"
  | .switchStatement => "switch_statement"
  | .switchBody => "switch_body"
  | .switchCase => "switch_case"
  | .switchDefault => "switch_default"
  | .forStatement => "for_statement"
  | .forInStatement => "for_in_statement"
  | .whileStatement => "while_statement"
  | .doStatement => "do_statement"
  | .tryStatement => "try_statement"
  | .catchClause => "catch_clause"
  | .finallyClause => "finally_clause"
  | .withStatement => "with_statement"
  | .breakStatement => "break_statement"
  | .continueStatement => "continue_statement"
  | .returnStatement => "return_statement"
  | .throwStatement => "throw_statement"
  | .emptyStatement => "empty_statement"
  | .labeledStatement => "labeled_statement"
  | .functionDeclaration => "function_declaration"
  | .generatorFunctionDeclaration => "generator_function_declaration"
  | .functionExpression => "function_expression"
  | .generatorFunction => "generator_function"
  | .arrowFunction => "arrow_function"
  | .formalParameters => "formal_parameters"
  | .classDeclaration => "class_declaration"
  | .classExpression => "class"
  | .classHeritage => "class_heritage"
  | .classBody => "class_body"
  | .classStaticBlock => "class_static_block"
  | .methodDefinition => "method_definition"
  | .fieldDefinition => "field_definition"
  | .decorator => "decorator"
  | .parenthesizedExpression => "parenthesized_expression"
  | .sequenceExpression => "sequence_expression"
  | .assignmentExpression => "assignment_expression"
  | .augmentedAssignmentExpression => "augmented_assignment_expression"
  | .ternaryExpression => "ternary_expression"
  | .binaryExpression => "binary_expression"
  | .unaryExpression => "unary_expression"
  | .updateExpression => "update_expression"
  | .awaitExpression => "await_expression"
  | .yieldExpression => "yield_expression"
  | .newExpression => "new_expression"
  | .callExpression => "call_expression"
  | .memberExpression => "member_expression"
  | .subscriptExpression => "subscript_expression"
  | .metaProperty => "meta_property"
  | .importWord => "import"
  | .optionalChain => "optional_chain"
  | .arguments => "arguments"
  | .spreadElement => "spread_element"
  | .array => "array"
  | .object => "object"
  | .pair => "pair"
  | .templateString => "template_string"
  | .templateSubstitution => "template_substitution"
  | .escapeSequence => "escape_sequence"
  | .stringFragment => "string_fragment"
  | .regex => "regex"
  | .regexPattern => "regex_pattern"
  | .regexFlags => "regex_flags"
  | .element => "jsx_element"
  | .openingElement => "jsx_opening_element"
  | .closingElement => "jsx_closing_element"
  | .selfClosingElement => "jsx_self_closing_element"
  | .elementAttribute => "jsx_attribute"
  | .elementExpression => "jsx_expression"
  | .elementText => "jsx_text"
  | .namespaceName => "jsx_namespace_name"
  | .characterReference => "html_character_reference"
  | .patternOnly => "pattern"
  | .arrayPattern => "array_pattern"
  | .objectPattern => "object_pattern"
  | .pairPattern => "pair_pattern"
  | .restPattern => "rest_pattern"
  | .assignmentPattern => "assignment_pattern"
  | .objectAssignmentPattern => "object_assignment_pattern"
  | .identifier => "identifier"
  | .propertyIdentifier => "property_identifier"
  | .privatePropertyIdentifier => "private_property_identifier"
  | .shorthandPropertyIdentifier => "shorthand_property_identifier"
  | .shorthandPropertyIdentifierPattern => "shorthand_property_identifier_pattern"
  | .statementIdentifier => "statement_identifier"
  | .computedPropertyName => "computed_property_name"
  | .undefined => "undefined"
  | .this => "this"
  | .super => "super"
  | .trueLiteral => "true"
  | .falseLiteral => "false"
  | .null => "null"
  | .number => "number"
  | .string => "string"

/-- Whether nodes of this kind are anonymous. -/
def Kind.isToken : Kind → Bool
  | .token _ => true
  | _ => false

end ScriptInventory.Script
