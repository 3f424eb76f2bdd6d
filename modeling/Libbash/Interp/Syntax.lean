import Libbash.Walker.Syntax
import Libbash.Arith.Operators

/-!
# Words, expansions and simple commands

The trees below the command level, one type for each rule of `libbashWalker.g`:
`string_expr`, `string_part`, `var_ref`, `var_expansion`, `arithmetics`, the
conditions, `redirect` and the three kinds of `command_atom` that are no
compound command. The text of a command substitution and the word of an
expansion are strings: they are parsed when they are evaluated.

An arithmetic tree is divided into operands as the rule `arithmetics` divides
it: `parts` is a run of `ARITHMETIC` siblings that one call walks, and `missing`
is an operand for which no node is left. A pattern is the list of its tokens in
the order in which they are walked.
-/

namespace Libbash

/-- The characters of a name after the first. -/
def isNameChar (c : Char) : Bool := c.isAlphanum || c == '_'

/-- The texts of `NAME`, `LETTER` and `'_'`. -/
def isIdentifier (text : String) : Bool :=
  match text.toList with
  | [] => false
  | c :: cs => (c.isAlpha || c == '_') && cs.all isNameChar

/-- `name_base`. -/
structure Identifier where
  text : String
  isName : isIdentifier text = true

theorem isIdentifier_a : isIdentifier "a" = true := by decide

theorem isIdentifier_x : isIdentifier "x" = true := by decide

/-- The four nodes that count a variable up or down. -/
inductive CountOp where
  | preIncr | preDecr | postIncr | postDecr
  deriving DecidableEq

/-- `raw_string`; `none` is `EMPTY_EXPANSION_VALUE`. -/
abbrev RawString := Option String

/-- The nodes of `var_expansion` that replace or remove matches of a pattern. -/
inductive ReplaceKind where
  | replaceAll | replaceAtEnd | lazyRemoveAtEnd | replaceAtStart | lazyRemoveAtStart
  | replaceFirst
  deriving DecidableEq

/-- The extended patterns. -/
inductive ExtendedMatch where
  | atMostOne | any | atLeastOne | exactlyOne | none
  deriving DecidableEq

mutual

/-- `string_expr`. -/
inductive Word where
  | string (parts : List WordPart)

inductive WordPart where
  | part (p : StringPart)
  /-- `BRACE_EXP`. -/
  | brace (elements : List Word)

/-- `string_part`. -/
inductive StringPart where
  | doubleQuoted (parts : List QuotedPart)
  | singleQuoted (text : String)
  | arith (e : ArithExpr)
  | varRef (r : VarRef)
  | commandSub (subscript : String)
  /-- `ANSI_C_QUOTING`. -/
  | ansiC (text : String)
  /-- `ESCAPED_CHAR`. -/
  | escaped (text : String)
  | text (text : String)

/-- `double_quoted_string`. -/
inductive QuotedPart where
  | varRef (r : VarRef)
  | arith (e : ArithExpr)
  | commandSub (subscript : String)
  | text (text : String)

/-- `var_ref`. -/
inductive VarRef where
  | var (n : ParameterName)
  | array (n : ArrayName)
  | pound
  | qmark
  | bang
  | expansion (e : VarExpansion)

/-- `var_name`. -/
inductive ParameterName where
  | num (digits : String)
  | name (n : Name)
  /-- `^(VAR_REF var_name_for_bang)` of a number. -/
  | indirectNum (digits : String)
  /-- `^(VAR_REF var_name_for_bang)` of a name. -/
  | indirectName (n : Name)
  /-- `^(VAR_REF POUND)`. -/
  | indirectPound
  | minus

/-- `name`. -/
inductive Name where
  | base (libbashName : Identifier)
  | element (libbashName : Identifier) (index : ArithExpr)

/-- `array_name`. -/
inductive ArrayName where
  | array (n : Name)
  | times
  | at

/-- `var_or_array_name`. -/
inductive VarOrArrayName where
  | array (n : ArrayName)
  | var (n : ParameterName)

/-- `var_expansion`; `orNull` is set in the forms that take a null value for an
unset one. -/
inductive VarExpansion where
  | useDefault (orNull : Bool) (n : ParameterName) (w : RawString)
  | assignDefault (orNull : Bool) (n : ParameterName) (w : RawString)
  | useAlternate (orNull : Bool) (n : ParameterName) (w : RawString)
  | subarray (n : ArrayName) (offset : ArithExpr)
  | subarrayLength (n : ArrayName) (offset length : ArithExpr)
  | substring (n : ParameterName) (offset : ArithExpr)
  | substringLength (n : ParameterName) (offset length : ArithExpr)
  | length (n : ParameterName)
  | arraySize (libbashName : Identifier)
  | replace (kind : ReplaceKind) (n : VarOrArrayName) (pattern : List PatternToken)
      (w : Option RawString)

/-- A token of `bash_pattern` or `composite_pattern`. -/
inductive PatternToken where
  | matchAll
  | matchOne
  /-- `MATCH_ANY`, or `MATCH_ANY_EXCEPT` when `negation` is set. -/
  | openBracket (negation : Bool)
  | characterClass (libbashName : String)
  | closeBracket
  | openExtended (kind : ExtendedMatch)
  | closeExtended (kind : ExtendedMatch)
  | branch
  | part (p : StringPart)

/-- `arithmetics`. -/
inductive ArithExpr where
  | parts (ps : List ArithExpr)
  | missing
  | num (text : String)
  | unary (op : Arith.UnaryOp) (l : ArithExpr)
  | binary (op : Arith.BinaryOp) (l r : ArithExpr)
  | logic (op : Arith.LogicOp) (l r : ArithExpr)
  | condition (cnd l r : ArithExpr)
  | primary (p : Primary)
  | count (op : CountOp) (p : Primary)
  | equals (p : Primary) (l : ArithExpr)
  | assign (op : Arith.AssignOp) (p : Primary) (l : ArithExpr)
  /-- `ARITHMETIC_EXPRESSION`. -/
  | expression (l : ArithExpr)
  /-- `^(VAR_REF var_expansion)`. -/
  | expansion (e : VarExpansion)

/-- `primary`. -/
inductive Primary where
  | name (n : Name)
  | varRef (r : VarRef)

end

/-- The operand is one node. -/
def ArithExpr.isNode : ArithExpr → Bool
  | .parts ps => ps.length == 1
  | .missing => false
  | _ => true

/-! ## Conditions -/

/-- The comparisons of two words. -/
inductive Comparison where
  | equals | notEquals | lessThan | greaterThan
  deriving DecidableEq

/-- `common_condition`. -/
inductive CommonCondition where
  /-- `-eq` and the other operators that are names. -/
  | binary (op : String) (left right : Word)
  | unary (op : Char) (w : Word)
  | compare (op : Comparison) (left right : Word)
  /-- `MATCH_PATTERN`, or `NOT_MATCH_PATTERN` when `negation` is set. -/
  | matchPattern (negation : Bool) (left : Word) (pattern : List PatternToken)
  | string (w : Word)

/-- `keyword_condition`. -/
inductive KeywordCondition where
  | logicOr (l r : KeywordCondition)
  | logicAnd (l r : KeywordCondition)
  | negation (l : KeywordCondition)
  | matchRegularExpression (left right : Word)
  | common (c : CommonCondition)

/-- `builtin_condition`. -/
inductive BuiltinCondition where
  | logicOr (l r : BuiltinCondition)
  | logicAnd (l r : BuiltinCondition)
  | negation (l : BuiltinCondition)
  /-- `ESC_LT`, or `ESC_GT`. -/
  | escaped (greater : Bool) (l r : Word)
  | common (c : CommonCondition)

/-- `cond_expr`. -/
inductive CondExpr where
  | keyword (c : KeywordCondition)
  | builtin (c : BuiltinCondition)

/-! ## Commands -/

/-- An element of `array_def_helper`. -/
inductive ArrayElement where
  | next (w : Word)
  | at (index : ArithExpr) (w : Word)

/-- `var_def`. -/
inductive VarDef where
  /-- `^(EQUALS name string_expr?)`. -/
  | scalar (n : Name) (w : Option Word)
  /-- `^(EQUALS name_base array_def_helper)`. -/
  | array (libbashName : Identifier) (elements : List ArrayElement)
  /-- `^(PLUS_ASSIGN name_base array_def_helper)`. -/
  | append (libbashName : Identifier) (elements : List ArrayElement)

/-- The parts of `redirect`. -/
inductive RedirectDestination where
  | file (w : Word)
  /-- `FILE_DESCRIPTOR`, or `FILE_DESCRIPTOR_MOVE` when `move` is set. -/
  | descriptor (move : Bool)

/-- `redirect`. -/
inductive Redirection where
  /-- `LESS_THAN`, with a `DIGIT` in front of it when `digit` is set. -/
  | input (digit : Bool) (d : RedirectDestination)
  /-- `GREATER_THAN`. -/
  | output (digit : Bool) (d : RedirectDestination)
  | hereString (w : Word)

/-- The kinds of `command_atom` that are no compound command. The body of a
function is a part of the tree that the node is in, and `index` says which. -/
inductive SimpleCommand where
  | variableDefinitions (isLocal : Bool) (defs : List VarDef)
  | functionDefinition (libbashName : String) (index : Nat)
  | simple (name : Word) (args : List Word) (defs : List VarDef) (bang : Bool)

/-- The syntax below the command level, with its structure. -/
abbrev shell : Leaves where
  Redirect := Redirection
  Simple := SimpleCommand
  Word := Word
  Pattern := List PatternToken
  Arith := ArithExpr
  Cond := CondExpr

/-- What a `bash_ast` object holds: the result of one of the parser rules `start`
and `builtin_variable_definitions` (a list of commands, and the bodies of the
functions defined in it), `all_expansions` or `arithmetics`. -/
inductive Tree where
  | script (main : CommandList shell) (bodies : List (Compound shell))
  | word (w : Word)
  | arithmetic (e : ArithExpr)

end Libbash
