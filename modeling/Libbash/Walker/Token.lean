import Libbash.Lib.NodeStream
import Libbash.Lib.Computation

/-!
# Tokens of the tree grammar and what the walker can raise

The token types are those of `bashast.g` that the modelled rules of
`libbashWalker.g` mention. `Exn` lists everything that unwinds a rule: the
control exceptions of `builtin_exceptions.h`, the library errors of
`exceptions.h`, and the two ways in which generated code stops doing what its
grammar says.
-/

namespace Libbash

open Lib

/-- Token types, under the names of `bashast.g`. -/
inductive TokenType where
  -- command structure
  | list | command | currentShell | compoundCond | arithmeticExpression
  | logicAnd | logicOr | forTok | cfor | forInit | forCond | forMod
  | whileTok | untilTok | selectTok | timeTok | subshell | ifStatement | ifTok | elseTok
  | caseTok | casePattern | caseCommand | branch
  | redir | hereStringOp | string | variableDefinitions | function
  -- conditions
  | keywordTest | negation | matchPattern | notMatchPattern | matchRegularExpression
  | blank | eol | lparen | llparen | rparen | lsquare | rsquare
  -- operands of arithmetic
  | arithmetic | arithmeticCondition | number | digit | name | letter | underscore | varRef
  -- operators of arithmetic
  | pipe | caret | amp | leq | geq | lessThan | greaterThan | notEquals | equalsTo
  | lshift | rshift | plus | plusSign | minus | minusSign | times | slash | pct | exp
  | bang | tilde | preIncr | preDecr | postIncr | postDecr
  | equals | mulAssign | divideAssign | modAssign | plusAssign | minusAssign
  | lshiftAssign | rshiftAssign | andAssign | xorAssign | orAssign
  deriving DecidableEq, Repr

/-- A token: its type and its text. -/
structure Token where
  type : TokenType
  text : String := ""
  deriving DecidableEq, Repr

abbrev AstNode := NodeTree Token
abbrev NodeStream := List (Sym Token)

/-- A node with an imaginary token. -/
abbrev astNode (ty : TokenType) (children : List AstNode) : AstNode := .node ⟨ty, ""⟩ children

/-- The token a variable name is lexed as. -/
def nameToken (name : String) : Token :=
  if name = "_" then ⟨.underscore, name⟩
  else if name.length = 1 then ⟨.letter, name⟩
  else ⟨.name, name⟩

theorem nameToken_isName (name : String) :
    (nameToken name).type = .name ∨ (nameToken name).type = .letter ∨
      (nameToken name).type = .underscore := by
  unfold nameToken
  split_ifs <;> simp

theorem nameToken_text (name : String) : (nameToken name).text = name := by
  unfold nameToken
  split_ifs <;> rfl

/-- The classes of `exceptions.h` below `interpreter_exception`. -/
inductive ErrorKind where
  | interpreter | illegalArgument | parse | readonly | runtime | unsupported | divideByZero
  deriving DecidableEq, Repr

/-- The two classes derived from `loop_control_exception`. -/
inductive LoopControl where
  | continueException
  | breakException
  deriving DecidableEq, Repr

/-- What unwinds a walker rule. -/
inductive Exn where
  | returnException
  | loopControl (kind : LoopControl) (count : Int)
  | error (kind : ErrorKind) (what : String)
  /-- `boost::bad_lexical_cast`. -/
  | badLexicalCast
  /-- `boost::bad_numeric_cast`. -/
  | badNumericCast
  | suppressOutput
  /-- An exception of `boost::format`. -/
  | formatError
  /-- A rule met a node that none of its alternatives matches. -/
  | recognition
  /-- The C++ code has no defined behaviour from here on. -/
  | undefinedBehaviour
  /-- The observation of the run ends here. -/
  | interrupted
  deriving DecidableEq, Repr

/-- `loop_control_exception::rethrow_unless_correct_frame`. -/
def rethrowUnlessCorrectFrame {S : Type} (kind : LoopControl) (count : Int) : Comp Exn S Unit :=
  if count ≠ 1 then throw (.loopControl kind (count - 1)) else pure ()

end Libbash
