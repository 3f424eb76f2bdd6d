import Libbash.Walker.Token

/-!
# Command trees

The trees that the `command` rules of `bashast.g` build, with the parts whose
rules the command walker calls but does not look into (`Leaves`) left open.
`^(COMMAND redirect* command_atom)` is a `Command`, `compound_command` is a
`Compound`, `logic_command_list` is a `LogicCommand`, and `^(LIST ..)` is a
`CommandList`, which is never empty.
-/

namespace Libbash

/-- The syntax below the command level. -/
structure Leaves where
  /-- `redirect`. -/
  Redirect : Type
  /-- `variable_definitions`, `function_definition` and `simple_command`. -/
  Simple : Type
  /-- `string_expr` and `word`. -/
  Word : Type
  /-- `composite_pattern`. -/
  Pattern : Type
  /-- `arithmetics`. -/
  Arith : Type
  /-- `cond_expr`. -/
  Cond : Type

mutual

/-- `^(COMMAND redirect* command_atom)`. -/
inductive Command (X : Leaves) where
  | simple (redirs : List X.Redirect) (c : X.Simple)
  | compound (redirs : List X.Redirect) (c : Compound X)

/-- `compound_command`. -/
inductive Compound (X : Leaves) where
  | currentShell (body : CommandList X)
  | cond (c : X.Cond)
  | arith (e : X.Arith)
  | forEach (name : String) (words : List X.Word) (body : CommandList X)
  | cfor (init cond mod : Option X.Arith) (body : CommandList X)
  /-- `WHILE`, or `UNTIL` when `negate` is set. -/
  | loop (negate : Bool) (cond body : CommandList X)
  | ifStatement (cond body : CommandList X) (rest : ElseParts X)
  | caseOf (w : X.Word) (clauses : Clauses X)

/-- `logic_command_list`: `&&` when `isAnd` is set, `||` otherwise. -/
inductive LogicCommand (X : Leaves) where
  | command (c : Command X)
  | logic (isAnd : Bool) (left : LogicCommand X) (right : Command X)

/-- `^(LIST logic_command_list+)`. -/
inductive CommandList (X : Leaves) where
  | last (c : LogicCommand X)
  | cons (c : LogicCommand X) (rest : CommandList X)

/-- What follows the first `IF` part of an `IF_STATEMENT`. -/
inductive ElseParts (X : Leaves) where
  | fi
  | elsePart (body : CommandList X)
  | elif (cond body : CommandList X) (rest : ElseParts X)

/-- The `CASE_PATTERN` parts of a `CASE`, with or without commands. -/
inductive Clauses (X : Leaves) where
  | esac
  | empty (p : X.Pattern) (rest : Clauses X)
  | commands (p : X.Pattern) (body : CommandList X) (rest : Clauses X)

end

end Libbash
