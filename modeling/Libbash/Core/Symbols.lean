import Libbash.Walker.Token
import Std.Data.ExtTreeMap

/-!
# Variables

The class `variable` of `symbols.hpp`. A value is a string or a `long`; a
variable maps indices of type `unsigned` to values, and a scalar is the
variable that has index 0.
-/

namespace Libbash

open Lib Lib.Comp

/-- `boost::variant<std::string, long>`. -/
inductive Value where
  | str (s : String)
  | num (n : Int64)
  deriving DecidableEq

/-- `converter<std::string>`. -/
def Value.toStr : Value → String
  | .str s => s
  | .num n => toString n.toInt

/-- `std::map<unsigned, boost::variant<std::string, long>>`. -/
abbrev Values := Std.ExtTreeMap UInt32 Value

structure Variable where
  name : String
  value : Values
  readonly : Bool
  deriving DecidableEq

/-- What a variable is made of: the two constructors of `variable`. -/
inductive Initial where
  | scalar (v : Value) (index : UInt32)
  | array (values : Std.ExtTreeMap UInt32 String)

namespace Variable

/-- The constructors; the one for arrays does not look at the index. -/
def new (name : String) (init : Initial) (readonly : Bool) : Variable where
  name := name
  value := match init with
    | .scalar v index => (∅ : Values).insert index v
    | .array values => values.map fun _ s => .str s
  readonly := readonly

/-- `get_value<std::string>`. -/
def getValueString (v : Variable) (index : UInt32) : String :=
  match v.value[index]? with
  | none => ""
  | some value => value.toStr

def isUnset (v : Variable) (index : UInt32) : Bool := v.value[index]?.isNone

def isNull (v : Variable) (index : UInt32) : Bool := v.getValueString index == ""

/-- `set_value`, on the variable itself. -/
def setValue (new : Value) (index : UInt32) : Comp Exn Variable Unit := do
  let v ← reads id
  if v.readonly then throw (.error .readonly (v.name ++ " is readonly variable"))
  else update fun v => { v with value := v.value.insert index new }

/-- `unset_value`, on the variable itself. -/
def unsetValue (index : UInt32) : Comp Exn Variable Unit := do
  let v ← reads id
  if v.readonly then throw (.error .readonly (v.name ++ " is readonly variable"))
  else update fun v => { v with value := v.value.erase index }

end Variable

/-- `std::map<std::string, std::shared_ptr<variable>>`. -/
abbrev Scope := Std.ExtTreeMap String Variable

end Libbash
