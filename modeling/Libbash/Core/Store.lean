import Libbash.Core.Symbols

/-!
# The variable store of the interpreter

`members` and `local_members` of the class `interpreter` with the operations
that read and change them. The vector `local_members` is a list with its
`back()` first. A `shared_ptr` to a variable is where the variable is stored: a
change through the pointer is a change of that entry.
-/

namespace Libbash

open Lib Lib.Comp

structure Store where
  members : Scope
  localMembers : List Scope
  deriving DecidableEq

/-- The constructor of `local_scope`. -/
def pushScope : Comp Exn Store Unit :=
  update fun s => { s with localMembers := ∅ :: s.localMembers }

/-- The destructor of `local_scope`. -/
def popScope : Comp Exn Store Unit := do
  let s ← reads id
  match s.localMembers with
  | [] => throw .undefinedBehaviour
  | _ :: frames => update fun s => { s with localMembers := frames }

/-- The loop over `local_members` in `resolve_variable`. -/
def resolveLocal (name : String) : List Scope → Option Variable
  | [] => none
  | frame :: frames =>
    match frame[name]? with
    | some v => some v
    | none => resolveLocal name frames

def Store.resolveVariable (s : Store) (name : String) : Option Variable :=
  if name.isEmpty then none
  else
    match resolveLocal name s.localMembers with
    | some v => some v
    | none => s.members[name]?

/-- Change the first entry for `name`, if there is one. -/
def assignLocal (name : String) (v : Variable) : List Scope → Option (List Scope)
  | [] => none
  | frame :: frames =>
    match frame[name]? with
    | some _ => some (frame.insert name v :: frames)
    | none => (assignLocal name v frames).map (frame :: ·)

/-- A change through the pointer that `resolve_variable` has returned. -/
def Store.assign (s : Store) (name : String) (v : Variable) : Store :=
  match assignLocal name v s.localMembers with
  | some frames => { s with localMembers := frames }
  | none => { s with members := s.members.insert name v }

/-- Run `m` on the variable that a pointer refers to. -/
def throughPointer (name : String) (v : Variable) (m : Comp Exn Variable Unit) :
    Comp Exn Store Unit := fun s =>
  match m v with
  | none => none
  | some (r, v') => some (r, s.assign name v')

/-- `define`. -/
def define (name : String) (init : Initial) (readonly : Bool) : Comp Exn Store Unit :=
  update fun s => { s with members := s.members.insert name (.new name init readonly) }

/-- `define_local`. -/
def defineLocal (name : String) (init : Initial) (readonly : Bool) : Comp Exn Store Unit := do
  let s ← reads id
  match s.localMembers with
  | [] => throw (.error .runtime "Define local variables outside function scope")
  | frame :: frames =>
    update fun s =>
      { s with localMembers := frame.insert name (.new name init readonly) :: frames }

/-- `set_value`. -/
def setValue (name : String) (new : Value) (index : UInt32) : Comp Exn Store Unit := do
  let s ← reads id
  match s.resolveVariable name with
  | some v => throughPointer name v (Variable.setValue new index)
  | none => define name (.scalar new index) false

/-- `check_unset_positional`; the first character of an empty name is no digit. -/
def checkUnsetPositional (name : String) : Comp Exn Store Unit :=
  if (name.toList.head?.map Char.isDigit).getD false then
    throw (.error .runtime "unset: not a valid identifier")
  else pure ()

/-- The function object `unsetter` of `unset`. -/
def unsetter (name : String) : Comp Exn Scope Bool := do
  let frame ← reads id
  match frame[name]? with
  | some v =>
    if v.readonly then throw (.error .readonly "unset a readonly variable")
    else do
      update fun frame => frame.erase name
      pure true
  | none => pure false

/-- `std::none_of` with a predicate that changes the elements. -/
def noneOf {T : Type} (p : Comp Exn T Bool) : Comp Exn (List T) Bool
  | [] => some (.ok true, [])
  | x :: xs =>
    match p x with
    | none => none
    | some (.error e, x') => some (.error e, x' :: xs)
    | some (.ok true, x') => some (.ok false, x' :: xs)
    | some (.ok false, x') =>
      match noneOf p xs with
      | none => none
      | some (r, xs') => some (r, x' :: xs')

/-- `unset` of a variable. -/
def unset (name : String) : Comp Exn Store Unit := do
  checkUnsetPositional name
  let none ← zoom Store.localMembers (fun frames s => { s with localMembers := frames })
    (noneOf (unsetter name))
  if none then do
    let _ ← zoom Store.members (fun scope s => { s with members := scope }) (unsetter name)
    pure ()
  else pure ()

/-- `unset` of an element. -/
def unsetIndex (name : String) (index : UInt32) : Comp Exn Store Unit := do
  checkUnsetPositional name
  let s ← reads id
  match s.resolveVariable name with
  | some v =>
    if v.readonly then throw (.error .readonly "unset a readonly variable")
    else throughPointer name v (Variable.unsetValue index)
  | none => pure ()

end Libbash
