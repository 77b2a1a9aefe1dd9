import Shiba.Source.Position

/-!
# Values

A value is held by a *box*, and boxes are what variables, list elements, dictionary entries and
struct fields are.  Scalars stand in the value itself.  Lists, dictionaries and struct instances
are kept in a heap, and a value refers to one by its number there; so do functions and struct
definitions, whose identity a program can observe by comparing them.
-/

namespace Shiba

/-- The number of a box. -/
structure BoxId where
  index : Nat
deriving DecidableEq, Inhabited

/-- The number of a list. -/
structure ListId where
  index : Nat
deriving DecidableEq, Inhabited

/-- The number of a dictionary. -/
structure DictId where
  index : Nat
deriving DecidableEq, Inhabited

/-- The number of a struct instance. -/
structure InstanceId where
  index : Nat
deriving DecidableEq, Inhabited

/-- The number of a user-defined function. -/
structure FunctionId where
  index : Nat
deriving DecidableEq, Inhabited

/-- The number of a struct definition. -/
structure StructId where
  index : Nat
deriving DecidableEq, Inhabited

/-- The number of a module. -/
structure ModuleId where
  index : Nat
deriving DecidableEq, Inhabited

/-- The functions that come with the language: those visible everywhere and those of `math`. -/
inductive Builtin where
  | print | len | exit | env | keys | delete | type | str
  | mathAdd | mathSqrt | mathFloor | mathPow
deriving DecidableEq

namespace Builtin

/-- The name a program calls a function by. -/
def name : Builtin → String
  | .print => "print"
  | .len => "len"
  | .exit => "exit"
  | .env => "env"
  | .keys => "keys"
  | .delete => "delete"
  | .type => "type"
  | .str => "str"
  | .mathAdd => "add"
  | .mathSqrt => "sqrt"
  | .mathFloor => "floor"
  | .mathPow => "pow"

/-- The number of arguments a function takes; none when it takes any number. -/
def arity : Builtin → Option Nat
  | .print => none
  | .len => some 1
  | .exit => some 1
  | .env => some 0
  | .keys => some 1
  | .delete => some 2
  | .type => some 1
  | .str => some 1
  | .mathAdd => none
  | .mathSqrt => some 1
  | .mathFloor => some 1
  | .mathPow => some 2

/-- Whether a function belongs to a module and is not visible everywhere. -/
def isHosted : Builtin → Bool
  | .mathAdd | .mathSqrt | .mathFloor | .mathPow => true
  | _ => false

end Builtin

/-- The kinds of values. -/
inductive Kind where
  | nil | bool | int | float | str | list | dict | struct | function | method | builtin
  | hostFunction | module | structDef
deriving DecidableEq

/-- The name of a kind. -/
def Kind.text : Kind → String
  | .nil => "nil"
  | .bool => "bool"
  | .int => "i64"
  | .float => "f64"
  | .str => "str"
  | .list => "list"
  | .dict => "dict"
  | .struct => "struct"
  | .function => "func"
  | .method => "method"
  | .builtin => "builtin"
  | .hostFunction => "hostfunc"
  | .module => "mod"
  | .structDef => "structdef"

/-- Values.  A method is a function together with the instance it was selected from; a module
carries its name along. -/
inductive Value where
  | nil
  | bool (b : Bool)
  | int (n : Int64)
  | float (x : Float)
  | str (s : String)
  | list (l : ListId)
  | dict (d : DictId)
  | struct (i : InstanceId)
  | function (f : FunctionId)
  | method (f : FunctionId) (receiver : InstanceId)
  | builtin (b : Builtin)
  | module (m : ModuleId) (name : String)
  | structDef (s : StructId)
deriving Inhabited

namespace Value

/-- The kind of a value. -/
def kind : Value → Kind
  | .nil => .nil
  | .bool _ => .bool
  | .int _ => .int
  | .float _ => .float
  | .str _ => .str
  | .list _ => .list
  | .dict _ => .dict
  | .struct _ => .struct
  | .function _ => .function
  | .method _ _ => .method
  | .builtin b => if b.isHosted then .hostFunction else .builtin
  | .module _ _ => .module
  | .structDef _ => .structDef

/-- Whether a value can be viewed as a sequence, and so be indexed, sliced, unpacked and
iterated. -/
def isSequence : Value → Bool
  | .str _ | .list _ => true
  | _ => false

/-- Whether a value can be called. -/
def isCallable : Value → Bool
  | .function _ | .method _ _ | .builtin _ => true
  | _ => false

end Value

/-- What a dictionary files a key under: its kind and its canonical form. -/
structure Key where
  kind : Kind
  text : String
deriving DecidableEq

end Shiba
