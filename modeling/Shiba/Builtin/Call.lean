import Shiba.Builtin.Math
import Shiba.Machine

/-!
# Calling the functions that come with the language

A function is called with the boxes of its arguments and answers a value of its own.
-/

namespace Shiba.Builtin

open Eval

/-- The number of elements of a value that has some. -/
def length (b : BoxId) : Eval Value := do
  let h := (← get).heap
  match h.value b with
  | .str s => return .int (.ofNat s.length)
  | .list l => return .int (.ofNat (h.items l).size)
  | .dict d => return .int (.ofNat (h.dictionary d).size)
  | v => raise (.typeMismatch "str, list or dict" (h.typeName v))

/-- A box that has to hold a dictionary. -/
def dictionary (b : BoxId) : Eval DictId := do
  match ← read b with
  | .dict d => return d
  | _ => raise (.typeMismatch "dict" (← typeName b))

/-- Ends the program with an exit code. -/
def exitWith (b : BoxId) : Eval Value := do
  match ← read b with
  | .int code => throw (.exit code)
  | _ => raise (.typeMismatch "i64" (← typeName b))

/-- A new list of deep copies of the keys of a dictionary. -/
def keyList (cfg : Config) (b : BoxId) : Eval Value := do
  let d ← dictionary b
  let keys := ((← get).heap.dictionary d).values.map (·.key)
  onHeap do
    let copies ← keys.mapM (HeapM.clone cfg.dataLimit)
    return .list (← HeapM.allocList copies.toArray)

/-- Removes a key that has to be there. -/
def deleteKey (cfg : Config) (b key : BoxId) : Eval Value := do
  let d ← dictionary b
  onHeap do
    if ← HeapM.dictDelete cfg.dataLimit d key then return .nil
    else HeapM.keyNotFound cfg.dataLimit b key

/-- What a function does with its arguments, which have to be of the right number. -/
def perform (cfg : Config) (f : Builtin) (args : List BoxId) : Eval Value := do
  match f, args with
  | .print, args =>
    let texts ← args.mapM (display cfg)
    Eval.print (" ".intercalate texts)
    return .nil
  | .len, [b] => length b
  | .exit, [b] => exitWith b
  | .env, [] =>
    let s ← get
    let text ← onHeap (HeapM.bounded fun h => s.registry.text h cfg.dataLimit)
    Eval.print text
    return .nil
  | .keys, [b] => keyList cfg b
  | .delete, [b, key] => deleteKey cfg b key
  | .type, [b] => return .str (← typeName b)
  | .str, [b] => return .str (← display cfg b)
  | .mathAdd, args =>
    let values ← args.mapM read
    onHeap (Math.add values)
  | .mathSqrt, [b] => do onHeap (Math.sqrt (← read b))
  | .mathFloor, [b] => do onHeap (Math.floor (← read b))
  | .mathPow, [a, b] => do onHeap (Math.pow (← read a) (← read b))
  | f, _ => raise (.invariant (.missingArgument f.name))

/-- Calls a function: the number of arguments has to be right, and the answer is in a new box. -/
def call (cfg : Config) (f : Builtin) (args : List BoxId) : Eval BoxId := do
  match f.arity with
  | some n => if args.length ≠ n then raise (.arity f.name n args.length)
  | none => pure ()
  trace cfg 3 do
    let shown ← args.mapM (canonical cfg)
    return "call builtin " ++ f.name ++ "(" ++ ", ".intercalate shown ++ ")"
  alloc (← perform cfg f args)

end Shiba.Builtin
