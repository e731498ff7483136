import Tomii.Types.PythonValues
import Mathlib.Logic.Function.Basic

/-! # Nodes with a Python body (`tomii/_graph.py`, `tomii/_export.py`)

`Graph.py_node` makes a variable that loads the callable, unless its table says that there is
one, and a node whose first argument is the variable. The values a caller passes on to the node
are of any type. -/
namespace Tomii.Builder
set_option autoImplicit false
set_option maxHeartbeats 250000

open Tomii.Types (TypedValue)

/-! ## Exported functions -/

/-- A function object with its `__module__` and `__name__`. -/
structure PyFunction where
  id : ℕ
  module : Text
  name : Text
deriving DecidableEq, Repr

/-- `module` and `fn_name` are those of the function. -/
structure ExportMeta where
  fn : PyFunction
  qualname : Text
  variadic : Bool
deriving DecidableEq, Repr

def ExportMeta.bridge (m : ExportMeta) : Text :=
  if m.variadic then "py_call_void".toList else "py_call_any".toList

/-- `_TOMII_REGISTRY` and the attribute `__tomii_export__` of each function. -/
structure Exports where
  registry : Text → Option ExportMeta
  tomiiExport : PyFunction → Option ExportMeta

def noExports : Exports := ⟨fun _ => none, fun _ => none⟩

/-- The registry key; an empty `name` counts as no name. -/
def exportKey (fn : PyFunction) (name : Option Text) : Text :=
  match name with
  | some (c :: cs) => c :: cs
  | _ => fn.module ++ '.' :: fn.name

/-- The decorator `export`; a function of `__main__` is refused. -/
def Exports.decorate (e : Exports) (fn : PyFunction) (variadic : Bool) (name : Option Text) :
    Option Exports :=
  if fn.module = "__main__".toList then none
  else
    let m : ExportMeta := ⟨fn, exportKey fn name, variadic⟩
    some ⟨Function.update e.registry m.qualname (some m), Function.update e.tomiiExport fn (some m)⟩

/-- The argument `fn` of `py_node`: a registry key or a function. -/
inductive FnRef where
  | key (qualname : Text)
  | function (fn : PyFunction)

/-- The export `fn` stands for, once the import of its module was tried. -/
def Exports.resolve (e : Exports) : FnRef → Option ExportMeta
  | .key qualname => e.registry qualname
  | .function fn => e.tomiiExport fn

/-! ## The graph -/

structure Var where
  name : Text
  value : Option TypedValue
  func : Option Text
  args : List TypedValue
deriving DecidableEq, Repr

/-- A node argument: the variable of a callable, or a value of the caller. -/
inductive NodeArg (V : Type) where
  | var (v : Var)
  | value (a : V)
deriving DecidableEq

/-- What `py_node` hands to the node as it is. -/
structure NodeOptions (V : Type) where
  factor : Option V
  priority : Option Text
  useWorkers : Option Text
  groupSize : Option ℤ
deriving DecidableEq

structure GraphNode (V : Type) where
  name : Text
  func : Text
  args : List (NodeArg V)
  options : NodeOptions V
deriving DecidableEq

/-- A `Graph`; the table of callables is a dict, its newest entry first. -/
structure GraphBuilder (V : Type) where
  vars : List Var
  nodes : List (GraphNode V)
  names : List Text
  pyCallableVars : List (Text × Var)

inductive BuildError where
  | duplicateName (name : Text)
  | keyError (key : Text)
  | notExported
  | valueOrFunc (name : Text)
deriving DecidableEq, Repr

/-- `Var(name, value, func=…, args=…)`: exactly one of value and function. -/
def Var.new (name : Text) (value : Option TypedValue) (func : Option Text)
    (args : List TypedValue) : Except BuildError Var :=
  if value.isSome = func.isSome then .error (.valueOrFunc name) else .ok ⟨name, value, func, args⟩

namespace GraphBuilder

variable {V : Type}

def empty : GraphBuilder V := ⟨[], [], [], []⟩

variable (g : GraphBuilder V)

def checkName (name : Text) : Except BuildError Unit :=
  if name ∈ g.names then .error (.duplicateName name) else .ok ()

def var (name : Text) (value : Option TypedValue) (func : Option Text) (args : List TypedValue) :
    Except BuildError (Var × GraphBuilder V) :=
  g.checkName name >>= fun _ => Var.new name value func args >>= fun v =>
    .ok (v, { g with vars := g.vars ++ [v], names := name :: g.names })

def node (name func : Text) (args : List (NodeArg V)) (options : NodeOptions V) :
    Except BuildError (GraphBuilder V) :=
  g.checkName name >>= fun _ =>
    .ok { g with nodes := g.nodes ++ [⟨name, func, args, options⟩], names := name :: g.names }

end GraphBuilder

/-! ## `py_node` -/

/-- `.replace('.', '_').replace('-', '_')` -/
def flattenName (s : Text) : Text := s.map fun c => if c = '.' ∨ c = '-' then '_' else c

def ExportMeta.initName (m : ExportMeta) : Text := "_py_".toList ++ flattenName m.qualname

def loadCallable : Text := "py_load_callable".toList

def pyText (s : Text) : TypedValue := ⟨"String".toList, s⟩

structure PyNodeCall (V : Type) where
  name : Text
  fn : FnRef
  args : List V
  options : NodeOptions V

namespace GraphBuilder

variable {V : Type} (g : GraphBuilder V)

/-- The variable of a callable. The test looks for the variable's name in the table, the table
is kept by qualified name. -/
def callableVar (m : ExportMeta) : Except BuildError (Var × GraphBuilder V) :=
  if m.initName ∉ g.pyCallableVars.map (·.1) then
    (g.var m.initName none (some loadCallable) [pyText m.fn.module, pyText m.fn.name]).map
      fun r => (r.1, { r.2 with pyCallableVars := (m.qualname, r.1) :: r.2.pyCallableVars })
  else
    match g.pyCallableVars.lookup m.qualname with
    | some v => .ok (v, g)
    | none => .error (.keyError m.qualname)

def addPyNode (c : PyNodeCall V) (m : ExportMeta) : Except BuildError (GraphBuilder V) :=
  g.callableVar m >>= fun r =>
    r.2.node c.name m.bridge (.var r.1 :: c.args.map .value) c.options

def pyNode (e : Exports) (c : PyNodeCall V) : Except BuildError (GraphBuilder V) :=
  match e.resolve c.fn with
  | some m => g.addPyNode c m
  | none => .error .notExported

/-- A sequence of calls; the first error ends it. -/
def pyNodes (e : Exports) (cs : List (PyNodeCall V)) : Except BuildError (GraphBuilder V) :=
  cs.foldlM (fun g c => g.pyNode e c) g

end GraphBuilder

end Tomii.Builder
