import Tomii.Codegen.PyApi
import Tomii.Foundations.PyForms
import Mathlib.Data.List.ReduceOption

/-! # The code generator (`tomii/_visualize/_codegen.py`)

`generate_python` writes the program line by line. It fails where `float` does not read the value of
a condition, and on an empty value type. -/
namespace Tomii.Codegen
open Types (FloatParsers)
open Python
open Loading (Factor ArgInit ArgJson PredJson InitJson LoopJson NodeConditionJson NodeJson GraphFile)
set_option autoImplicit false
set_option maxHeartbeats 250000

/-! ## Texts -/

/-- `str.isspace`, of one character. -/
def isSpace (c : Char) : Bool := isWhitespace c || (0x1c ≤ c.toNat && c.toNat ≤ 0x1f)

/-- `str.strip` -/
def strip (s : Text) : Text := (s.dropWhile isSpace).rdropWhile isSpace

/-- `', '.join` -/
def commaJoin (parts : List Text) : Text := [',', ' '].intercalate parts

/-- `_pyname` -/
def pyname (name : Text) : Text := name.map fun c => if c = '-' then '_' else c

/-- An f-string shows a missing value as `None`. -/
def shownValue (value : Option Text) : Text := value.getD "None".toList

section Encoders

variable {r : FloatParsers} (I : Interpreter r)

def digits (s : Text) : Text :=
  match s with
  | '+' :: rest => rest
  | '-' :: rest => rest
  | rest => rest

/-- `int` reads the text. Underscores stand between digits. -/
def readsAsInt (s : Text) : Bool :=
  ((digits (strip s)).splitOn '_').all fun group =>
    !group.isEmpty && group.all fun c => c.isDigit || I.digit c

def reprOrNone (value : Option Text) : Text := (value.map (pyRepr I.tables)).getD "None".toList

/-! ## Values -/

/-- `_factor_expr` -/
def factorExpr (varNames : List Text) : Factor → Text
  | .number n => showInt n
  | .ref factor =>
    if factor ∈ varNames then pyname factor
    else if readsAsInt I factor then factor
    else pyname factor

/-- `tm.type_(value)` -/
def wrapped (type value : Text) : Text := "tm.".toList ++ type ++ '(' :: value ++ [')']

/-- The element type is cut out of `Vec<…>`. -/
def vecExpr (type value : Text) : Text :=
  "tm.Vec(".toList ++ pyRepr I.tables (type.dropLast.drop 4) ++ ", [".toList ++ value ++
    "])".toList

def boolExpr (value : Option Text) : Text :=
  if value = some "true".toList then "True".toList else "False".toList

def startsWith (s type : Text) : Prop := s.isPrefixOf type = true

instance (s type : Text) : Decidable (startsWith s type) := by
  unfold startsWith
  infer_instance

/-- `_parse_init_value` -/
def parseInitValue (arg : ArgInit) : Text :=
  if arg.type = "$ref".toList then pyname arg.value
  else if arg.type = "bool".toList then boolExpr (some arg.value)
  else if arg.type = "f32".toList ∨ arg.type = "f64".toList then wrapped arg.type arg.value
  else if startsWith "i".toList arg.type ∨ startsWith "u".toList arg.type then
    if arg.type = "usize".toList then arg.value else wrapped arg.type arg.value
  else if arg.type = "String".toList then
    "tm.String(".toList ++ pyRepr I.tables arg.value ++ ")".toList
  else if startsWith "Complex".toList arg.type then wrapped arg.type arg.value
  else if startsWith "Vec".toList arg.type then vecExpr I arg.type arg.value
  else pyRepr I.tables arg.value

/-- `_encode_init_args` -/
def encodeInitArgs (args : List ArgInit) : Text :=
  commaJoin (args.map fun a =>
    if a.type = "$ref".toList then pyname a.value else parseInitValue I a)

/-- `_format_indexes` -/
def formatIndexes (varNames : List Text) (indexes : Text) : Text :=
  if ',' ∈ indexes then '[' :: indexes ++ [']']
  else if '-' ∈ indexes then
    let start := strip (indexes.takeWhile (· ≠ '-'))
    let stop := strip ((indexes.dropWhile (· ≠ '-')).drop 1)
    start ++ ", ".toList ++ if stop ∈ varNames then pyname stop else stop
  else strip indexes

/-- `node_pynames.get(name, _pyname(name))` -/
def nodePyname (nodePynames : List (Text × Text)) (name : Text) : Text :=
  (nodePynames.lookup name).getD (pyname name)

def methodOf (type : Text) : Option Text :=
  if type = "$res".toList then some "out".toList
  else if type = "$dep".toList then some "dep".toList
  else if type = "$barrier".toList then some "wait".toList
  else none

def groupByExpr (varNames : List Text) (groupBy : Option Factor) : Text :=
  groupBy.elim [] fun groupBy => ", group_by=".toList ++ factorExpr I varNames groupBy

/-- The last part of `_encode_arg`. Other types are skipped. -/
def literalExpr (type : Text) (value : Option Text) : Option Text :=
  if type = "bool".toList then some (boolExpr value)
  else if type = "f32".toList ∨ type = "f64".toList then some (wrapped type (shownValue value))
  else if type = "usize".toList then some (shownValue value)
  else if startsWith "i".toList type ∨ startsWith "u".toList type then
    some (wrapped type (shownValue value))
  else if type = "String".toList then
    some ("tm.String(".toList ++ reprOrNone I value ++ ")".toList)
  else if startsWith "Complex".toList type then some (wrapped type (shownValue value))
  else if startsWith "Vec".toList type then some (vecExpr I type (shownValue value))
  else none

variable (nodePynames : List (Text × Text)) (varNames : List Text)

/-- `_encode_arg` -/
def encodeArg (arg : ArgJson) : Option Text :=
  if arg.type = "$ref".toList then
    match arg.value with
    | some (c :: cs) => some (pyname (c :: cs))
    | _ => none
  else
    match methodOf arg.type, arg.predecessor with
    | some method, some pred =>
      some (nodePyname nodePynames pred.name ++ '.' :: method ++ '(' ::
        formatIndexes varNames pred.indexes ++ groupByExpr I varNames pred.groupBy ++ [')'])
    | _, _ => literalExpr I arg.type arg.value

def encodeArgs (args : List ArgJson) : List Text :=
  args.filterMap (encodeArg I nodePynames varNames)

/-- The value of a condition, if `float` reads it and there is a type. -/
def conditionValueExpr (valueType value : Text) : Option Text :=
  if valueType = "bool".toList then some (boolExpr (some value))
  else if valueType = "f32".toList ∨ valueType = "f64".toList then
    if value = [] then some (pyRepr I.tables value) else (I.floatOf value).map I.floats.str
  else if valueType = "usize".toList ∨ valueType = "isize".toList then some value
  else
    match valueType with
    | [] => none
    | c :: _ => if c = 'i' ∨ c = 'u' then some value else some (pyRepr I.tables value)

/-- `_encode_condition` -/
def encodeCondition (cond : NodeConditionJson) : Option Text :=
  (conditionValueExpr I cond.valueType cond.value).map fun value =>
    "Condition(operation=".toList ++ pyRepr I.tables cond.operation ++ ", value=".toList ++ value ++
      ", value_type=".toList ++ pyRepr I.tables cond.valueType ++ ", func=".toList ++
      pyRepr I.tables cond.function ++ ", args=[".toList ++
      commaJoin (encodeArgs I nodePynames varNames cond.args) ++ "])".toList

/-- `_encode_loop` -/
def encodeLoop (loop : LoopJson) : Text :=
  "Loop(name=".toList ++ pyRepr I.tables loop.name ++ ", factor=".toList ++
    loop.factor.elim "1".toList (factorExpr I varNames) ++ ")".toList

/-! ## Lines -/

def keyword (key value : Text) : Text := key ++ '=' :: value

/-- A text between double quotes, as it is. -/
def quoted (s : Text) : Text := '"' :: s ++ ['"']

/-- What is there and not empty. -/
def nonempty : Option Text → Option Text
  | some (c :: cs) => some (c :: cs)
  | _ => none

def initKwargs (init : InitJson) : List Text :=
  (match nonempty init.function with
    | some func => keyword "func".toList (quoted func) ::
        (if init.args = [] then []
          else [keyword "args".toList ('[' :: encodeInitArgs I init.args ++ [']'])])
    | none => (init.args.head?.map (parseInitValue I)).toList) ++
  (init.factor.map fun factor => keyword "factor".toList (factorExpr I varNames factor)).toList

def initLine (init : InitJson) : Text :=
  let kwargs := initKwargs I varNames init
  let kwargs := if kwargs = [] then ["None".toList] else kwargs
  margin ++ pyname init.name ++ " = app.var(".toList ++ pyRepr I.tables init.name ++
    ", ".toList ++ commaJoin kwargs ++ ")".toList

def argList (args : List Text) : Text := '[' :: commaJoin args ++ [']']

/-- The keywords of a node in their order. -/
def nodeKwargs (n : NodeJson) : Option (List Text) := do
  let condition ← n.condition.mapM (encodeCondition I nodePynames varNames)
  let args := encodeArgs I nodePynames varNames n.args
  pure <|
    [some (keyword "func".toList (quoted n.function)),
      n.factor.map fun factor => keyword "factor".toList (factorExpr I varNames factor),
      (nonempty n.priority).map fun s => keyword "priority".toList (pyRepr I.tables s),
      n.groupSize.map fun size => keyword "group_size".toList (factorExpr I varNames size),
      (nonempty n.useWorkers).map fun s => keyword "use_workers".toList (pyRepr I.tables s),
      n.loop.map fun loop => keyword "loop".toList (encodeLoop I varNames loop),
      if n.loopArgs.getD [] = [] then none
        else some (keyword "loop_args".toList
          (argList (encodeArgs I nodePynames varNames (n.loopArgs.getD [])))),
      condition.map (keyword "condition".toList),
      if args = [] then none else some (keyword "args".toList (argList args))].reduceOption

def callLine (pyName method name : Text) (kwargs : List Text) : Text :=
  margin ++ pyName ++ " = app.".toList ++ method ++ '(' :: pyRepr I.tables name ++ ", ".toList ++
    commaJoin kwargs ++ ")".toList

def callLines (pyName method name : Text) (kwargs : List Text) : List Text :=
  (margin ++ pyName ++ " = app.".toList ++ method ++ ['(']) ::
    (pyRepr I.tables name :: kwargs).map (fun kw => margin ++ margin ++ kw ++ [',']) ++
    [margin ++ [')']]

/-- `_append_node`. Calls of more than 88 characters are spread over lines. -/
def appendNode (post : Bool) (n : NodeJson) : Option (List Text) :=
  (nodeKwargs I nodePynames varNames n).map fun kwargs =>
    let pyName := nodePyname nodePynames n.name
    let method := if post then "post_node".toList else "node".toList
    if (callLine I pyName method n.name kwargs).length ≤ 88 then
      [callLine I pyName method n.name kwargs]
    else callLines I pyName method n.name kwargs

/-- A comment, the lines, and an empty line; nothing for an empty group. -/
def group (title : Text) (lines : List (List Text)) : List Text :=
  if lines = [] then [] else (margin ++ "# ".toList ++ title) :: lines.flatten ++ [[]]

end Encoders

/-! ## The program -/

def headerLines : List Text :=
  ["import tomii as tm".toList, "from tomii import Condition, Loop".toList, [], [],
    "def build_graph() -> tm.Graph:".toList]

def varNamesOf (d : GraphFile) : List Text := d.initializations.map (·.name)

def postNodesOf (d : GraphFile) : List NodeJson := d.postNodes.getD []

def nodePynamesOf (d : GraphFile) : List (Text × Text) :=
  (d.initializations.map (·.name) ++ (d.nodes ++ postNodesOf d).map (·.name)).map fun name =>
    (name, pyname name)

section Program

variable {r : FloatParsers} (I : Interpreter r)

/-- The lines after the header. -/
def bodyLines (d : GraphFile) : Option (List Text) := do
  let nodes ← d.nodes.mapM (appendNode I (nodePynamesOf d) (varNamesOf d) false)
  let postNodes ← (postNodesOf d).mapM (appendNode I (nodePynamesOf d) (varNamesOf d) true)
  pure (["    app = tm.Graph()".toList, []] ++
    group "Variables".toList (d.initializations.map fun init => [initLine I (varNamesOf d) init]) ++
    group "Nodes".toList nodes ++ group "Post-nodes".toList postNodes ++
    ["    return app".toList, []])

/-- `generate_python` -/
def generatePython (d : GraphFile) : Option Text :=
  (bodyLines I d).map fun lines => ['\n'].intercalate (headerLines ++ lines)

end Program

end Tomii.Codegen
