import Tomii.Exports.Converter

/-! # Annotated C declarations (`tomii-converter/src/c_header.rs`)

A header is read line by line. A declaration that follows an annotation becomes an entry: what its
parameters and its result are to the wrapper. -/
namespace Tomii.CHeader
open Tomii.Exports (PrimKind)
set_option autoImplicit false
set_option maxHeartbeats 250000

/-! ## Annotations -/

structure Annotation where
  variadic : Bool
  outLen : Option Text
  freeFn : Option Text
  arrayParams : List Text
  mutArrayParams : List Text
  deriving DecidableEq, Repr

def Annotation.empty : Annotation := ⟨false, none, none, [], []⟩

/-- One token of the comma separated list. Unknown tokens are silently ignored. -/
def Annotation.addToken (ann : Annotation) (token : Text) : Annotation :=
  if token = "variadic".toList then { ann with variadic := true }
  else
    match "out_len=".toList.isPrefixOf? token with
    | some rhs => { ann with outLen := some (trim rhs) }
    | none =>
    match "free=".toList.isPrefixOf? token with
    | some rhs => { ann with freeFn := some (trim rhs) }
    | none =>
    match ": array".toList.isSuffixOf? token with
    | some lhs => { ann with arrayParams := ann.arrayParams ++ [trim lhs] }
    | none =>
    match ": mut_array".toList.isSuffixOf? token with
    | some lhs => { ann with mutArrayParams := ann.mutArrayParams ++ [trim lhs] }
    | none => ann

def parseAnnotation (attrBody : Text) : Annotation :=
  let body := trim attrBody
  if body = [] then .empty
  else (body.splitOn ',').foldl (fun ann token => ann.addToken (trim token)) .empty

/-! ## Declarations -/

structure RawParam where
  name : Text
  cType : Text
  deriving DecidableEq, Repr

/-- `const T *` becomes `const T*`, and every other white space one blank. -/
def normaliseCType (raw : Text) : Text :=
  let s := [' '].intercalate ((raw.splitOnP isWhitespace).filter (· ≠ []))
  trim (s.foldl
    (fun result ch =>
      if ch = '*' then (if result.getLast? = some ' ' then result.dropLast else result) ++ ['*']
      else result ++ [ch]) [])

def isNameChar (c : Char) : Bool := c ≠ ' ' && c ≠ '*'

/-- The name is what stands behind the last blank or star. -/
def splitCParam (raw : Text) : Option RawParam :=
  let raw := trim raw
  if raw = "void".toList ∨ raw = [] then none
  else
    let typePart := raw.rdropWhile isNameChar
    let name := trim (raw.rtakeWhile isNameChar)
    if typePart = [] ∨ name = [] then none else some ⟨name, normaliseCType typePart⟩

/-- A declaration in parts, the list of its parameters still in one text for each. -/
structure CDeclaration where
  retType : Text
  fnName : Text
  pieces : List Text
  deriving DecidableEq, Repr

/-- The parameters that `split_c_param` makes something of. -/
def CDeclaration.params (d : CDeclaration) : List RawParam := d.pieces.filterMap splitCParam

/-- A closing parenthesis that stands only before the opening one is an index out of range there. -/
def parseCDeclaration (decl : Text) : Option CDeclaration :=
  let decl := trim ((trim decl).rdropWhile (· = ';'))
  let beforeParen := trim (decl.takeWhile (· ≠ '('))
  let afterParen := (decl.dropWhile (· ≠ '(')).tail
  if '(' ∉ decl ∨ ')' ∉ afterParen then none
  else
    let retPart := beforeParen.rdropWhile isNameChar
    if retPart = [] then none
    else
      let paramsStr := trim (afterParen.rdropWhile (· ≠ ')')).dropLast
      some {
        retType := normaliseCType retPart
        fnName := trim (beforeParen.rtakeWhile isNameChar)
        pieces :=
          if paramsStr = [] ∨ paramsStr = "void".toList then []
          else (paramsStr.splitOn ',').map trim }

/-! ## Classification -/

inductive CmParamKind where
  | primitive (k : PrimKind)
  | strRef
  | opaquePtr
  | arrayPtr (cElementType : Text) (lenParam : Text)
  | mutArrayPtr (cElementType : Text) (lenParam : Text)
  | sliceCmTypes
  deriving DecidableEq, Repr

structure CmParam where
  name : Text
  kind : CmParamKind
  deriving DecidableEq, Repr

inductive CmRet where
  | void
  | primitive (k : PrimKind)
  | opaquePtr
  | allocatedArray (cElementType : Text) (lenFromParam : Text) (freeFn : Option Text)
  | allocatedString (freeFn : Option Text)
  deriving DecidableEq, Repr

structure ExportedFn where
  cmName : Text
  cmParams : List CmParam
  cmRet : CmRet
  autoParams : List Text
  deriving DecidableEq, Repr

def isSizeType (t : Text) : Bool := t = "size_t".toList || t = "usize".toList

/-- The value types that parameters and results are told apart by. -/
def valueTypes : List (Text × PrimKind) :=
  [("size_t".toList, .usize), ("usize".toList, .usize), ("int".toList, .i32),
    ("int32_t".toList, .i32), ("int64_t".toList, .i64), ("uint32_t".toList, .u32),
    ("unsigned int".toList, .u32), ("uint64_t".toList, .u64), ("float".toList, .f32),
    ("double".toList, .f64), ("bool".toList, .bool), ("_Bool".toList, .bool)]

def isStrType (t : Text) : Bool :=
  t = "const char*".toList || t = "char const*".toList || t = "char*".toList

def isPointerType (t : Text) : Bool := t.getLast? = some '*'

def normaliseElementType (cType : Text) : Text := trim (cType.rdropWhile (· = '*'))

def lenParam (name : Text) : Text := name ++ "_len".toList

/-- The `match` on the type. An unknown value type is taken for an `int`, "as a safe default". -/
def kindOfType (t : Text) : CmParamKind :=
  match valueTypes.lookup t with
  | some k => .primitive k
  | none =>
    if isStrType t then .strRef
    else if t = "void*".toList then .opaquePtr
    else if t = "void**".toList then .sliceCmTypes
    else if isPointerType t then .opaquePtr
    else .primitive .i32

def Annotation.IsArray (ann : Annotation) (raw : RawParam) : Prop :=
  raw.name ∈ ann.mutArrayParams ∨ raw.name ∈ ann.arrayParams

instance (ann : Annotation) (raw : RawParam) : Decidable (ann.IsArray raw) :=
  inferInstanceAs (Decidable (_ ∨ _))

/-- The kind of a parameter that is no hidden length. An annotation overrides the type. -/
def kindOf (ann : Annotation) (raw : RawParam) : CmParamKind :=
  if raw.name ∈ ann.mutArrayParams then
    .mutArrayPtr (normaliseElementType raw.cType) (lenParam raw.name)
  else if raw.name ∈ ann.arrayParams then
    .arrayPtr (normaliseElementType raw.cType) (lenParam raw.name)
  else kindOfType raw.cType

def classifyCParam (ann : Annotation) (raw : RawParam) (variadicVoidPtrPtrSeen : Bool) :
    Option CmParamKind :=
  if ¬ann.IsArray raw ∧ variadicVoidPtrPtrSeen = true ∧ isSizeType raw.cType = true then none
  else some (kindOf ann raw)

def classifyCReturn (retType : Text) (ann : Annotation) : CmRet :=
  if retType = "void".toList then .void
  else
    match valueTypes.lookup retType with
    | some k => .primitive k
    | none =>
      if retType = "char*".toList then .allocatedString ann.freeFn
      else if isPointerType retType then
        match ann.outLen with
        | some len => .allocatedArray (normaliseElementType retType) len ann.freeFn
        | none => .opaquePtr
      else .primitive .i32

/-! ## Entries -/

def CmParamKind.lenParam? : CmParamKind → Option Text
  | .arrayPtr _ len => some len
  | .mutArrayPtr _ len => some len
  | _ => none

/-- The hidden length that a parameter behind `prev` would be. -/
def pendingLen (prev : Option CmParam) : Option Text := prev.bind fun p => p.kind.lenParam?

/-- The loop over the parameters, `prev` the last one kept: what is kept, and the names of what is
derived. -/
def classifyParams (ann : Annotation) :
    Option CmParam → Bool → List RawParam → List CmParam × List Text
  | _, _, [] => ([], [])
  | prev, seenVoidPtrPtr, raw :: rest =>
    if pendingLen prev = some raw.name then
      let behind := classifyParams ann prev seenVoidPtrPtr rest
      (behind.1, raw.name :: behind.2)
    else
      let seen := seenVoidPtrPtr || raw.cType = "void**".toList
      match classifyCParam ann raw (seenVoidPtrPtr && ann.variadic) with
      | some kind =>
        let behind := classifyParams ann (some ⟨raw.name, kind⟩) seen rest
        (⟨raw.name, kind⟩ :: behind.1, behind.2)
      | none =>
        let behind := classifyParams ann prev seen rest
        (behind.1, raw.name :: behind.2)

/-- `build_entry` behind the parse. -/
def CDeclaration.entry (d : CDeclaration) (ann : Annotation) : ExportedFn :=
  let params := classifyParams ann none false d.params
  ⟨d.fnName, params.1, classifyCReturn d.retType ann, params.2⟩

def buildEntry (decl : Text) (ann : Annotation) : Option ExportedFn :=
  (parseCDeclaration decl).map fun d => d.entry ann

/-! ## Headers -/

/-- `str::lines`. -/
def lines (source : Text) : List Text :=
  let pieces := source.splitOn '\n'
  let pieces := if pieces.getLast? = some [] then pieces.dropLast else pieces
  pieces.map fun line => if line.getLast? = some '\r' then line.dropLast else line

/-- The lines up to one with a semicolon, in one text, and the lines behind them. -/
def takeDeclaration : List Text → Text × List Text
  | [] => ([], [])
  | line :: rest =>
    let next := trim line
    if next = [] ∨ "//".toList.isPrefixOf next = true then takeDeclaration rest
    else if ';' ∈ next then (next ++ [' '], rest)
    else (next ++ [' '] ++ (takeDeclaration rest).1, (takeDeclaration rest).2)

theorem length_takeDeclaration_le (ls : List Text) : (takeDeclaration ls).2.length ≤ ls.length := by
  induction ls with
  | nil => exact Nat.le_refl _
  | cons line rest ih =>
    rw [takeDeclaration, List.length_cons]
    split
    · omega
    · split
      · exact Nat.le_succ _
      · exact Nat.le_succ_of_le ih

def attrBody (afterAt : Text) : Text :=
  match "(".toList.isPrefixOf? (trim afterAt) with
  | some content => if ')' ∈ content then (content.rdropWhile (· ≠ ')')).dropLast else []
  | none => []

/-- The annotated declarations of a header, with what their annotations say. -/
def annotatedDecls : List Text → List ( Annotation × Text)
  | [] => []
  | line :: rest =>
    match "// @tomii_export".toList.isPrefixOf? (trim line) with
    | some afterAt =>
      let decl := trim (takeDeclaration rest).1
      let behind := annotatedDecls (takeDeclaration rest).2
      if decl = [] then behind else ( parseAnnotation (attrBody afterAt), decl) :: behind
    | none => annotatedDecls rest
  termination_by ls => ls.length
  decreasing_by
    · have := length_takeDeclaration_le rest
      rw [List.length_cons]
      omega
    · rw [List.length_cons]
      exact Nat.lt_succ_self _

def collectCEntries (source : Text) : List ExportedFn :=
  (annotatedDecls (lines source)).filterMap fun p => buildEntry p.2 p.1

/-- Every entry is that of a declaration. -/
theorem mem_collectCEntries_iff {source : Text} {entry : ExportedFn} :
    entry ∈ collectCEntries source ↔ ∃ ann decl d, (ann, decl) ∈ annotatedDecls (lines source) ∧
      parseCDeclaration decl = some d ∧ d.entry ann = entry := by
  rw [collectCEntries, List.mem_filterMap]
  constructor
  · rintro ⟨⟨ann, decl⟩, hmem, hentry⟩
    obtain ⟨d, hd, rfl⟩ := Option.map_eq_some_iff.mp hentry
    exact ⟨ann, decl, d, hmem, hd, rfl⟩
  · rintro ⟨ann, decl, d, hmem, hd, rfl⟩
    refine ⟨(ann, decl), hmem, ?_⟩
    rw [buildEntry, hd]
    rfl

end Tomii.CHeader
