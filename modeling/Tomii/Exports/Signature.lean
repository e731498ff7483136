import Tomii.Foundations.Texts

/-! # Signatures of exported functions

The part of Rust's syntax that `tomii-macro` and `tomii-converter` look at, as `syn` parses it. -/
namespace Tomii.Exports
set_option autoImplicit false
set_option maxHeartbeats 250000

/-! ## Types -/

mutual

/-- Qualified paths, tuples, arrays, pointers and all other types stand as their tokens: neither
crate looks inside. -/
inductive Ty where
  | path (leadingColon : Bool) (segments : List PathSegment)
  | reference (lifetime : Option Text) (mutable : Bool) (elem : Ty)
  | slice (elem : Ty)
  | other (tokens : Text)

inductive PathSegment where
  | mk (ident : Text) (arguments : PathArguments)

inductive PathArguments where
  | none
  | angleBracketed (args : List GenericArgument)
  | parenthesized (tokens : Text)

inductive GenericArgument where
  | type (ty : Ty)
  | other (tokens : Text)

end

def PathSegment.ident : PathSegment → Text
  | .mk ident _ => ident

def PathSegment.arguments : PathSegment → PathArguments
  | .mk _ arguments => arguments

/-- A name that stands alone. -/
def Ty.bare (name : Text) : Ty := .path false [⟨name, .none⟩]

/-- The lifetime `'_` says no more than a lifetime left out. -/
def Ty.elided : Ty → Ty
  | .reference (some ['\x27', '_']) mutable elem => .reference none mutable elem
  | ty => ty

mutual

def Ty.text : Ty → Text
  | .path leadingColon segments =>
    (if leadingColon then "::".toList else []) ++ PathSegment.texts segments
  | .reference lifetime mutable elem =>
    '&' :: (match lifetime with | some l => l ++ [' '] | none => []) ++
      (if mutable then "mut ".toList else []) ++ elem.text
  | .slice elem => '[' :: elem.text ++ [']']
  | .other tokens => tokens

def PathSegment.texts : List PathSegment → Text
  | [] => []
  | [segment] => segment.text
  | segment :: segments => segment.text ++ "::".toList ++ PathSegment.texts segments

def PathSegment.text : PathSegment → Text
  | .mk ident arguments => ident ++ arguments.text

def PathArguments.text : PathArguments → Text
  | .none => []
  | .angleBracketed args => '<' :: GenericArgument.texts args ++ ['>']
  | .parenthesized tokens => tokens

def GenericArgument.texts : List GenericArgument → Text
  | [] => []
  | [arg] => arg.text
  | arg :: args => arg.text ++ ", ".toList ++ GenericArgument.texts args

def GenericArgument.text : GenericArgument → Text
  | .type ty => ty.text
  | .other tokens => tokens

end

/-! ## Types of companion parameters -/

/-- `CmTypes` is one type, whether it is named with its crate or not. -/
inductive Slot where
  | cmTypes
  | cmTypesSlice
  | cmTypesVec
  | written (ty : Ty)

def Slot.text : Slot → Text
  | cmTypes => "&CmTypes".toList
  | cmTypesSlice => "&[CmTypes]".toList
  | cmTypesVec => "&Vec<CmTypes>".toList
  | written ty => ty.text

/-- Both crates ask this of the type behind a reference. -/
def refIsStr : Ty → Bool
  | .path _ [segment] => segment.ident = "str".toList
  | _ => false

/-! ## Functions -/

inductive Pat where
  | ident (name : Text)
  | other

inductive FnArg where
  | receiver
  | typed (pat : Pat) (ty : Ty)

inductive ReturnType where
  | default
  | type (ty : Ty)

inductive TokenTree where
  | ident (name : Text)
  | punct (c : Char) (joint : Bool)
  | literal (text : Text)
  | group (opening closing : Text) (tokens : List TokenTree)

/-- `#[path]`, `#[path(tokens)]` or `#[path = value]`. -/
inductive Meta where
  | path
  | list (tokens : List TokenTree)
  | nameValue

structure Attribute where
  path : List Text
  content : Meta

/-- What follows the name of the attribute. -/
def Attribute.tokens (a : Attribute) : List TokenTree :=
  match a.content with
  | .list tokens => tokens
  | .path => []
  | .nameValue => []

structure ItemFn where
  attrs : List Attribute
  ident : Text
  inputs : List FnArg
  output : ReturnType

/-- The parameters that have a name, in order. -/
def ItemFn.params (func : ItemFn) : List (Text × Ty) :=
  func.inputs.filterMap fun arg =>
    match arg with
    | .typed (.ident name) ty => some (name, ty)
    | .typed .other _ => none
    | .receiver => none

mutual

/-- `TokenStream::to_string`: blanks between tokens, but not after a joint punctuation character. -/
def TokenTree.texts : List TokenTree → Text
  | [] => []
  | [token] => token.text
  | .punct c true :: tokens => c :: TokenTree.texts tokens
  | token :: tokens => token.text ++ ' ' :: TokenTree.texts tokens

def TokenTree.text : TokenTree → Text
  | .ident name => name
  | .punct c _ => [c]
  | .literal text => text
  | .group opening closing tokens => opening ++ TokenTree.texts tokens ++ closing

end

theorem TokenTree.texts_cons (token next : TokenTree) (tokens : List TokenTree) :
    ∃ blank, TokenTree.texts (token :: next :: tokens) =
      token.text ++ (blank ++ TokenTree.texts (next :: tokens)) := by
  cases token with
  | punct c joint =>
    cases joint
    · exact ⟨[' '], by simp [TokenTree.texts, TokenTree.text]⟩
    · exact ⟨[], by simp [TokenTree.texts, TokenTree.text]⟩
  | ident name => exact ⟨[' '], by simp [TokenTree.texts, TokenTree.text]⟩
  | literal text => exact ⟨[' '], by simp [TokenTree.texts, TokenTree.text]⟩
  | group opening closing inner => exact ⟨[' '], by simp [TokenTree.texts, TokenTree.text]⟩

/-- The text of a stream shows the text of each token. -/
theorem TokenTree.text_infix_texts {token : TokenTree} {tokens : List TokenTree}
    (h : token ∈ tokens) : token.text <:+: TokenTree.texts tokens := by
  induction tokens with
  | nil => exact absurd h List.not_mem_nil
  | cons head tail ih =>
    cases tail with
    | nil =>
      obtain rfl := List.mem_singleton.mp h
      exact List.infix_rfl
    | cons next tokens =>
      obtain ⟨blank, htexts⟩ := TokenTree.texts_cons head next tokens
      rw [htexts]
      rcases List.mem_cons.mp h with rfl | h
      · exact (List.prefix_append _ _).isInfix
      · exact (ih h).trans (List.suffix_append_of_suffix (List.suffix_append _ _)).isInfix

end Tomii.Exports
