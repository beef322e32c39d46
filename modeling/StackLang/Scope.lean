/-!
# Scopes

Scopes are numbered in the order in which they are opened; scope 0 is the root, and every other one
lies in the scope that it was opened in.  A scope holds names of variables and names of functions,
which do not get in each other's way.

A name is looked up from the inside out.  The number of scopes bounds the length of the way, also
when a scope was opened before the one that it lies in.
-/

namespace StackLang

abbrev FunctionId := Nat

abbrev StmtId := Nat

abbrev ExprId := Nat

abbrev ScopeId := Nat

/-- What a name is the name of. -/
inductive NameKind where
  | variableName
  | functionName
  deriving DecidableEq, Repr

def NameKind.text : NameKind → String
  | variableName => "variable"
  | functionName => "function"

/-- The declaration that a name stands for. -/
inductive Binding where
  /-- A parameter, by its function and its index. -/
  | param (function : FunctionId) (index : Nat)
  /-- A variable or an array, by the statement that declares it. -/
  | localVar (stmt : StmtId)
  | function (id : FunctionId)
  deriving DecidableEq, Repr

def Binding.kind : Binding → NameKind
  | param _ _ | localVar _ => .variableName
  | function _ => .functionName

/-- The names declared in one scope, in the order of their declaration. -/
structure Scope where
  parent : Option ScopeId
  symbols : List ((String × NameKind) × Binding)
  deriving Repr, Inhabited

namespace Scope

/-- The declaration of a name in this very scope. -/
def get? (s : Scope) (name : String) (kind : NameKind) : Option Binding :=
  s.symbols.lookup (name, kind)

/-- The order of a listing: by name, variables before functions. -/
def listedBefore (a b : (String × NameKind) × Binding) : Bool :=
  if a.1.1 = b.1.1 then a.1.2 = .variableName || b.1.2 = .functionName
  else decide (a.1.1 < b.1.1)

/-- The symbols in the order of a listing. -/
def listed (s : Scope) : List ((String × NameKind) × Binding) :=
  s.symbols.mergeSort listedBefore

end Scope

/-- All scopes of a program, by number. -/
structure ScopeGraph where
  scopes : Array Scope
  deriving Repr

namespace ScopeGraph

/-- Only the root scope. -/
def empty : ScopeGraph :=
  ⟨#[⟨none, []⟩]⟩

def root : ScopeId := 0

def size (g : ScopeGraph) : Nat :=
  g.scopes.size

/-- Opens a scope inside `parent`. -/
def push (g : ScopeGraph) (parent : ScopeId) : ScopeId × ScopeGraph :=
  (g.scopes.size, ⟨g.scopes.push ⟨some parent, []⟩⟩)

/-- The declaration of a name in the given scope alone. -/
def get? (g : ScopeGraph) (scope : ScopeId) (name : String) (kind : NameKind) : Option Binding :=
  g.scopes[scope]?.bind fun s => s.get? name kind

/-- Declares a name in a scope, unless the scope already holds a declaration of it, which is then
returned. -/
def declare (g : ScopeGraph) (scope : ScopeId) (name : String) (b : Binding) :
    Option Binding × ScopeGraph :=
  match g.get? scope name b.kind with
  | some existing => (some existing, g)
  | none =>
    (none,
      ⟨g.scopes.modify scope fun s => { s with symbols := s.symbols ++ [((name, b.kind), b)] }⟩)

/-- Looks a name up in a scope and in the ones around it, from the inside out, in at most `limit`
scopes. -/
def resolveWithin (g : ScopeGraph) (name : String) (kind : NameKind) :
    (limit : Nat) → ScopeId → Option Binding
  | 0, _ => none
  | limit + 1, scope =>
    match g.scopes[scope]? with
    | none => none
    | some s =>
      match s.get? name kind with
      | some b => some b
      | none =>
        match s.parent with
        | some p => g.resolveWithin name kind limit p
        | none => none

/-- The innermost declaration of a name that is visible in the given scope. -/
def resolve (g : ScopeGraph) (scope : ScopeId) (name : String) (kind : NameKind) :
    Option Binding :=
  g.resolveWithin name kind g.size scope

end ScopeGraph

end StackLang
