import Kernelwright.Graph.Node

/-!
# Symbol tables

A symbol table binds the nodes of a graph to names. Scopes form a stack; a name is visible in its
scope and in those inside it, and the innermost binding wins. A name also has a kind and a node,
which is the one it was last bound to. Fresh names are counted over the whole life of a table.
-/

namespace Kernelwright.Code

variable {ν : Type}

/-- What a name stands for. -/
structure Meaning where
  node : NodeId
  kind : ValueKind
deriving DecidableEq, Repr

/-- The bindings of one scope, the latest first. -/
structure Scope (ν : Type) where
  nodes : List (NodeId × ν)
  names : List (ν × Meaning)
deriving DecidableEq, Repr

/-- A stack of scopes, the innermost first, over the outermost one. -/
structure SymbolTable (ν : Type) where
  inner : List (Scope ν)
  root : Scope ν
  counter : Nat
deriving DecidableEq, Repr

namespace Scope

def empty : Scope ν := ⟨[], []⟩

def bind (s : Scope ν) (name : ν) (node : NodeId) (kind : ValueKind) : Scope ν :=
  ⟨(node, name) :: s.nodes, (name, ⟨node, kind⟩) :: s.names⟩

end Scope

namespace SymbolTable

def empty : SymbolTable ν := ⟨[], .empty, 0⟩

/-- The scopes, the innermost first. -/
def scopes (t : SymbolTable ν) : List (Scope ν) := t.inner ++ [t.root]

def bind (t : SymbolTable ν) (name : ν) (node : NodeId) (kind : ValueKind) : SymbolTable ν :=
  match t.inner with
  | [] => { t with root := t.root.bind name node kind }
  | s :: ss => { t with inner := s.bind name node kind :: ss }

/-- Open a scope. -/
def enter (t : SymbolTable ν) : SymbolTable ν := { t with inner := .empty :: t.inner }

/-- Close the innermost scope; the outermost one stays open. -/
def exit (t : SymbolTable ν) : SymbolTable ν := { t with inner := t.inner.tail }

/-- The number of open scopes. -/
def depth (t : SymbolTable ν) : Nat := t.inner.length + 1

def nameOf? (t : SymbolTable ν) (node : NodeId) : Option ν :=
  t.scopes.findSome? fun s => s.nodes.lookup node

def meaning? [DecidableEq ν] (t : SymbolTable ν) (name : ν) : Option Meaning :=
  t.scopes.findSome? fun s => s.names.lookup name

def kindOf? [DecidableEq ν] (t : SymbolTable ν) (node : NodeId) : Option ValueKind :=
  ((t.nameOf? node).bind t.meaning?).map (·.kind)

/-- Give a node the name of another; `none` when that has no name. -/
def share? [DecidableEq ν] (t : SymbolTable ν) (node source : NodeId) : Option (SymbolTable ν) :=
  (t.nameOf? source).map fun name =>
    t.bind name node ((t.meaning? name).elim .illegal (·.kind))

def fresh (t : SymbolTable ν) : Nat × SymbolTable ν :=
  (t.counter, { t with counter := t.counter + 1 })

end SymbolTable

end Kernelwright.Code
