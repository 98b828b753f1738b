import CrossAssembler.Text.Dotted
import Std.Data.TreeMap

/-!
# The tree of dotted names

A name `a.b.c` hangs below `a.b`, which hangs below `a`. A name is in the tree while it is defined or
referred to, or while a name below it is.

* `parent?`, `ancestors` — the names above a name.
* `LabelTree.insert`, `remove` — define a name and forget its definition.
* `LabelTree.addReference`, `releaseReference` — count the references to a name.
* `LabelTree.children`, `roots` — the names below a name, and those below none.
-/

namespace CrossAssembler

def parent? (name : String) : Option String :=
  match Text.splitAtLastDot name.toList with
  | some (c :: cs, _) => some (String.ofList (c :: cs))
  | _ => none

/-- At most the given number of names above a name, the nearest first. -/
def ancestorsWithin : Nat → String → List String
  | 0, _ => []
  | n + 1, name =>
    match parent? name with
    | some p => p :: ancestorsWithin n p
    | none => []

/-- The names above a name, the nearest first. Each is shorter than the one below it. -/
def ancestors (name : String) : List String := ancestorsWithin name.length name

structure TreeNode where
  /-- The names directly below, in order. -/
  children : List String
  defined : Bool
  references : Nat
  deriving DecidableEq, Repr

/-- A name that only others hold in the tree. -/
def TreeNode.bare : TreeNode := ⟨[], false, 0⟩

def TreeNode.isNeeded (n : TreeNode) : Bool := n.defined || n.references != 0 || !n.children.isEmpty

/-- Puts a name into an ordered list of names. -/
def insertName (name : String) : List String → List String
  | [] => [name]
  | n :: ns =>
    match compare name n with
    | .lt => name :: n :: ns
    | .eq => n :: ns
    | .gt => n :: insertName name ns

structure LabelTree where
  nodes : Std.TreeMap String TreeNode

namespace LabelTree

def empty : LabelTree := ⟨∅⟩

def update (t : LabelTree) (name : String) (f : TreeNode → TreeNode) : LabelTree :=
  match t.nodes[name]? with
  | some node => ⟨t.nodes.insert name (f node)⟩
  | none => t

/-- Hangs a name below the first of the names above it, that one below the next, and so on. -/
def hang (t : LabelTree) (child : String) : List String → LabelTree
  | [] => t
  | parent :: above =>
    let node := t.nodes.getD parent .bare
    let t : LabelTree := ⟨t.nodes.insert parent { node with children := insertName child node.children }⟩
    t.hang parent above

/-- Puts a name and all names above it into the tree. -/
def ensure (t : LabelTree) (name : String) : LabelTree :=
  let t : LabelTree := ⟨t.nodes.insert name (t.nodes.getD name .bare)⟩
  t.hang name (ancestors name)

/-- Takes names that are not needed out of the tree, from the first on upwards. -/
def prune (t : LabelTree) : List String → LabelTree
  | [] => t
  | name :: above =>
    match t.nodes[name]? with
    | none => t
    | some node =>
      if node.isNeeded then
        t
      else
        let t : LabelTree := ⟨t.nodes.erase name⟩
        match above with
        | [] => t
        | parent :: _ =>
          (t.update parent fun p => { p with children := p.children.filter (· != name) }).prune above

def insert (t : LabelTree) (name : String) : LabelTree :=
  (t.ensure name).update name fun n => { n with defined := true }

def remove (t : LabelTree) (name : String) : LabelTree :=
  (t.update name fun n => { n with defined := false }).prune (name :: ancestors name)

def addReference (t : LabelTree) (name : String) : LabelTree :=
  (t.ensure name).update name fun n => { n with references := n.references + 1 }

def releaseReference (t : LabelTree) (name : String) : LabelTree :=
  (t.update name fun n => { n with references := n.references - 1 }).prune (name :: ancestors name)

def contains (t : LabelTree) (name : String) : Bool := t.nodes.contains name

def isDefined (t : LabelTree) (name : String) : Bool := (t.nodes[name]?).any fun n => n.defined

/-- Whether a name is in the tree without being defined. -/
def isPlaceholder (t : LabelTree) (name : String) : Bool := (t.nodes[name]?).any fun n => !n.defined

/-- The names directly below a name, in order. -/
def children (t : LabelTree) (name : String) : List String := (t.nodes.getD name .bare).children

def roots (t : LabelTree) : List String := t.nodes.keys.filter fun name => (parent? name).isNone

end LabelTree

end CrossAssembler
