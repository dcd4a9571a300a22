import GraphGrammar.LabelSet
import GraphGrammar.NameMap

/-!
# Nodes, arcs and hyperarcs

The three kinds of elements a graph is made of share their attributes: a
name, labels, numeric variables and an optional type tag. A node has a
position besides, an arc two ends and two direction flags, and a hyperarc a
list of members.

Ends and members refer to nodes by *key*. A key belongs to a kind, so a node
key is no arc key, and it is the number of a slot of the graph that issued it.

What the kinds have in common is done once for all of them. A type of elements says how its
elements are named (`Attributed`), and registries, searches for free names and changes of
attributes work for any such type. The kind itself is part of the type of a key (`Key`), so the
three kinds of keys cannot be taken for each other although all of them are numbers.
-/

namespace GraphGrammar

/-- The kinds of elements. -/
inductive Kind where
  | node
  | arc
  | hyperarc
deriving DecidableEq, Repr

namespace Kind

/-- The word for an element of the kind. -/
def word : Kind → String
  | node => "node"
  | arc => "arc"
  | hyperarc => "hyperarc"

/-- The word with its article. -/
def phrase : Kind → String
  | node => "a node"
  | arc => "an arc"
  | hyperarc => "a hyperarc"

/-- The letter that keys of the kind are written with. -/
def letter : Kind → String
  | node => "N"
  | arc => "A"
  | hyperarc => "H"

end Kind

/-- Refers to an element of a graph by the number of its slot. -/
structure Key (κ : Kind) where
  index : Nat
deriving DecidableEq, Repr, Inhabited

/-- Keys that differ have different numbers. -/
theorem Key.index_ne {κ : Kind} {key other : Key κ} (h : key ≠ other) :
    key.index ≠ other.index := by
  intro heq
  cases key
  cases other
  exact h (congrArg Key.mk heq)

/-- Refers to a node. -/
abbrev NodeKey : Type := Key .node

/-- Refers to an arc. -/
abbrev ArcKey : Type := Key .arc

/-- Refers to a hyperarc. -/
abbrev HyperArcKey : Type := Key .hyperarc

/-- The written form of a key, as in `N(3)`. -/
def Key.text {κ : Kind} (key : Key κ) : String :=
  κ.letter ++ "(" ++ toString key.index ++ ")"

/-- Tags an element with a kind of the user's own. -/
abbrev TypeTag : Type := String

/-- A point of space with coordinates in `α`. -/
structure Point (α : Type) where
  x : α
  y : α
  z : α
deriving DecidableEq, Repr, Inhabited

/-- The point at which elements are put unless said otherwise. -/
def Point.origin : Point Float := ⟨0, 0, 0⟩

/-- What elements of every kind carry. -/
structure Attributes where
  name : Name
  labels : LabelSet := .empty
  /-- The numeric variables, told apart by their places. -/
  values : List Float := []
  typeTag : Option TypeTag := none

/-- A type of elements, seen through the attributes of its values. The three
laws say that the attributes are a part of the value that can be replaced and
leaves the rest as it is. -/
class Attributed (α : Type) where
  /-- The attributes of an element. -/
  attributes : α → Attributes
  /-- The element with other attributes. -/
  withAttributes : α → Attributes → α
  attributes_withAttributes : ∀ a t, attributes (withAttributes a t) = t
  withAttributes_attributes : ∀ a, withAttributes a (attributes a) = a
  withAttributes_withAttributes :
    ∀ a t u, withAttributes (withAttributes a t) u = withAttributes a u

attribute [simp] Attributed.attributes_withAttributes Attributed.withAttributes_attributes
  Attributed.withAttributes_withAttributes

namespace Attributed

variable {α : Type} [Attributed α]

/-- The name of an element. -/
def nameOf (a : α) : Name := (attributes a).name

/-- The element under another name. -/
def renamed (a : α) (name : Name) : α :=
  withAttributes a { attributes a with name }

/-- An element that is renamed bears the new name. -/
@[simp] theorem nameOf_renamed (a : α) (name : Name) : nameOf (renamed a name) = name := by
  simp [nameOf, renamed]

/-- Renaming an element to what it is called is no renaming. -/
@[simp] theorem renamed_nameOf (a : α) : renamed a (nameOf a) = a :=
  withAttributes_attributes a

end Attributed

/-- A node. Its position is for drawing, and matching never looks at it. -/
structure Node extends Attributes where
  position : Point Float := .origin

instance : Attributed Node where
  attributes := Node.toAttributes
  withAttributes node attributes := { node with toAttributes := attributes }
  attributes_withAttributes _ _ := rfl
  withAttributes_attributes _ := rfl
  withAttributes_withAttributes _ _ _ := rfl

/-- The two ends of an arc. -/
inductive ArcEnd where
  | source
  | target
deriving DecidableEq, Repr

namespace ArcEnd

/-- The other end. -/
def opposite : ArcEnd → ArcEnd
  | source => target
  | target => source

/-- The word for an end. -/
def word : ArcEnd → String
  | source => "From"
  | target => "To"

/-- Both ends, the source first. -/
def both : List ArcEnd := [source, target]

@[simp] theorem opposite_opposite (e : ArcEnd) : e.opposite.opposite = e := by
  cases e <;> rfl

end ArcEnd

/-- An arc. An end without a node dangles. -/
structure Arc extends Attributes where
  source : Option NodeKey := none
  target : Option NodeKey := none
  directed : Bool := true
  /-- Arrow heads at both ends. -/
  doublyDirected : Bool := false

instance : Attributed Arc where
  attributes := Arc.toAttributes
  withAttributes arc attributes := { arc with toAttributes := attributes }
  attributes_withAttributes _ _ := rfl
  withAttributes_attributes _ := rfl
  withAttributes_withAttributes _ _ _ := rfl

namespace Arc

/-- The arc without arrow heads. -/
def undirected (arc : Arc) : Arc := { arc with directed := false }

/-- The arc with arrow heads at both ends. -/
def bothWays (arc : Arc) : Arc := { arc with directed := true, doublyDirected := true }

/-- The node at an end. -/
def atEnd (arc : Arc) : ArcEnd → Option NodeKey
  | .source => arc.source
  | .target => arc.target

/-- The arc with an end elsewhere. -/
def withEnd (arc : Arc) (e : ArcEnd) (node : Option NodeKey) : Arc :=
  match e with
  | .source => { arc with source := node }
  | .target => { arc with target := node }

/-- The nodes at the ends, the source first; a loop lists its node twice. -/
def ends (arc : Arc) : List NodeKey := [arc.source, arc.target].filterMap id

/-- Whether an end is at a node. -/
def touches (arc : Arc) (node : NodeKey) : Bool :=
  arc.source == some node || arc.target == some node

/-- Whether it matters which end is which. -/
def isOriented (arc : Arc) : Bool := arc.directed && !arc.doublyDirected

/-- The end opposite to a node, if the node is at an end at all. A loop has
its own node opposite. -/
def otherEnd (arc : Arc) (node : NodeKey) : Option (Option NodeKey) :=
  if arc.source = some node then some arc.target
  else if arc.target = some node then some arc.source
  else none

/-- The arc with the ends at a node left dangling. -/
def detach (arc : Arc) (node : NodeKey) : Arc :=
  { arc with
    source := if arc.source = some node then none else arc.source
    target := if arc.target = some node then none else arc.target }

/-- The arc with each end's node replaced, or let go. -/
def mapEnds (arc : Arc) (f : NodeKey → Option NodeKey) : Arc :=
  { arc with source := arc.source.bind f, target := arc.target.bind f }

end Arc

/-- A hyperarc. -/
structure HyperArc extends Attributes where
  members : List NodeKey := []

instance : Attributed HyperArc where
  attributes := HyperArc.toAttributes
  withAttributes hyperarc attributes := { hyperarc with toAttributes := attributes }
  attributes_withAttributes _ _ := rfl
  withAttributes_attributes _ := rfl
  withAttributes_withAttributes _ _ _ := rfl

/-- A list of nodes with every repeat after the first place dropped. -/
def distinctMembers (nodes : List NodeKey) : List NodeKey :=
  nodes.foldl (fun members node => if members.contains node then members else members ++ [node]) []

namespace HyperArc

/-- Whether a node is a member. -/
def contains (hyperarc : HyperArc) (node : NodeKey) : Bool := hyperarc.members.contains node

/-- The hyperarc without a node. -/
def detach (hyperarc : HyperArc) (node : NodeKey) : HyperArc :=
  { hyperarc with members := hyperarc.members.filter (· != node) }

/-- The hyperarc with a node as its last member, unless it is one already. -/
def attach (hyperarc : HyperArc) (node : NodeKey) : HyperArc :=
  if hyperarc.contains node then hyperarc
  else { hyperarc with members := hyperarc.members ++ [node] }

/-- The hyperarc with each member replaced, or let go. -/
def mapMembers (hyperarc : HyperArc) (f : NodeKey → Option NodeKey) : HyperArc :=
  { hyperarc with members := hyperarc.members.filterMap f }

end HyperArc

end GraphGrammar
