import GraphGrammar.Graph.Description
import GraphGrammar.Serial.Document

/-!
# Stored graphs

A graph is stored as its description and connected when it is read. Every
field of a description may be left out.

Reading a description and connecting it are two steps, and a document may be refused in either:
for its form, or because a name in it refers to nothing.
-/

namespace GraphGrammar

/-- Keys are numbers of 32 bits. -/
instance {κ : Kind} : Stored (Key κ) where
  write key := .int key.index
  read? d := (d.countBelow? UInt32.size).map (⟨·⟩)

/-- A point is the list of its three coordinates. -/
instance : Stored (Point Float) where
  write p := .list [.float p.x, .float p.y, .float p.z]
  read? d := do
    let [x, y, z] ← (Stored.read? d : Option (List Float)) | none
    return ⟨x, y, z⟩

/-- A label set is the list of its labels, repeats included. -/
instance : Stored LabelSet where
  write s := .of s.toList
  read? d := (Stored.read? d).map (⟨·⟩)

/-- A map from names is a record. -/
instance {β : Type} [Stored β] : Stored (NameMap β) where
  write m := .record (m.entries.map fun (name, value) => (name, .of value))
  read?
    | .record fields => do
      let entries ← fields.mapM fun (name, d) => do
        let value ← Stored.read? d
        return (name, value)
      return .ofList entries
    | _ => none

namespace ElementDescription

/-- The fields that elements of every kind are stored with. -/
def fields (d : ElementDescription) : Fields :=
  [("name", .of d.name), ("labels", .of d.labels), ("variables", .of d.values),
    ("type_tag", .of d.typeTag)]

/-- The names of these fields. -/
def fieldNames : List String := ["name", "labels", "variables", "type_tag"]

/-- Reads these fields. -/
def ofFields? (fields : Fields) : Option ElementDescription := do
  return {
    name := ← fields.getD "name" ""
    labels := ← fields.getD "labels" []
    values := ← fields.getD "variables" []
    typeTag := ← fields.optional "type_tag" }

end ElementDescription

open ElementDescription in
instance : Stored NodeDescription where
  write d := .record (d.fields ++ [("position", .of d.position)])
  read? d := do
    let fields ← d.someFields? (fieldNames ++ ["position"])
    return { ← ofFields? fields with position := ← fields.getD "position" .origin }

open ElementDescription in
instance : Stored ArcDescription where
  write d := .record (d.fields ++
    [("from", .of d.source), ("to", .of d.target), ("directed", .of d.directed),
      ("doubly_directed", .of d.doublyDirected)])
  read? d := do
    let fields ← d.someFields? (fieldNames ++ ["from", "to", "directed", "doubly_directed"])
    return { ← ofFields? fields with
      source := ← fields.optional "from"
      target := ← fields.optional "to"
      directed := ← fields.getD "directed" false
      doublyDirected := ← fields.getD "doubly_directed" false }

open ElementDescription in
instance : Stored HyperArcDescription where
  write d := .record (d.fields ++ [("nodes", .of d.members)])
  read? d := do
    let fields ← d.someFields? (fieldNames ++ ["nodes"])
    return { ← ofFields? fields with members := ← fields.getD "nodes" [] }

instance : Stored GraphDescription where
  write d := .record
    [("name", .of d.name), ("nodes", .of d.nodes), ("arcs", .of d.arcs),
      ("hyperarcs", .of d.hyperarcs), ("global_labels", .of d.globalLabels),
      ("global_variables", .of d.globalVariables)]
  read? d := do
    let fields ← d.someFields?
      ["name", "nodes", "arcs", "hyperarcs", "global_labels", "global_variables"]
    return {
      name := ← fields.getD "name" ""
      nodes := ← fields.getD "nodes" []
      arcs := ← fields.getD "arcs" []
      hyperarcs := ← fields.getD "hyperarcs" []
      globalLabels := ← fields.getD "global_labels" []
      globalVariables := ← fields.getD "global_variables" [] }

/-- A graph is stored as its description. -/
instance : Stored Graph where
  write g := .of g.describe
  read? d := do
    let description : GraphDescription ← Stored.read? d
    description.connect.toOption

end GraphGrammar
