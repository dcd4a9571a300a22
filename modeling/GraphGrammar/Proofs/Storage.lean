import GraphGrammar.Proofs.Description
import GraphGrammar.Serial.Design

/-!
# What survives being stored

A value survives being stored if reading its stored form gives it back. Texts, flags and
floats always do, and numbers do if they fit the words they are stored in. A record survives
if what is in its fields does: each of its fields is looked up under its own name
(`Fields.getD_eq_some`, `Fields.required_eq_some`), so the names of a record have to be
distinct, and nothing else about them matters.

A graph need not survive. What is read is the graph that its description leads to
(`Graph.read_of`).

The stored form is a document of texts, numbers, lists and records. What follows is organized by
the types that are stored, each with a lemma that its values survive, and a record is put
together from the lemmas for its fields.
-/

namespace GraphGrammar

/-- The value is read back as it was written. -/
def Survives {α : Type} [Stored α] (a : α) : Prop := Stored.read? (Document.of a) = some a

/-- A step that finds something hands it to the next. -/
theorem bind_eq_some_of {α β : Type} {x : Option α} {f : α → Option β} {a : α} {b : β}
    (hx : x = some a) (hf : f a = some b) : x >>= f = some b := by
  rw [hx]
  exact hf

/-! ## Single values and lists of them

Numbers are read into words of a fixed size, and one that is too large is refused. So of a
number it is asked that it fits. -/

namespace Survives

variable {α : Type} [Stored α]

/-- Texts survive. -/
theorem string (s : String) : Survives s := rfl

/-- Flags survive. -/
theorem bool (b : Bool) : Survives b := rfl

/-- Floats survive. -/
theorem float (x : Float) : Survives x := rfl

/-- Numbers survive if they fit the word. -/
theorem nat {n : Nat} (h : n < UInt64.size) : Survives n := if_pos h

/-- Keys survive if their slot fits the word. -/
theorem key {κ : Kind} {key : Key κ} (h : key.index < UInt32.size) : Survives key :=
  congrArg (Option.map Key.mk) (if_pos h)

/-- A list survives if everything in it does. -/
theorem list {items : List α} (h : ∀ a ∈ items, Survives a) : Survives items := by
  show (items.map Stored.write).mapM Stored.read? = some items
  induction items with
  | nil => rfl
  | cons a rest ih =>
    rw [List.map_cons, List.mapM_cons]
    exact bind_eq_some_of (h a List.mem_cons_self)
      (bind_eq_some_of (ih fun b hb => h b (List.mem_cons_of_mem _ hb)) rfl)

/-- Lists of texts survive. -/
theorem strings (items : List String) : Survives items := list fun s _ => string s

/-- Lists of floats survive. -/
theorem floats (items : List Float) : Survives items := list fun x _ => float x

/-- A text that may be absent. An absent value is stored as none at all, which no text is. -/
theorem optionalString (s : Option String) : Survives s := by
  cases s <;> rfl

/-- Points survive. -/
theorem point (p : Point Float) : Survives p := rfl

end Survives

/-! ## Fields of records

A field is read by its name. There are three ways to read one: with a default, as one that may be
absent, and as one that must be there. -/

namespace Fields

variable {α : Type} [Stored α] {fields : Fields} {name : String} {a : α}

/-- A field with a default is read back. -/
theorem getD_eq_some {value : α} (hfield : fields.lookup name = some (.of a)) (ha : Survives a) :
    fields.getD name value = some a := by
  unfold getD
  rw [hfield]
  exact ha

/-- A field that may be absent is read back, whether it is there or not. -/
theorem optional_eq_some {a : Option α} (hfield : fields.lookup name = some (.of a))
    (ha : Survives a) : fields.optional name = some a := getD_eq_some hfield ha

/-- A field that must be there is read back. -/
theorem required_eq_some (hfield : fields.lookup name = some (.of a)) (ha : Survives a) :
    fields.required name = some a := by
  unfold required
  rw [hfield]
  exact ha

end Fields

open Fields

/-! ## Descriptions

A graph is stored as its description, and a description has texts, flags and floats in it but no
keys. So it survives without any condition. -/

/-- The fields that elements of every kind have are read whatever fields come after them. -/
theorem ElementDescription.ofFields?_append (d : ElementDescription) (others : Fields) :
    ofFields? (d.fields ++ others) = some d :=
  bind_eq_some_of (getD_eq_some rfl (.string _)) <|
    bind_eq_some_of (getD_eq_some rfl (.strings _)) <|
    bind_eq_some_of (getD_eq_some rfl (.floats _)) <|
    bind_eq_some_of (optional_eq_some rfl (.optionalString _)) rfl

namespace Survives

/-- The description of a node survives. -/
theorem nodeDescription (d : NodeDescription) : Survives d :=
  bind_eq_some_of (a := d.fields ++ _) rfl <|
    bind_eq_some_of (d.ofFields?_append _) <|
    bind_eq_some_of (getD_eq_some rfl (.point _)) rfl

/-- The description of an arc survives. -/
theorem arcDescription (d : ArcDescription) : Survives d :=
  bind_eq_some_of (a := d.fields ++ _) rfl <|
    bind_eq_some_of (d.ofFields?_append _) <|
    bind_eq_some_of (optional_eq_some rfl (.optionalString _)) <|
    bind_eq_some_of (optional_eq_some rfl (.optionalString _)) <|
    bind_eq_some_of (getD_eq_some rfl (.bool _)) <|
    bind_eq_some_of (getD_eq_some rfl (.bool _)) rfl

/-- The description of a hyperarc survives. -/
theorem hyperarcDescription (d : HyperArcDescription) : Survives d :=
  bind_eq_some_of (a := d.fields ++ _) rfl <|
    bind_eq_some_of (d.ofFields?_append _) <|
    bind_eq_some_of (getD_eq_some rfl (.strings _)) rfl

/-- **A description survives being stored.** -/
theorem graphDescription (d : GraphDescription) : Survives d :=
  bind_eq_some_of rfl <|
    bind_eq_some_of (getD_eq_some rfl (.string _)) <|
    bind_eq_some_of (getD_eq_some rfl (.list fun node _ => .nodeDescription node)) <|
    bind_eq_some_of (getD_eq_some rfl (.list fun arc _ => .arcDescription arc)) <|
    bind_eq_some_of (getD_eq_some rfl (.list fun hyperarc _ => .hyperarcDescription hyperarc)) <|
    bind_eq_some_of (getD_eq_some rfl (.strings _)) <|
    bind_eq_some_of (getD_eq_some rfl (.floats _)) rfl

end Survives

/-- **A well formed graph that is stored and read is its copy, tidied.** -/
theorem Graph.read_of {g : Graph} (h : g.WellFormed) :
    Stored.read? (Document.of g) = some g.copy.tidied :=
  bind_eq_some_of (Survives.graphDescription g.describe)
    (congrArg Except.toOption (connect_describe_eq_ok h))

/-! ## Recipes

A step has numbers and keys, so it survives if these fit. -/

/-- The numbers of a step fit the words they are stored in. -/
structure RecipeStep.Fits (step : RecipeStep) : Prop where
  ruleSetIndex : step.ruleSetIndex < UInt64.size
  ruleNumber : step.ruleNumber < UInt64.size
  optionNumber : step.optionNumber < UInt64.size
  nodes : ∀ key ∈ step.nodes, key.index < UInt32.size
  arcs : ∀ key ∈ step.arcs, key.index < UInt32.size
  hyperarcs : ∀ key ∈ step.hyperarcs, key.index < UInt32.size

/-- **A step of a recipe survives being stored**, if its numbers fit. -/
theorem RecipeStep.Fits.survives {step : RecipeStep} (h : step.Fits) : Survives step :=
  bind_eq_some_of rfl <|
    bind_eq_some_of (required_eq_some rfl (.nat h.ruleSetIndex)) <|
    bind_eq_some_of (required_eq_some rfl (.nat h.ruleNumber)) <|
    bind_eq_some_of (required_eq_some rfl (.nat h.optionNumber)) <|
    bind_eq_some_of (required_eq_some rfl (.string _)) <|
    bind_eq_some_of (required_eq_some rfl (.list fun key hkey => .key (h.nodes key hkey))) <|
    bind_eq_some_of (required_eq_some rfl (.list fun key hkey => .key (h.arcs key hkey))) <|
    bind_eq_some_of (required_eq_some rfl (.list fun key hkey => .key (h.hyperarcs key hkey))) rfl

end GraphGrammar
