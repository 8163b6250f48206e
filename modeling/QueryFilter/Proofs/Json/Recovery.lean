import QueryFilter.Command.Check
import QueryFilter.Proofs.Json.Reading

/-!
# Selections from their JSON text

A selection is read from a JSON value by the names of its fields, in whatever order they
stand, so nothing but the value matters. Reading undoes writing for conditions, orders
and selections, and since a rendered text has one value only, the text determines the
selection in either layout.
-/

namespace QueryFilter

namespace Json

/-! ## Looking into values -/

/-- The field of an object with a given name, the first one if there are several. -/
def field? (name : String) : Json → Option Json
  | .object fields => fields.lookup name
  | _ => none

def text? : Json → Option String
  | .string s => some s
  | _ => none

def bool? : Json → Option Bool
  | .bool b => some b
  | _ => none

def items? : Json → Option (List Json)
  | .array items => some items
  | _ => none

/-- What a value is, or nothing if it is null. -/
def optional? {α : Type} (read : Json → Option α) : Json → Option (Option α)
  | .null => some none
  | j => (read j).map some

theorem optional?_optional (o : Option String) : optional? text? (optional o) = some o := by
  cases o <;> rfl

theorem sizeOf_lt_of_field? {name : String} {j v : Json} (h : j.field? name = some v) :
    sizeOf v < sizeOf j := by
  cases j with
  | object fields =>
      have hmem : (name, v) ∈ fields := mem_of_lookup_eq_some h
      have hlt := List.sizeOf_lt_of_mem hmem
      simp only [object.sizeOf_spec, Prod.mk.sizeOf_spec] at hlt ⊢
      omega
  | null => exact absurd h (by simp [field?])
  | bool b => exact absurd h (by simp [field?])
  | string s => exact absurd h (by simp [field?])
  | array items => exact absurd h (by simp [field?])

end Json

/-! ## Reading -/

/-- A parameter from the fields of its node. -/
def Parameter.ofJson? (j : Json) : Option Parameter := do
  let identification ← (← j.field? "identification").text?
  let name ← (← j.field? "name").text?
  let operation ← (← j.field? "operation").optional? Json.text?
  let value ← (← j.field? "value").optional? Json.text?
  return ⟨identification, name, operation.map Operation.mk, value⟩

/-- A condition, node by node, each by its kind. -/
def Condition.ofJson? (j : Json) : Option Condition :=
  match j.field? "type" with
  | some (.string "parameter") => (Parameter.ofJson? j).map .parameter
  | some (.string "and") => do
    let ⟨l, _⟩ ← (j.field? "left").attach
    let ⟨r, _⟩ ← (j.field? "right").attach
    return .and (← ofJson? l) (← ofJson? r)
  | some (.string "or") => do
    let ⟨l, _⟩ ← (j.field? "left").attach
    let ⟨r, _⟩ ← (j.field? "right").attach
    return .or (← ofJson? l) (← ofJson? r)
  | some (.string "negate") => do
    let ⟨c, _⟩ ← (j.field? "inner").attach
    return .negate (← ofJson? c)
  | _ => none
termination_by sizeOf j
decreasing_by all_goals exact Json.sizeOf_lt_of_field? ‹_›

def Order.ofJson? (j : Json) : Option Order := do
  let field ← (← j.field? "field").text?
  let descending ← (← j.field? "descending").bool?
  return ⟨field, descending⟩

namespace Selection

def ofJson? (j : Json) : Option Selection := do
  let filter ← (← j.field? "filter").optional? Condition.ofJson?
  let orders ← (← (← j.field? "orders").items?).mapM Order.ofJson?
  return ⟨filter, orders⟩

def read? (text : String) : Option Selection := (Json.read? text).bind ofJson?

end Selection

/-! ## Reading undoes writing -/

theorem Parameter.ofJson?_toJson (p : Parameter) :
    ofJson? (Condition.parameter p).toJson = some p := by
  obtain ⟨identification, name, operation, value⟩ := p
  have hoperation : (operation.map Operation.name).map Operation.mk = operation := by
    cases operation <;> rfl
  simp [ofJson?, Condition.toJson, Json.field?, List.lookup_cons, Json.text?,
    Json.optional?_optional, hoperation]

theorem Condition.ofJson?_toJson (c : Condition) : ofJson? c.toJson = some c := by
  induction c with
  | parameter p =>
      have hp := Parameter.ofJson?_toJson p
      rw [ofJson?]
      simp only [toJson, Json.field?, List.lookup_cons] at hp ⊢
      rw [hp]
      rfl
  | and l r ihl ihr =>
      rw [ofJson?]
      simp [toJson, Json.field?, List.lookup_cons, ihl, ihr]
  | or l r ihl ihr =>
      rw [ofJson?]
      simp [toJson, Json.field?, List.lookup_cons, ihl, ihr]
  | negate c ih =>
      rw [ofJson?]
      simp [toJson, Json.field?, List.lookup_cons, ih]

theorem Order.ofJson?_toJson (o : Order) : ofJson? o.toJson = some o := rfl

theorem Condition.optional?_toJson (filter : Option Condition) :
    Json.optional? ofJson? ((filter.map toJson).getD .null) = some filter := by
  cases filter with
  | none => rfl
  | some c =>
      have hc := ofJson?_toJson c
      -- The tree of a condition is an object, so it is not mistaken for a missing one.
      cases c <;> exact congrArg (Option.map some) hc

namespace Selection

theorem mapM_ofJson?_toJson (orders : List Order) :
    (orders.map Order.toJson).mapM Order.ofJson? = some orders := by
  induction orders with
  | nil => rfl
  | cons o orders ih =>
      rw [List.map_cons, List.mapM_cons, ih, Order.ofJson?_toJson]
      rfl

theorem ofJson?_toJson (s : Selection) : ofJson? s.toJson = some s := by
  have hfilter := Condition.optional?_toJson s.filter
  have horders := mapM_ofJson?_toJson s.orders
  simp [ofJson?, toJson, Json.field?, List.lookup_cons, Json.items?, hfilter, horders]

theorem read?_render (s : Selection) (layout : Json.Layout) :
    read? (s.toJson.render layout) = some s := by
  rw [read?, (Json.denotes_render layout s.toJson).read?_eq]
  exact ofJson?_toJson s

end Selection

/-- What a check writes is the selection of its arguments. -/
theorem Command.exists_selection_of_check {o : CheckOptions} {text : String}
    (h : check o = .ok text) :
    ∃ arguments s, o.pairs.mapM splitPair = .ok arguments ∧ o.policy.parse arguments = .ok s ∧
      text = s.toJson.render o.layout := by
  unfold check at h
  cases hpairs : o.pairs.mapM splitPair with
  | error e =>
      rw [hpairs] at h
      exact absurd h (by simp [bind, Except.bind])
  | ok arguments =>
      rw [hpairs] at h
      simp only [bind, Except.bind] at h
      cases hparse : o.policy.parse arguments with
      | error e =>
          rw [hparse] at h
          exact absurd h (by simp)
      | ok s =>
          rw [hparse] at h
          exact ⟨arguments, s, rfl, hparse, (Except.ok.inj h).symm⟩

namespace Selection

/-- A selection is determined by its text. Both layouts are JSON texts for the same value,
and a text has one value only; from the value, and so from either text, the selection is
read back. Hence no two selections have a text in common, and what a check writes is the
selection it has found. -/
theorem text_determines_selection :
    (∀ (s : Selection) (layout : Json.Layout), Json.Denotes (s.toJson.render layout) s.toJson) ∧
    (∀ (text : String) (j j' : Json), Json.Denotes text j → Json.Denotes text j' → j = j') ∧
    (∀ s : Selection, ofJson? s.toJson = some s) ∧
    (∀ (s : Selection) (layout : Json.Layout), read? (s.toJson.render layout) = some s) ∧
    (∀ (s s' : Selection) (layout layout' : Json.Layout),
      s.toJson.render layout = s'.toJson.render layout' → s = s') ∧
    (∀ (o : Command.CheckOptions) (text : String), Command.check o = .ok text →
      ∃ arguments s, o.pairs.mapM Command.splitPair = .ok arguments ∧
        o.policy.parse arguments = .ok s ∧ text = s.toJson.render o.layout ∧
        read? text = some s) := by
  refine ⟨fun s layout => Json.denotes_render layout s.toJson, fun _ _ _ h h' => h.unique h',
    ofJson?_toJson, read?_render, ?_, ?_⟩
  · intro s s' layout layout' h
    have hread := read?_render s layout
    rw [h, read?_render] at hread
    exact (Option.some.inj hread).symm
  · intro o text h
    obtain ⟨arguments, s, harguments, hs, rfl⟩ := Command.exists_selection_of_check h
    exact ⟨arguments, s, harguments, hs, rfl, read?_render s o.layout⟩

/-- The text of a value that holds a quote, a backslash, a line feed, a control character
and a letter beyond ASCII. -/
theorem text_determines_selection_escaped :
    ∃ text,
      text =
          "\x7b\"filter\":\x7b\"type\":\"parameter\",\"identification\":\"a\",\"name\":\"a\"," ++
          "\"operation\":\"eq\",\"value\":\"\\\"\\\\\\n\\u0001é\"\x7d,\"orders\":[]\x7d" ∧
        Command.check { pairs := ["filter[param][a]=\"\\\n\x01é"] } = .ok text ∧
        ∃ s, read? text = some s ∧ ∀ j, Json.Denotes text j → j = s.toJson := by
  have htext : Command.check { pairs := ["filter[param][a]=\"\\\n\x01é"] } = .ok (
      "\x7b\"filter\":\x7b\"type\":\"parameter\",\"identification\":\"a\",\"name\":\"a\"," ++
      "\"operation\":\"eq\",\"value\":\"\\\"\\\\\\n\\u0001é\"\x7d,\"orders\":[]\x7d") := by decide
  obtain ⟨hdenotes, hunique, -, -, -, hcheck⟩ := text_determines_selection
  obtain ⟨-, s, -, -, hrender, hread⟩ := hcheck _ _ htext
  refine ⟨_, rfl, htext, s, hread, fun j hj => ?_⟩
  rw [hrender] at hj
  exact hunique _ _ _ hj (hdenotes s _)

end Selection

end QueryFilter
