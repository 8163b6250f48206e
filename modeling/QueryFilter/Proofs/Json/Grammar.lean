import QueryFilter.Json.Value

/-!
# The grammar of JSON texts

`Denotes text j` says that `text` is a JSON text whose value is `j`. White space may
stand around every token, and a character of a string is written as itself, by a
letter after a backslash or by its code. Numbers, and characters written as a pair of
codes, are left out, since no value written here needs them.

The items and the fields of a value are parts of their own, so that one relation
covers the nesting. Either layout of a value is a text for it (`denotes_render`): what
a layout adds is white space in front of items, fields and closing brackets.
-/

namespace QueryFilter.Json

/-! ## Strings -/

/-- The characters that a letter after a backslash stands for, each with its letter. -/
def escapes : List (Char × Char) :=
  [('"', '"'), ('\\', '\\'), ('/', '/'), ('\x08', 'b'), ('\x0c', 'f'), ('\n', 'n'), ('\r', 'r'),
    ('\t', 't')]

def hexValue? (c : Char) : Option Nat :=
  if '0' ≤ c ∧ c ≤ '9' then some (c.toNat - 48)
  else if 'a' ≤ c ∧ c ≤ 'f' then some (c.toNat - 87)
  else if 'A' ≤ c ∧ c ≤ 'F' then some (c.toNat - 55)
  else none

/-- The number that four hexadecimal digits stand for. -/
def hexCode? (a b c d : Char) : Option Nat := do
  return 4096 * (← hexValue? a) + 256 * (← hexValue? b) + 16 * (← hexValue? c) + (← hexValue? d)

/-- The ways to write a character inside quotes. -/
inductive CharText : List Char → Char → Prop
  | plain {c : Char} : 0x20 ≤ c.toNat → c ≠ '"' → c ≠ '\\' → CharText [c] c
  | letter {c l : Char} : (c, l) ∈ escapes → CharText ['\\', l] c
  | code {a b c d x : Char} : hexCode? a b c d = some x.toNat →
      CharText ['\\', 'u', a, b, c, d] x

/-- The ways to write a text inside quotes. -/
inductive StringText : List Char → List Char → Prop
  | nil : StringText [] []
  | cons {ts us cs : List Char} {c : Char} :
      CharText ts c → StringText us cs → StringText (ts ++ us) (c :: cs)

/-! ## Values -/

/-- The characters that may stand between tokens. -/
def isSpace (c : Char) : Bool := c = ' ' || c = '\t' || c = '\n' || c = '\r'

/-- A run of white space. -/
def Spaces (cs : List Char) : Prop := ∀ c ∈ cs, isSpace c = true

inductive Part where
  | value (j : Json)
  | field (name : String) (j : Json)
  /-- What stands between the brackets of an array that is not empty. -/
  | items (js : List Json)
  /-- What stands between the braces of an object that is not empty. -/
  | fields (fs : List (String × Json))

/-- The ways to write each part. -/
inductive Written : List Char → Part → Prop
  | null : Written ['n', 'u', 'l', 'l'] (.value .null)
  | true : Written ['t', 'r', 'u', 'e'] (.value (.bool true))
  | false : Written ['f', 'a', 'l', 's', 'e'] (.value (.bool false))
  | string {cs : List Char} {s : String} : StringText cs s.toList →
      Written ('"' :: cs ++ ['"']) (.value (.string s))
  | emptyArray {w : List Char} : Spaces w → Written ('[' :: w ++ [']']) (.value (.array []))
  | array {cs : List Char} {js : List Json} : Written cs (.items js) →
      Written ('[' :: cs ++ [']']) (.value (.array js))
  | emptyObject {w : List Char} : Spaces w →
      Written ('\x7b' :: w ++ ['\x7d']) (.value (.object []))
  | object {cs : List Char} {fs : List (String × Json)} : Written cs (.fields fs) →
      Written ('\x7b' :: cs ++ ['\x7d']) (.value (.object fs))
  | field {ns v w cs : List Char} {name : String} {j : Json} :
      StringText ns name.toList → Spaces v → Spaces w → Written cs (.value j) →
      Written ('"' :: ns ++ '"' :: v ++ ':' :: w ++ cs) (.field name j)
  | item {v cs w : List Char} {j : Json} :
      Spaces v → Written cs (.value j) → Spaces w → Written (v ++ cs ++ w) (.items [j])
  | items {v cs w ds : List Char} {j : Json} {js : List Json} :
      Spaces v → Written cs (.value j) → Spaces w → Written ds (.items js) →
      Written (v ++ cs ++ w ++ ',' :: ds) (.items (j :: js))
  | lastField {v cs w : List Char} {name : String} {j : Json} :
      Spaces v → Written cs (.field name j) → Spaces w →
      Written (v ++ cs ++ w) (.fields [(name, j)])
  | fields {v cs w ds : List Char} {name : String} {j : Json} {fs : List (String × Json)} :
      Spaces v → Written cs (.field name j) → Spaces w → Written ds (.fields fs) →
      Written (v ++ cs ++ w ++ ',' :: ds) (.fields ((name, j) :: fs))

/-- A text is a value with white space around it. -/
def Denotes (text : String) (j : Json) : Prop :=
  ∃ v cs w, Spaces v ∧ Written cs (.value j) ∧ Spaces w ∧ text.toList = v ++ cs ++ w

/-! ## Quoted strings are written -/

theorem hexValue?_digitChar : ∀ n < 16, hexValue? (Nat.digitChar n) = some n := by decide

theorem hexCode?_lowCode {n : Nat} (h : n < 0x20) :
    hexCode? '0' '0' (Nat.digitChar (n / 16)) (Nat.digitChar (n % 16)) = some n := by
  have hhigh := hexValue?_digitChar (n / 16) (by omega)
  have hlow := hexValue?_digitChar (n % 16) (Nat.mod_lt _ (by decide))
  have hzero : hexValue? '0' = some 0 := by decide
  simp only [hexCode?, hzero, hhigh, hlow]
  exact congrArg some (by omega)

theorem mem_of_lookup_eq_some {α β : Type} [DecidableEq α] {k : α} {x : β} {l : List (α × β)}
    (h : l.lookup k = some x) : (k, x) ∈ l := by
  obtain ⟨before, after, rfl, -⟩ := List.lookup_eq_some_iff.1 h
  exact List.mem_append_right _ List.mem_cons_self

theorem charText_escapeChar (c : Char) : CharText (escapeChar c) c := by
  unfold escapeChar
  cases hl : letterEscapes.lookup c with
  | some l =>
      have hsub : letterEscapes ⊆ escapes := by decide
      exact .letter (hsub (mem_of_lookup_eq_some hl))
  | none =>
      have hne : ∀ d ∈ letterEscapes, c ≠ d.1 := by
        intro d hd
        simpa using List.lookup_eq_none_iff.1 hl d hd
      by_cases hlow : c.toNat < 0x20
      · simp only [hlow, if_true]
        exact .code (hexCode?_lowCode hlow)
      · simp only [hlow, if_false]
        exact .plain (Nat.le_of_not_lt hlow) (hne ('"', '"') (by decide))
          (hne ('\\', '\\') (by decide))

theorem stringText_escape (cs : List Char) : StringText (escape cs) cs := by
  induction cs with
  | nil => exact .nil
  | cons c cs ih =>
      rw [escape_cons]
      exact .cons (charText_escapeChar c) ih

theorem toList_quote (s : String) : (quote s).toList = '"' :: escape s.toList ++ ['"'] := by
  simp [quote]

/-! ## Rendered values are written -/

theorem spaces_nil : Spaces [] := by
  intro c hc
  exact absurd hc List.not_mem_nil

theorem spaces_lineBreak (layout : Layout) (depth : Nat) :
    Spaces (layout.lineBreak depth).toList := by
  intro c hc
  cases layout with
  | compact => exact absurd hc (by simp [Layout.lineBreak])
  | indented =>
      simp only [Layout.lineBreak, String.toList_append, String.toList_ofList, List.mem_append,
        List.mem_replicate] at hc
      rcases hc with hc | ⟨-, rfl⟩
      · obtain rfl : c = '\n' := by simpa using hc
        decide
      · decide

/-- What a layout puts after a colon. -/
theorem exists_colon (layout : Layout) :
    ∃ w, Spaces w ∧ layout.colon.toList = ':' :: w := by
  cases layout with
  | compact => exact ⟨[], spaces_nil, by decide⟩
  | indented => exact ⟨[' '], List.forall_mem_singleton.2 rfl, by decide⟩

theorem written_field (layout : Layout) {cs : List Char} {j : Json} (name : String)
    (h : Written cs (.value j)) :
    Written ((quote name).toList ++ layout.colon.toList ++ cs) (.field name j) := by
  obtain ⟨w, hw, hcolon⟩ := exists_colon layout
  rw [hcolon, toList_quote]
  have hfield : Written _ (.field name j) :=
    .field (stringText_escape name.toList) spaces_nil hw h
  simpa using hfield

mutual

theorem written_renderAt (layout : Layout) (depth : Nat) :
    ∀ j : Json, Written (renderAt layout depth j).toList (.value j)
  | .null => by simpa [renderAt] using Written.null
  | .bool true => by simpa [renderAt] using Written.true
  | .bool false => by simpa [renderAt] using Written.false
  | .string s => by
      rw [renderAt, toList_quote]
      exact .string (stringText_escape s.toList)
  | .array [] => by simpa [renderAt] using Written.emptyArray spaces_nil
  | .array (item :: items) => by
      have hitems := written_renderItems layout (depth + 1) items
        (spaces_lineBreak layout (depth + 1)) (written_renderAt layout (depth + 1) item)
        (spaces_lineBreak layout depth)
      have harray := Written.array hitems
      simpa [renderAt] using harray
  | .object [] => by simpa [renderAt] using Written.emptyObject spaces_nil
  | .object ((name, value) :: fields) => by
      have hfields := written_renderFields layout (depth + 1) fields
        (spaces_lineBreak layout (depth + 1))
        (written_field layout name (written_renderAt layout (depth + 1) value))
        (spaces_lineBreak layout depth)
      have hobject := Written.object hfields
      simpa [renderAt] using hobject

theorem written_renderItems (layout : Layout) (depth : Nat) :
    ∀ (items : List Json) {v cs w : List Char} {j : Json}, Spaces v → Written cs (.value j) →
      Spaces w →
      Written (v ++ cs ++ (renderItems layout depth items).toList ++ w) (.items (j :: items))
  | [], _, _, _, _, hv, hcs, hw => by
      have hlast := Written.item hv hcs hw
      simpa [renderItems] using hlast
  | item :: items, _, _, _, _, hv, hcs, hw => by
      have hrest := written_renderItems layout depth items (spaces_lineBreak layout depth)
        (written_renderAt layout depth item) hw
      have hall := Written.items hv hcs spaces_nil hrest
      simpa [renderItems] using hall

theorem written_renderFields (layout : Layout) (depth : Nat) :
    ∀ (fields : List (String × Json)) {v cs w : List Char} {name : String} {j : Json},
      Spaces v → Written cs (.field name j) → Spaces w →
      Written (v ++ cs ++ (renderFields layout depth fields).toList ++ w)
        (.fields ((name, j) :: fields))
  | [], _, _, _, _, _, hv, hcs, hw => by
      have hlast := Written.lastField hv hcs hw
      simpa [renderFields] using hlast
  | (name, value) :: fields, _, _, _, _, _, hv, hcs, hw => by
      have hrest := written_renderFields layout depth fields (spaces_lineBreak layout depth)
        (written_field layout name (written_renderAt layout depth value)) hw
      have hall := Written.fields hv hcs spaces_nil hrest
      simpa [renderFields] using hall

end

/-- A rendered value is a text for it, in either layout. -/
theorem denotes_render (layout : Layout) (j : Json) : Denotes (j.render layout) j := by
  refine ⟨[], (renderAt layout 0 j).toList, [], spaces_nil, written_renderAt layout 0 j,
    spaces_nil, ?_⟩
  rw [List.nil_append, List.append_nil]
  rfl

end QueryFilter.Json
