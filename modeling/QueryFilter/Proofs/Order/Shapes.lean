import Mathlib.Data.List.Forall2
import QueryFilter.Order
import QueryFilter.Proofs.Text.Trimming

/-!
# The shapes of sort tokens

A sort token is written in one of three shapes around a field name (`Shape.text`).
A field name holds no parenthesis, and the words in front of one differ in their
first letter, so a text is written in one shape and with one field name only
(`Shape.eq_of_text_eq`). The three attempts of `ofChars?` can therefore be read
independently of their order: where one of them succeeds the others fail
(`ofChars?_eq_some_iff`).
-/

namespace QueryFilter.Order

inductive Shape where
  | bare
  | ascending
  | descending
deriving DecidableEq, Repr

namespace Shape

/-- A field name written in a shape. -/
def text : Shape → String → String
  | bare, f => f
  | ascending, f => "asc(" ++ f ++ ")"
  | descending, f => "desc(" ++ f ++ ")"

/-- The order that a field name in a shape stands for. -/
def order : Shape → String → Order
  | bare, f => asc f
  | ascending, f => asc f
  | descending, f => desc f

end Shape

/-- A text that can be a field name: letters and digits of ASCII, `_` and `-`. -/
def IsField (f : String) : Prop :=
  f ≠ "" ∧ ∀ c ∈ f.toList, ('A' ≤ c ∧ c ≤ 'Z') ∨ ('a' ≤ c ∧ c ≤ 'z') ∨ ('0' ≤ c ∧ c ≤ '9') ∨
    c = '_' ∨ c = '-'

/-! ## Field names -/

theorem isFieldChar_iff (c : Char) :
    isFieldChar c = true ↔ ('A' ≤ c ∧ c ≤ 'Z') ∨ ('a' ≤ c ∧ c ≤ 'z') ∨ ('0' ≤ c ∧ c ≤ '9') ∨
      c = '_' ∨ c = '-' := by
  have halphanum : c.isAlphanum = (c.isUpper || c.isLower || c.isDigit) := rfl
  have hupper : c.isUpper = decide ('A' ≤ c ∧ c ≤ 'Z') := rfl
  have hlower : c.isLower = (decide ('a' ≤ c) && decide (c ≤ 'z')) := rfl
  have hdigit : c.isDigit = (decide ('0' ≤ c) && decide (c ≤ '9')) := rfl
  simp only [isFieldChar, halphanum, hupper, hlower, hdigit, Bool.or_eq_true, Bool.and_eq_true,
    decide_eq_true_eq, or_assoc]

theorem isField_iff (f : String) :
    IsField f ↔ f.toList ≠ [] ∧ ∀ c ∈ f.toList, isFieldChar c = true := by
  simp only [IsField, isFieldChar_iff, ne_eq, String.toList_eq_nil_iff]

/-- The characters of field names lie between the two blanks U+0020 and U+0085, where
no other blank is. -/
theorem isBlank_eq_false_of_isFieldChar {c : Char} (h : isFieldChar c = true) :
    Text.isBlank c = false := by
  have hbounds : 0x20 < c.toNat ∧ c.toNat < 0x85 := by
    rw [isFieldChar_iff] at h
    rcases h with ⟨hlo, hhi⟩ | ⟨hlo, hhi⟩ | ⟨hlo, hhi⟩ | rfl | rfl
    · exact ⟨Nat.lt_of_lt_of_le (by decide) hlo, Nat.lt_of_le_of_lt hhi (by decide)⟩
    · exact ⟨Nat.lt_of_lt_of_le (by decide) hlo, Nat.lt_of_le_of_lt hhi (by decide)⟩
    · exact ⟨Nat.lt_of_lt_of_le (by decide) hlo, Nat.lt_of_le_of_lt hhi (by decide)⟩
    · decide
    · decide
  simp only [Text.isBlank, Text.blankRanges, List.any_cons, List.any_nil, Bool.or_false,
    Bool.or_eq_false_iff, Bool.and_eq_false_iff, decide_eq_false_iff_not]
  omega

theorem IsField.paren_not_mem {f : String} (hf : IsField f) : '(' ∉ f.toList := by
  intro hmem
  exact absurd (((isField_iff f).1 hf).2 _ hmem) (by decide)

theorem Shape.paren_mem_text_iff (s : Shape) {f : String} (hf : IsField f) :
    '(' ∈ (s.text f).toList ↔ s ≠ bare := by
  cases s <;> simp [text, hf.paren_not_mem]

/-- No text is written in two ways. -/
theorem Shape.eq_of_text_eq {s s' : Shape} {f f' : String} (hf : IsField f) (hf' : IsField f')
    (h : s.text f = s'.text f') : s = s' ∧ f = f' := by
  have hbare : s ≠ bare ↔ s' ≠ bare := by
    rw [← s.paren_mem_text_iff hf, h, s'.paren_mem_text_iff hf']
  rw [← String.toList_inj] at h ⊢
  cases s <;> cases s' <;> simp_all [text]

/-! ## Reading a trimmed token -/

theorem fieldName?_eq_some_iff (cs : List Char) (f : String) :
    fieldName? cs = some f ↔ IsField f ∧ cs = f.toList := by
  rw [fieldName?, Option.ite_none_right_eq_some, isField_iff, List.all_eq_true]
  constructor
  · rintro ⟨h, ⟨⟩⟩
    rw [String.toList_ofList]
    exact ⟨h, rfl⟩
  · rintro ⟨h, rfl⟩
    exact ⟨h, by rw [String.ofList_toList]⟩

theorem argument?_eq_some_iff (word : String) (cs : List Char) (f : String) :
    argument? word cs = some f ↔ IsField f ∧ cs = (word ++ "(" ++ f ++ ")").toList := by
  have htext : (word ++ "(" ++ f ++ ")").toList = word.toList ++ ['('] ++ (f.toList ++ [')']) := by
    simp
  rw [htext, argument?]
  constructor
  · intro h
    split at h
    · next rest hrest =>
      rw [Option.ite_none_right_eq_some, fieldName?_eq_some_iff] at h
      obtain ⟨hlast, hf, hfield⟩ := h
      refine ⟨hf, ?_⟩
      rw [← List.isPrefixOf?_eq_some_iff_append_eq.1 hrest, ← hfield,
        List.dropLast_append_getLast? _ hlast]
    · exact absurd h (by simp)
  · rintro ⟨hf, rfl⟩
    rw [List.isPrefixOf?_eq_some_iff_append_eq.2 rfl]
    simp [fieldName?_eq_some_iff, hf]

/-- The field name of a trimmed token in a shape. -/
def Shape.field? : Shape → List Char → Option String
  | bare, cs => fieldName? cs
  | ascending, cs => argument? "asc" cs
  | descending, cs => argument? "desc" cs

theorem Shape.field?_eq_some_iff (s : Shape) (cs : List Char) (f : String) :
    s.field? cs = some f ↔ IsField f ∧ cs = (s.text f).toList := by
  cases s with
  | bare => exact fieldName?_eq_some_iff cs f
  | ascending => exact argument?_eq_some_iff "asc" cs f
  | descending => exact argument?_eq_some_iff "desc" cs f

theorem Shape.field?_eq_none {s s' : Shape} {cs : List Char} {f : String}
    (h : s.field? cs = some f) (hne : s' ≠ s) : s'.field? cs = none := by
  rw [Option.eq_none_iff_forall_ne_some]
  intro f' h'
  obtain ⟨hf, htext⟩ := (s.field?_eq_some_iff cs f).1 h
  obtain ⟨hf', htext'⟩ := (s'.field?_eq_some_iff cs f').1 h'
  exact hne (Shape.eq_of_text_eq hf' hf (String.toList_inj.1 (htext'.symm.trans htext))).1

theorem ofDirection_asc (f : String) : ofDirection f "asc" = asc f := if_neg (by decide)

theorem ofDirection_desc (f : String) : ofDirection f "desc" = desc f := if_pos (by decide)

theorem directed?_eq (cs : List Char) :
    directed? cs = ((Shape.ascending.field? cs).map ("asc", ·)).or
      ((Shape.descending.field? cs).map ("desc", ·)) := by
  rw [directed?, List.findSome?_cons, List.findSome?_cons]
  change _ = ((argument? "asc" cs).map _).or ((argument? "desc" cs).map _)
  cases argument? "asc" cs <;> cases argument? "desc" cs <;> rfl

theorem ofChars?_eq (cs : List Char) :
    ofChars? cs = (((Shape.ascending.field? cs).map asc).or
      ((Shape.descending.field? cs).map desc)).or ((Shape.bare.field? cs).map asc) := by
  rw [ofChars?, directed?_eq]
  cases Shape.ascending.field? cs with
  | some f => simp [ofDirection_asc]
  | none =>
      cases Shape.descending.field? cs with
      | some f => simp [ofDirection_desc]
      | none => rfl

/-- A trimmed token stands for an order exactly if it is a field name in one of the
shapes, and then for the order of that shape. -/
theorem ofChars?_eq_some_iff (cs : List Char) (o : Order) :
    ofChars? cs = some o ↔ ∃ s : Shape, ∃ f, s.field? cs = some f ∧ o = s.order f := by
  rw [ofChars?_eq]
  constructor
  · intro h
    rw [Option.or_eq_some_iff, Option.or_eq_some_iff] at h
    simp only [Option.map_eq_some_iff] at h
    rcases h with (⟨f, hf, rfl⟩ | ⟨-, f, hf, rfl⟩) | ⟨-, f, hf, rfl⟩
    · exact ⟨.ascending, f, hf, rfl⟩
    · exact ⟨.descending, f, hf, rfl⟩
    · exact ⟨.bare, f, hf, rfl⟩
  · rintro ⟨s, f, hf, rfl⟩
    cases s with
    | ascending => rw [hf]; rfl
    | descending => rw [Shape.field?_eq_none hf (by decide), hf]; rfl
    | bare =>
        rw [Shape.field?_eq_none hf (by decide), Shape.field?_eq_none hf (by decide), hf]
        rfl

/-! ## Tokens with blanks around them -/

theorem parse?_eq_some_iff (t : String) (o : Order) :
    parse? t = some o ↔
      ∃ s : Shape, ∃ f, IsField f ∧ Text.Trimmed t (s.text f) ∧ o = s.order f := by
  simp only [parse?, ofChars?_eq_some_iff, Shape.field?_eq_some_iff, Text.trimmed_iff, and_assoc]

theorem Shape.isBlank_eq_false_of_mem_text (s : Shape) {f : String} (hf : IsField f) :
    ∀ c ∈ (s.text f).toList, Text.isBlank c = false := by
  have hfield : ∀ c ∈ f.toList, Text.isBlank c = false := fun c hc =>
    isBlank_eq_false_of_isFieldChar (((isField_iff f).1 hf).2 c hc)
  have hasc : ∀ c ∈ "asc(".toList, Text.isBlank c = false := by
    simp [Text.isBlank, Text.blankRanges]
  have hdesc : ∀ c ∈ "desc(".toList, Text.isBlank c = false := by
    simp [Text.isBlank, Text.blankRanges]
  have hclose : ∀ c ∈ ")".toList, Text.isBlank c = false := by
    simp [Text.isBlank, Text.blankRanges]
  cases s with
  | bare => exact hfield
  | ascending =>
      simp only [text, String.toList_append, List.forall_mem_append]
      exact ⟨⟨hasc, hfield⟩, hclose⟩
  | descending =>
      simp only [text, String.toList_append, List.forall_mem_append]
      exact ⟨⟨hdesc, hfield⟩, hclose⟩

theorem Shape.trimmed_text (s : Shape) {f before after : String} (hf : IsField f)
    (hbefore : Text.isBlankText before = true) (hafter : Text.isBlankText after = true) :
    Text.Trimmed (before ++ s.text f ++ after) (s.text f) := by
  have hchars := s.isBlank_eq_false_of_mem_text hf
  refine ⟨⟨before, after, rfl, hbefore, hafter⟩, ?_, ?_⟩
  · exact fun c hc => hchars c (List.mem_of_mem_head? hc)
  · exact fun c hc => hchars c (List.mem_of_mem_getLast? hc)

theorem forall₂_parseAll (tokens : List String) :
    List.Forall₂ (fun t o => parse? t = some o)
      (tokens.filter fun t => (parse? t).isSome) (parseAll tokens) := by
  induction tokens with
  | nil => exact .nil
  | cons t tokens ih =>
      rw [parseAll, List.filter_cons, List.filterMap_cons]
      cases h : parse? t with
      | none => exact ih
      | some o => exact .cons h ih

/-- A sort token stands for an order exactly if it is, without the blanks around it, a
field name in one of the three shapes, and it is so in one way only. A field name
written in any shape, with blanks around it, is read back as the order of that shape.
Of a list of tokens the orders are kept that its readable tokens stand for, in sequence. -/
theorem parse_reads_shapes :
    (∀ t o, parse? t = some o ↔
      ∃ s : Shape, ∃ f, IsField f ∧ Text.Trimmed t (s.text f) ∧ o = s.order f) ∧
    (∀ t (s s' : Shape) f f', IsField f → IsField f' →
      Text.Trimmed t (s.text f) → Text.Trimmed t (s'.text f') → s = s' ∧ f = f') ∧
    (∀ (s : Shape) f before after, IsField f →
      Text.isBlankText before = true → Text.isBlankText after = true →
      parse? (before ++ s.text f ++ after) = some (s.order f)) ∧
    (∀ tokens, List.Forall₂ (fun t o => parse? t = some o)
      (tokens.filter fun t => (parse? t).isSome) (parseAll tokens)) := by
  refine ⟨parse?_eq_some_iff, ?_, ?_, forall₂_parseAll⟩
  · intro t s s' f f' hf hf' h h'
    rw [Text.trimmed_iff] at h h'
    exact Shape.eq_of_text_eq hf hf' (String.toList_inj.1 (h.symm.trans h'))
  · intro s f before after hf hbefore hafter
    exact (parse?_eq_some_iff _ _).2 ⟨s, f, hf, s.trimmed_text hf hbefore hafter, rfl⟩

theorem parse_reads_direction_as_field :
    parse? "\u2003desc(asc)\t" = some (desc "asc") ∧
      ¬ Text.Trimmed "\u2003desc(asc)\t" (Shape.bare.text "asc") := by
  have hf : IsField "asc" := by simp [IsField]
  obtain ⟨-, hunique, hread, -⟩ := parse_reads_shapes
  refine ⟨hread .descending "asc" "\u2003" "\t" hf (by decide) (by decide), ?_⟩
  intro hbare
  have htrimmed : Text.Trimmed "\u2003desc(asc)\t" (Shape.descending.text "asc") :=
    (Text.trimmed_iff _ _).2 (by decide)
  exact absurd (hunique _ _ _ _ _ hf hf hbare htrimmed).1 (by decide)

end QueryFilter.Order
