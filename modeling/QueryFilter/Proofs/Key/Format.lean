import Mathlib.Data.List.Basic
import QueryFilter.Key

/-!
# The format of keys

`Key.Written text k` lists the five shapes that a recognised key can have, each
with the key it stands for. `Key.decode?` recognises exactly these shapes, and
what it returns holds everything the text said, so rendering undoes it.

A segment is cut off at the first bracket after its opening one. Since a
segment holds no bracket, the cut is the only possible one, and the equivalence
is carried from one segment (`segment?_eq_some_iff`) over the list of segments
(`segments?_eq_some_iff`) to the whole key.

`Key.decodeInStages?` finds the same keys in two steps, by one pattern for the
category and what follows it and a second one for what follows `[param]`.
-/

namespace QueryFilter.Key

/-- A text that can stand between brackets. -/
def IsSegment (s : String) : Prop :=
  s ≠ "" ∧ ∀ c ∈ s.toList, c ≠ '[' ∧ c ≠ ']' ∧ c ≠ '\n'

/-- The texts of keys, each with its key. -/
inductive Written : String → Key → Prop
  | binding : Written "filter[binding]" .binding
  | order : Written "filter[order]" .order
  | field {f : String} : IsSegment f →
      Written ("filter[param][" ++ f ++ "]") (.parameter f none none)
  | operation {f o : String} : IsSegment f → IsSegment o →
      Written ("filter[param][" ++ f ++ "][" ++ o ++ "]") (.parameter f (some o) none)
  | label {f o a : String} : IsSegment f → IsSegment o → IsSegment a →
      Written ("filter[param][" ++ f ++ "][" ++ o ++ "][" ++ a ++ "]")
        (.parameter f (some o) (some a))

/-! ## Cutting a text into segments -/

/-- A non-empty text of characters of a class. -/
def ConsistsOf (inside : Char → Bool) (s : String) : Prop :=
  s.toList ≠ [] ∧ ∀ c ∈ s.toList, inside c = true

theorem isSegment_iff (s : String) : IsSegment s ↔ ConsistsOf isSegmentChar s := by
  simp [IsSegment, ConsistsOf, isSegmentChar, and_assoc, String.toList_eq_nil_iff]

/-- A segment in its brackets. -/
def bracketed (s : String) : List Char := '[' :: (s.toList ++ [']'])

theorem bracketed?_bracketed {inside : Char → Bool} (hclose : inside ']' = false) {s : String}
    (hs : ConsistsOf inside s) (rest : List Char) :
    bracketed? inside (bracketed s ++ rest) = some (s, rest) := by
  obtain ⟨hne, hchars⟩ := hs
  obtain ⟨c, cs, hcs⟩ := List.exists_cons_of_ne_nil hne
  have htake : (s.toList ++ ']' :: rest).takeWhile inside = c :: cs := by
    rw [List.takeWhile_append_of_pos hchars, hcs]
    simp [hclose]
  have hdrop : (s.toList ++ ']' :: rest).dropWhile inside = ']' :: rest := by
    rw [List.dropWhile_append_of_pos hchars]
    simp [hclose]
  have hsplit : bracketed s ++ rest = '[' :: (s.toList ++ ']' :: rest) := by simp [bracketed]
  rw [hsplit, bracketed?, htake, hdrop]
  change some (String.ofList (c :: cs), rest) = some (s, rest)
  rw [← hcs, String.ofList_toList]

theorem of_bracketed? {inside : Char → Bool} {cs rest : List Char} {s : String}
    (h : bracketed? inside cs = some (s, rest)) :
    ConsistsOf inside s ∧ cs = bracketed s ++ rest := by
  unfold bracketed? at h
  split at h
  · next cs =>
    split at h
    · next c name after htake hdrop =>
      cases h
      have hwhole : cs = (c :: name) ++ ']' :: rest := by
        rw [← htake, ← hdrop, List.takeWhile_append_dropWhile]
      refine ⟨⟨by simp, ?_⟩, ?_⟩
      · rw [String.toList_ofList, ← htake]
        exact List.all_eq_true.1 (List.all_takeWhile)
      · simp [bracketed, hwhole]
    · exact absurd h (by simp)
  · exact absurd h (by simp)

/-- A text in brackets is cut off exactly where its brackets stand. -/
theorem bracketed?_eq_some_iff {inside : Char → Bool} (hclose : inside ']' = false)
    (cs rest : List Char) (s : String) :
    bracketed? inside cs = some (s, rest) ↔ ConsistsOf inside s ∧ cs = bracketed s ++ rest := by
  constructor
  · exact of_bracketed?
  · rintro ⟨hs, rfl⟩
    exact bracketed?_bracketed hclose hs rest

theorem segment?_eq_some_iff (cs rest : List Char) (s : String) :
    segment? cs = some (s, rest) ↔ IsSegment s ∧ cs = bracketed s ++ rest := by
  rw [isSegment_iff]
  exact bracketed?_eq_some_iff (by decide) cs rest s

theorem segments?_succ_cons (n : Nat) (c : Char) (cs : List Char) :
    segments? (n + 1) (c :: cs) =
      (segment? (c :: cs)).bind fun x => (segments? n x.2).map (x.1 :: ·) := by
  rw [segments?]
  cases segment? (c :: cs) with
  | none => rfl
  | some x => cases hn : segments? n x.2 <;> simp [hn]

/-- A text is cut into segments exactly when it is a row of them, of which there
are not too many. -/
theorem segments?_eq_some_iff (n : Nat) (cs : List Char) (names : List String) :
    segments? n cs = some names ↔
      names.length ≤ n ∧ (∀ s ∈ names, IsSegment s) ∧ cs = names.flatMap bracketed := by
  induction n generalizing cs names with
  | zero =>
      cases cs with
      | nil => cases names <;> simp [segments?, bracketed]
      | cons c cs => cases names <;> simp [segments?]
  | succ n ih =>
      cases cs with
      | nil => cases names <;> simp [segments?, bracketed]
      | cons c cs =>
          rw [segments?_succ_cons]
          constructor
          · intro h
            obtain ⟨⟨s, rest⟩, hs, h⟩ := Option.bind_eq_some_iff.1 h
            obtain ⟨ss, hss, rfl⟩ := Option.map_eq_some_iff.1 h
            obtain ⟨hseg, hcs⟩ := (segment?_eq_some_iff _ _ _).1 hs
            obtain ⟨hlen, hall, rfl⟩ := (ih rest ss).1 hss
            exact ⟨Nat.succ_le_succ hlen, List.forall_mem_cons.2 ⟨hseg, hall⟩, hcs⟩
          · rintro ⟨hlen, hall, hcs⟩
            cases names with
            | nil => simp at hcs
            | cons s ss =>
                rw [List.forall_mem_cons] at hall
                have hs := (segment?_eq_some_iff _ _ _).2 ⟨hall.1, hcs⟩
                have hss := (ih _ ss).2 ⟨Nat.le_of_succ_le_succ hlen, hall.2, rfl⟩
                exact Option.bind_eq_some_iff.2 ⟨_, hs, Option.map_eq_some_iff.2 ⟨ss, hss, rfl⟩⟩

/-! ## Keys and their segments -/

/-- The keys that can be written: their parts are segments, and a label comes with
an operation. -/
structure WellFormed (k : Key) : Prop where
  segments : ∀ s ∈ k.segments, IsSegment s
  label : ∀ f a, k ≠ .parameter f none (some a)

theorem eq_segments_of_ofSegments? {names : List String} {k : Key}
    (h : ofSegments? names = some k) :
    names = k.segments ∧ ∀ f a, k ≠ .parameter f none (some a) := by
  unfold ofSegments? at h
  split at h
  · cases h; exact ⟨rfl, by simp⟩
  · cases h; exact ⟨rfl, by simp⟩
  · cases h; exact ⟨rfl, by simp⟩
  · cases h; exact ⟨rfl, by simp⟩
  · cases h; exact ⟨rfl, by simp⟩
  · exact absurd h (by simp)

theorem length_segments_le (k : Key) : k.segments.length ≤ maxSegments := by
  cases k with
  | binding => decide
  | order => decide
  | parameter f o a => cases o <;> cases a <;> simp [segments, maxSegments]

theorem toList_render (k : Key) :
    k.render.toList = "filter".toList ++ k.segments.flatMap bracketed := by
  rw [render, String.toList_append, String.toList_join, List.flatMap_map]
  congr 2
  funext s
  simp [bracketed]

theorem eq_render_iff (text : String) (k : Key) :
    text = k.render ↔ "filter".toList ++ k.segments.flatMap bracketed = text.toList := by
  rw [← toList_render, String.toList_inj, eq_comm]

/-- A text is recognised as a key exactly when it is the rendering of that key. -/
theorem decode?_eq_some_iff (text : String) (k : Key) :
    decode? text = some k ↔ k.WellFormed ∧ text = k.render := by
  rw [eq_render_iff, decode?]
  constructor
  · intro h
    obtain ⟨rest, hrest, h⟩ := Option.bind_eq_some_iff.1 h
    obtain ⟨names, hnames, h⟩ := Option.bind_eq_some_iff.1 h
    obtain ⟨rfl, hlabel⟩ := eq_segments_of_ofSegments? h
    obtain ⟨-, hall, rfl⟩ := (segments?_eq_some_iff _ _ _).1 hnames
    exact ⟨⟨hall, hlabel⟩, List.isPrefixOf?_eq_some_iff_append_eq.1 hrest⟩
  · rintro ⟨⟨hall, hlabel⟩, htext⟩
    have hrest := List.isPrefixOf?_eq_some_iff_append_eq.2 htext
    have hnames := (segments?_eq_some_iff _ _ _).2 ⟨k.length_segments_le, hall, rfl⟩
    rw [hrest, Option.bind_eq_bind, Option.bind_some, hnames]
    exact ofSegments?_segments k hlabel

theorem isSegment_binding : IsSegment "binding" := by simp [IsSegment]

theorem isSegment_order : IsSegment "order" := by simp [IsSegment]

theorem isSegment_param : IsSegment "param" := by simp [IsSegment]

/-! ## Decoding in two stages

A key can also be taken apart in two stages: first the category in the first
brackets and all that stands behind it, then, of a parameter, the field and up to
two optional segments. The names in brackets may then hold line feeds, and only
the text behind the category may not.
-/

def isNameChar (c : Char) : Bool := c ≠ '[' && c ≠ ']'

/-- The category of a key and the text behind it. -/
def category? (text : String) : Option (String × List Char) := do
  let rest ← "filter".toList.isPrefixOf? text.toList
  (bracketed? isNameChar rest).filter fun x => '\n' ∉ x.2

/-- The ways to read an optional segment, in the order in which they are tried. -/
def optional (cs : List Char) : List (Option String × List Char) :=
  match bracketed? isNameChar cs with
  | some (name, rest) => [(some name, rest), (none, cs)]
  | none => [(none, cs)]

/-- The parameter on a field that a text describes: the first way to read two
optional segments that leaves nothing over. -/
def parameterOn? (field : String) (cs : List Char) : Option Key :=
  (optional cs).findSome? fun operation =>
    (optional operation.2).findSome? fun label =>
      if label.2 = [] then some (.parameter field operation.1 label.1) else none

def parameter? (cs : List Char) : Option Key := do
  let (field, rest) ← bracketed? isNameChar cs
  parameterOn? field rest

def decodeInStages? (text : String) : Option Key := do
  let (category, rest) ← category? text
  match category with
  | "param" => parameter? rest
  | "binding" => if rest = [] then some .binding else none
  | "order" => if rest = [] then some .order else none
  | _ => none

theorem category?_eq_some_iff (text category : String) (rest : List Char) :
    category? text = some (category, rest) ↔
      ConsistsOf isNameChar category ∧ '\n' ∉ rest ∧
        "filter".toList ++ (bracketed category ++ rest) = text.toList := by
  rw [category?]
  constructor
  · intro h
    obtain ⟨behind, hbehind, h⟩ := Option.bind_eq_some_iff.1 h
    obtain ⟨hname, hfree⟩ := Option.filter_eq_some_iff.1 h
    obtain ⟨hchars, rfl⟩ := of_bracketed? hname
    exact ⟨hchars, by simpa using hfree, List.isPrefixOf?_eq_some_iff_append_eq.1 hbehind⟩
  · rintro ⟨hchars, hfree, htext⟩
    have hname := bracketed?_bracketed (by decide) hchars rest
    rw [List.isPrefixOf?_eq_some_iff_append_eq.2 htext, Option.bind_eq_bind, Option.bind_some,
      hname]
    exact Option.filter_eq_some_iff.2 ⟨rfl, by simpa using hfree⟩

theorem isSegment_iff_isNameChar (s : String) :
    IsSegment s ↔ ConsistsOf isNameChar s ∧ '\n' ∉ s.toList := by
  constructor
  · rintro ⟨hne, hchars⟩
    refine ⟨⟨mt String.toList_eq_nil_iff.1 hne, ?_⟩, fun hmem => (hchars _ hmem).2.2 rfl⟩
    intro c hc
    simp [isNameChar, (hchars c hc).1, (hchars c hc).2.1]
  · rintro ⟨⟨hne, hchars⟩, hfree⟩
    refine ⟨mt String.toList_eq_nil_iff.2 hne, fun c hc => ?_⟩
    have hname : c ≠ '[' ∧ c ≠ ']' := by simpa [isNameChar] using hchars c hc
    exact ⟨hname.1, hname.2, fun hc' => hfree (hc' ▸ hc)⟩

/-- In a row of names, keeping the row free of line feeds makes the names
segments. -/
theorem forall_isSegment_iff (names : List String) :
    (∀ s ∈ names, IsSegment s) ↔
      (∀ s ∈ names, ConsistsOf isNameChar s) ∧ '\n' ∉ names.flatMap bracketed := by
  have hfree : '\n' ∉ names.flatMap bracketed ↔ ∀ s ∈ names, '\n' ∉ s.toList := by
    simp [bracketed, List.mem_flatMap]
  rw [hfree, ← forall₂_and]
  exact forall₂_congr fun s _ => isSegment_iff_isNameChar s

theorem optional_nil : optional [] = [(none, [])] := rfl

theorem optional_bracketed {s : String} (hs : ConsistsOf isNameChar s) (rest : List Char) :
    optional (bracketed s ++ rest) = [(some s, rest), (none, bracketed s ++ rest)] := by
  rw [optional, bracketed?_bracketed (by decide) hs]

theorem optional_bracketed_last {s : String} (hs : ConsistsOf isNameChar s) :
    optional (bracketed s) = [(some s, []), (none, bracketed s)] := by
  simpa using optional_bracketed hs []

theorem of_mem_optional {cs rest : List Char} {name : Option String}
    (h : (name, rest) ∈ optional cs) :
    (∀ s ∈ name.toList, ConsistsOf isNameChar s) ∧ cs = name.toList.flatMap bracketed ++ rest := by
  rw [optional] at h
  split at h
  · next s after hs =>
    obtain ⟨hchars, hcs⟩ := of_bracketed? hs
    simp only [List.mem_cons, Prod.mk.injEq, List.not_mem_nil, or_false] at h
    obtain ⟨rfl, rfl⟩ | ⟨rfl, rfl⟩ := h
    · simp [hchars, hcs]
    · simp
  · simp only [List.mem_cons, Prod.mk.injEq, List.not_mem_nil, or_false] at h
    obtain ⟨rfl, rfl⟩ := h
    simp

/-- A row of names that describes a parameter is read as that parameter. -/
theorem parameter?_flatMap {names : List String} {k : Key}
    (hnames : ∀ s ∈ names, ConsistsOf isNameChar s)
    (hk : ofSegments? ("param" :: names) = some k) :
    parameter? (names.flatMap bracketed) = some k := by
  obtain ⟨hsegments, hlabel⟩ := eq_segments_of_ofSegments? hk
  cases k with
  | binding => simp [segments] at hsegments
  | order => simp [segments] at hsegments
  | parameter f o a =>
      obtain rfl : names = f :: (o.toList ++ a.toList) := by simpa [segments] using hsegments
      rw [List.flatMap_cons, parameter?, bracketed?_bracketed (by decide) (hnames f (by simp)),
        Option.bind_eq_bind, Option.bind_some]
      cases o with
      | none =>
          cases a with
          | none => simp [parameterOn?, optional_nil]
          | some a => exact absurd rfl (hlabel f a)
      | some o =>
          have ho := hnames o (by simp)
          cases a with
          | none => simp [parameterOn?, optional_bracketed_last ho, optional_nil]
          | some a =>
              have ha := hnames a (by simp)
              simp [parameterOn?, optional_bracketed ho, optional_bracketed_last ha]

/-- A parameter is read from a row of names that describes it. An operation is
tried before a label, so a single name is never taken for the label. -/
theorem of_parameter? {cs : List Char} {k : Key} (h : parameter? cs = some k) :
    ∃ names, (∀ s ∈ names, ConsistsOf isNameChar s) ∧ cs = names.flatMap bracketed ∧
      ofSegments? ("param" :: names) = some k := by
  obtain ⟨⟨f, behind⟩, hfield, hon⟩ := Option.bind_eq_some_iff.1 h
  obtain ⟨⟨o, after⟩, hoperation, hon⟩ := List.exists_of_findSome?_eq_some hon
  obtain ⟨⟨a, rest⟩, hlabel, hon⟩ := List.exists_of_findSome?_eq_some hon
  obtain ⟨rfl, hk⟩ := Option.ite_none_right_eq_some.1 hon
  obtain ⟨hf, hbehind⟩ := of_bracketed? hfield
  obtain ⟨ho, hafter⟩ := of_mem_optional hoperation
  obtain ⟨ha, hrest : after = _⟩ := of_mem_optional hlabel
  cases hk
  have hnames : ∀ s ∈ f :: (o.toList ++ a.toList), ConsistsOf isNameChar s :=
    List.forall_mem_cons.2 ⟨hf, List.forall_mem_append.2 ⟨ho, ha⟩⟩
  have hcs : cs = (f :: (o.toList ++ a.toList)).flatMap bracketed := by
    simp [hbehind, hafter, hrest]
  refine ⟨f :: (o.toList ++ a.toList), hnames, hcs, ?_⟩
  cases o with
  | some o => cases a <;> rfl
  | none =>
      cases a with
      | none => rfl
      | some a =>
          have hfirst : parameter? cs = some (.parameter f (some a) none) := by
            rw [hcs]
            exact parameter?_flatMap hnames rfl
          cases h.symm.trans hfirst

theorem decodeInStages?_eq_some_iff (text : String) (k : Key) :
    decodeInStages? text = some k ↔ k.WellFormed ∧ text = k.render := by
  rw [eq_render_iff]
  constructor
  · intro h
    obtain ⟨⟨category, rest⟩, hcategory, h⟩ := Option.bind_eq_some_iff.1 h
    obtain ⟨-, hfree, htext⟩ := (category?_eq_some_iff _ _ _).1 hcategory
    dsimp only at h
    split at h
    · obtain ⟨names, hnames, rfl, hk⟩ := of_parameter? h
      obtain ⟨hsegments, hlabel⟩ := eq_segments_of_ofSegments? hk
      have hall := (forall_isSegment_iff names).2 ⟨hnames, hfree⟩
      rw [← hsegments]
      exact ⟨⟨hsegments ▸ List.forall_mem_cons.2 ⟨isSegment_param, hall⟩, hlabel⟩, htext⟩
    · obtain ⟨rfl, h⟩ := Option.ite_none_right_eq_some.1 h
      cases h
      exact ⟨⟨by simp [segments, isSegment_binding], by simp⟩, htext⟩
    · obtain ⟨rfl, h⟩ := Option.ite_none_right_eq_some.1 h
      cases h
      exact ⟨⟨by simp [segments, isSegment_order], by simp⟩, htext⟩
    · exact absurd h (by simp)
  · rintro ⟨⟨hall, hlabel⟩, htext⟩
    obtain ⟨category, names, hsegments⟩ : ∃ category names, k.segments = category :: names := by
      cases k <;> exact ⟨_, _, rfl⟩
    have hk := ofSegments?_segments k hlabel
    rw [hsegments] at hall htext hk
    obtain ⟨hcategory, hnames⟩ := List.forall_mem_cons.1 hall
    obtain ⟨hchars, hfree⟩ := (forall_isSegment_iff names).1 hnames
    have hread := (category?_eq_some_iff text category (names.flatMap bracketed)).2
      ⟨((isSegment_iff_isNameChar _).1 hcategory).1, hfree, htext⟩
    rw [decodeInStages?, hread, Option.bind_eq_bind, Option.bind_some]
    cases k with
    | binding => cases hsegments; rfl
    | order => cases hsegments; rfl
    | parameter f o a =>
        obtain ⟨rfl, -⟩ := List.cons.inj hsegments
        exact parameter?_flatMap hchars hk

theorem decode?_eq_decodeInStages? (text : String) : decode? text = decodeInStages? text := by
  ext k
  rw [decode?_eq_some_iff, decodeInStages?_eq_some_iff]

/-! ## The five shapes -/

theorem render_field (f : String) :
    (parameter f none none).render = "filter[param][" ++ f ++ "]" := by
  rw [← String.toList_inj, toList_render]
  simp [segments, bracketed]

theorem render_operation (f o : String) :
    (parameter f (some o) none).render = "filter[param][" ++ f ++ "][" ++ o ++ "]" := by
  rw [← String.toList_inj, toList_render]
  simp [segments, bracketed]

theorem render_label (f o a : String) :
    (parameter f (some o) (some a)).render =
      "filter[param][" ++ f ++ "][" ++ o ++ "][" ++ a ++ "]" := by
  rw [← String.toList_inj, toList_render]
  simp [segments, bracketed]

theorem written_iff (text : String) (k : Key) :
    Written text k ↔ k.WellFormed ∧ text = k.render := by
  constructor
  · intro h
    cases h with
    | binding => exact ⟨⟨by simp [segments, isSegment_binding], by simp⟩, by decide⟩
    | order => exact ⟨⟨by simp [segments, isSegment_order], by simp⟩, by decide⟩
    | @field f hf =>
        exact ⟨⟨by simp [segments, isSegment_param, hf], by simp⟩, (render_field f).symm⟩
    | @operation f o hf ho =>
        exact ⟨⟨by simp [segments, isSegment_param, hf, ho], by simp⟩, (render_operation f o).symm⟩
    | @label f o a hf ho ha =>
        exact ⟨⟨by simp [segments, isSegment_param, hf, ho, ha], by simp⟩,
          (render_label f o a).symm⟩
  · rintro ⟨⟨hsegments, hlabel⟩, rfl⟩
    cases k with
    | binding => exact .binding
    | order => exact .order
    | parameter f o a =>
        cases o with
        | none =>
            cases a with
            | none =>
                rw [render_field]
                exact .field (hsegments f (by simp [segments]))
            | some a => exact absurd rfl (hlabel f a)
        | some o =>
            have hf := hsegments f (by simp [segments])
            have ho := hsegments o (by simp [segments])
            cases a with
            | none =>
                rw [render_operation]
                exact .operation hf ho
            | some a =>
                rw [render_label]
                exact .label hf ho (hsegments a (by simp [segments]))

theorem decode?_eq_binding_iff (text : String) :
    decode? text = some .binding ↔ text = "filter[binding]" := by
  rw [decode?_eq_some_iff]
  constructor
  · rintro ⟨-, rfl⟩
    decide
  · rintro rfl
    exact ⟨((written_iff _ _).1 .binding).1, by decide⟩

theorem eq_render_of_decode? {text : String} {k : Key} (h : decode? text = some k) :
    text = k.render :=
  ((decode?_eq_some_iff text k).1 h).2

/-- Exactly the texts of the five shapes are recognised, each as the key with its
parts. Rendering the key gives the text back, so no two texts are the same key,
and a label is never found without an operation. Taking the category off first and
reading the rest by its own pattern comes to the same. -/
theorem decode_recognizes_format :
    (∀ text k, decode? text = some k ↔ Written text k) ∧
    (∀ text k, decode? text = some k → k.render = text) ∧
    (∀ s t k, decode? s = some k → decode? t = some k → s = t) ∧
    (∀ text f o a, decode? text = some (.parameter f o (some a)) → ∃ x, o = some x) ∧
    (∀ text, decode? text = decodeInStages? text) := by
  refine ⟨?_, ?_, ?_, ?_, decode?_eq_decodeInStages?⟩
  · intro text k
    rw [decode?_eq_some_iff, written_iff]
  · intro text k h
    exact (eq_render_of_decode? h).symm
  · intro s t k hs ht
    rw [eq_render_of_decode? hs, eq_render_of_decode? ht]
  · intro text f o a h
    have hk := ((decode?_eq_some_iff text _).1 h).1
    cases o with
    | none => exact absurd rfl (hk.label f a)
    | some x => exact ⟨x, rfl⟩

theorem decode_recognizes_labelled :
    decode? "filter[param][name][like][who]" =
        some (.parameter "name" (some "like") (some "who")) ∧
      (Key.parameter "name" (some "like") (some "who")).render =
        "filter[param][name][like][who]" := by
  have hkey : decode? "filter[param][name][like][who]" =
      some (.parameter "name" (some "like") (some "who")) := by decide
  exact ⟨hkey, decode_recognizes_format.2.1 _ _ hkey⟩

end QueryFilter.Key
