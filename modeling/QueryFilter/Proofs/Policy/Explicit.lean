import QueryFilter.Proofs.Key.Format
import QueryFilter.Proofs.Policy.Outcome

/-!
# Making the binding explicit

An accepted filter can be given back as the binding of the same query. The
further argument declares nothing, so every leaf is filled in as before
(`Declarations.fill_update_binding`), and the tree comes back from its rendering
as long as it can be written and read at all. A filter that came from a binding
always can; one that joins all parameters need not, since labels may hold blanks
and operators.
-/

namespace QueryFilter

namespace Declarations

theorem fill_update_binding (d : Declarations) (text : String) :
    (d.update (.binding text)).fill = d.fill := rfl

end Declarations

namespace Condition

/-- A tree whose leaves are all filled in is the filling of its unresolved form. -/
theorem map_fill_unresolve {d : Declarations} {c : Condition}
    (h : ∀ q ∈ c.parameters, ∃ x, d.definition? q.identification = some x ∧
      q = ⟨q.identification, x.name, some x.operation, some x.value⟩) :
    c.unresolve.map d.fill = c := by
  rw [unresolve, map_map]
  apply map_eq_self
  intro q hq
  obtain ⟨x, hx, he⟩ := h q hq
  simp only [Function.comp, Declarations.fill, Parameter.unresolved_identification, hx]
  exact he.symm

end Condition

namespace Policy

/-! ## The further argument -/

theorem updates_append_binding (p : Policy) (arguments : List (String × String)) (b : String) :
    p.updates (arguments ++ [("filter[binding]", b)]) = p.updates arguments ++ [.binding b] := by
  have hkey := (Key.decode?_eq_binding_iff "filter[binding]").2 rfl
  have hlast : p.update? ("filter[binding]", b) = some (.binding b) := by
    simp only [Settings.update?, hkey]
  rw [Settings.updates, List.filterMap_append, List.filterMap_cons_some hlast]
  rfl

theorem declared_append_binding (p : Policy) (arguments : List (String × String)) (b : String) :
    p.declared (arguments ++ [("filter[binding]", b)]) = p.declared arguments := by
  rw [declared, updates_append_binding, List.filterMap_append]
  exact List.append_nil _

theorem ordersOf_append_binding (p : Policy) (arguments : List (String × String)) (b : String) :
    p.ordersOf (arguments ++ [("filter[binding]", b)]) = p.ordersOf arguments := by
  rw [ordersOf, updates_append_binding, List.filterMap_append]
  exact congrArg Order.parseAll (List.append_nil _)

theorem lastBinding?_append_binding (p : Policy) (arguments : List (String × String)) (b : String) :
    p.lastBinding? (arguments ++ [("filter[binding]", b)]) = some b := by
  rw [lastBinding?, updates_append_binding, List.filterMap_append]
  exact List.getLast?_concat

theorem fill_append_binding (p : Policy) (arguments : List (String × String)) (b : String) :
    (Declarations.ofUpdates (p.updates (arguments ++ [("filter[binding]", b)]))).fill =
      (Declarations.ofUpdates (p.updates arguments)).fill := by
  rw [updates_append_binding, Declarations.ofUpdates_append_singleton,
    Declarations.fill_update_binding]

theorem binding?_of_update? (settings : Settings) (a : String × String) :
    (settings.update? a).bind Update.binding? =
      if a.1 = "filter[binding]" then some a.2 else none := by
  have hkey := Key.decode?_eq_binding_iff a.1
  unfold Settings.update?
  cases hk : Key.decode? a.1 with
  | none =>
      rw [if_neg fun h => by simp [hkey.2 h] at hk]
      rfl
  | some k =>
      cases k with
      | binding => rw [if_pos (hkey.1 hk)]; rfl
      | order => rw [if_neg fun h => by simp [hkey.2 h] at hk]; rfl
      | parameter f o l => rw [if_neg fun h => by simp [hkey.2 h] at hk]; rfl

/-- The binding given last is the value of the last argument with its key. -/
theorem lastBinding?_eq (p : Policy) (arguments : List (String × String)) :
    p.lastBinding? arguments =
      ((arguments.filter fun a => a.1 = "filter[binding]").getLast?).map (·.2) := by
  rw [lastBinding?, ← List.getLast?_map, Settings.updates, List.filterMap_filterMap]
  congr 1
  simp only [binding?_of_update?]
  induction arguments with
  | nil => rfl
  | cons a arguments ih => by_cases ha : a.1 = "filter[binding]" <;> simp [ha, ih]

/-! ## What an accepted filter says about the arguments -/

/-- Labels and fields are segments of a key, so no identification is empty. -/
theorem ne_empty_of_mem_declared {p : Policy} {arguments : List (String × String)}
    {x : String × Definition} (hx : x ∈ p.declared arguments) : x.1 ≠ "" := by
  obtain ⟨u, hu, hux⟩ := List.mem_filterMap.1 hx
  obtain ⟨a, -, ha⟩ := List.mem_filterMap.1 hu
  unfold Settings.update? at ha
  split at ha
  · next f o l hk =>
    cases ha
    obtain rfl := Option.some.inj hux
    have hsegments := ((Key.decode?_eq_some_iff _ _).1 hk).1.segments
    cases l with
    | none => exact (hsegments f (by simp [Key.segments])).1
    | some l => exact (hsegments l (by simp [Key.segments])).1
  · cases ha
    exact absurd hux (by simp [Update.parameter?])
  · cases ha
    exact absurd hux (by simp [Update.parameter?])
  · exact absurd ha (by simp)

theorem mem_declared_of_parse {p : Policy} {arguments : List (String × String)} {c : Condition}
    {os : List Order} (h : p.parse arguments = .ok ⟨some c, os⟩) {q : Parameter}
    (hq : q ∈ c.parameters) : q.identification ∈ (p.declared arguments).map (·.1) := by
  obtain ⟨x, hx, -⟩ := (leaf_of_parse h).2 q hq
  exact (Declarations.isSome_lastDeclared?_iff _ _).1 (Option.isSome_of_eq_some hx)

theorem fill_unresolve_of_parse {p : Policy} {arguments : List (String × String)} {c : Condition}
    {os : List Order} (h : p.parse arguments = .ok ⟨some c, os⟩) :
    c.unresolve.map (Declarations.ofUpdates (p.updates arguments)).fill = c := by
  apply Condition.map_fill_unresolve
  intro q hq
  obtain ⟨x, hx, he⟩ := (leaf_of_parse h).2 q hq
  refine ⟨x, ?_, he⟩
  rw [Declarations.definition?_ofUpdates]
  exact hx

/-- A filter that came from a binding is the tree of that binding, filled in. -/
theorem eq_map_fill_of_parse {p : Policy} {arguments : List (String × String)} {c : Condition}
    {os : List Order} (h : p.parse arguments = .ok ⟨some c, os⟩) {b : String}
    (hb : p.lastBinding? arguments = some b) (hne : b ≠ "") :
    ∃ c₀, Binding.parse b = .ok c₀ ∧
      c = c₀.map (Declarations.ofUpdates (p.updates arguments)).fill := by
  rw [parse_of_binding (enabled_of_parse h) hb hne] at h
  split at h
  · exact absurd h (by simp)
  · next c₀ hc₀ =>
    split at h
    · exact absurd h (by simp)
    · cases h
      exact ⟨c₀, hc₀, rfl⟩

/-! ## The same query with its filter as binding -/

theorem parse_append_binding {p : Policy} {arguments : List (String × String)} {c : Condition}
    {os : List Order} (h : p.parse arguments = .ok ⟨some c, os⟩)
    (hw : ∀ q ∈ c.parameters, Binding.IsWord q.identification)
    (hd : c.depth ≤ Binding.depthLimit) :
    p.parse (arguments ++ [("filter[binding]", c.render)]) = .ok ⟨some c, os⟩ := by
  have hparse := Binding.parse_render_of_depth_le hw hd
  have hne : c.render ≠ "" := by
    intro he
    have hempty : Binding.parse "" = .error .emptyInput := by decide
    rw [he, hempty] at hparse
    exact absurd hparse (by simp)
  have henabled : ∀ x ∈ p.declared (arguments ++ [("filter[binding]", c.render)]),
      x.2.operation ∈ p.enabled := by
    rw [declared_append_binding]
    exact enabled_of_parse h
  have hfind : (c.unresolve.parameters.find? fun q =>
      q.identification ∉ (p.declared arguments).map (·.1)) = none := by
    rw [List.find?_eq_none, Condition.unresolve, Condition.parameters_map]
    intro q hq
    obtain ⟨r, hr, rfl⟩ := List.mem_map.1 hq
    rw [decide_eq_true_eq, not_not, Parameter.unresolved_identification]
    exact mem_declared_of_parse h hr
  rw [parse_of_binding henabled (lastBinding?_append_binding p arguments c.render) hne, hparse,
    declared_append_binding, ordersOf_append_binding, fill_append_binding]
  dsimp only
  rw [hfind, fill_unresolve_of_parse h, (leaf_of_parse h).1]

/-- A query whose filter can be written as a binding gives the same selection when
that binding is added to it as its last one. The filter of a query with a binding
can always be written. -/
theorem parse_explicit_binding (p : Policy) (arguments : List (String × String)) (c : Condition)
    (orders : List Order) (h : p.parse arguments = .ok ⟨some c, orders⟩) :
    ((∀ q ∈ c.parameters, ∀ x ∈ q.identification.toList,
        Text.isBlank x = false ∧ x ∉ ['&', '|', '!', '(', ')']) →
      c.depth ≤ 128 →
      p.parse (arguments ++ [("filter[binding]", c.render)]) = .ok ⟨some c, orders⟩) ∧
    (∀ b, ((arguments.filter fun a => a.1 = "filter[binding]").getLast?).map (·.2) = some b →
      b ≠ "" →
      (∀ q ∈ c.parameters, ∀ x ∈ q.identification.toList,
        Text.isBlank x = false ∧ x ∉ ['&', '|', '!', '(', ')']) ∧
      c.depth ≤ 128) := by
  refine ⟨?_, ?_⟩
  · intro hchars hdepth
    refine parse_append_binding h ?_ hdepth
    intro q hq
    obtain ⟨y, hy, hid⟩ := List.mem_map.1 (mem_declared_of_parse h hq)
    exact ⟨hid ▸ ne_empty_of_mem_declared hy, hchars q hq⟩
  · intro b hb hne
    rw [← lastBinding?_eq p] at hb
    obtain ⟨c₀, hc₀, rfl⟩ := eq_map_fill_of_parse h hb hne
    refine ⟨?_, ?_⟩
    · intro q hq
      rw [Condition.parameters_map] at hq
      obtain ⟨r, hr, rfl⟩ := List.mem_map.1 hq
      rw [Declarations.identification_fill]
      exact (Binding.leaf_of_parse hc₀ hr).2.2
    · obtain ⟨n, -, -, hdepth⟩ := Binding.derives_of_parse hc₀
      rw [Condition.depth_map]
      exact hdepth

theorem parse_explicit_joined :
    ∃ c orders,
      Policy.parse ⟨⟨[⟨"eq"⟩, ⟨"lt"⟩], .eq⟩, false⟩
          [("filter[param][age][lt][a]", "3"), ("filter[order]", "age"),
            ("filter[param][size]", "5")] = .ok ⟨some c, orders⟩ ∧
        c.render = "(a & size)" ∧
        Policy.parse ⟨⟨[⟨"eq"⟩, ⟨"lt"⟩], .eq⟩, false⟩
          [("filter[param][age][lt][a]", "3"), ("filter[order]", "age"),
            ("filter[param][size]", "5"), ("filter[binding]", c.render)] =
          .ok ⟨some c, orders⟩ := by
  have hjoined : Policy.parse ⟨⟨[⟨"eq"⟩, ⟨"lt"⟩], .eq⟩, false⟩
        [("filter[param][age][lt][a]", "3"), ("filter[order]", "age"),
          ("filter[param][size]", "5")] =
      .ok ⟨some (.and (.parameter ⟨"a", "age", some ⟨"lt"⟩, some "3"⟩)
          (.parameter ⟨"size", "size", some ⟨"eq"⟩, some "5"⟩)),
        [⟨"age", false⟩]⟩ := by decide
  refine ⟨_, _, hjoined, by decide, (parse_explicit_binding _ _ _ _ hjoined).1 ?_ (by decide)⟩
  simp only [Condition.parameters_and, Condition.parameters_parameter, List.cons_append,
    List.nil_append, List.mem_cons, List.not_mem_nil, or_false, forall_eq_or_imp, forall_eq,
    String.reduceToList]
  decide

end Policy

end QueryFilter
