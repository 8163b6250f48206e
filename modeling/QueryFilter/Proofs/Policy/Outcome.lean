import QueryFilter.Policy
import QueryFilter.Proofs.Declarations.Joining

/-!
# The outcome of a query

A query can be refused for a disabled operation, for its binding and for a
parameter that the binding refers to, in this order of priority. The arguments
enter only through what they declare: the parameters with their definitions in
order, the binding given last, and the sort tokens. Which outcome arises is said
in these terms alone, and so is what the leaves of an accepted filter carry.
-/

namespace QueryFilter

namespace Policy

/-- The parameters that arguments declare, by identification and in their
order. -/
def declared (p : Policy) (arguments : List (String × String)) : List (String × Definition) :=
  (p.updates arguments).filterMap Update.parameter?

def lastBinding? (p : Policy) (arguments : List (String × String)) : Option String :=
  ((p.updates arguments).filterMap Update.binding?).getLast?

def ordersOf (p : Policy) (arguments : List (String × String)) : List Order :=
  Order.parseAll ((p.updates arguments).filterMap Update.orderToken?)

theorem parse_of_disabled {p : Policy} {arguments : List (String × String)}
    {x : String × Definition}
    (h : (p.declared arguments).find? (fun x => x.2.operation ∉ p.enabled) = some x) :
    p.parse arguments = .error (.unsupportedOperation x.2.operation.name) := by
  have hd : firstDisabled? p.toSettings (p.updates arguments) = some x := h
  rw [parse, Declarations.ofArguments_eq, hd]
  rfl

theorem exists_parse_eq_unsupported {p : Policy} {arguments : List (String × String)}
    (h : ¬ ∀ x ∈ p.declared arguments, x.2.operation ∈ p.enabled) :
    ∃ name, p.parse arguments = .error (.unsupportedOperation name) := by
  cases hd : (p.declared arguments).find? (fun x => x.2.operation ∉ p.enabled) with
  | some x => exact ⟨_, parse_of_disabled hd⟩
  | none =>
      refine absurd (fun x hx => ?_) h
      simpa using List.find?_eq_none.1 hd x hx

theorem enabled_of_parse {p : Policy} {arguments : List (String × String)} {s : Selection}
    (h : p.parse arguments = .ok s) : ∀ x ∈ p.declared arguments, x.2.operation ∈ p.enabled := by
  by_contra hdisabled
  obtain ⟨name, hname⟩ := exists_parse_eq_unsupported hdisabled
  rw [hname] at h
  exact absurd h (by simp)

theorem ofArguments_of_enabled {p : Policy} {arguments : List (String × String)}
    (h : ∀ x ∈ p.declared arguments, x.2.operation ∈ p.enabled) :
    Declarations.ofArguments p.toSettings arguments = .ok (.ofUpdates (p.updates arguments)) := by
  have hd : firstDisabled? p.toSettings (p.updates arguments) = none := by
    rw [firstDisabled?, List.find?_eq_none]
    intro x hx
    simpa using h x hx
  rw [Declarations.ofArguments_eq, hd]

theorem parse_of_enabled {p : Policy} {arguments : List (String × String)}
    (h : ∀ x ∈ p.declared arguments, x.2.operation ∈ p.enabled) :
    p.parse arguments = p.select (.ofUpdates (p.updates arguments)) := by
  rw [parse, ofArguments_of_enabled h]
  rfl

theorem select_of_binding {p : Policy} {d : Declarations} {b : String}
    (h : d.explicitBinding = some b) :
    p.select d =
      match Binding.parse b with
      | .error e => .error (.malformedBinding e)
      | .ok c => (d.resolve c).map fun c => ⟨some c, d.orders⟩ := by
  rw [select, Declarations.resolvedCondition, Declarations.condition, h]
  cases hb : Binding.parse b <;> simp [Except.map, hb]

theorem select_of_empty {p : Policy} {d : Declarations} (h : d.explicitBinding = none)
    (he : d.isEmpty = true) :
    p.select d =
      if p.allowEmpty then .ok ⟨none, d.orders⟩ else .error (.malformedBinding .emptyInput) := by
  have hentries : d.entries = [] := by simpa [Declarations.isEmpty] using he
  have hc : d.conjunction = .error .emptyInput := by
    rw [Declarations.conjunction, hentries]
    rfl
  rw [select, Declarations.resolvedCondition, Declarations.condition, h, he, hc]
  cases p.allowEmpty <;> rfl

theorem select_of_no_binding {p : Policy} {d : Declarations} (h : d.explicitBinding = none)
    (he : d.isEmpty = false) :
    ∃ c c', d.conjunction = .ok c ∧ c.parameters = d.entries.map (fun e => .unresolved e.1) ∧
      d.resolve c = .ok c' ∧ p.select d = .ok ⟨some c', d.orders⟩ := by
  have hentries : d.entries ≠ [] := by simpa [Declarations.isEmpty] using he
  obtain ⟨c, hc, -, hleaves, -⟩ := Declarations.conjunction_of_ne_nil hentries
  have hr := Declarations.resolve_conjunction hleaves
  refine ⟨c, _, hc, hleaves, hr, ?_⟩
  rw [select, Declarations.resolvedCondition, Declarations.condition, h, he, hc]
  simp [hr, Except.map]

theorem resolve_of_select {p : Policy} {d : Declarations} {c : Condition} {os : List Order}
    (h : p.select d = .ok ⟨some c, os⟩) : os = d.orders ∧ ∃ c₀, d.resolve c₀ = .ok c := by
  unfold select at h
  split at h
  · exact absurd h (by simp)
  · unfold Declarations.resolvedCondition at h
    cases hc : d.condition with
    | error e => simp [hc, Except.map] at h
    | ok c₀ =>
        simp only [hc] at h
        cases hr : d.resolve c₀ with
        | error e => simp [hr, Except.map] at h
        | ok c' =>
            rw [hr] at h
            cases h
            exact ⟨rfl, c₀, hr⟩

/-! ## Reading the outcome off the arguments -/

theorem orders_ofUpdates (p : Policy) (arguments : List (String × String)) :
    (Declarations.ofUpdates (p.updates arguments)).orders = p.ordersOf arguments := by
  rw [Declarations.orders, Declarations.orderTokens_ofUpdates]
  rfl

theorem explicitBinding_ofUpdates (p : Policy) (arguments : List (String × String)) :
    (Declarations.ofUpdates (p.updates arguments)).explicitBinding =
      (p.lastBinding? arguments).filter (· ≠ "") := by
  rw [Declarations.explicitBinding, Declarations.bindingText_ofUpdates]
  rfl

theorem isSome_definition?_ofUpdates (p : Policy) (arguments : List (String × String))
    (i : String) :
    ((Declarations.ofUpdates (p.updates arguments)).definition? i).isSome = true ↔
      i ∈ (p.declared arguments).map (·.1) := by
  rw [Declarations.definition?_ofUpdates]
  exact Declarations.isSome_lastDeclared?_iff _ i

theorem parse_of_no_binding {p : Policy} {arguments : List (String × String)}
    (henabled : ∀ x ∈ p.declared arguments, x.2.operation ∈ p.enabled)
    (hb : p.lastBinding? arguments = none ∨ p.lastBinding? arguments = some "") :
    (p.declared arguments = [] →
      p.parse arguments =
        if p.allowEmpty then .ok ⟨none, p.ordersOf arguments⟩
        else .error (.malformedBinding .emptyInput)) ∧
    (p.declared arguments ≠ [] →
      ∃ d c c', Declarations.ofArguments p.toSettings arguments = .ok d ∧
        d.conjunction = .ok c ∧ d.resolve c = .ok c' ∧
        (∀ i, i ∈ c.parameters.map (·.identification) ↔ i ∈ (p.declared arguments).map (·.1)) ∧
        p.parse arguments = .ok ⟨some c', p.ordersOf arguments⟩) := by
  have hnone : (Declarations.ofUpdates (p.updates arguments)).explicitBinding = none := by
    rw [explicitBinding_ofUpdates]
    rcases hb with hb | hb <;> simp [hb]
  have hempty := Declarations.isEmpty_ofUpdates (p.updates arguments)
  rw [parse_of_enabled henabled, ← orders_ofUpdates]
  constructor
  · intro hdeclared
    exact select_of_empty hnone (hempty.2 hdeclared)
  · intro hdeclared
    have hsome : (Declarations.ofUpdates (p.updates arguments)).isEmpty = false :=
      Bool.eq_false_iff.2 fun h => hdeclared (hempty.1 h)
    obtain ⟨c, c', hc, hleaves, hr, hselect⟩ := select_of_no_binding hnone hsome
    refine ⟨_, c, c', ofArguments_of_enabled henabled, hc, hr, ?_, hselect⟩
    intro i
    rw [hleaves, List.map_map]
    exact Declarations.mem_identifications_ofUpdates (p.updates arguments) i

theorem parse_of_binding {p : Policy} {arguments : List (String × String)} {b : String}
    (henabled : ∀ x ∈ p.declared arguments, x.2.operation ∈ p.enabled)
    (hb : p.lastBinding? arguments = some b) (hne : b ≠ "") :
    p.parse arguments =
      match Binding.parse b with
      | .error e => .error (.malformedBinding e)
      | .ok c =>
        match c.parameters.find? fun q =>
            q.identification ∉ (p.declared arguments).map (·.1) with
        | some q => .error (.missingParameter q.identification)
        | none =>
          .ok ⟨some (c.map (Declarations.ofUpdates (p.updates arguments)).fill),
            p.ordersOf arguments⟩ := by
  have hsome : (Declarations.ofUpdates (p.updates arguments)).explicitBinding = some b := by
    rw [explicitBinding_ofUpdates, hb]
    simp [hne]
  rw [parse_of_enabled henabled, select_of_binding hsome, orders_ofUpdates]
  cases Binding.parse b with
  | error e => rfl
  | ok c =>
      have hmissing : (fun q : Parameter => !((Declarations.ofUpdates
            (p.updates arguments)).definition? q.identification).isSome) =
          fun q => decide (q.identification ∉ (p.declared arguments).map (·.1)) := by
        funext q
        rw [Bool.eq_iff_iff, Bool.not_eq_true', Bool.eq_false_iff, ne_eq,
          isSome_definition?_ofUpdates, decide_eq_true_iff]
      dsimp only
      rw [Declarations.resolve_eq, hmissing]
      cases c.parameters.find? fun q =>
          decide (q.identification ∉ (p.declared arguments).map (·.1)) <;> rfl

theorem leaf_of_parse {p : Policy} {arguments : List (String × String)} {c : Condition}
    {os : List Order} (h : p.parse arguments = .ok ⟨some c, os⟩) :
    os = p.ordersOf arguments ∧
      ∀ q ∈ c.parameters, ∃ x,
        Declarations.lastDeclared? (p.declared arguments) q.identification = some x ∧
        q = ⟨q.identification, x.name, some x.operation, some x.value⟩ := by
  cases hd : (p.declared arguments).find? (fun x => x.2.operation ∉ p.enabled) with
  | some x =>
      rw [parse_of_disabled hd] at h
      exact absurd h (by simp)
  | none =>
      have henabled : ∀ x ∈ p.declared arguments, x.2.operation ∈ p.enabled := by
        intro x hx
        simpa using List.find?_eq_none.1 hd x hx
      rw [parse_of_enabled henabled] at h
      obtain ⟨hos, c₀, hr⟩ := resolve_of_select h
      refine ⟨hos.trans (orders_ofUpdates p arguments), ?_⟩
      intro q hq
      obtain ⟨x, hx, hq'⟩ := Declarations.leaf_of_resolve hr hq
      rw [Declarations.definition?_ofUpdates] at hx
      exact ⟨x, hx, hq'⟩

/-- The outcome of a query. A disabled operation refuses it before all else, in
favour of the parameter declared first with one. Otherwise the binding given last
decides: without one, or with an empty one, the filter is the conjunction of all
declared parameters with its leaves filled in, and only a query that declares none
can be refused. With one, the query is
refused if the binding cannot be read, or for its first leaf that is not
declared, and accepted otherwise, with the tree of the binding. In each accepted
filter the leaves carry what was declared last for them. -/
theorem parse_outcome (p : Policy) (arguments : List (String × String)) :
    (∀ x, (p.declared arguments).find? (fun x => x.2.operation ∉ p.enabled) = some x →
      p.parse arguments = .error (.unsupportedOperation x.2.operation.name)) ∧
    ((∀ x ∈ p.declared arguments, x.2.operation ∈ p.enabled) →
      (p.lastBinding? arguments = none ∨ p.lastBinding? arguments = some "" →
        (p.declared arguments = [] →
          p.parse arguments =
            if p.allowEmpty then .ok ⟨none, p.ordersOf arguments⟩
            else .error (.malformedBinding .emptyInput)) ∧
        (p.declared arguments ≠ [] →
          ∃ d c c', Declarations.ofArguments p.toSettings arguments = .ok d ∧
            d.conjunction = .ok c ∧ d.resolve c = .ok c' ∧
            (∀ i, i ∈ c.parameters.map (·.identification) ↔
              i ∈ (p.declared arguments).map (·.1)) ∧
            p.parse arguments = .ok ⟨some c', p.ordersOf arguments⟩)) ∧
      (∀ b, p.lastBinding? arguments = some b → b ≠ "" →
        (∀ e, Binding.parse b = .error e →
          p.parse arguments = .error (.malformedBinding e)) ∧
        (∀ c, Binding.parse b = .ok c →
          (∀ q, c.parameters.find?
              (fun q => q.identification ∉ (p.declared arguments).map (·.1)) = some q →
            p.parse arguments = .error (.missingParameter q.identification)) ∧
          ((∀ q ∈ c.parameters, q.identification ∈ (p.declared arguments).map (·.1)) →
            ∃ c', p.parse arguments = .ok ⟨some c', p.ordersOf arguments⟩ ∧
              (c'.map fun q => .unresolved q.identification) = c)))) ∧
    (∀ c orders, p.parse arguments = .ok ⟨some c, orders⟩ →
      orders = p.ordersOf arguments ∧
      ∀ q ∈ c.parameters, ∃ x,
        Declarations.lastDeclared? (p.declared arguments) q.identification = some x ∧
        q = ⟨q.identification, x.name, some x.operation, some x.value⟩) := by
  refine ⟨fun x hx => parse_of_disabled hx, ?_, fun c orders h => leaf_of_parse h⟩
  intro henabled
  refine ⟨fun hb => parse_of_no_binding henabled hb, ?_⟩
  intro b hb hne
  have houtcome := parse_of_binding henabled hb hne
  refine ⟨?_, ?_⟩
  · intro e he
    rw [houtcome, he]
  · intro c hc
    refine ⟨?_, ?_⟩
    · intro q hq
      simp only [houtcome, hc, hq]
    · intro hall
      have hfind : c.parameters.find?
          (fun q => q.identification ∉ (p.declared arguments).map (·.1)) = none := by
        rw [List.find?_eq_none]
        intro q hq
        simpa using hall q hq
      refine ⟨c.map (Declarations.ofUpdates (p.updates arguments)).fill, ?_, ?_⟩
      · simp only [houtcome, hc, hfind]
      · exact (Declarations.unresolve_map_fill _ c).trans (Binding.unresolve_of_parse hc)

theorem parse_outcome_redefined :
    ∃ c, Policy.parse ⟨⟨[⟨"eq"⟩, ⟨"lt"⟩], .eq⟩, true⟩
        [("filter[param][age][lt][a]", "3"), ("filter[binding]", "b"),
          ("filter[param][size][eq][a]", "5"), ("filter[binding]", "!a")] =
        .ok ⟨some c, []⟩ ∧
      (c.map fun q => .unresolved q.identification) = .negate (.reference "a") := by
  have houtcome := (parse_outcome ⟨⟨[⟨"eq"⟩, ⟨"lt"⟩], .eq⟩, true⟩
    [("filter[param][age][lt][a]", "3"), ("filter[binding]", "b"),
      ("filter[param][size][eq][a]", "5"), ("filter[binding]", "!a")]).2.1 (by decide)
  exact (houtcome.2 "!a" (by decide) (by decide)).2 (.negate (.reference "a")) (by decide)
    |>.2 (by decide)

end Policy

end QueryFilter
