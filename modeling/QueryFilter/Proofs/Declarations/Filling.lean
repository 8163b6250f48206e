import QueryFilter.Proofs.Binding.RoundTrip
import QueryFilter.Proofs.Condition.Places
import QueryFilter.Proofs.Declarations.Resolution

/-!
# Resolution reads identifications only

A leaf is filled in from what is declared under its identification, whatever it
carried before. So resolving a tree is resolving its unresolved form
(`Declarations.resolve_unresolve`), and since filling in the leaves keeps that form
(`Declarations.unresolve_map_fill`), a resolved tree is resolved to itself.

The leaves may also be filled in where they stand, in a loop over the places of the
tree (`Declarations.resolveInPlace`).
-/

namespace QueryFilter

namespace Condition

theorem mapM_map {ε : Type} (f : Parameter → Except ε Parameter) (g : Parameter → Parameter)
    (c : Condition) : (c.map g).mapM f = c.mapM (f ∘ g) := by
  induction c with
  | parameter p => rfl
  | and l r ihl ihr => rw [map, mapM, mapM, ihl, ihr]
  | or l r ihl ihr => rw [map, mapM, mapM, ihl, ihr]
  | negate c ih => rw [map, mapM, mapM, ih]

theorem render_unresolve (c : Condition) : c.unresolve.render = c.render := by
  unfold unresolve
  induction c with
  | parameter p => rfl
  | and l r ihl ihr => rw [map, render, render, ihl, ihr]
  | or l r ihl ihr => rw [map, render, render, ihl, ihr]
  | negate c ih => rw [map, render, render, ih]

end Condition

namespace Declarations

theorem unresolve_map_fill (d : Declarations) (c : Condition) :
    (c.map d.fill).unresolve = c.unresolve := by
  rw [Condition.unresolve, Condition.map_map]
  unfold Condition.unresolve
  congr 1
  funext p
  exact congrArg Parameter.unresolved (d.identification_fill p)

theorem resolve_unresolve (d : Declarations) (c : Condition) :
    d.resolve c.unresolve = d.resolve c :=
  Condition.mapM_map d.resolveParameter _ c

theorem resolve_eq_of_unresolve {c₁ c₂ : Condition} (h : c₁.unresolve = c₂.unresolve)
    (d : Declarations) : d.resolve c₁ = d.resolve c₂ := by
  rw [← d.resolve_unresolve c₁, h, d.resolve_unresolve c₂]

/-- The first leaf without a declaration. -/
def firstMissing? (d : Declarations) (c : Condition) : Option Parameter :=
  c.parameters.find? fun p => (d.definition? p.identification).isNone

theorem resolve_of_firstMissing? {d : Declarations} {c : Condition} {p : Parameter}
    (h : d.firstMissing? c = some p) :
    d.resolve c = .error (.missingParameter p.identification) := by
  simp only [firstMissing?, ← Option.not_isSome] at h
  rw [resolve_eq, h]

theorem resolve_of_firstMissing?_eq_none {d : Declarations} {c : Condition}
    (h : d.firstMissing? c = none) : d.resolve c = .ok (c.map d.fill) := by
  simp only [firstMissing?, ← Option.not_isSome] at h
  rw [resolve_eq, h]

theorem resolve_eq_error_iff (d : Declarations) (c : Condition) (e : Error) :
    d.resolve c = .error e ↔
      ∃ p, d.firstMissing? c = some p ∧ e = .missingParameter p.identification := by
  constructor
  · intro h
    cases hp : d.firstMissing? c with
    | none =>
        rw [resolve_of_firstMissing?_eq_none hp] at h
        exact absurd h (by simp)
    | some p =>
        rw [resolve_of_firstMissing? hp] at h
        exact ⟨p, rfl, (Except.error.inj h).symm⟩
  · rintro ⟨p, hp, rfl⟩
    exact resolve_of_firstMissing? hp

theorem resolve_of_declared {d : Declarations} {c : Condition}
    (h : ∀ p ∈ c.parameters, (d.definition? p.identification).isSome = true) :
    d.resolve c = .ok (c.map d.fill) := by
  apply resolve_of_firstMissing?_eq_none
  rw [firstMissing?, List.find?_eq_none]
  intro p hp
  rw [Option.isNone_iff_eq_none]
  exact Option.isSome_iff_ne_none.1 (h p hp)

/-- Fills in one leaf after the other at its place, up to the first that is not
declared. -/
def resolveInPlace (d : Declarations) (c : Condition) : Except Error Condition :=
  c.places.foldlM (Condition.updateAt d.resolveParameter) c

theorem resolve_eq_resolveInPlace (d : Declarations) (c : Condition) :
    d.resolve c = d.resolveInPlace c :=
  c.foldlM_updateAt_places.symm

/-- Resolving a tree is refused for its first leaf that is not declared, and for
nothing else. Otherwise it keeps the tree and the identifications, hence the text,
and gives each leaf the name, operation and value of its definition. What the leaves
carried before does not enter, and resolving once more changes nothing. Writing to
the leaves at their places, one after the other, comes to the same. -/
theorem resolve_fills_leaves (d : Declarations) (c : Condition) :
    (∀ e, d.resolve c = .error e ↔
      ∃ p, c.parameters.find? (fun p => (d.definition? p.identification).isNone) = some p ∧
        e = .missingParameter p.identification) ∧
    ((∀ p ∈ c.parameters, (d.definition? p.identification).isSome = true) →
      ∃ c', d.resolve c = .ok c' ∧
        c'.unresolve = c.unresolve ∧
        c'.render = c.render ∧
        (∀ q ∈ c'.parameters, q.isResolved = true ∧
          ∃ x, d.definition? q.identification = some x ∧
            q.name = x.name ∧ q.operation = some x.operation ∧ q.value = some x.value) ∧
        d.resolve c' = .ok c') ∧
    (∀ c₂ : Condition, c.unresolve = c₂.unresolve → d.resolve c = d.resolve c₂) ∧
    d.resolve c = d.resolveInPlace c := by
  refine ⟨d.resolve_eq_error_iff c, ?_, fun c₂ h => resolve_eq_of_unresolve h d,
    d.resolve_eq_resolveInPlace c⟩
  intro hdeclared
  have hresolve := resolve_of_declared hdeclared
  have hunresolve := d.unresolve_map_fill c
  refine ⟨c.map d.fill, hresolve, hunresolve, ?_, ?_, ?_⟩
  · rw [← Condition.render_unresolve, hunresolve, Condition.render_unresolve]
  · intro q hq
    obtain ⟨x, hx, he⟩ := leaf_of_resolve hresolve hq
    rw [he]
    exact ⟨rfl, x, hx, rfl, rfl, rfl⟩
  · rw [resolve_eq_of_unresolve hunresolve, hresolve]

theorem resolve_fills_stale_leaf :
    ∃ c', resolve ⟨[("a", ⟨"age", ⟨"lt"⟩, "3"⟩)], none, []⟩
        (.or (.negate (.parameter ⟨"a", "size", none, some "9"⟩)) (.reference "a")) = .ok c' ∧
      c'.render = "(!a | a)" ∧
      (∀ q ∈ c'.parameters, q.isResolved = true) ∧
      resolve ⟨[("a", ⟨"age", ⟨"lt"⟩, "3"⟩)], none, []⟩ c' = .ok c' := by
  obtain ⟨c', hresolve, -, hrender, hleaves, hagain⟩ :=
    (resolve_fills_leaves ⟨[("a", ⟨"age", ⟨"lt"⟩, "3"⟩)], none, []⟩
      (.or (.negate (.parameter ⟨"a", "size", none, some "9"⟩)) (.reference "a"))).2.1 (by decide)
  exact ⟨c', hresolve, hrender.trans (by decide), fun q hq => (hleaves q hq).1, hagain⟩

end Declarations

end QueryFilter
