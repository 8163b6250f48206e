import QueryFilter.Declarations

/-!
# Filling in the leaves

Resolving a tree looks up the definition of every leaf, from left to right, and
ends at the first leaf that has none. So it either fails for that leaf or
changes every leaf by `Declarations.fill` and nothing else
(`Declarations.resolve_eq`).

Joining trees level by level keeps their leaves, and leaves a single tree
(`Condition.joinAll?_eq_some`).
-/

namespace QueryFilter

namespace Condition

/-- The result of a change that fails at the leaves outside `good`. -/
def changed {ε : Type} (good : Parameter → Bool) (e : Parameter → ε) (leaves : List Parameter)
    (c : Condition) : Except ε Condition :=
  match leaves.find? fun p => !good p with
  | some p => .error (e p)
  | none => .ok c

theorem changed_append {ε : Type} (good : Parameter → Bool) (e : Parameter → ε)
    (ps qs : List Parameter) (join : Condition → Condition → Condition) (l r : Condition) :
    changed good e (ps ++ qs) (join l r) =
      (do return join (← changed good e ps l) (← changed good e qs r)) := by
  unfold changed
  rw [List.find?_append]
  cases ps.find? fun p => !good p with
  | some p => rfl
  | none => cases qs.find? fun p => !good p <;> rfl

theorem mapM_eq {ε : Type} {f : Parameter → Except ε Parameter} {good : Parameter → Bool}
    {g : Parameter → Parameter} {e : Parameter → ε}
    (hf : ∀ p, f p = if good p then .ok (g p) else .error (e p)) (c : Condition) :
    c.mapM f = changed good e c.parameters (c.map g) := by
  induction c with
  | parameter p => by_cases h : good p = true <;> simp [mapM, changed, hf, h, Except.map, map]
  | and l r ihl ihr =>
      rw [mapM, ihl, ihr, parameters_and]
      exact (changed_append good e _ _ .and _ _).symm
  | or l r ihl ihr =>
      rw [mapM, ihl, ihr, parameters_or]
      exact (changed_append good e _ _ .or _ _).symm
  | negate c ih =>
      rw [mapM, ih, parameters_negate]
      unfold changed
      cases c.parameters.find? fun p => !good p <;> rfl

theorem map_map (f g : Parameter → Parameter) (c : Condition) :
    (c.map f).map g = c.map (g ∘ f) := by
  induction c with
  | parameter p => rfl
  | and l r ihl ihr => rw [map, map, ihl, ihr]; rfl
  | or l r ihl ihr => rw [map, map, ihl, ihr]; rfl
  | negate c ih => rw [map, map, ih]; rfl

/-! ## Joining trees -/

theorem length_joinPairs (cs : List Condition) :
    (joinPairs cs).length = (cs.length + 1) / 2 := by
  fun_induction joinPairs cs with
  | case1 l r rest ih =>
      simp only [List.length_cons, ih]
      omega
  | case2 cs h =>
      rcases cs with _ | ⟨c, _ | ⟨d, rest⟩⟩
      · rfl
      · simp
      · exact absurd rfl (h c d rest)

theorem length_repeat_joinPairs_le (n : Nat) (cs : List Condition) :
    (Nat.repeat joinPairs n cs).length ≤ max 1 (cs.length - n) := by
  induction n with
  | zero => exact Nat.le_max_right _ _
  | succ n ih =>
      -- Halving, rounded up, takes at least one away as long as two are left.
      rw [Nat.repeat, length_joinPairs]
      omega

theorem flatMap_parameters_repeat_joinPairs (n : Nat) (cs : List Condition) :
    (Nat.repeat joinPairs n cs).flatMap parameters = cs.flatMap parameters := by
  induction n with
  | zero => rfl
  | succ n ih => rw [Nat.repeat, flatMap_parameters_joinPairs, ih]

theorem joinAll?_eq_some {cs : List Condition} (h : cs ≠ []) :
    ∃ c, joinAll? cs = some c ∧ c.parameters = cs.flatMap parameters := by
  have hlen := length_repeat_joinPairs_le cs.length cs
  have hleaves := flatMap_parameters_repeat_joinPairs cs.length cs
  unfold joinAll?
  generalize Nat.repeat joinPairs cs.length cs = ds at hlen hleaves ⊢
  rcases ds with _ | ⟨c, _ | ⟨d, ds⟩⟩
  · obtain ⟨c, rest, rfl⟩ := List.exists_cons_of_ne_nil h
    rw [List.flatMap_nil, List.flatMap_cons] at hleaves
    exact absurd (List.append_eq_nil_iff.1 hleaves.symm).1 c.parameters_ne_nil
  · exact ⟨c, rfl, by simpa using hleaves⟩
  · simp only [List.length_cons] at hlen
    omega

end Condition

namespace Declarations

/-- A leaf with what is declared for it. -/
def fill (d : Declarations) (p : Parameter) : Parameter :=
  match d.definition? p.identification with
  | some x => ⟨p.identification, x.name, some x.operation, some x.value⟩
  | none => p

theorem identification_fill (d : Declarations) (p : Parameter) :
    (d.fill p).identification = p.identification := by
  unfold fill
  cases d.definition? p.identification <;> rfl

theorem resolve_eq (d : Declarations) (c : Condition) :
    d.resolve c =
      match c.parameters.find? fun p => !(d.definition? p.identification).isSome with
      | some p => .error (.missingParameter p.identification)
      | none => .ok (c.map d.fill) := by
  refine Condition.mapM_eq (fun p => ?_) c
  unfold resolveParameter fill
  cases d.definition? p.identification <;> rfl

theorem leaf_of_resolve {d : Declarations} {c c' : Condition} (h : d.resolve c = .ok c')
    {q : Parameter} (hq : q ∈ c'.parameters) :
    ∃ x, d.definition? q.identification = some x ∧
      q = ⟨q.identification, x.name, some x.operation, some x.value⟩ := by
  rw [resolve_eq] at h
  cases hf : c.parameters.find? fun p => !(d.definition? p.identification).isSome with
  | some p =>
      rw [hf] at h
      exact absurd h (by simp)
  | none =>
      rw [hf] at h
      obtain rfl := Except.ok.inj h
      rw [Condition.parameters_map] at hq
      obtain ⟨p, hp, rfl⟩ := List.mem_map.1 hq
      have hsome : (d.definition? p.identification).isSome = true := by
        have hp' := List.find?_eq_none.1 hf p hp
        simpa only [Bool.not_eq_true', Bool.not_eq_false] using hp'
      obtain ⟨x, hx⟩ := Option.isSome_iff_exists.1 hsome
      refine ⟨x, ?_, ?_⟩
      · rw [identification_fill, hx]
      · rw [identification_fill]
        simp only [fill, hx]

end Declarations

end QueryFilter
