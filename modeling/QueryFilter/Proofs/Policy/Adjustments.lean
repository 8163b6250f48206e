import Mathlib.Data.List.DropRight
import QueryFilter.Proofs.Policy.Outcome

/-!
# Adjusting a policy

A policy is made from the empty one by a row of adjustments. What it enables is read
off the adjustments after the last one that disables all: the names they give, each
listed where it was given first (`Policy.firstGiven_ofAdjustments`). Since enabling an
operation again changes nothing, one more name either is listed already or comes last
(`FirstGiven.append_singleton`).

The list of enabled operations enters the reading of arguments through membership
alone, so policies that enable the same operations in a different order cannot be
told apart, and enabling more refuses nothing that was accepted.
-/

namespace QueryFilter

/-! ## Names in the order they were given first -/

/-- The names that were given, each one once, in the order in which they were given
first. -/
structure FirstGiven (names given : List String) : Prop where
  order : names.Pairwise fun m n => given.idxOf m < given.idxOf n
  mem_iff : ∀ n, n ∈ names ↔ n ∈ given

theorem firstGiven_nil : FirstGiven [] [] := ⟨List.Pairwise.nil, fun _ => Iff.rfl⟩

/-- Further names leave the places of those given already. -/
theorem FirstGiven.order_append {names given : List String} (h : FirstGiven names given)
    (more : List String) :
    names.Pairwise fun m n => (given ++ more).idxOf m < (given ++ more).idxOf n := by
  refine h.order.imp_of_mem ?_
  intro m n hm hn hlt
  rw [List.idxOf_append_of_mem ((h.mem_iff m).1 hm), List.idxOf_append_of_mem ((h.mem_iff n).1 hn)]
  exact hlt

theorem FirstGiven.append_singleton {names given : List String} (h : FirstGiven names given)
    (n : String) : FirstGiven (if n ∈ names then names else names ++ [n]) (given ++ [n]) := by
  by_cases hn : n ∈ names
  · rw [if_pos hn]
    refine ⟨h.order_append [n], ?_⟩
    intro m
    rw [List.mem_append, ← h.mem_iff, List.mem_singleton]
    constructor
    · exact Or.inl
    · rintro (hm | rfl)
      · exact hm
      · exact hn
  · rw [if_neg hn]
    refine ⟨?_, ?_⟩
    · refine List.pairwise_append.2 ⟨h.order_append [n], List.pairwise_singleton _ _, ?_⟩
      intro m hm k hk
      obtain rfl := List.mem_singleton.1 hk
      have hm' : m ∈ given := (h.mem_iff m).1 hm
      have hk' : k ∉ given := fun hk => hn ((h.mem_iff k).2 hk)
      rw [List.idxOf_append_of_mem hm', List.idxOf_append_of_notMem hk']
      exact Nat.lt_add_right _ (List.idxOf_lt_length_iff.2 hm')
    · intro m
      rw [List.mem_append, List.mem_append, h.mem_iff]

/-! ## Adjustments -/

/-- A change to a policy. -/
inductive Adjustment where
  | enable (operation : Operation)
  | enableAll (operations : List Operation)
  | enableBuiltin
  | disableAll
  | withDefault (operation : Operation)
  | allowingEmpty (allow : Bool)
deriving DecidableEq, Repr

namespace Adjustment

/-- The names that an adjustment enables, in its order. -/
def names : Adjustment → List String
  | .enable operation => [operation.name]
  | .enableAll operations => operations.map (·.name)
  | .enableBuiltin => Operation.builtin.map (·.name)
  | .disableAll => []
  | .withDefault _ => []
  | .allowingEmpty _ => []

/-- The names enabled since all operations were disabled last. -/
def given (adjustments : List Adjustment) : List String :=
  (adjustments.rtakeWhile (· ≠ .disableAll)).flatMap names

theorem given_append_singleton (adjustments : List Adjustment) (a : Adjustment) :
    given (adjustments ++ [a]) =
      if a = .disableAll then [] else given adjustments ++ a.names := by
  unfold given
  rw [List.rtakeWhile_concat]
  by_cases ha : a = .disableAll
  · simp [ha]
  · simp [ha]

end Adjustment

namespace Policy

def adjust (p : Policy) : Adjustment → Policy
  | .enable operation => p.enable operation
  | .enableAll operations => p.enableAll operations
  | .enableBuiltin => p.enableBuiltin
  | .disableAll => p.disableAll
  | .withDefault operation => p.withDefault operation
  | .allowingEmpty allow => p.allowingEmpty allow

def ofAdjustments (adjustments : List Adjustment) : Policy := adjustments.foldl adjust {}

theorem ofAdjustments_append_singleton (adjustments : List Adjustment) (a : Adjustment) :
    ofAdjustments (adjustments ++ [a]) = (ofAdjustments adjustments).adjust a := by
  rw [ofAdjustments, List.foldl_append]
  rfl

def names (p : Policy) : List String := p.enabled.map (·.name)

theorem has_eq_true_iff (p : Policy) (n : String) : p.has n = true ↔ n ∈ p.names := by
  simp [has, names]

theorem mem_enabled_iff (p : Policy) (o : Operation) : o ∈ p.enabled ↔ p.has o.name = true := by
  rw [has_eq_true_iff, names, List.mem_map]
  constructor
  · intro ho
    exact ⟨o, ho, rfl⟩
  · rintro ⟨⟨n⟩, ho, rfl⟩
    exact ho

theorem getOperation_eq (p : Policy) (n : String) :
    p.getOperation n = if p.has n then .ok ⟨n⟩ else .error (.unknownOperation n) := by
  have hmem : (⟨n⟩ : Operation) ∈ p.enabled ↔ p.has n = true := p.mem_enabled_iff ⟨n⟩
  rw [getOperation, Operation.find?_eq]
  by_cases hn : p.has n = true
  · simp [hmem, hn]
  · simp [hmem, hn]

theorem names_enable (p : Policy) (o : Operation) :
    (p.enable o).names = if o.name ∈ p.names then p.names else p.names ++ [o.name] := by
  unfold enable
  by_cases ho : o.name ∈ p.names
  · rw [if_pos ho, if_pos ((p.has_eq_true_iff _).2 ho)]
  · rw [if_neg ho, if_neg fun h => ho ((p.has_eq_true_iff _).1 h)]
    simp [names]

theorem firstGiven_enableAll {p : Policy} {given : List String} (h : FirstGiven p.names given)
    (os : List Operation) : FirstGiven (p.enableAll os).names (given ++ os.map (·.name)) := by
  induction os generalizing p given with
  | nil =>
      rw [enableAll_nil, List.map_nil, List.append_nil]
      exact h
  | cons o os ih =>
      have hstep : FirstGiven (p.enable o).names (given ++ [o.name]) := by
        rw [names_enable]
        exact h.append_singleton o.name
      rw [enableAll_cons, List.map_cons, List.append_cons]
      exact ih hstep

theorem firstGiven_adjust {p : Policy} {given : List String} (h : FirstGiven p.names given)
    (a : Adjustment) :
    FirstGiven (p.adjust a).names (if a = .disableAll then [] else given ++ a.names) := by
  cases a with
  | enable o => exact firstGiven_enableAll h [o]
  | enableAll os => exact firstGiven_enableAll h os
  | enableBuiltin => exact firstGiven_enableAll h Operation.builtin
  | disableAll => exact firstGiven_nil
  | withDefault o =>
      rw [if_neg (by simp), Adjustment.names, List.append_nil]
      exact h
  | allowingEmpty b =>
      rw [if_neg (by simp), Adjustment.names, List.append_nil]
      exact h

theorem firstGiven_ofAdjustments (adjustments : List Adjustment) :
    FirstGiven (ofAdjustments adjustments).names (Adjustment.given adjustments) := by
  induction adjustments using List.reverseRecOn with
  | nil => exact firstGiven_nil
  | append_singleton adjustments a ih =>
      rw [ofAdjustments_append_singleton, Adjustment.given_append_singleton]
      exact firstGiven_adjust ih a

/-! ## Reading arguments under different policies -/

theorem updates_eq_of_default {p q : Policy} (h : p.default = q.default)
    (arguments : List (String × String)) : p.updates arguments = q.updates arguments := by
  have hupdate : p.update? = q.update? := by
    funext a
    unfold Settings.update?
    rw [h]
  rw [Settings.updates, Settings.updates, hupdate]

theorem select_eq_of_allowEmpty {p q : Policy} (h : p.allowEmpty = q.allowEmpty)
    (d : Declarations) : p.select d = q.select d := by
  rw [select, select, h]

theorem firstDisabled?_eq_of_has {p q : Policy} (h : ∀ n, p.has n = q.has n)
    (us : List Update) : firstDisabled? p.toSettings us = firstDisabled? q.toSettings us := by
  have hmem : ∀ o, o ∈ p.enabled ↔ o ∈ q.enabled := by
    intro o
    rw [mem_enabled_iff, mem_enabled_iff, h]
  simp only [firstDisabled?, hmem]

theorem parse_eq_of_has {p q : Policy} (hhas : ∀ n, p.has n = q.has n)
    (hdefault : p.default = q.default) (hempty : p.allowEmpty = q.allowEmpty)
    (arguments : List (String × String)) : p.parse arguments = q.parse arguments := by
  rw [parse, parse, Declarations.ofArguments_eq, Declarations.ofArguments_eq,
    updates_eq_of_default hdefault, firstDisabled?_eq_of_has hhas]
  cases firstDisabled? q.toSettings (q.updates arguments) with
  | some x => rfl
  | none => exact select_eq_of_allowEmpty hempty _

theorem parse_eq_ok_of_has {p q : Policy} (hhas : ∀ n, p.has n = true → q.has n = true)
    (hdefault : p.default = q.default) (hempty : p.allowEmpty = q.allowEmpty)
    {arguments : List (String × String)} {s : Selection} (h : p.parse arguments = .ok s) :
    q.parse arguments = .ok s := by
  have hupdates := updates_eq_of_default hdefault arguments
  have henabled : ∀ x ∈ q.declared arguments, x.2.operation ∈ q.enabled := by
    intro x hx
    rw [declared, ← hupdates] at hx
    rw [mem_enabled_iff]
    exact hhas _ ((p.mem_enabled_iff _).1 (enabled_of_parse h x hx))
  rw [parse_of_enabled (enabled_of_parse h)] at h
  rw [parse_of_enabled henabled, ← hupdates, ← select_eq_of_allowEmpty hempty]
  exact h

/-- A policy made by adjustments lists the names enabled since all were disabled last,
each one once and in the order of their first enabling, and finds an operation exactly
if it lists its name. Arguments are read by it through the set of these names: another
policy with the same set, default and rule for empty queries gives the same answer, and
one with a larger set gives the same selection where there is one. -/
theorem adjusted_policy_enables :
    (∀ adjustments : List Adjustment,
      ((ofAdjustments adjustments).enabled.map (·.name)).Pairwise (fun m n =>
        (Adjustment.given adjustments).idxOf m < (Adjustment.given adjustments).idxOf n) ∧
      (∀ n, n ∈ (ofAdjustments adjustments).enabled.map (·.name) ↔
        n ∈ Adjustment.given adjustments) ∧
      (∀ n, (ofAdjustments adjustments).has n = true ↔ n ∈ Adjustment.given adjustments) ∧
      (∀ n, (ofAdjustments adjustments).getOperation n =
        if (ofAdjustments adjustments).has n then .ok ⟨n⟩ else .error (.unknownOperation n))) ∧
    (∀ p q : Policy, p.default = q.default → p.allowEmpty = q.allowEmpty →
      ((∀ n, p.has n = q.has n) → ∀ arguments, p.parse arguments = q.parse arguments) ∧
      ((∀ n, p.has n = true → q.has n = true) →
        ∀ arguments s, p.parse arguments = .ok s → q.parse arguments = .ok s)) := by
  refine ⟨?_, ?_⟩
  · intro adjustments
    have hgiven := firstGiven_ofAdjustments adjustments
    refine ⟨hgiven.order, hgiven.mem_iff, ?_, getOperation_eq _⟩
    intro n
    rw [has_eq_true_iff, hgiven.mem_iff]
  · intro p q hdefault hempty
    exact ⟨fun hhas => parse_eq_of_has hhas hdefault hempty,
      fun hhas _ _ h => parse_eq_ok_of_has hhas hdefault hempty h⟩

theorem adjusted_policy_enables_reordered :
    ∃ p q : Policy,
      p = ofAdjustments [.enableBuiltin, .disableAll, .enable ⟨"lt"⟩, .enableAll [.eq, ⟨"lt"⟩]] ∧
      q = ofAdjustments [.enableAll [.eq, ⟨"lt"⟩]] ∧ p.names = ["lt", "eq"] ∧
      q.names = ["eq", "lt"] ∧
      p.parse [("filter[param][age][lt]", "3")] = q.parse [("filter[param][age][lt]", "3")] ∧
      q.parse [("filter[param][age][lt]", "3")] =
        .ok ⟨some (.parameter ⟨"age", "age", some ⟨"lt"⟩, some "3"⟩), []⟩ := by
  refine ⟨_, _, rfl, rfl, by decide, by decide, ?_, by decide⟩
  refine (adjusted_policy_enables.2 _ _ (by decide) (by decide)).1 ?_ _
  intro n
  rw [Bool.eq_iff_iff, has_eq_true_iff, has_eq_true_iff]
  change n ∈ ["lt", "eq"] ↔ n ∈ ["eq", "lt"]
  simp [or_comm]

end Policy

end QueryFilter
