import QueryFilter.Command.Check
import QueryFilter.Proofs.Policy.Adjustments

/-!
# Checking arguments is parsing them

An argument of a check is written as `key=value`, and the first `=` ends the key. So
arguments whose keys hold no `=` come back as they were from the way they are written
(`mapM_splitPair_written`), every row of texts that hold an `=` each is written in this way
(`exists_written`), and any other row is refused for its first text without one, before
anything else is looked at.

The policy of a check is built by enabling one operation after the other, and enabling one
again changes nothing. What is left is the list of the operations without repetitions
(`CheckOptions.policy_eq`), and a check answers as that policy does.
-/

namespace QueryFilter

/-! ## The policy of a check -/

namespace Policy

theorem enable_eq (p : Policy) (o : Operation) :
    p.enable o = if o ∈ p.enabled then p else { p with enabled := p.enabled ++ [o] } := by
  simp only [enable, mem_enabled_iff]

/-- Enabling operations where none is enabled lists them without repetitions. -/
theorem enableAll_eq {p : Policy} (h : p.enabled = []) (os : List Operation) :
    p.enableAll os = { p with enabled := os.eraseDups } := by
  induction os using List.reverseRecOn with
  | nil =>
      obtain ⟨⟨enabled, default⟩, allowEmpty⟩ := p
      obtain rfl : enabled = [] := h
      rfl
  | append_singleton os o ih =>
      rw [enableAll_append, ih, enableAll_cons, enableAll_nil, enable_eq, List.eraseDups_append]
      by_cases ho : o ∈ os
      · simp [ho, List.removeAll]
      · simp [ho, List.removeAll, List.eraseDups_cons]

end Policy

namespace Command

namespace CheckOptions

def operationNames (o : CheckOptions) : List String :=
  if o.operations = [] then ["eq", "lt", "lte", "gt", "gte", "in", "like", "ilike"]
  else o.operations

/-- The policy that options ask for: each named operation once, `eq` as the operation of
parameters that name none unless another one is given, and empty queries as allowed. -/
def requested (o : CheckOptions) : Policy where
  enabled := (o.operationNames.map Operation.mk).eraseDups
  default := ⟨o.defaultOperation.getD "eq"⟩
  allowEmpty := o.allowEmpty

theorem enabled_eq (o : CheckOptions) : o.enabled = o.operationNames.map Operation.mk := by
  unfold enabled operationNames
  split
  · rfl
  · exact List.map_congr_left fun name _ => Operation.named_eq name

theorem policy_eq (o : CheckOptions) : o.policy = o.requested := by
  unfold policy requested
  rw [enabled_eq]
  cases o.defaultOperation with
  | none =>
      dsimp only
      rw [Policy.enableAll_eq rfl]
      rfl
  | some name =>
      dsimp only
      rw [Policy.enableAll_eq rfl, Operation.named_eq]
      rfl

end CheckOptions

/-! ## Arguments and how they are written -/

def written (a : String × String) : String := a.1 ++ "=" ++ a.2

theorem splitPair_written {a : String × String} (h : '=' ∉ a.1.toList) :
    splitPair (written a) = .ok a := by
  have hkey : ∀ c ∈ a.1.toList, decide (c ≠ '=') = true := by
    intro c hc
    rw [decide_eq_true_eq]
    rintro rfl
    exact h hc
  have htext : (written a).toList = a.1.toList ++ '=' :: a.2.toList := by simp [written]
  unfold splitPair
  rw [htext, List.dropWhile_append_of_pos hkey, List.takeWhile_append_of_pos hkey]
  simp

theorem splitPair_of_not_mem {pair : String} (h : '=' ∉ pair.toList) :
    splitPair pair = .error (.malformedPair pair) := by
  have hnil : pair.toList.dropWhile (· ≠ '=') = [] := by
    rw [List.dropWhile_eq_nil_iff]
    intro c hc
    rw [decide_eq_true_eq]
    rintro rfl
    exact h hc
  unfold splitPair
  rw [hnil]

theorem exists_eq_written {pair : String} (h : '=' ∈ pair.toList) :
    ∃ a, '=' ∉ a.1.toList ∧ pair = written a := by
  obtain ⟨key, value, he, hkey⟩ := List.eq_append_cons_of_mem h
  refine ⟨(String.ofList key, String.ofList value), ?_, ?_⟩
  · rwa [String.toList_ofList]
  · rw [← String.toList_inj, he]
    simp [written]

/-- Arguments are read back from the way they are written. -/
theorem mapM_splitPair_written {arguments : List (String × String)}
    (h : ∀ a ∈ arguments, '=' ∉ a.1.toList) :
    (arguments.map written).mapM splitPair = .ok arguments := by
  induction arguments with
  | nil => rfl
  | cons a arguments ih =>
      rw [List.forall_mem_cons] at h
      rw [List.map_cons, List.mapM_cons, splitPair_written h.1, ih h.2]
      rfl

theorem exists_written {pairs : List String} (h : ∀ pair ∈ pairs, '=' ∈ pair.toList) :
    ∃ arguments : List (String × String),
      (∀ a ∈ arguments, '=' ∉ a.1.toList) ∧ pairs = arguments.map written := by
  induction pairs with
  | nil => exact ⟨[], by simp, rfl⟩
  | cons pair pairs ih =>
      rw [List.forall_mem_cons] at h
      obtain ⟨a, ha, rfl⟩ := exists_eq_written h.1
      obtain ⟨arguments, harguments, rfl⟩ := ih h.2
      exact ⟨a :: arguments, List.forall_mem_cons.2 ⟨ha, harguments⟩, rfl⟩

theorem mapM_splitPair_of_malformed {pairs : List String} {pair : String}
    (h : pairs.find? (fun pair => '=' ∉ pair.toList) = some pair) :
    pairs.mapM splitPair = .error (.malformedPair pair) := by
  induction pairs with
  | nil => exact absurd h (by simp)
  | cons first pairs ih =>
      rw [List.mapM_cons]
      by_cases hfirst : '=' ∈ first.toList
      · obtain ⟨a, ha, rfl⟩ := exists_eq_written hfirst
        rw [List.find?_cons_of_neg (by simpa using hfirst)] at h
        rw [splitPair_written ha, ih h]
        rfl
      · rw [List.find?_cons_of_pos (by simpa using hfirst)] at h
        obtain rfl := Option.some.inj h
        rw [splitPair_of_not_mem hfirst]
        rfl

/-! ## The answer of a check -/

theorem check_of_malformed {o : CheckOptions} {pair : String}
    (h : o.pairs.find? (fun pair => '=' ∉ pair.toList) = some pair) :
    check o = .error (.malformedPair pair) := by
  rw [check, mapM_splitPair_of_malformed h]
  rfl

theorem check_of_written {o : CheckOptions} {arguments : List (String × String)}
    (h : ∀ a ∈ arguments, '=' ∉ a.1.toList) (ho : o.pairs = arguments.map written) :
    (∀ s, o.requested.parse arguments = .ok s → check o = .ok (s.toJson.render o.layout)) ∧
      (∀ e, o.requested.parse arguments = .error e → check o = .error (.query e)) := by
  rw [check, ho, mapM_splitPair_written h, o.policy_eq]
  refine ⟨?_, ?_⟩
  · intro s hs
    simp only [bind, Except.bind, hs]
  · intro e he
    simp only [bind, Except.bind, he]

/-- A check answers as the policy that its options ask for. The first text without `=` among
its arguments refuses it, whatever else it is asked. Otherwise the texts are those of
arguments whose keys hold no `=`, and for all arguments written so the check succeeds exactly
if the policy accepts them: it then gives the JSON text of their selection in the layout
asked for, and else the same refusal. -/
theorem check_agrees_with_parse (o : CheckOptions) :
    (∀ pair, o.pairs.find? (fun pair => '=' ∉ pair.toList) = some pair →
      check o = .error (.malformedPair pair)) ∧
    ((∀ pair ∈ o.pairs, '=' ∈ pair.toList) →
      ∃ arguments : List (String × String), (∀ a ∈ arguments, '=' ∉ a.1.toList) ∧
        o.pairs = arguments.map fun a => a.1 ++ "=" ++ a.2) ∧
    (∀ arguments : List (String × String), (∀ a ∈ arguments, '=' ∉ a.1.toList) →
      (o.pairs = arguments.map fun a => a.1 ++ "=" ++ a.2) →
      (∀ text, check o = .ok text ↔
        ∃ s, o.requested.parse arguments = .ok s ∧
          text = s.toJson.render (if o.pretty then .indented else .compact)) ∧
      (∀ f, check o = .error f ↔
        ∃ e, o.requested.parse arguments = .error e ∧ f = .query e)) := by
  refine ⟨fun pair h => check_of_malformed h, fun h => exists_written h, ?_⟩
  intro arguments h ho
  obtain ⟨hok, herror⟩ := check_of_written h ho
  cases hparse : o.requested.parse arguments with
  | ok s =>
      rw [hok s hparse]
      refine ⟨fun text => ⟨?_, ?_⟩, fun f => ⟨?_, ?_⟩⟩
      · rintro ⟨⟩
        exact ⟨s, rfl, rfl⟩
      · rintro ⟨t, ⟨⟩, rfl⟩
        rfl
      · rintro ⟨⟩
      · rintro ⟨e, ⟨⟩, -⟩
  | error e =>
      rw [herror e hparse]
      refine ⟨fun text => ⟨?_, ?_⟩, fun f => ⟨?_, ?_⟩⟩
      · rintro ⟨⟩
      · rintro ⟨s, ⟨⟩, -⟩
      · rintro ⟨⟩
        exact ⟨e, rfl, rfl⟩
      · rintro ⟨d, ⟨⟩, rfl⟩
        rfl

theorem check_agrees_on_repeated_sign :
    check { pairs := ["filter[param][age][near]=3", "filter[order]"] } =
        .error (.malformedPair "filter[order]") ∧
      ∃ s, Policy.parse ⟨⟨[⟨"lt"⟩, ⟨"in"⟩], ⟨"in"⟩⟩, false⟩ [("filter[param][age]", "3=4")] = .ok s ∧
        check { pairs := ["filter[param][age]=3=4"], operations := ["lt", "in", "lt"],
                defaultOperation := some "in", pretty := true } =
          .ok (s.toJson.render .indented) := by
  refine ⟨(check_agrees_with_parse _).1 _ (by decide), ?_⟩
  obtain ⟨-, -, hagrees⟩ := check_agrees_with_parse
    { pairs := ["filter[param][age]=3=4"], operations := ["lt", "in", "lt"],
      defaultOperation := some "in", pretty := true }
  have hkeys : ∀ a ∈ [("filter[param][age]", "3=4")], '=' ∉ a.1.toList :=
    List.forall_mem_singleton.2 (by decide)
  have hparse : Policy.parse ⟨⟨[⟨"lt"⟩, ⟨"in"⟩], ⟨"in"⟩⟩, false⟩ [("filter[param][age]", "3=4")] =
      .ok ⟨some (.parameter ⟨"age", "age", some ⟨"in"⟩, some "3=4"⟩), []⟩ := by decide
  exact ⟨_, hparse, ((hagrees _ hkeys rfl).1 _).2 ⟨_, hparse, rfl⟩⟩

end Command

end QueryFilter
