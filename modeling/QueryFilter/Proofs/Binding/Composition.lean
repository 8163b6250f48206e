import QueryFilter.Proofs.Binding.Excess
import QueryFilter.Proofs.Binding.RoundTrip

/-!
# Bindings made of bindings

A binding in parentheses is an atom, so it may be negated and joined to others, and its
tree becomes a part of the new tree as it is. What changes are the two quantities that are
limited. Each pair of parentheses and each negation adds one to the nesting, and each
operator adds one to the depth. `nesting` reads the first of them off the tokens, by
`marksAfter`, and agrees with the number that the grammar assigns (`Derives.nesting_eq`).

The leaves of a tree are the words of its binding in the order in which they stand there,
whatever the operators around them.
-/

namespace QueryFilter.Binding

/-! ## The nesting of a binding -/

/-- The largest number of `(` and `!` that are open at once while the tokens are read, if
`ms` are open in front of them. -/
def mostOpen (ms : List Token) : List Token → Nat
  | [] => ms.length
  | t :: ts => max ms.length (mostOpen (marksAfter ms t) ts)

/-- The largest number of `(` and `!` that are open at once in a binding. -/
def nesting (s : String) : Nat := mostOpen [] (tokensOf s)

theorem length_le_mostOpen (ms ts : List Token) : ms.length ≤ mostOpen ms ts := by
  cases ts with
  | nil => exact Nat.le_refl _
  | cons t ts => exact Nat.le_max_left _ _

theorem State.length_marks_complete (l : Level) (es : List Level) (a : Condition) :
    (State.marks ⟨l, es, some a⟩).length = openAround es :=
  length_marksAround es

theorem State.length_marks_le_opened (s : State) : s.marks.length ≤ s.opened := by
  obtain ⟨l, es, o⟩ := s
  cases o with
  | none => exact Nat.le_of_eq (State.length_marks_due l es)
  | some a =>
      rw [State.length_marks_complete]
      exact Nat.le_add_left _ _

/-- A state still counts the negations of a complete operand, but they were open in front
of that operand, too. -/
theorem State.Next.opened_le {s s' : State} {t : Token} (h : s.Next t s') :
    s'.opened ≤ max s.marks.length s'.marks.length := by
  have hdue (n : Nat) (l : Level) (es : List Level) :
      State.opened ⟨l, es, none⟩ ≤ max n (State.marks ⟨l, es, none⟩).length := by
    rw [State.length_marks_due]
    exact Nat.le_max_right _ _
  cases h with
  | identifier l es text =>
      rw [State.length_marks_due]
      exact Nat.le_max_left _ _
  | opening l es => exact hdue _ _ _
  | not l es => exact hdue _ _ _
  | and l es c => exact hdue _ _ _
  | or l es c => exact hdue _ _ _
  | closing l outer es c =>
      simp only [State.length_marks_complete, State.opened, openAround_cons]
      omega

theorem State.peak_eq_mostOpen {s s' : State} {ts : List Token} (h : s.follow ts = some s') :
    s.peak ts = max s.opened (mostOpen s.marks ts) := by
  induction ts generalizing s with
  | nil => exact (Nat.max_eq_left s.length_marks_le_opened).symm
  | cons t ts ih =>
      obtain ⟨q, hn, hq⟩ := State.exists_next?_of_follow_cons h
      have hnext := State.next?_eq_some_iff.1 hn
      have hopened := hnext.opened_le
      have hmarks := s.length_marks_le_opened
      have hmost := length_le_mostOpen q.marks ts
      rw [State.peak_cons_of_next? hn, ih hq, mostOpen, ← hnext.marks]
      omega

/-- The grammar counts the same nesting. -/
theorem Derives.nesting_eq {s : String} {c : Condition} {n : Nat}
    (h : Derives .disjunction (tokensOf s) c n) : nesting s = n := by
  obtain ⟨l, a, hf, -, rfl⟩ := (derives_iff_follow _ c n).1 h
  rw [State.peak_eq_mostOpen hf]
  exact (Nat.max_eq_right (Nat.zero_le _)).symm

example : nesting "!(a & !!b) | (c)" = 4 := by decide

/-! ## Parentheses and operators around bindings -/

theorem tokensOf_group (s : String) :
    tokensOf ("(" ++ s ++ ")") = .opening :: tokensOf s ++ [.closing] := by
  apply Spelled.tokensOf_eq
  simpa using (Spelled.of_text s).group

theorem tokensOf_not_group (s : String) :
    tokensOf ("!(" ++ s ++ ")") = .not :: (.opening :: tokensOf s ++ [.closing]) := by
  apply Spelled.tokensOf_eq
  simpa using Spelled.operator (c := '!') rfl (Spelled.of_text s).group

theorem tokensOf_joined_groups (s₁ s₂ joint : String) {c : Char} {t : Token}
    (hc : Token.ofChar? c = some t) (hjoint : joint.toList = [')', ' ', c, ' ', '(']) :
    tokensOf ("(" ++ s₁ ++ joint ++ s₂ ++ ")") =
      (.opening :: tokensOf s₁ ++ [.closing]) ++ t :: (.opening :: tokensOf s₂ ++ [.closing]) := by
  apply Spelled.tokensOf_eq
  simpa [hjoint] using (Spelled.of_text s₁).group.between hc (Spelled.of_text s₂).group

/-- The binding has the tree `c` if it fits the limits, and is refused as too deep if it
does not. -/
def ParsesIfFits (fits : Prop) (s : String) (c : Condition) : Prop :=
  (fits → parse s = .ok c) ∧ (¬ fits → ∃ p, parse s = .error (.tooDeep 128 p))

theorem Derives.parsesIfFits {fits : Prop} {s : String} {c : Condition} {n : Nat}
    (h : Derives .disjunction (tokensOf s) c n) (hfits : fits ↔ n ≤ depthLimit ∧ c.depth ≤ depthLimit) :
    ParsesIfFits fits s c := by
  unfold ParsesIfFits
  rw [hfits]
  rcases h.parse with ⟨hok, hn, hd⟩ | ⟨herr, hlt⟩
  · exact ⟨fun _ => hok, fun hno => absurd ⟨hn, hd⟩ hno⟩
  · refine ⟨fun hle => ?_, fun _ => herr⟩
    omega

/-- Bindings compose. In parentheses a binding keeps its tree; negated or joined in
parentheses it becomes a part of the new tree. The limits are exceeded exactly when the
parentheses and negations put around it do not fit on top of its nesting, or the operator
on top of its depth. -/
theorem parse_composes (s₁ s₂ : String) (c₁ c₂ : Condition) (h₁ : parse s₁ = .ok c₁)
    (h₂ : parse s₂ = .ok c₂) :
    ParsesIfFits (nesting s₁ ≤ 127) ("(" ++ s₁ ++ ")") c₁ ∧
    ParsesIfFits (nesting s₁ ≤ 126 ∧ c₁.depth ≤ 127) ("!(" ++ s₁ ++ ")") (.negate c₁) ∧
    ParsesIfFits (nesting s₁ ≤ 127 ∧ nesting s₂ ≤ 127 ∧ c₁.depth ≤ 127 ∧ c₂.depth ≤ 127)
      ("(" ++ s₁ ++ ") & (" ++ s₂ ++ ")") (.and c₁ c₂) ∧
    ParsesIfFits (nesting s₁ ≤ 127 ∧ nesting s₂ ≤ 127 ∧ c₁.depth ≤ 127 ∧ c₂.depth ≤ 127)
      ("(" ++ s₁ ++ ") | (" ++ s₂ ++ ")") (.or c₁ c₂) := by
  obtain ⟨n₁, hd₁, -, hdepth₁⟩ := derives_of_parse h₁
  obtain ⟨n₂, hd₂, -, -⟩ := derives_of_parse h₂
  have group₁ := hd₁.group.atom
  have group₂ := hd₂.group.atom
  rw [hd₁.nesting_eq, hd₂.nesting_eq]
  refine ⟨?_, ?_, ?_, ?_⟩
  · have h := group₁.negation.conjunction
    rw [← tokensOf_group] at h
    refine h.parsesIfFits ?_
    simp only [depthLimit] at hdepth₁ ⊢
    omega
  · have h := group₁.not.negation.conjunction
    rw [← tokensOf_not_group] at h
    refine h.parsesIfFits ?_
    simp only [depthLimit, Condition.depth]
    omega
  · have h := (group₁.negation.and group₂).conjunction
    rw [← tokensOf_joined_groups s₁ s₂ ") & (" (c := '&') rfl rfl] at h
    refine h.parsesIfFits ?_
    simp only [depthLimit, Condition.depth]
    omega
  · have h := group₁.negation.conjunction.or group₂.negation
    rw [← tokensOf_joined_groups s₁ s₂ ") | (" (c := '|') rfl rfl] at h
    refine h.parsesIfFits ?_
    simp only [depthLimit, Condition.depth]
    omega

theorem parse_composes_at_limits :
    let s := String.ofList (List.replicate 127 '!' ++ ['a'])
    let c := Condition.negate^[127] (.reference "a")
    parse s = .ok c ∧ parse "b" = .ok (.reference "b") ∧
      parse ("(" ++ s ++ ")") = .ok c ∧
      (∃ p, parse ("!(" ++ s ++ ")") = .error (.tooDeep 128 p)) ∧
      ∃ p, parse ("(" ++ s ++ ") & (" ++ "b" ++ ")") = .error (.tooDeep 128 p) := by
  intro s c
  have accepted : parse s = .ok c := by
    rw [parse, Reader.ofText, String.toList_ofList]
    decide +kernel
  have word : parse "b" = .ok (.reference "b") := by decide
  have nested : nesting s = 127 := by
    rw [nesting, tokensOf, String.toList_ofList]
    decide +kernel
  have deep : c.depth = 128 := Condition.depth_iterate_negate 127 (.reference "a")
  obtain ⟨hgroup, hnot, hand, -⟩ := parse_composes s "b" c _ accepted word
  exact ⟨accepted, word, hgroup.1 (by omega), hnot.2 (by omega), hand.2 (by omega)⟩

/-! ## The leaves of a tree -/

/-- The leaves of a tree are named by the words of its binding, each as often as it stands
there and in the same order. -/
theorem leaves_follow_words (s : String) (c : Condition) (h : parse s = .ok c) :
    c.parameters.map (·.identification) = words (tokensOf s) := by
  obtain ⟨n, hd, -⟩ := derives_of_parse h
  rw [hd.parameters_eq, List.map_map]
  exact List.map_id _

theorem leaves_follow_repeated_words :
    parse "b & (a|!b)" =
        .ok (.and (.reference "b") (.or (.reference "a") (.negate (.reference "b")))) ∧
      words (tokensOf "b & (a|!b)") = ["b", "a", "b"] := by
  have accepted : parse "b & (a|!b)" =
      .ok (.and (.reference "b") (.or (.reference "a") (.negate (.reference "b")))) := by decide
  exact ⟨accepted, (leaves_follow_words _ _ accepted).symm⟩

end QueryFilter.Binding
