import QueryFilter.Proofs.Binding.Acceptance

/-!
# Where a binding is refused

A binding that is refused for its syntax is refused as early as possible: the
tokens before the one that is named can be continued to a sentence, and with
that token they no longer can. The end of the text is named only when all
tokens can be continued but are no sentence yet. What is said to be expected
follows from the tokens before that place, as `OperandDue` and `openGroups` read
them.
-/

namespace QueryFilter.Binding

theorem lexemes_eq_nil_iff (cs : List Char) :
    lexemes cs = [] ↔ ∀ c ∈ cs, Text.isBlank c = true :=
  (laid_lexemes cs).eq_nil_iff

/-- The text of an expectation fits the tokens before it. -/
def Expectation.Fits (x : Expectation) (ts : List Token) : Prop :=
  (x.describe = "identifier or '('" ↔ OperandDue ts) ∧
    (x.describe = "')'" ↔ ¬ OperandDue ts ∧ 0 < openGroups ts) ∧
    (x.describe = "'&', '|' or end of input" ↔ ¬ OperandDue ts ∧ openGroups ts = 0)

theorem State.expectation_fits {s : State} {ts : List Token} (h : State.follow {} ts = some s) :
    s.expectation.Fits ts := by
  obtain ⟨ho, hc, ha⟩ := State.expectation_iff h
  refine ⟨?_, ?_, ?_⟩
  · rw [← ho]
    cases s.expectation <;> decide
  · rw [← hc]
    cases s.expectation <;> decide
  · rw [← ha]
    cases s.expectation <;> decide

theorem parse_eq_emptyInput_iff (s : String) :
    parse s = .error .emptyInput ↔ ∀ c ∈ s.toList, Text.isBlank c = true := by
  rw [← lexemes_eq_nil_iff]
  constructor
  · intro h
    have hp := parses s
    rw [h] at hp
    cases hp with
    | empty he => exact he
  · exact parse_of_lexemes_eq_nil

/-- A binding is refused as empty exactly when it is blank. Refused at its end, it
has tokens, which are no sentence but can be continued to one. Refused at a
token, that token is spelled at the offset that is named, the tokens before it
can be continued to a sentence, and those up to it cannot. -/
theorem parse_refuses_earliest (s : String) :
    (parse s = .error .emptyInput ↔ ∀ c ∈ s.toList, Text.isBlank c = true) ∧
    (∀ x p, parse s = .error (.unexpectedEnd x p) →
      tokensOf s ≠ [] ∧ ¬ Sentence (tokensOf s) ∧ Viable (tokensOf s) ∧ p = s.length ∧
        x.Fits (tokensOf s)) ∧
    (∀ x t p, parse s = .error (.unexpectedToken x t p) →
      ∃ before after, lexemes s.toList = before ++ ⟨t, p⟩ :: after ∧
        t.spelling <+: s.toList.drop p ∧ Viable (tokens before) ∧
        ¬ Viable (tokens before ++ [t]) ∧ x.Fits (tokens before)) := by
  refine ⟨parse_eq_emptyInput_iff s, ?_, ?_⟩
  · intro x p h
    have hp := parses s
    rw [h] at hp
    cases hp with
    | stop q hl hq hc =>
        refine ⟨?_, not_sentence_of_follow hq hc, (viable_iff_follow _).2 ⟨q, hq⟩,
          String.length_toList, State.expectation_fits hq⟩
        intro hnil
        exact hl (List.map_eq_nil_iff.1 hnil)
  · intro x t p h
    have hp := parses s
    rw [h] at hp
    cases hp with
    | token before after y q he hq hy =>
        have hmem : y ∈ lexemes s.toList := by simp [he]
        have hspell := ((laid_lexemes s.toList).spelling_isPrefix hmem).2
        exact ⟨before, after, he, hspell, (viable_iff_follow _).2 ⟨q, hq⟩,
          not_viable_of_next?_eq_none hq hy, State.expectation_fits hq⟩

theorem parse_refuses_missing_operator :
    parse "(a b" = .error (.unexpectedToken .closing (.identifier "b") 3) ∧
      ∃ before after, lexemes "(a b".toList = before ++ ⟨.identifier "b", 3⟩ :: after ∧
        (Token.identifier "b").spelling <+: "(a b".toList.drop 3 ∧ Viable (tokens before) ∧
        ¬ Viable (tokens before ++ [.identifier "b"]) ∧ Expectation.closing.Fits (tokens before) :=
  have refused : parse "(a b" = .error (.unexpectedToken .closing (.identifier "b") 3) := by decide
  ⟨refused, (parse_refuses_earliest "(a b").2.2 _ _ _ refused⟩

end QueryFilter.Binding
