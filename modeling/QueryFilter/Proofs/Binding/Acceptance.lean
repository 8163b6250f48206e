import QueryFilter.Binding.Parser
import QueryFilter.Proofs.Binding.Limits

/-!
# Which bindings are accepted

`Parses s r` lists the ways in which reading the text `s` can end, each with the
state that its tokens lead to, and `parses` says that the result of `parse` is
always one of them. Everything about the results of `parse` is read off this
list. The main statement here is that `parse` accepts the sentences of the
grammar that stay within both limits, with the tree of the sentence, refuses the
other sentences as too deep, and accepts nothing else.
-/

namespace QueryFilter.Binding

/-- The result of a reading that has to reach to the end of the text. -/
def Outcome.verdict : Outcome → Except SyntaxError Condition
  | .accepted c [] => .ok c
  | .accepted _ (x :: _) => .error (.unexpectedToken .continuation x.token x.start)
  | .rejected e _ _ => .error e
  | .overflowed x _ _ => .error (.tooDeep depthLimit x.start)

/-- How reading a text can end. -/
inductive Parses (s : String) : Except SyntaxError Condition → Prop
  | empty : lexemes s.toList = [] → Parses s (.error .emptyInput)
  | tree (l : Level) (a : Condition) :
      State.follow {} (tokensOf s) = some ⟨l, [], some a⟩ →
      State.peak {} (tokensOf s) ≤ depthLimit →
      (l.tree a).depth ≤ depthLimit →
      Parses s (.ok (l.tree a))
  | token (before after : List Lexeme) (x : Lexeme) (q : State) :
      lexemes s.toList = before ++ x :: after →
      State.follow {} (tokens before) = some q →
      q.next? x.token = none →
      Parses s (.error (.unexpectedToken q.expectation x.token x.start))
  | stop (q : State) :
      lexemes s.toList ≠ [] →
      State.follow {} (tokensOf s) = some q →
      q.expectation ≠ .continuation →
      Parses s (.error (.unexpectedEnd q.expectation s.toList.length))
  | nesting (before after : List Lexeme) (x : Lexeme) (l : Level) (es : List Level) :
      lexemes s.toList = before ++ x :: after →
      State.follow {} (tokens before) = some ⟨l, es, none⟩ →
      x.token = .opening ∨ x.token = .not →
      State.opened ⟨l, es, none⟩ = depthLimit →
      Parses s (.error (.tooDeep depthLimit x.start))
  | depth (before rest : List Lexeme) (l : Level) (es : List Level) (a : Condition) :
      lexemes s.toList = before ++ rest →
      State.follow {} (tokens before) = some ⟨l, es, some a⟩ →
      State.weight ⟨l, es, some a⟩ ≤ depthLimit →
      depthLimit < (l.conjoin a).depth ∨
        depthLimit < (l.tree a).depth ∧ (∀ x ∈ rest.head?, x.token ≠ .and) →
      Parses s (.error (.tooDeep depthLimit (place s.toList.length rest)))

theorem parse_of_lexemes_eq_nil {s : String} (h : lexemes s.toList = []) :
    parse s = .error .emptyInput := by
  simp [parse, Parser.sentence, Parser.ofReader, Reader.ofText, Reader.token?, h]

theorem parse_eq_verdict {s : String} (h : lexemes s.toList ≠ []) :
    parse s = (run 0 s.toList.length {} (lexemes s.toList)).verdict := by
  cases hl : lexemes s.toList with
  | nil => exact absurd hl h
  | cons x ls =>
      simp only [parse, Parser.sentence, Parser.expression, Parser.ofReader, Reader.ofText,
        Reader.token?, Reader.position, hl, List.head?_cons, Option.map_some, Option.getD_some,
        List.tail_cons]
      cases run 0 s.toList.length {} (x :: ls) with
      | accepted c rest => cases rest <;> rfl
      | rejected e n rest => rfl
      | overflowed y n rest => rfl

theorem parses (s : String) : Parses s (parse s) := by
  by_cases hl : lexemes s.toList = []
  · rw [parse_of_lexemes_eq_nil hl]
    exact .empty hl
  · obtain ⟨before, rest, q, he, hf, hw, hp, hh⟩ :=
      run_halts 0 s.toList.length (s := {}) (Nat.zero_le _) (lexemes s.toList)
    have hlimit : State.peak {} (tokens before) ≤ depthLimit := by
      have hmax : max (State.opened {}) (depthLimit - 0) = depthLimit := rfl
      rwa [hmax] at hp
    rw [parse_eq_verdict hl]
    generalize run 0 s.toList.length {} (lexemes s.toList) = o at hh ⊢
    cases hh with
    | accepted l a _ hd hx =>
        cases rest with
        | nil =>
            rw [List.append_nil] at he
            rw [← he] at hf hlimit
            exact .tree l a hf hlimit hd
        | cons x after =>
            have hn : State.next? ⟨l, [], some a⟩ x.token = none := by
              have := hx x rfl
              cases ht : x.token <;> simp_all [State.next?]
            exact .token before after x ⟨l, [], some a⟩ he hf hn
    | rejected _ _ hc hx _ =>
        cases rest with
        | nil =>
            rw [List.append_nil] at he
            rw [← he] at hf
            exact .stop q hl hf hc
        | cons x after => exact .token before after x q he hf (hx x rfl)
    | deep l es a _ hd => exact .depth before rest l es a he hf hw hd
    | overflowed l es x rest hx hu =>
        have := State.opened_le_peak_of_follow hf
        exact .nesting before rest x l es he hf hx (by omega)

theorem State.weight_complete_le (l : Level) (a : Condition) :
    State.weight ⟨l, [], some a⟩ ≤ (l.tree a).depth := by
  have h₁ := l.le_depth_conjoin a
  have h₂ := l.le_depth_tree a
  simp only [State.weight, Level.weight, weightAround, depthOf_some]
  omega

theorem State.lt_peak_of_opens {l : Level} {es : List Level} {t : Token}
    (ht : t = .opening ∨ t = .not) (ts : List Token) :
    State.opened ⟨l, es, none⟩ < State.peak ⟨l, es, none⟩ (t :: ts) := by
  rcases ht with rfl | rfl
  · have hn : State.next? ⟨l, es, none⟩ .opening = some ⟨{}, l :: es, none⟩ := rfl
    have ho := State.opened_le_peak ⟨{}, l :: es, none⟩ ts
    rw [State.peak_cons_of_next? hn]
    simp only [State.opened, openAround_cons] at ho ⊢
    omega
  · have hn : State.next? ⟨l, es, none⟩ .not =
        some ⟨{ l with negations := l.negations + 1 }, es, none⟩ := rfl
    have ho := State.opened_le_peak ⟨{ l with negations := l.negations + 1 }, es, none⟩ ts
    rw [State.peak_cons_of_next? hn]
    simp only [State.opened] at ho ⊢
    omega

theorem State.lt_depth_of_deep {l l' : Level} {es : List Level} {a a' : Condition}
    {rest : List Lexeme}
    (hf : State.follow ⟨l, es, some a⟩ (tokens rest) = some ⟨l', [], some a'⟩)
    (hd : depthLimit < (l.conjoin a).depth ∨
      depthLimit < (l.tree a).depth ∧ (∀ x ∈ rest.head?, x.token ≠ .and)) :
    depthLimit < (l'.tree a').depth := by
  cases rest with
  | nil =>
      cases hf
      have := (l.le_depth_tree a).1
      omega
  | cons x rest =>
      obtain ⟨q, hn, hq⟩ := State.exists_next?_of_follow_cons hf
      -- The next state keeps the tree that is too deep, and no later state loses it.
      have hw := State.weight_le_of_follow hq
      have hc := State.weight_complete_le l' a'
      have hk := State.depth_le_weight_next (State.next?_eq_some_iff.1 hn)
      rcases hd with hd | ⟨hd, hx⟩
      · omega
      · have := hk.2 (hx x rfl)
        omega

/-- A sentence is accepted with its tree, or it exceeds a limit and is refused as
too deep. -/
theorem Derives.parse {s : String} {c : Condition} {n : Nat}
    (h : Derives .disjunction (tokensOf s) c n) :
    parse s = .ok c ∧ n ≤ depthLimit ∧ c.depth ≤ depthLimit ∨
      (∃ p, parse s = .error (.tooDeep depthLimit p)) ∧ (depthLimit < n ∨ depthLimit < c.depth) := by
  have hs : Sentence (tokensOf s) := ⟨c, n, h⟩
  obtain ⟨l, a, hf, rfl, rfl⟩ := (derives_iff_follow _ c n).1 h
  have hp := parses s
  generalize Binding.parse s = r at hp ⊢
  cases hp with
  | empty he =>
      have hnil : tokensOf s = [] := by rw [tokensOf, he]; rfl
      exact absurd hnil h.ne_nil
  | tree l' a' hf' hn hd =>
      cases hf'.symm.trans hf
      exact .inl ⟨rfl, hn, hd⟩
  | token before after x q he hq hx =>
      refine absurd ?_ (not_viable_of_next?_eq_none hq hx)
      refine ⟨tokens after, ?_⟩
      rw [← List.append_cons]
      rwa [tokensOf_eq_append he] at hs
  | stop q _ hq hc => exact absurd hs (not_sentence_of_follow hq hc)
  | nesting before after x l' es he hq hx ho =>
      refine .inr ⟨⟨x.start, rfl⟩, .inl ?_⟩
      rw [tokensOf_eq_append he, State.peak_append hq]
      have hlt : State.opened ⟨l', es, none⟩ < State.peak ⟨l', es, none⟩ (tokens (x :: after)) :=
        State.lt_peak_of_opens hx (tokens after)
      omega
  | depth before rest l' es a' he hq hw hd =>
      refine .inr ⟨⟨_, rfl⟩, .inr ?_⟩
      rw [tokensOf_eq_append he, State.follow_append_of_follow hq] at hf
      exact State.lt_depth_of_deep hf hd

theorem derives_of_parse {s : String} {c : Condition} (h : parse s = .ok c) :
    ∃ n, Derives .disjunction (tokensOf s) c n ∧ n ≤ depthLimit ∧ c.depth ≤ depthLimit := by
  have hp := parses s
  rw [h] at hp
  cases hp with
  | tree l a hf hn hd => exact ⟨_, (derives_iff_follow _ _ _).2 ⟨l, a, hf, rfl, rfl⟩, hn, hd⟩

/-- A binding is accepted exactly when its tokens are a sentence in which at most
128 parentheses and negations enclose a token and whose tree is at most 128
deep. The tree is then the one and only tree of the sentence. A sentence beyond
these limits is refused as too deep, and what is no sentence is refused. -/
theorem parse_accepts_grammar (s : String) :
    (∀ c n, Derives .disjunction (tokensOf s) c n →
      (∀ d m, Derives .disjunction (tokensOf s) d m → d = c ∧ m = n) ∧
      (n ≤ 128 ∧ c.depth ≤ 128 → parse s = .ok c) ∧
      (¬ (n ≤ 128 ∧ c.depth ≤ 128) → ∃ p, parse s = .error (.tooDeep 128 p))) ∧
    ((¬ ∃ c n, Derives .disjunction (tokensOf s) c n) → ∃ e, parse s = .error e) := by
  refine ⟨?_, ?_⟩
  · intro c n h
    refine ⟨fun d m hd => hd.unique h, ?_, ?_⟩
    · rintro ⟨hn, hc⟩
      rcases h.parse with ⟨hok, -⟩ | ⟨-, hlt⟩
      · exact hok
      · simp only [depthLimit] at hlt
        omega
    · intro hlim
      rcases h.parse with ⟨-, hn, hc⟩ | ⟨herr, -⟩
      · exact absurd ⟨hn, hc⟩ hlim
      · exact herr
  · intro hno
    cases hp : parse s with
    | error e => exact ⟨e, rfl⟩
    | ok c =>
        obtain ⟨n, hd, -⟩ := derives_of_parse hp
        exact absurd ⟨c, n, hd⟩ hno

theorem parse_accepts_negated_group :
    Derives .disjunction (tokensOf "a & !(b|c)")
        (.and (.reference "a") (.negate (.or (.reference "b") (.reference "c")))) 2 ∧
      parse "a & !(b|c)" =
        .ok (.and (.reference "a") (.negate (.or (.reference "b") (.reference "c")))) := by
  have word (k : String) : Derives .negation [.identifier k] (.reference k) 0 :=
    .atom (.identifier k)
  have group := (Derives.conjunction (.negation (word "b"))).or (.negation (word "c"))
  have sentence := ((word "a").negation.and (Derives.atom group.group).not).conjunction
  exact ⟨sentence, ((parse_accepts_grammar "a & !(b|c)").1 _ _ sentence).2.1 (by decide)⟩

end QueryFilter.Binding
