import QueryFilter.Proofs.Binding.Descent
import QueryFilter.Proofs.Binding.Unfinished

/-!
# One call after the other

A parser is called again and again, and calls that fail leave parentheses and
negations open. `Parser.Answers` lists the ways in which a call can end on any
parser, each with the parser it leaves, and `Parser.answers` says that there are
no others. Whatever holds of all calls is read off this list, and what holds of
a parser after any calls follows by induction on them.

The main statement is the account of the open parentheses and negations: a call
that succeeds leaves their number as it was, and one that fails adds those that
it entered and did not finish.
-/

namespace QueryFilter.Binding

/-- The two ways to call a parser. -/
inductive Call where
  | sentence
  | expression
deriving DecidableEq, Repr

def Call.run : Call → Parser → Except SyntaxError Condition × Parser
  | .sentence, p => p.sentence
  | .expression, p => p.expression

namespace Parser

/-- The parser after some calls, whatever they gave. -/
def afterCalls (p : Parser) (calls : List Call) : Parser :=
  calls.foldl (fun q call => (call.run q).2) p

theorem afterCalls_cons (p : Parser) (call : Call) (calls : List Call) :
    p.afterCalls (call :: calls) = (call.run p).2.afterCalls calls := rfl

/-- The parser on a text from the lexeme with the number `skipped` on, after some
calls. -/
def reached (s : String) (skipped : Nat) (calls : List Call) : Parser :=
  (ofReader ((Reader.ofText s).skip skipped)).afterCalls calls

/-- How a phrase can be refused, with the lexemes that the call entered and the
parser that it leaves. -/
inductive Refuses (p : Parser) : List Lexeme → SyntaxError → Parser → Prop
  | ended : p.current = none → p.Refuses [] (.unexpectedEnd .operand p.position) p
  /-- A token does not fit, or tokens are missing. -/
  | unexpected {read rest : List Lexeme} {nesting : Nat} (expected : Expectation) :
      p.pending = read ++ rest →
      (OperandDue (tokens read) → ∀ x ∈ rest.head?, x.token ≠ .opening ∧ x.token ≠ .not) →
      p.Refuses read (.unexpected expected (rest.head?.map (·.token)) (place p.stop rest))
        (.inFrontOf p.stop nesting rest)
  /-- A complete tree is too deep. -/
  | deep {read rest : List Lexeme} {nesting : Nat} :
      p.pending = read ++ rest → ¬ OperandDue (tokens read) →
      p.Refuses read (.tooDeep depthLimit (place p.stop rest)) (.inFrontOf p.stop nesting rest)
  /-- The last lexeme that was entered is a parenthesis or negation too many. -/
  | tripped {read rest : List Lexeme} {x : Lexeme} {nesting : Nat} :
      p.pending = read ++ x :: rest → OperandDue (tokens read) →
      x.token = .opening ∨ x.token = .not →
      depthLimit ≤ p.nesting + unclosed (tokens read) + unapplied (tokens read) →
      p.Refuses (read ++ [x]) (.tooDeep depthLimit x.start) (.tripped p.stop nesting x rest)

/-- How reading one phrase can end. -/
inductive Answers (p : Parser) : Except SyntaxError Condition → Parser → Prop
  | tree {read rest : List Lexeme} {c : Condition} {n : Nat} :
      p.pending = read ++ rest →
      Derives .disjunction (tokens read) c n → c.depth ≤ depthLimit →
      (∀ x ∈ rest.head?, x.token ≠ .and ∧ x.token ≠ .or) →
      p.Answers (.ok c) (.inFrontOf p.stop p.nesting rest)
  | refused {entered : List Lexeme} {e : SyntaxError} {q : Parser} :
      p.Refuses entered e q → q.nesting = p.nesting + unfinished (tokens entered) →
      p.Answers (.error e) q

end Parser

/-- A parenthesis or negation where an operand is due leaves one more open. -/
theorem State.exists_next?_of_opens (l : Level) (es : List Level) {t : Token}
    (ht : t = .opening ∨ t = .not) :
    ∃ s, State.next? ⟨l, es, none⟩ t = some s ∧ s.weight = State.weight ⟨l, es, none⟩ ∧
      s.unfinished = State.opened ⟨l, es, none⟩ + 1 := by
  rcases ht with rfl | rfl
  · refine ⟨⟨{}, l :: es, none⟩, rfl, ?_, opened_opening l es⟩
    simp [State.weight, Level.weight, weightAround]
  · exact ⟨⟨{ l with negations := l.negations + 1 }, es, none⟩, rfl, rfl, opened_not l es⟩

theorem tokens_append_singleton (ls : List Lexeme) (x : Lexeme) :
    tokens (ls ++ [x]) = tokens ls ++ [x.token] := by
  simp [tokens]

theorem unfinished_append_opens {l : Level} {es : List Level} {read : List Lexeme} {x : Lexeme}
    (h : State.follow {} (tokens read) = some ⟨l, es, none⟩)
    (hw : State.weight ⟨l, es, none⟩ ≤ depthLimit) (hx : x.token = .opening ∨ x.token = .not) :
    unfinished (tokens (read ++ [x])) = State.opened ⟨l, es, none⟩ + 1 := by
  obtain ⟨s, hn, hs, hu⟩ := State.exists_next?_of_opens l es hx
  have hf : State.follow {} (tokens (read ++ [x])) = some s := by
    rw [tokens_append_singleton, State.follow_append_of_follow h, State.follow_cons_of_next? hn,
      State.follow_nil]
  rw [unfinished_eq hf (hs ▸ hw), hu]

/-- Where no operand was too deep, what a state keeps open is what is unfinished. -/
theorem State.pending_eq_unfinished {s : State}
    (h : ∀ a ∈ s.operand, (s.level.tree a).depth ≤ depthLimit) : s.pending = s.unfinished := by
  obtain ⟨l, es, o⟩ := s
  cases o with
  | none => rfl
  | some a =>
      have ht := h a rfl
      have h₁ := (l.le_depth_tree a).1
      have h₂ := (l.le_depth_conjoin a).1
      simp only [State.pending, State.unfinished]
      dsimp only at ht
      omega

namespace Parser

theorem expression_of_current_eq_none {p : Parser} (h : p.current = none) :
    p.expression = (.error (.unexpectedEnd .operand p.position), p) := by
  simp only [expression, h]
  rfl

/-- Reading one phrase ends in no other way. -/
theorem answers (p : Parser) : p.Answers p.expression.1 p.expression.2 := by
  cases hp : p.current with
  | none =>
      rw [expression_of_current_eq_none hp]
      exact .refused (.ended hp) rfl
  | some t =>
      obtain ⟨read, rest, s, he, hf, hw, -, hh⟩ :=
        run_halts p.nesting p.stop (s := {}) (Nat.zero_le _) p.pending
      have hu := unfinished_eq hf hw
      have hdue := State.operand_eq_none_iff hf
      rw [expression_eq hp]
      generalize run p.nesting p.stop {} p.pending = o at hh
      cases hh with
      | accepted l a _ hd hx =>
          exact .tree he ((derives_iff_follow _ _ _).2 ⟨l, a, hf, rfl, rfl⟩) hd hx
      | rejected _ _ _ hx hd =>
          have hopens : OperandDue (tokens read) →
              ∀ x ∈ rest.head?, x.token ≠ .opening ∧ x.token ≠ .not := by
            intro ho x hxr
            obtain ⟨l, es, o⟩ := s
            obtain rfl : o = none := hdue.2 ho
            rw [← not_or]
            intro ht
            obtain ⟨s, hs, -⟩ := State.exists_next?_of_opens l es ht
            cases hs.symm.trans (hx x hxr)
          rw [State.pending_eq_unfinished hd, ← hu]
          exact .refused (.unexpected s.expectation he hopens) (inFrontOf_nesting _ _ _)
      | deep l es a _ hd =>
          have hnot : ¬ OperandDue (tokens read) := fun ho => by cases hdue.2 ho
          have hopen : a.depth + l.negations - depthLimit - 1 + openAround es =
              unfinished (tokens read) := hu.symm
          rw [hopen]
          exact .refused (.deep he hnot) (inFrontOf_nesting _ _ _)
      | overflowed l es x rest hx hlimit =>
          have hopen : State.opened ⟨l, es, none⟩ = unfinished (tokens read) := hu.symm
          have hnext := unfinished_append_opens hf hw hx
          refine .refused (.tripped he (hdue.1 rfl) hx ?_) ?_
          · rw [hopen] at hlimit
            rw [Nat.add_assoc]
            exact hlimit
          · rw [hnext]
            rfl

theorem answers_of_expression {p q : Parser} {r : Except SyntaxError Condition}
    (h : p.expression = (r, q)) : p.Answers r q := by
  have ha := p.answers
  rwa [h] at ha

theorem sentence_of_current_eq_none {p : Parser} (h : p.current = none) :
    p.sentence = (.error .emptyInput, p) := by
  simp only [sentence, h]

theorem sentence_of_error {p q : Parser} {t : Token} {e : SyntaxError} (hp : p.current = some t)
    (h : p.expression = (.error e, q)) : p.sentence = (.error e, q) := by
  simp only [sentence, hp, h]

theorem sentence_of_ok {p q : Parser} {t : Token} {c : Condition} (hp : p.current = some t)
    (h : p.expression = (.ok c, q)) :
    p.sentence =
      (q.current.elim (.ok c) fun u => .error (.unexpectedToken .continuation u q.position), q) := by
  simp only [sentence, hp, h]
  cases q.current <;> rfl

/-- Both calls leave the same parser. -/
theorem run_snd (p : Parser) (call : Call) : (call.run p).2 = p.expression.2 := by
  cases call with
  | expression => rfl
  | sentence =>
      change p.sentence.2 = p.expression.2
      cases hp : p.current with
      | none => rw [expression_of_current_eq_none hp, sentence_of_current_eq_none hp]
      | some t =>
          cases he : p.expression with
          | mk r q =>
              cases r with
              | error e => rw [sentence_of_error hp he]
              | ok c => rw [sentence_of_ok hp he]

theorem Answers.nesting_le {p q : Parser} {r : Except SyntaxError Condition}
    (h : p.Answers r q) : p.nesting ≤ q.nesting := by
  cases h with
  | tree => exact Nat.le_of_eq (inFrontOf_nesting _ _ _).symm
  | refused _ hn =>
      rw [hn]
      exact Nat.le_add_right _ _

theorem nesting_le_afterCalls (p : Parser) (calls : List Call) :
    p.nesting ≤ (p.afterCalls calls).nesting := by
  induction calls generalizing p with
  | nil => exact Nat.le_refl _
  | cons call calls ih =>
      have hstep : p.nesting ≤ (call.run p).2.nesting := by
        rw [run_snd]
        exact p.answers.nesting_le
      exact Nat.le_trans hstep (ih _)

/-- The account of the open parentheses and negations over any calls. A phrase that
is read consumes tokens that derive its tree, which is within the limit, up to a
token that does not carry it on, and leaves the count as it was. A phrase that
is refused adds the parentheses and negations among the lexemes it entered that
were not finished. So the count never decreases, and lowering it behind an
operand never fails. -/
theorem expression_accounts_for_nesting (s : String) (skipped : Nat) (calls : List Call) :
    let p := reached s skipped calls
    (∀ c q, p.expression = (.ok c, q) →
      ∃ read rest, p.pending = read ++ rest ∧ (∃ n, Derives .disjunction (tokens read) c n) ∧
        c.depth ≤ 128 ∧ q = p.moveTo rest ∧ q.current = rest.head?.map (·.token) ∧
        q.current ≠ some .and ∧ q.current ≠ some .or ∧ q.nesting = p.nesting) ∧
    (∀ e q, p.expression = (.error e, q) →
      ∃ entered, p.Refuses entered e q ∧
        q.nesting = p.nesting + unclosed (tokens entered) + unapplied (tokens entered)) ∧
    (∀ more, p.nesting ≤ (p.afterCalls more).nesting) ∧
    (∀ n, 516 ≤ n → p.readPhrase n .disjunction = some p.expression) := by
  intro p
  refine ⟨?_, ?_, p.nesting_le_afterCalls, ?_⟩
  · intro c q h
    cases answers_of_expression h with
    | @tree read rest _ n hp hd hc hx =>
        have hnext : ∀ t, (∀ x ∈ rest.head?, x.token ≠ t) →
            (inFrontOf p.stop p.nesting rest).current ≠ some t := by
          intro t ht hcur
          rw [inFrontOf_current] at hcur
          obtain ⟨x, hxr, hxt⟩ := Option.map_eq_some_iff.1 hcur
          exact ht x hxr hxt
        exact ⟨read, rest, hp, ⟨n, hd⟩, hc, (moveTo_eq p rest).symm, inFrontOf_current _ _ _,
          hnext .and fun x hxr => (hx x hxr).1, hnext .or fun x hxr => (hx x hxr).2,
          inFrontOf_nesting _ _ _⟩
  · intro e q h
    cases answers_of_expression h with
    | @refused entered _ _ hr hn => exact ⟨entered, hr, hn.trans (Nat.add_assoc _ _ _).symm⟩
  · intro n hn
    refine p.readPhrase_eq_expression (Nat.le_trans ?_ hn)
    unfold depthLimit
    omega

theorem expression_accounts_after_unclosed :
    reached "(a b" 0 [.expression] = ⟨some (.identifier "b"), 3, [], 4, 1⟩ ∧
      (∃ entered, (reached "(a b" 0 []).Refuses entered
          (.unexpectedToken .closing (.identifier "b") 3) ⟨some (.identifier "b"), 3, [], 4, 1⟩ ∧
        1 = 0 + unclosed (tokens entered) + unapplied (tokens entered)) ∧
      ∃ read rest, (reached "(a b" 0 [.expression]).pending = read ++ rest ∧
        ∃ n, Derives .disjunction (tokens read) (.reference "b") n := by
  have hfail : (reached "(a b" 0 []).expression =
      (.error (.unexpectedToken .closing (.identifier "b") 3),
        ⟨some (.identifier "b"), 3, [], 4, 1⟩) := by decide
  have hread : (reached "(a b" 0 [.expression]).expression =
      (.ok (.reference "b"), ⟨none, 4, [], 4, 1⟩) := by decide
  obtain ⟨read, rest, hp, hd, -⟩ :=
    (expression_accounts_for_nesting "(a b" 0 [.expression]).1 _ _ hread
  exact ⟨by decide, (expression_accounts_for_nesting "(a b" 0 []).2.1 _ _ hfail,
    read, rest, hp, hd⟩

end Parser

end QueryFilter.Binding
