import QueryFilter.Proofs.Binding.Calls

/-!
# Reports of an end

`emptyInput` and `unexpectedEnd` say that a text has ended. A parser that stands
in front of some of its lexemes (`Parser.Stands`) says so only when there are
none left, and after most calls it stands in front of lexemes again. The
exception is a parenthesis that is one too many: it is used up before it is
counted, and the parser keeps the position of the parenthesis without a token.
From then on every call reports an end there, whatever follows.

The main statement is that there is no third possibility: a report of an end is
true, or an earlier call gave up at a parenthesis.
-/

namespace QueryFilter.Binding

/-- The refusals that report an end. -/
def SyntaxError.reportsEnd : SyntaxError → Bool
  | .emptyInput => true
  | .unexpectedEnd _ _ => true
  | .unexpectedToken _ _ _ => false
  | .tooDeep _ _ => false

/-- The refusal that a call gives at an end. -/
def Call.atEnd (position : Nat) : Call → SyntaxError
  | .sentence => .emptyInput
  | .expression => .unexpectedEnd .operand position

namespace Parser

/-- The parser stands in front of the last lexemes of the text. -/
def Stands (s : String) (p : Parser) : Prop :=
  ∃ read rest nesting, lexemes s.toList = read ++ rest ∧ p = inFrontOf s.length nesting rest

/-- Nothing is left of the text. -/
structure Exhausted (s : String) (p : Parser) : Prop where
  current : p.current = none
  unread : p.unread = []
  position : p.position = s.length

/-- A call on `p` gives up at the parenthesis `x` of the text and leaves `q` without
a token, in front of what follows the parenthesis. -/
structure GivesUp (s : String) (call : Call) (p : Parser) (x : Lexeme) (q : Parser) : Prop where
  opening : x.token = .opening
  result : call.run p = (.error (.tooDeep depthLimit x.start), q)
  current : q.current = none
  position : q.position = x.start
  unread : ∃ read, lexemes s.toList = read ++ x :: q.unread

/-! ## Where a parser stands -/

theorem stands_ofReader (s : String) (skipped : Nat) :
    Stands s (ofReader ((Reader.ofText s).skip skipped)) := by
  refine ⟨(lexemes s.toList).take skipped, (lexemes s.toList).drop skipped, 0,
    (List.take_append_drop _ _).symm, ?_⟩
  rw [← String.length_toList]
  cases h : (lexemes s.toList).drop skipped <;>
    simp [ofReader, Reader.skip, Reader.ofText, Reader.token?, Reader.position, inFrontOf, h]

theorem Stands.of_append {s : String} {p : Parser} (hp : p.Stands s) {read rest : List Lexeme}
    (h : p.pending = read ++ rest) :
    (∃ before, lexemes s.toList = before ++ rest) ∧ p.stop = s.length := by
  obtain ⟨before, rest', nesting, he, rfl⟩ := hp
  rw [pending_inFrontOf] at h
  refine ⟨⟨before ++ read, ?_⟩, inFrontOf_stop _ _ _⟩
  rw [he, h, List.append_assoc]

theorem Stands.inFrontOf {s : String} {p : Parser} (hp : p.Stands s) {read rest : List Lexeme}
    (h : p.pending = read ++ rest) (nesting : Nat) :
    Stands s (.inFrontOf p.stop nesting rest) := by
  obtain ⟨⟨before, hb⟩, hstop⟩ := hp.of_append h
  exact ⟨before, rest, nesting, hb, by rw [hstop]⟩

theorem Stands.exhausted {s : String} {p : Parser} (hp : p.Stands s) (h : p.current = none) :
    p.Exhausted s := by
  obtain ⟨read, rest, nesting, -, rfl⟩ := hp
  cases rest with
  | nil => exact ⟨rfl, rfl, rfl⟩
  | cons x rest => cases h

theorem run_of_current_eq_none {p : Parser} (h : p.current = none) (call : Call) :
    call.run p = (.error (call.atEnd p.position), p) := by
  cases call with
  | sentence => exact sentence_of_current_eq_none h
  | expression => exact expression_of_current_eq_none h

theorem run_of_error {p q : Parser} {t : Token} {e : SyntaxError} (hp : p.current = some t)
    (h : p.expression = (.error e, q)) (call : Call) : call.run p = (.error e, q) := by
  cases call with
  | sentence => exact sentence_of_error hp h
  | expression => exact h

/-- A call leaves the parser in front of lexemes, or it gives up at a parenthesis. -/
theorem Stands.run {s : String} {p : Parser} (hp : p.Stands s) (call : Call) :
    (call.run p).2.Stands s ∨ ∃ x, GivesUp s call p x (call.run p).2 := by
  obtain ⟨r, q, he⟩ : ∃ r q, p.expression = (r, q) := ⟨_, _, rfl⟩
  have hq : (call.run p).2 = q := by rw [run_snd, he]
  rw [hq]
  cases answers_of_expression he with
  | tree hpend => exact .inl (hp.inFrontOf hpend _)
  | refused hr _ =>
      cases hr with
      | ended => exact .inl hp
      | unexpected _ hpend => exact .inl (hp.inFrontOf hpend _)
      | deep hpend => exact .inl (hp.inFrontOf hpend _)
      | @tripped read rest x nesting hpend _ hx =>
          obtain ⟨⟨before, hb⟩, hstop⟩ := hp.of_append hpend
          rcases hx with hx | hx
          · obtain ⟨t, ht⟩ : ∃ t, p.current = some t := by
              refine Option.ne_none_iff_exists'.1 fun hnone => ?_
              simp [pending, hnone] at hpend
            exact .inr ⟨x, hx, run_of_error ht he call, if_pos hx, rfl, before, hb⟩
          · refine .inl ⟨before, x :: rest, nesting, hb, ?_⟩
            simp [tripped, Parser.inFrontOf, hx, hstop]

theorem run_of_givesUp {s : String} {p q : Parser} {x : Lexeme} {first : Call}
    (h : GivesUp s first p x q) (call : Call) :
    call.run q = (.error (call.atEnd x.start), q) := by
  rw [run_of_current_eq_none h.current, h.position]

theorem afterCalls_of_givesUp {s : String} {p q : Parser} {x : Lexeme} {first : Call}
    (h : GivesUp s first p x q) (calls : List Call) : q.afterCalls calls = q := by
  induction calls with
  | nil => rfl
  | cons call calls ih => rw [afterCalls_cons, run_of_givesUp h, ih]

/-- After any calls the parser stands in front of lexemes, unless one of the calls
gave up at a parenthesis. -/
theorem Stands.afterCalls {s : String} {p : Parser} (hp : p.Stands s) (calls : List Call) :
    (p.afterCalls calls).Stands s ∨
      ∃ earlier first later x, calls = earlier ++ first :: later ∧
        GivesUp s first (p.afterCalls earlier) x (p.afterCalls calls) := by
  induction calls generalizing p with
  | nil => exact .inl hp
  | cons call calls ih =>
      rw [afterCalls_cons]
      rcases hp.run call with hq | ⟨x, hx⟩
      · rcases ih hq with hs | ⟨earlier, first, later, x, rfl, hx⟩
        · exact .inl hs
        · exact .inr ⟨call :: earlier, first, later, x, rfl, hx⟩
      · rw [afterCalls_of_givesUp hx]
        exact .inr ⟨[], call, calls, x, rfl, hx⟩

theorem stands_reached (s : String) (skipped : Nat) (calls : List Call) :
    (reached s skipped calls).Stands s ∨
      ∃ earlier first later x, calls = earlier ++ first :: later ∧
        GivesUp s first (reached s skipped earlier) x (reached s skipped calls) :=
  (stands_ofReader s skipped).afterCalls calls

theorem reached_of_givesUp {s : String} {skipped : Nat} {earlier : List Call} {first : Call}
    {x : Lexeme} {q : Parser} (h : GivesUp s first (reached s skipped earlier) x q)
    (later : List Call) : reached s skipped (earlier ++ first :: later) = q := by
  have hfirst : (first.run (reached s skipped earlier)).2 = q := by rw [h.result]
  rw [← afterCalls_of_givesUp h later, ← hfirst]
  exact List.foldl_append

/-! ## What a call reports -/

theorem Stands.exhausted_of_refuses {s : String} {p q : Parser} {entered : List Lexeme}
    {e : SyntaxError} (hp : p.Stands s) (h : p.Refuses entered e q) (he : e.reportsEnd = true) :
    q.Exhausted s ∧ ∀ x i, e = .unexpectedEnd x i → i = s.length := by
  cases h with
  | ended hcur =>
      have hq := hp.exhausted hcur
      refine ⟨hq, ?_⟩
      rintro x i ⟨⟩
      exact hq.position
  | @unexpected _ rest nesting expected hpend _ =>
      cases rest with
      | nil =>
          have hq := (hp.inFrontOf hpend nesting).exhausted rfl
          refine ⟨hq, ?_⟩
          rintro x i ⟨⟩
          exact hq.position
      | cons x rest => cases he
  | deep => cases he
  | tripped => cases he

/-- In front of lexemes, an end is reported only where it is. -/
theorem Stands.exhausted_of_reportsEnd {s : String} {p q : Parser} {call : Call} {e : SyntaxError}
    (hp : p.Stands s) (h : call.run p = (.error e, q)) (he : e.reportsEnd = true) :
    q.Exhausted s ∧ ∀ x i, e = .unexpectedEnd x i → i = s.length := by
  obtain ⟨r, q', hr⟩ : ∃ r q', p.expression = (r, q') := ⟨_, _, rfl⟩
  cases hcur : p.current with
  | none =>
      rw [run_of_current_eq_none hcur] at h
      cases h
      have hq := hp.exhausted hcur
      refine ⟨hq, ?_⟩
      intro x i hx
      cases call with
      | sentence => cases hx
      | expression =>
          cases hx
          exact hq.position
  | some t =>
      cases r with
      | error e' =>
          rw [run_of_error hcur hr] at h
          cases h
          cases answers_of_expression hr with
          | refused hs _ => exact hp.exhausted_of_refuses hs he
      | ok c =>
          -- What follows a phrase is a token, or there is nothing to refuse.
          cases call with
          | expression => cases hr.symm.trans h
          | sentence =>
              have hs := (sentence_of_ok hcur hr).symm.trans h
              cases hq : q'.current with
              | none => simp [hq] at hs
              | some u =>
                  obtain ⟨rfl, -⟩ : .unexpectedToken .continuation u q'.position = e ∧ q' = q := by
                    simpa [hq] using hs
                  cases he

/-- A report of an end is true, and names the length of the text where it names a
position, unless an earlier call gave up at a parenthesis; it then names the
position of that parenthesis. Once a call gave up, all others report an end
there. -/
theorem end_reported_at_end_or_after_giving_up (s : String) (skipped : Nat) (calls : List Call)
    (call : Call) :
    let p := reached s skipped calls
    (∀ e q, call.run p = (.error e, q) → e.reportsEnd = true →
      (q.Exhausted s ∧ ∀ y i, e = .unexpectedEnd y i → i = s.length) ∨
      ∃ earlier first later x, calls = earlier ++ first :: later ∧
        GivesUp s first (reached s skipped earlier) x p ∧ q = p ∧ e = call.atEnd x.start) ∧
    (∀ earlier first later x q, calls = earlier ++ first :: later →
      GivesUp s first (reached s skipped earlier) x q →
      p = q ∧ call.run p = (.error (call.atEnd x.start), p)) := by
  intro p
  constructor
  · intro e q h he
    rcases stands_reached s skipped calls with hs | ⟨earlier, first, later, x, hc, hx⟩
    · exact .inl (hs.exhausted_of_reportsEnd h he)
    · cases (run_of_givesUp hx call).symm.trans h
      exact .inr ⟨earlier, first, later, x, hc, hx, rfl, rfl⟩
  · rintro earlier first later x q rfl hx
    have hq : p = q := reached_of_givesUp hx later
    rw [hq]
    exact ⟨rfl, run_of_givesUp hx call⟩

/-- One parenthesis more than the limit allows, and a word behind them. -/
def crowded : String := String.ofList (List.replicate 129 '(' ++ ['a'])

theorem toList_crowded : crowded.toList = List.replicate 129 '(' ++ ['a'] :=
  String.toList_ofList

theorem givesUp_crowded :
    GivesUp crowded .sentence (reached crowded 0 []) ⟨.opening, 128⟩
      ⟨none, 128, [⟨.identifier "a", 129⟩], 130, 129⟩ := by
  refine ⟨rfl, ?_, rfl, rfl, (List.range 128).map (⟨.opening, ·⟩), ?_⟩
  · rw [reached, Reader.ofText, toList_crowded]
    decide +kernel
  · rw [toList_crowded]
    decide +kernel

theorem end_reported_once_crowded :
    Call.expression.run (reached crowded 0 [.sentence]) =
        (.error (.unexpectedEnd .operand 128), reached crowded 0 [.sentence]) ∧
      Call.expression.run (reached "!(a" 0 []) =
        (.error (.unexpectedEnd .closing 3), ⟨none, 3, [], 3, 2⟩) ∧
      Exhausted "!(a" ⟨none, 3, [], 3, 2⟩ := by
  have hstuck := (end_reported_at_end_or_after_giving_up crowded 0 [.sentence] .expression).2
    [] .sentence [] _ _ rfl givesUp_crowded
  have hend : Call.expression.run (reached "!(a" 0 []) =
      (.error (.unexpectedEnd .closing 3), ⟨none, 3, [], 3, 2⟩) := by decide
  refine ⟨hstuck.2, hend, ?_⟩
  rcases (end_reported_at_end_or_after_giving_up "!(a" 0 [] .expression).1 _ _ hend rfl with
    ⟨hq, -⟩ | ⟨earlier, first, later, x, hc, -⟩
  · exact hq
  · cases earlier <;> cases hc

/-- Reports of an end in front of a word that is still to be read. -/
theorem end_reported_in_front_of_word :
    (reached crowded 0 [.sentence]).unread = [⟨.identifier "a", 129⟩] ∧
      (Call.sentence.run (reached crowded 0 [.sentence])).1 = .error .emptyInput ∧
      (Call.expression.run (reached crowded 0 [.sentence])).1 =
        .error (.unexpectedEnd .operand 128) ∧
      crowded.length = 130 := by
  have hreached : reached crowded 0 [.sentence] =
      ⟨none, 128, [⟨.identifier "a", 129⟩], 130, 129⟩ := reached_of_givesUp givesUp_crowded []
  have hlength : crowded.length = 130 := by
    rw [← String.length_toList, toList_crowded]
    rfl
  rw [hreached]
  exact ⟨rfl, rfl, rfl, hlength⟩

end Parser

end QueryFilter.Binding
