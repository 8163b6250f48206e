import QueryFilter.Proofs.Binding.Partition

/-!
# Blanks between tokens

Offsets only end up in refusals; what is read never depends on them. So a reading of
lexemes that were moved is the same reading with moved offsets, step by step and as a
whole (`run_move`), for any way `f` of moving them.

Blanks that are put into a text move the lexemes behind them and leave the others where
they are, as long as no word is cut in two (`lexemes_insert_blanks`). The two facts
together say how a binding with more blanks is read.
-/

namespace QueryFilter.Binding

/-! ## Moved offsets -/

/-- The same refusal at another offset. -/
def SyntaxError.move (f : Nat → Nat) : SyntaxError → SyntaxError
  | .emptyInput => .emptyInput
  | .unexpectedToken expected found position => .unexpectedToken expected found (f position)
  | .unexpectedEnd expected position => .unexpectedEnd expected (f position)
  | .tooDeep limit position => .tooDeep limit (f position)

def Step.move (f : Nat → Nat) : Step → Step
  | .shift next => .shift next
  | .accept c => .accept c
  | .reject error opened => .reject (error.move f) opened
  | .overflow => .overflow

def Outcome.move (f : Nat → Nat) : Outcome → Outcome
  | .accepted c rest => .accepted c (rest.map (.move f))
  | .rejected error opened rest => .rejected (error.move f) opened (rest.map (.move f))
  | .overflowed l opened rest => .overflowed (l.move f) opened (rest.map (.move f))

section

variable (f : Nat → Nat)

theorem State.beforeOperand_move (used : Nat) (s : State) (x : Lexeme) :
    s.beforeOperand used (x.move f) = (s.beforeOperand used x).move f := by
  obtain ⟨t, i⟩ := x
  have hopen (q : State) :
      (if used + s.opened < depthLimit then Step.shift q else .overflow) =
        Step.move f (if used + s.opened < depthLimit then Step.shift q else .overflow) := by
    split <;> rfl
  cases t with
  | opening => exact hopen _
  | not => exact hopen _
  | identifier text => rfl
  | and => rfl
  | or => rfl
  | closing => rfl

theorem State.afterOperand_move (s : State) (a : Condition) (x : Lexeme) :
    s.afterOperand a (x.move f) = (s.afterOperand a x).move f := by
  obtain ⟨t, i⟩ := x
  change s.afterOperand a ⟨t, f i⟩ = (s.afterOperand a ⟨t, i⟩).move f
  unfold State.afterOperand
  cases s.level.conjunction a with
  | error n => rfl
  | ok c =>
      by_cases hand : t = .and
      · simp [hand, Step.move]
      · simp only [if_neg hand]
        cases s.level.disjunction c with
        | error n => rfl
        | ok d =>
            by_cases hor : t = .or
            · simp [hor, Step.move]
            · simp only [if_neg hor]
              cases s.enclosing with
              | nil => rfl
              | cons outer others =>
                  by_cases hclose : t = .closing
                  · simp [hclose, Step.move]
                  · simp only [if_neg hclose]
                    rfl

theorem State.step_move (used : Nat) (s : State) (x : Lexeme) :
    s.step used (x.move f) = (s.step used x).move f := by
  unfold State.step
  cases s.operand with
  | none => exact s.beforeOperand_move f used x
  | some a => exact s.afterOperand_move f a x

theorem run_nil_move (used stop : Nat) (s : State) :
    run used (f stop) s [] = (run used stop s []).move f := by
  unfold run State.finish
  cases s.operand with
  | none => rfl
  | some a =>
      dsimp only
      cases s.level.conjunction a >>= s.level.disjunction with
      | error n => rfl
      | ok d => cases s.enclosing <;> rfl

/-- Moved lexemes are read alike. -/
theorem run_move (used stop : Nat) (s : State) (ls : List Lexeme) :
    run used (f stop) s (ls.map (.move f)) = (run used stop s ls).move f := by
  induction ls generalizing s with
  | nil => exact run_nil_move f used stop s
  | cons x ls ih =>
      rw [List.map_cons, run, run, s.step_move f used x]
      cases s.step used x with
      | shift next => exact ih next
      | accept c => rfl
      | reject e n => rfl
      | overflow => rfl

theorem Outcome.verdict_move (o : Outcome) : (o.move f).verdict = o.verdict.mapError (.move f) := by
  cases o with
  | accepted c rest => cases rest <;> rfl
  | rejected e n rest => rfl
  | overflowed x n rest => rfl

theorem parse_move {s t : String} (hl : lexemes t.toList = (lexemes s.toList).map (.move f))
    (hstop : t.toList.length = f s.toList.length) : parse t = (parse s).mapError (.move f) := by
  by_cases hs : lexemes s.toList = []
  · have ht : lexemes t.toList = [] := by rw [hl, hs, List.map_nil]
    rw [parse_of_lexemes_eq_nil hs, parse_of_lexemes_eq_nil ht]
    rfl
  · have ht : lexemes t.toList ≠ [] := by rwa [hl, ne_eq, List.map_eq_nil_iff]
    rw [parse_eq_verdict ht, parse_eq_verdict hs, hl, hstop, run_move, Outcome.verdict_move]

end

/-! ## Blanks put into a text -/

/-- Where the offset `p` goes when `k` characters are put in at the offset `n`. -/
def makeRoom (n k p : Nat) : Nat := if p < n then p else p + k

theorem laid_blanks {ws : List Char} (hw : ∀ c ∈ ws, Text.isBlank c = true) (i : Nat) :
    Laid i ws [] := by
  induction ws generalizing i with
  | nil => exact .nil i
  | cons c ws ih =>
      rw [List.forall_mem_cons] at hw
      exact .blank hw.1 (ih hw.2 (i + 1))

/-- No word goes on behind blanks. -/
theorem Apart.append_blanks {us ws vs : List Char} (h : Apart us vs)
    (hw : ∀ c ∈ ws, Text.isBlank c = true) : Apart (us ++ ws) vs := by
  intro c hc d hd hident
  rcases List.eq_nil_or_concat ws with rfl | ⟨ws', b, rfl⟩
  · exact h c (by simpa using hc) d hd hident
  · obtain rfl : b = c := by simpa using hc
    have hb := isIdentifierChar_eq_false_of_isBlank (hw b (by simp))
    exact absurd (hident.symm.trans hb) (by simp)

theorem Laid.map_move_makeRoom_before {us : List Char} {ls : List Lexeme} (h : Laid 0 us ls)
    (k : Nat) : ls.map (.move (makeRoom us.length k)) = ls := by
  conv_rhs => rw [← List.map_id ls]
  apply List.map_congr_left
  intro x hx
  have hlt := Nat.lt_of_lt_of_le (h.start_lt_stop hx) (h.stop_le hx)
  rw [Nat.zero_add] at hlt
  simp [Lexeme.move, makeRoom, hlt]

theorem Laid.map_move_makeRoom_behind {n : Nat} {vs : List Char} {ls : List Lexeme}
    (h : Laid n vs ls) (k : Nat) :
    ls.map (Lexeme.move (makeRoom n k)) = ls.map (Lexeme.move (· + k)) := by
  apply List.map_congr_left
  intro x hx
  have hle := (h.spelling_isPrefix hx).1
  simp [Lexeme.move, makeRoom, Nat.not_lt.2 hle]

/-- Blanks move the lexemes behind them, unless they cut a word in two. -/
theorem lexemes_insert_blanks {us ws vs : List Char} (hw : ∀ c ∈ ws, Text.isBlank c = true)
    (hapart : Apart us vs) :
    lexemes (us ++ ws ++ vs) =
      (lexemes (us ++ vs)).map (.move (makeRoom us.length ws.length)) := by
  have hu := laid_lexemes us
  obtain ⟨ms, hv⟩ : ∃ ms, Laid us.length vs ms := ⟨_, laid_lexemes_add us.length vs⟩
  have huv : lexemes (us ++ vs) = lexemes us ++ ms :=
    (lexemes_eq_iff_laid _ _).2 (hu.append_of_apart hapart (by rwa [Nat.zero_add]))
  -- The blanks add no lexeme of their own.
  have huw : Laid 0 (us ++ ws) (lexemes us ++ []) := by
    refine hu.append ?_ (laid_blanks hw _)
    intro c hc
    exact isIdentifierChar_eq_false_of_isBlank (hw c (List.mem_of_head? hc))
  have hmoved : Laid (0 + (us ++ ws).length) vs (ms.map (.move (· + ws.length))) := by
    rw [Nat.zero_add, List.length_append]
    exact hv.move_add ws.length
  have huwv := (lexemes_eq_iff_laid _ _).2 (huw.append_of_apart (hapart.append_blanks hw) hmoved)
  rw [huwv, huv, List.append_nil, List.map_append, hu.map_move_makeRoom_before,
    hv.map_move_makeRoom_behind]

/-- Blanks that are put into a binding change neither its tree nor the cause of its
refusal, unless they cut a word in two. A refusal in front of them keeps its position, and
one behind them moves by as many characters as were put in. -/
theorem parse_insert_blanks (u w v : String) (hw : ∀ c ∈ w.toList, Text.isBlank c = true)
    (hapart : ¬ ((∃ c ∈ u.toList.getLast?, isIdentifierChar c = true) ∧
      ∃ d ∈ v.toList.head?, isIdentifierChar d = true)) :
    parse (u ++ w ++ v) =
      (parse (u ++ v)).mapError
        (.move fun p => if p < u.length then p else p + w.length) := by
  have hends : Apart u.toList v.toList := by
    intro c hc d hd hident
    by_contra hne
    exact hapart ⟨⟨c, hc, hident⟩, d, hd, by simpa using hne⟩
  have hlexemes := lexemes_insert_blanks hw hends
  rw [String.length_toList, String.length_toList] at hlexemes
  refine parse_move (makeRoom u.length w.length) ?_ ?_
  · rw [String.toList_append, String.toList_append, hlexemes, String.toList_append]
  · simp only [String.toList_append, List.length_append, String.length_toList, makeRoom]
    split <;> omega

theorem parse_insert_blanks_before_word :
    (∀ c ∈ " \t".toList, Text.isBlank c = true) ∧
      ¬ ((∃ c ∈ "(a".toList.getLast?, isIdentifierChar c = true) ∧
        ∃ d ∈ " b".toList.head?, isIdentifierChar d = true) ∧
      parse ("(a" ++ " b") = .error (.unexpectedToken .closing (.identifier "b") 3) ∧
      parse ("(a" ++ " \t" ++ " b") = .error (.unexpectedToken .closing (.identifier "b") 5) := by
  have blank : ∀ c ∈ " \t".toList, Text.isBlank c = true := by simp; decide
  have apart : ¬ ((∃ c ∈ "(a".toList.getLast?, isIdentifierChar c = true) ∧
      ∃ d ∈ " b".toList.head?, isIdentifierChar d = true) := by
    rintro ⟨-, d, hd, hident⟩
    obtain rfl : ' ' = d := by simpa using hd
    exact absurd hident (by decide)
  have refused : parse ("(a" ++ " b") = .error (.unexpectedToken .closing (.identifier "b") 3) := by
    decide
  refine ⟨blank, apart, refused, ?_⟩
  rw [parse_insert_blanks "(a" " \t" " b" blank apart, refused]
  rfl

end QueryFilter.Binding
