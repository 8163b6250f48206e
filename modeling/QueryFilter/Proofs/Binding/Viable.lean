import Mathlib.Data.List.Basic
import QueryFilter.Binding.Error
import QueryFilter.Proofs.Binding.Transition

/-!
# Tokens that can be continued

`Viable ts` says that the tokens `ts` can be extended to a sentence. They can as
soon as every single one of them could be read (`viable_iff_follow`): from any
state, an identifier where an operand is due and a `)` for each open
parenthesis complete a sentence. So the first token that cannot be read is the
first one after which no continuation is a sentence.

What may stand next depends on the tokens through two things only, whether an
operand is due and how many parentheses are open. Both are read off the tokens
without the states (`OperandDue`, `openGroups`).
-/

namespace QueryFilter.Binding

/-- The tokens can be extended to a sentence. -/
def Viable (ts : List Token) : Prop := ∃ us, Sentence (ts ++ us)

/-- An operand is due at the beginning, after an operator and after a `(`. -/
def OperandDue (ts : List Token) : Prop :=
  ∀ t ∈ ts.getLast?, t ∈ [Token.and, .or, .not, .opening]

/-- How many parentheses are open after the tokens. -/
def openGroups (ts : List Token) : Nat := ts.count .opening - ts.count .closing

def State.expectation : State → Expectation
  | ⟨_, _, none⟩ => .operand
  | ⟨_, [], some _⟩ => .continuation
  | ⟨_, _ :: _, some _⟩ => .closing

theorem State.follow_closings (l : Level) (es : List Level) (a : Condition) :
    ∃ l' a', State.follow ⟨l, es, some a⟩ (List.replicate es.length .closing) =
      some ⟨l', [], some a'⟩ := by
  induction es generalizing l a with
  | nil => exact ⟨l, a, rfl⟩
  | cons outer es ih =>
      obtain ⟨l', a', h⟩ := ih outer (l.tree a)
      have hn : State.next? ⟨l, outer :: es, some a⟩ .closing = some ⟨outer, es, some (l.tree a)⟩ :=
        rfl
      refine ⟨l', a', ?_⟩
      rw [List.length_cons, List.replicate_succ, State.follow_cons_of_next? hn, h]

theorem State.exists_follow_complete (s : State) :
    ∃ us l a, s.follow us = some ⟨l, [], some a⟩ := by
  obtain ⟨l, es, o⟩ := s
  cases o with
  | none =>
      obtain ⟨l', a', h⟩ := State.follow_closings l es (.reference "x")
      have hn : State.next? ⟨l, es, none⟩ (.identifier "x") = some ⟨l, es, some (.reference "x")⟩ :=
        rfl
      exact ⟨_, l', a', (State.follow_cons_of_next? hn _).trans h⟩
  | some a =>
      obtain ⟨l', a', h⟩ := State.follow_closings l es a
      exact ⟨_, l', a', h⟩

/-- The tokens that can be continued are those that can be read. -/
theorem viable_iff_follow (ts : List Token) :
    Viable ts ↔ ∃ s, State.follow {} ts = some s := by
  constructor
  · rintro ⟨us, c, n, h⟩
    obtain ⟨l, a, hf, -, -⟩ := (derives_iff_follow _ c n).1 h
    rw [State.follow_append] at hf
    obtain ⟨s, hs, -⟩ := Option.bind_eq_some_iff.1 hf
    exact ⟨s, hs⟩
  · rintro ⟨s, hs⟩
    obtain ⟨us, l, a, hu⟩ := s.exists_follow_complete
    have hf := (State.follow_append_of_follow hs us).trans hu
    exact ⟨us, l.tree a, _, (derives_iff_follow _ _ _).2 ⟨l, a, hf, rfl, rfl⟩⟩

theorem not_viable_of_next?_eq_none {s : State} {ts : List Token} {t : Token}
    (h : State.follow {} ts = some s) (hn : s.next? t = none) : ¬ Viable (ts ++ [t]) := by
  intro hv
  obtain ⟨q, hq⟩ := (viable_iff_follow _).1 hv
  rw [State.follow_append_of_follow h, State.follow_cons, hn] at hq
  exact absurd hq (by simp)

theorem not_sentence_of_follow {s : State} {ts : List Token} (h : State.follow {} ts = some s)
    (he : s.expectation ≠ .continuation) : ¬ Sentence ts := by
  rintro ⟨c, n, hd⟩
  obtain ⟨l, a, hf, -, -⟩ := (derives_iff_follow ts c n).1 hd
  obtain rfl := Option.some.inj (h.symm.trans hf)
  exact he rfl

theorem State.operand_eq_none_iff {s : State} {ts : List Token} (h : State.follow {} ts = some s) :
    s.operand = none ↔ OperandDue ts := by
  refine State.follow_rec (motive := fun q us => q.operand = none ↔ OperandDue us) h []
    (by simp [OperandDue]) ?_
  intro q q' t us _ hn
  cases hn <;> simp [OperandDue]

theorem State.length_enclosing {s : State} {ts : List Token} (h : State.follow {} ts = some s) :
    s.enclosing.length + ts.count .closing = ts.count .opening := by
  refine State.follow_rec
    (motive := fun q us => q.enclosing.length + us.count .closing = us.count .opening) h [] rfl ?_
  intro q q' t us hq hn
  cases hn <;> simp [List.count_append] at hq ⊢ <;> omega

/-- What may stand next, read off the tokens. -/
theorem State.expectation_iff {s : State} {ts : List Token} (h : State.follow {} ts = some s) :
    (s.expectation = .operand ↔ OperandDue ts) ∧
      (s.expectation = .closing ↔ ¬ OperandDue ts ∧ 0 < openGroups ts) ∧
      (s.expectation = .continuation ↔ ¬ OperandDue ts ∧ openGroups ts = 0) := by
  have hd := State.operand_eq_none_iff h
  have hg : s.enclosing.length = openGroups ts := by
    have := State.length_enclosing h
    unfold openGroups
    omega
  rw [← hd, ← hg]
  obtain ⟨l, es, o⟩ := s
  cases o with
  | none => simp [State.expectation]
  | some a => cases es <;> simp [State.expectation]

end QueryFilter.Binding
