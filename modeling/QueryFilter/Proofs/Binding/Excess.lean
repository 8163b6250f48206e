import QueryFilter.Proofs.Binding.Acceptance

/-!
# Where a binding gets too deep

A binding is refused as too deep at the first token or at the end where a limit is
exceeded, and no syntax error lies before that place. Either the token there is a `(`
or `!` in front of which as many are open as the limit allows, or the tokens before it
end with a phrase whose tree is too deep by one level.

Which `(` and `!` are open is read off the tokens by `openMarks`, without the states of
a reading. A tree is too deep by exactly one level because it is built from trees that
were within the limit, one level at a time: negation by negation from the innermost
one, then by the `&`, then by the `|` that wait in its level
(`Level.Holds.exists_exceeds`).
-/

namespace QueryFilter

namespace Condition

/-- The trees below the root. -/
def parts : Condition → List Condition
  | .parameter _ => []
  | .and l r => l :: l.parts ++ r :: r.parts
  | .or l r => l :: l.parts ++ r :: r.parts
  | .negate c => c :: c.parts

theorem depth_lt_of_mem_parts {c d : Condition} (h : d ∈ c.parts) : d.depth < c.depth := by
  induction c with
  | parameter p => exact absurd h (by simp [parts])
  | and l r ihl ihr =>
      simp only [parts, List.cons_append, List.mem_cons, List.mem_append] at h
      rw [depth]
      rcases h with rfl | h | rfl | h
      · omega
      · have := ihl h
        omega
      · omega
      · have := ihr h
        omega
  | or l r ihl ihr =>
      simp only [parts, List.cons_append, List.mem_cons, List.mem_append] at h
      rw [depth]
      rcases h with rfl | h | rfl | h
      · omega
      · have := ihl h
        omega
      · omega
      · have := ihr h
        omega
  | negate c ih =>
      rw [depth]
      rcases List.mem_cons.1 h with rfl | h
      · exact Nat.lt_succ_self _
      · exact Nat.lt_succ_of_lt (ih h)

end Condition

namespace Binding

/-! ## Open parentheses and negations -/

/-- The `(` and `!` that are open after a further token. A complete operand ends the `!`
in front of it, and a `)` the innermost `(`, which makes the group a complete operand. -/
def marksAfter (ms : List Token) : Token → List Token
  | .opening => .opening :: ms
  | .not => .not :: ms
  | .identifier _ => ms.dropWhile (· = .not)
  | .closing => ms.tail.dropWhile (· = .not)
  | .and => ms
  | .or => ms

/-- The `(` and `!` that are open after the tokens, the innermost first. -/
def openMarks (ts : List Token) : List Token := ts.foldl marksAfter []

theorem openMarks_append_singleton (ts : List Token) (t : Token) :
    openMarks (ts ++ [t]) = marksAfter (openMarks ts) t := by
  rw [openMarks, List.foldl_append]
  rfl

/-- The marks that the levels around a phrase keep open. -/
def marksAround : List Level → List Token
  | [] => []
  | l :: ls => .opening :: (List.replicate l.negations .not ++ marksAround ls)

def State.marks : State → List Token
  | ⟨l, es, none⟩ => List.replicate l.negations .not ++ marksAround es
  | ⟨_, es, some _⟩ => marksAround es

theorem length_marksAround (ls : List Level) : (marksAround ls).length = openAround ls := by
  induction ls with
  | nil => rfl
  | cons l ls ih =>
      rw [marksAround, List.length_cons, List.length_append, List.length_replicate, ih,
        openAround_cons, Nat.add_right_comm]

theorem State.length_marks_due (l : Level) (es : List Level) :
    (State.marks ⟨l, es, none⟩).length = State.opened ⟨l, es, none⟩ := by
  rw [State.marks, List.length_append, List.length_replicate, length_marksAround]
  rfl

/-- A complete operand ends the negations in front of it, up to the nearest parenthesis. -/
theorem dropWhile_replicate_not (n : Nat) (ls : List Level) :
    (List.replicate n Token.not ++ marksAround ls).dropWhile (· = .not) = marksAround ls := by
  induction n with
  | zero => cases ls <;> simp [marksAround]
  | succ n ih => simpa [List.replicate_succ] using ih

theorem State.Next.marks {s s' : State} {t : Token} (h : s.Next t s') :
    s'.marks = marksAfter s.marks t := by
  cases h with
  | identifier l es text => exact (dropWhile_replicate_not l.negations es).symm
  | opening l es => rfl
  | not l es => rfl
  | and l es c => rfl
  | or l es c => rfl
  | closing l outer es c => exact (dropWhile_replicate_not outer.negations es).symm

theorem openMarks_eq {s : State} {ts : List Token} (h : State.follow {} ts = some s) :
    openMarks ts = s.marks := by
  refine State.follow_rec (motive := fun q us => openMarks us = q.marks) h [] rfl ?_
  intro q q' t us hq hn
  rw [openMarks_append_singleton, hq, hn.marks]

theorem length_openMarks {l : Level} {es : List Level} {ts : List Token}
    (h : State.follow {} ts = some ⟨l, es, none⟩) :
    (openMarks ts).length = State.opened ⟨l, es, none⟩ := by
  rw [openMarks_eq h, State.length_marks_due]

example : openMarks [.not, .opening, .not, .identifier "a", .and, .not, .not] =
    [.not, .not, .opening, .not] := by decide

/-! ## Trees that are too deep by one level -/

/-- The tokens are a phrase, no mere atom, whose tree exceeds the limit by one level, while
the trees below its root are within the limit. -/
def Exceeds (ts : List Token) : Prop :=
  ∃ k c n, k ≠ Phrase.atom ∧ Derives k ts c n ∧ c.depth = depthLimit + 1 ∧
    ∀ d ∈ c.parts, d.depth ≤ depthLimit

theorem Derives.exceeds {k : Phrase} {ts : List Token} {c : Condition} {n : Nat}
    (h : Derives k ts c n) (hk : k ≠ .atom) (hc : c.depth = depthLimit + 1) : Exceeds ts := by
  refine ⟨k, c, n, hk, h, hc, ?_⟩
  intro d hd
  have := Condition.depth_lt_of_mem_parts hd
  omega

/-- Of the negations in front of an atom, the innermost ones that exceed the limit do so by
one level. -/
theorem Derives.exists_exceeds_negations {os : List Token} {a : Condition} {n : Nat}
    (ha : Derives .atom os a n) (had : a.depth ≤ depthLimit) {k : Nat}
    (hk : depthLimit < a.depth + k) :
    ∃ front back, List.replicate k .not ++ os = front ++ back ∧ Exceeds back := by
  have hsplit : List.replicate k Token.not =
      List.replicate (a.depth + k - (depthLimit + 1)) .not ++
        List.replicate (depthLimit + 1 - a.depth) .not := by
    rw [List.replicate_append_replicate]
    congr 1
    omega
  refine ⟨List.replicate (a.depth + k - (depthLimit + 1)) .not,
    List.replicate (depthLimit + 1 - a.depth) .not ++ os, ?_, ?_⟩
  · rw [hsplit, List.append_assoc]
  · refine (ha.atom.negations _).exceeds (by simp) ?_
    rw [Condition.depth_iterate_negate]
    omega

theorem Level.Holds.exists_exceeds_conjoin {l : Level} {us os : List Token} {a : Condition}
    {n : Nat} (hu : l.Holds us) (ha : Derives .atom os a n) (hw : l.weight ≤ depthLimit)
    (hn : a.depth + l.negations ≤ depthLimit) (hc : depthLimit < (l.conjoin a).depth) :
    ∃ front back, us ++ os = front ++ back ∧ Exceeds back := by
  obtain ⟨ds, cs, -, hcs, rfl⟩ := hu
  have hneg := ha.atom.negations l.negations
  have hdepth := Condition.depth_iterate_negate l.negations a
  unfold Level.conjoin at hc
  unfold Level.weight at hw
  cases hl : l.conjunct with
  | none =>
      simp only [hl] at hc
      omega
  | some b =>
      rw [hl] at hcs
      simp only [hl, Condition.depth] at hc
      simp only [hl, depthOf_some] at hw
      obtain ⟨vs, m, hb, rfl⟩ := hcs
      refine ⟨ds, _, ?_, (hb.and hneg).exceeds (by simp) ?_⟩
      · simp
      · rw [Condition.depth]
        omega

theorem Level.Holds.exceeds_tree {l : Level} {us os : List Token} {a : Condition} {n : Nat}
    (hu : l.Holds us) (ha : Derives .atom os a n) (hw : l.weight ≤ depthLimit)
    (hc : (l.conjoin a).depth ≤ depthLimit) (ht : depthLimit < (l.tree a).depth) :
    Exceeds (us ++ os) := by
  obtain ⟨m, hm⟩ := hu.tree ha
  refine hm.exceeds (by simp) ?_
  unfold Level.weight at hw
  unfold Level.tree Level.disjoin at ht ⊢
  cases hl : l.disjunct with
  | none =>
      simp only [hl] at ht
      omega
  | some b =>
      simp only [hl, depthOf_some] at hw
      simp only [hl, Condition.depth] at ht ⊢
      omega

/-- What a level makes of an operand exceeds the limit first by one level, in its
negations, its conjunction or its disjunction. -/
theorem Level.Holds.exists_exceeds {l : Level} {us os : List Token} {a : Condition} {n : Nat}
    (hu : l.Holds us) (ha : Derives .atom os a n) (hw : l.weight ≤ depthLimit)
    (had : a.depth ≤ depthLimit) (ht : depthLimit < (l.tree a).depth) :
    ∃ front back, us ++ os = front ++ back ∧ Exceeds back := by
  by_cases hn : depthLimit < a.depth + l.negations
  · obtain ⟨ds, cs, -, -, rfl⟩ := hu
    obtain ⟨front, back, he, hback⟩ := ha.exists_exceeds_negations had hn
    refine ⟨ds ++ cs ++ front, back, ?_, hback⟩
    rw [List.append_assoc, he, List.append_assoc (ds ++ cs)]
  · by_cases hc : depthLimit < (l.conjoin a).depth
    · exact hu.exists_exceeds_conjoin ha hw (Nat.le_of_not_lt hn) hc
    · exact ⟨[], us ++ os, rfl, hu.exceeds_tree ha hw (Nat.le_of_not_lt hc) ht⟩

theorem State.exists_exceeds {l : Level} {es : List Level} {a : Condition} {ts : List Token}
    (h : State.follow {} ts = some ⟨l, es, some a⟩)
    (hw : State.weight ⟨l, es, some a⟩ ≤ depthLimit) (ht : depthLimit < (l.tree a).depth) :
    ∃ front back, ts = front ++ back ∧ Exceeds back := by
  obtain ⟨fs, us, os, -, hu, ⟨n, ha⟩, rfl⟩ := State.holds_of_follow h
  have had := State.depth_operand_le hw
  simp only [State.weight] at hw
  have hl : l.weight ≤ depthLimit := by omega
  obtain ⟨front, back, he, hback⟩ := hu.exists_exceeds ha hl had ht
  refine ⟨fs ++ front, back, ?_, hback⟩
  rw [List.append_assoc, he, List.append_assoc]

/-! ## The place of the refusal -/

theorem spelling_of_lexemes_eq {s : String} {before rest : List Lexeme}
    (h : lexemes s.toList = before ++ rest) :
    ∀ x ∈ rest.head?, x.token.spelling <+: s.toList.drop x.start := by
  intro x hx
  have hmem : x ∈ lexemes s.toList := by
    rw [h]
    exact List.mem_append_right _ (List.mem_of_head? hx)
  exact ((laid_lexemes s.toList).spelling_isPrefix hmem).2

/-- A binding that is refused as too deep is refused at one of its tokens or at its end, and
the tokens before that place can be continued to a sentence. Either the token there is a `(`
or `!` where an operand is due with 128 of them open, or the tokens before it end with a
negation, conjunction or disjunction whose tree is exactly 129 deep, while the trees below
its root are at most 128 deep. -/
theorem parse_refuses_excess (s : String) (limit position : Nat)
    (h : parse s = .error (.tooDeep limit position)) :
    limit = 128 ∧
    ∃ before rest, lexemes s.toList = before ++ rest ∧
      position = (rest.head?.map (·.start)).getD s.length ∧
      (∀ x ∈ rest.head?, x.token.spelling <+: s.toList.drop x.start) ∧
      Viable (tokens before) ∧
      ((∃ x ∈ rest.head?, (x.token = .opening ∨ x.token = .not) ∧ OperandDue (tokens before) ∧
          (openMarks (tokens before)).length = 128) ∨
        ∃ front back k c n, tokens before = front ++ back ∧
          k ∈ [Phrase.negation, .conjunction, .disjunction] ∧ Derives k back c n ∧
          c.depth = 129 ∧ ∀ d ∈ c.parts, d.depth ≤ 128) := by
  have hp := parses s
  rw [h] at hp
  cases hp with
  | nesting before after x l es he hf hx ho =>
      refine ⟨rfl, before, x :: after, he, rfl, spelling_of_lexemes_eq he,
        (viable_iff_follow _).2 ⟨_, hf⟩, .inl ⟨x, rfl, hx, ?_, ?_⟩⟩
      · exact (State.operand_eq_none_iff hf).1 rfl
      · rw [length_openMarks hf, ho]
        rfl
  | depth before rest l es a he hf hw hd =>
      have htree : depthLimit < (l.tree a).depth := by
        have := (l.le_depth_tree a).1
        omega
      obtain ⟨front, back, hsplit, k, c, n, hk, hderives, hdepth, hparts⟩ :=
        State.exists_exceeds hf hw htree
      have hkind : k ∈ [Phrase.negation, .conjunction, .disjunction] := by
        cases k <;> simp at hk ⊢
      refine ⟨rfl, before, rest, he, ?_, spelling_of_lexemes_eq he,
        (viable_iff_follow _).2 ⟨_, hf⟩, .inr ⟨front, back, k, c, n, hsplit, hkind, hderives,
          hdepth, hparts⟩⟩
      rw [← String.length_toList]
      rfl

theorem parse_refuses_excess_negations :
    parse (String.ofList (List.replicate 128 '!' ++ ['a'])) = .error (.tooDeep 128 129) ∧
      ∃ before rest,
        lexemes (String.ofList (List.replicate 128 '!' ++ ['a'])).toList = before ++ rest ∧
        129 = (rest.head?.map (·.start)).getD
          (String.ofList (List.replicate 128 '!' ++ ['a'])).length ∧
        Viable (tokens before) := by
  have refused : parse (String.ofList (List.replicate 128 '!' ++ ['a'])) =
      .error (.tooDeep 128 129) := by
    rw [parse, Reader.ofText, String.toList_ofList]
    decide +kernel
  obtain ⟨-, before, rest, hsplit, hplace, -, hviable, -⟩ := parse_refuses_excess _ _ _ refused
  exact ⟨refused, before, rest, hsplit, hplace, hviable⟩

end Binding

end QueryFilter
