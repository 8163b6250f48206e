import QueryFilter.Binding.Parser
import QueryFilter.Proofs.Binding.Limits

/-!
# Reading by descent

`Parser.readPhrase n k p` reads a phrase of kind `k` by descent: a phrase reads
the phrases it is made of, and `n` bounds how many such readings are under way
at once. The count of open parentheses and negations is carried by the parser.
It is raised in front of a parenthesis or negation and lowered behind its
operand, so lowering it could fail in principle; then, and when `n` is used up,
the reading has no result.

Neither ever happens (`Parser.readPhrase_eq_expression`): a reading by descent
gives what `Parser.expression` gives, result and parser alike. `Simulates` says
what a reading by descent and a run over the levels have in common. If a phrase
is read, the run goes on behind it with the tree of the phrase as its operand,
and if it is refused, so is the run. The statement is carried through the four
kinds of phrases by induction on `n`.
-/

namespace QueryFilter.Binding

/-- The result of a reading and the parser after it, `none` if the reading cannot
go on. -/
abbrev Reading := Option (Except SyntaxError Condition × Parser)

/-- Goes on behind a tree that was read. -/
def Reading.andThen (r : Reading) (f : Condition → Parser → Reading) : Reading :=
  match r with
  | none => none
  | some (.error e, p) => some (.error e, p)
  | some (.ok c, p) => f c p

namespace Parser

def advance (p : Parser) : Parser := p.moveTo p.unread

/-- Counts one more parenthesis or negation as open. -/
def raise (p : Parser) : Parser := { p with nesting := p.nesting + 1 }

/-- Counts one parenthesis or negation less as open, if any is. -/
def lower? (p : Parser) : Option Parser :=
  match p.nesting with
  | 0 => none
  | n + 1 => some { p with nesting := n }

def refuse (p : Parser) (expected : Expectation) : Reading :=
  some (.error (.unexpected expected p.current p.position), p)

def refuseDeep (p : Parser) : Reading :=
  some (.error (.tooDeep depthLimit p.position), p)

/-- Accepts a tree that is not too deep. -/
def bounded (p : Parser) (c : Condition) : Reading :=
  if c.depth ≤ depthLimit then some (.ok c, p) else p.refuseDeep

/-- Joins further operands to a tree as long as the operator follows, at most `n`
times. -/
def chain (operator : Token) (join : Condition → Condition → Condition)
    (operand : Parser → Reading) : Nat → Condition → Parser → Reading
  | 0, _, _ => none
  | n + 1, c, p =>
    if p.current = some operator then
      (operand p.advance).andThen fun d q =>
        (q.bounded (join c d)).andThen (chain operator join operand n)
    else some (.ok c, p)

/-- Reads a phrase with at most `n` readings under way at once. The parenthesis
that opens a group is taken out before it is counted. -/
def readPhrase : Nat → Phrase → Parser → Reading
  | 0, _, _ => none
  | n + 1, .disjunction, p =>
    (readPhrase n .conjunction p).andThen fun c q =>
      chain .or .or (readPhrase n .conjunction) (q.pending.length + 1) c q
  | n + 1, .conjunction, p =>
    (readPhrase n .negation p).andThen fun c q =>
      chain .and .and (readPhrase n .negation) (q.pending.length + 1) c q
  | n + 1, .negation, p =>
    if p.current = some .not then
      if p.raise.nesting ≤ depthLimit then
        (readPhrase n .negation p.raise.advance).andThen fun c q =>
          q.lower?.bind fun q => q.bounded (.negate c)
      else p.raise.refuseDeep
    else readPhrase n .atom p
  | n + 1, .atom, p =>
    match p.current with
    | some (.identifier text) => some (.ok (.reference text), p.advance)
    | some .opening =>
      if p.raise.nesting ≤ depthLimit then
        (readPhrase n .disjunction p.raise.advance).andThen fun c q =>
          if q.current = some .closing then q.advance.lower?.map fun q => (.ok c, q)
          else q.refuse .closing
      else { p.raise with current := none }.refuseDeep
    | _ => p.refuse .operand

/-- The parser that stands in front of the given lexemes. -/
def inFrontOf (stop nesting : Nat) : List Lexeme → Parser
  | [] => ⟨none, stop, [], stop, nesting⟩
  | x :: rest => ⟨some x.token, x.start, rest, stop, nesting⟩

/-- The parser at the lexeme `x`, which opens one parenthesis or negation too many.
A parenthesis is used up by then. -/
def tripped (stop nesting : Nat) (x : Lexeme) (rest : List Lexeme) : Parser :=
  ⟨if x.token = .opening then none else some x.token, x.start, rest, stop, nesting⟩

theorem moveTo_eq (p : Parser) (rest : List Lexeme) :
    p.moveTo rest = inFrontOf p.stop p.nesting rest := by
  cases rest <;> rfl

section

variable (stop nesting : Nat) (rest : List Lexeme)

@[simp] theorem inFrontOf_position : (inFrontOf stop nesting rest).position = place stop rest := by
  cases rest <;> rfl

@[simp] theorem inFrontOf_current :
    (inFrontOf stop nesting rest).current = rest.head?.map (·.token) := by
  cases rest <;> rfl

@[simp] theorem inFrontOf_nesting : (inFrontOf stop nesting rest).nesting = nesting := by
  cases rest <;> rfl

@[simp] theorem inFrontOf_stop : (inFrontOf stop nesting rest).stop = stop := by
  cases rest <;> rfl

@[simp] theorem advance_inFrontOf (x : Lexeme) :
    (inFrontOf stop nesting (x :: rest)).advance = inFrontOf stop nesting rest :=
  moveTo_eq _ rest

@[simp] theorem raise_inFrontOf :
    (inFrontOf stop nesting rest).raise = inFrontOf stop (nesting + 1) rest := by
  cases rest <;> rfl

@[simp] theorem lower?_inFrontOf :
    (inFrontOf stop (nesting + 1) rest).lower? = some (inFrontOf stop nesting rest) := by
  cases rest <;> rfl

@[simp] theorem pending_inFrontOf : (inFrontOf stop nesting rest).pending = rest := by
  cases rest <;> rfl

end

/-- A parser that is not at an end stands in front of its pending lexemes. -/
theorem eq_inFrontOf_pending {p : Parser} {t : Token} (h : p.current = some t) :
    p = inFrontOf p.stop p.nesting p.pending := by
  obtain ⟨current, position, unread, stop, nesting⟩ := p
  obtain rfl : current = some t := h
  rfl

end Parser

/-- The result of a run and the parser it leaves, when `used` parentheses and
negations counted as open before it. -/
def Outcome.result (used stop : Nat) : Outcome → Except SyntaxError Condition × Parser
  | .accepted c rest => (.ok c, .inFrontOf stop used rest)
  | .rejected e opened rest => (.error e, .inFrontOf stop (used + opened) rest)
  | .overflowed x opened rest =>
    (.error (.tooDeep depthLimit x.start), .tripped stop (used + opened + 1) x rest)

theorem Parser.expression_eq {p : Parser} {t : Token} (h : p.current = some t) :
    p.expression = (run p.nesting p.stop {} p.pending).result p.nesting p.stop := by
  simp only [Parser.expression, Parser.pending, h]
  cases run p.nesting p.stop {} (⟨t, p.position⟩ :: p.unread) with
  | accepted c rest => simp [Outcome.result, Parser.moveTo_eq]
  | rejected e opened rest =>
      simp only [Outcome.result, Parser.moveTo_eq]
      cases rest <;> rfl
  | overflowed x opened rest => rfl

/-! ## Runs behind a complete operand -/

theorem State.afterOperand_ne_overflow (s : State) (a : Condition) (x : Lexeme) :
    s.afterOperand a x ≠ .overflow := by
  unfold State.afterOperand
  grind

section

variable (used stop : Nat) {l l' : Level} {c c' : Condition} (es : List Level)

theorem run_cons_congr {x : Lexeme}
    (h : State.afterOperand ⟨l, es, some c⟩ c x = State.afterOperand ⟨l', es, some c'⟩ c' x)
    (rest : List Lexeme) :
    run used stop ⟨l, es, some c⟩ (x :: rest) = run used stop ⟨l', es, some c'⟩ (x :: rest) := by
  have hne := State.afterOperand_ne_overflow ⟨l', es, some c'⟩ c' x
  simp only [run, State.step, h]
  cases hs : State.afterOperand ⟨l', es, some c'⟩ c' x with
  | shift q => rfl
  | accept d => rfl
  | reject e n => rfl
  | overflow => exact absurd hs hne

/-- Of the level and the operand, a run uses the conjunction they make. -/
theorem run_congr_conjunction (hc : l.conjunction c = l'.conjunction c')
    (hd : l.disjunct = l'.disjunct) (rest : List Lexeme) :
    run used stop ⟨l, es, some c⟩ rest = run used stop ⟨l', es, some c'⟩ rest := by
  have hj : l.disjunction = l'.disjunction := by
    funext b
    rw [Level.disjunction, Level.disjunction, hd]
  cases rest with
  | nil => simp only [run, State.finish, hc, hj]
  | cons x rest =>
      apply run_cons_congr
      simp only [State.afterOperand, hc, hj, hd]

/-- Where no `&` follows, a run uses the disjunction that the level and the operand
make. -/
theorem run_congr_disjunction
    (hc : l.conjunction c >>= l.disjunction = l'.conjunction c' >>= l'.disjunction)
    {rest : List Lexeme} (hx : ∀ x ∈ rest.head?, x.token ≠ .and) :
    run used stop ⟨l, es, some c⟩ rest = run used stop ⟨l', es, some c'⟩ rest := by
  cases rest with
  | nil => simp only [run, State.finish, hc]
  | cons x rest =>
      have hne := hx x rfl
      apply run_cons_congr
      simp only [State.afterOperand_of_ne_and _ _ hne, hc]

theorem run_of_deep_conjunction {n : Nat} (hc : l.conjunction c = .error n) (rest : List Lexeme) :
    run used stop ⟨l, es, some c⟩ rest =
      .rejected (.tooDeep depthLimit (place stop rest)) (n + openAround es) rest := by
  cases rest with
  | nil => simp [run, State.finish, hc, place, bind, Except.bind]
  | cons x rest => simp [run, State.step, State.afterOperand, hc, place]

theorem run_of_deep_disjunction {n : Nat}
    (hc : l.conjunction c >>= l.disjunction = .error n) {rest : List Lexeme}
    (hx : ∀ x ∈ rest.head?, x.token ≠ .and) :
    run used stop ⟨l, es, some c⟩ rest =
      .rejected (.tooDeep depthLimit (place stop rest)) (n + openAround es) rest := by
  cases rest with
  | nil => simp [run, State.finish, hc, place]
  | cons x rest =>
      have hne := hx x rfl
      simp [run, State.step, State.afterOperand_of_ne_and _ _ hne, hc, place]

end

/-! ## One kind of phrase after the other -/

/-- The operators that carry a phrase of a given kind on. -/
def Phrase.operators : Phrase → List Token
  | .disjunction => [.and, .or]
  | .conjunction => [.and]
  | .negation => []
  | .atom => []

/-- How many readings fewer a phrase of a given kind needs than a disjunction. -/
def Phrase.saved : Phrase → Nat
  | .disjunction => 0
  | .conjunction => 1
  | .negation => 2
  | .atom => 3

theorem Phrase.saved_le (k : Phrase) : k.saved ≤ 3 := by
  cases k <;> simp [Phrase.saved]

/-- What a reading has in common with a run that ends with the outcome `o`: if it
read a phrase, the run goes on behind it, in the level `l` within `es`, with the
tree of the phrase as operand; the count is back where it was, and no operator
follows that the phrase would have taken. If it refused one, so did the run. -/
inductive Simulates (used stop : Nat) (k : Phrase) (l : Level) (es : List Level) (o : Outcome)
    (bound : Nat) : Reading → Prop
  | read {c : Condition} {rest : List Lexeme} :
      c.depth ≤ depthLimit → rest.length < bound →
      (∀ x ∈ rest.head?, x.token ∉ k.operators) →
      o = run used stop ⟨l, es, some c⟩ rest →
      Simulates used stop k l es o bound
        (some (.ok c, .inFrontOf stop (used + State.opened ⟨l, es, none⟩) rest))
  | refused {e : SyntaxError} {q : Parser} :
      o.result used stop = (.error e, q) →
      Simulates used stop k l es o bound (some (.error e, q))

section

variable {used stop : Nat} {k k' : Phrase} {l l' : Level} {es es' : List Level} {o : Outcome}
  {bound bound' : Nat}

theorem Simulates.andThen {r : Reading} {f : Condition → Parser → Reading}
    (h : Simulates used stop k l es o bound r)
    (hf : ∀ c rest, c.depth ≤ depthLimit → rest.length < bound →
      (∀ x ∈ rest.head?, x.token ∉ k.operators) →
      o = run used stop ⟨l, es, some c⟩ rest →
      Simulates used stop k' l' es' o bound'
        (f c (.inFrontOf stop (used + State.opened ⟨l, es, none⟩) rest))) :
    Simulates used stop k' l' es' o bound' (r.andThen f) := by
  cases h with
  | read hc hr hx ho => exact hf _ _ hc hr hx ho
  | refused hq => exact .refused hq

theorem Simulates.negation {r : Reading} (h : Simulates used stop .atom l es o bound r) :
    Simulates used stop .negation l es o bound r := by
  cases h with
  | read hc hr hx ho => exact .read hc hr hx ho
  | refused hq => exact .refused hq

/-- A tree within the limit replaces what the run has of it, and one beyond the
limit ends the run. -/
theorem Simulates.bounded {m : Nat} {c : Condition} {rest : List Lexeme}
    (hm : m = used + State.opened ⟨l, es, none⟩) (hr : rest.length < bound)
    (hx : ∀ x ∈ rest.head?, x.token ∉ k.operators)
    (hok : c.depth ≤ depthLimit → o = run used stop ⟨l, es, some c⟩ rest)
    (hdeep : ¬ c.depth ≤ depthLimit →
      o = .rejected (.tooDeep depthLimit (place stop rest)) (State.opened ⟨l, es, none⟩) rest) :
    Simulates used stop k l es o bound ((Parser.inFrontOf stop m rest).bounded c) := by
  subst hm
  unfold Parser.bounded
  by_cases hc : c.depth ≤ depthLimit
  · rw [if_pos hc]
    exact .read hc hr hx (hok hc)
  · rw [if_neg hc]
    refine .refused ?_
    rw [hdeep hc, Parser.inFrontOf_position]
    rfl

end

/-- What a run does at an operator between phrases of the kind `inner`: with the
left operand `c` it goes on in the level `right c`, and a right operand takes it
back to the level `l`, unless the two together are too deep. -/
structure Chains (used stop : Nat) (k inner : Phrase) (operator : Token)
    (join : Condition → Condition → Condition) (l : Level) (right : Condition → Level)
    (es : List Level) : Prop where
  opened : ∀ c, State.opened ⟨right c, es, none⟩ = State.opened ⟨l, es, none⟩
  shift : ∀ {c x} rest, c.depth ≤ depthLimit → x.token = operator →
    run used stop ⟨l, es, some c⟩ (x :: rest) = run used stop ⟨right c, es, none⟩ rest
  joined : ∀ {c d rest}, d.depth ≤ depthLimit → (∀ x ∈ rest.head?, x.token ∉ inner.operators) →
    (join c d).depth ≤ depthLimit →
    run used stop ⟨right c, es, some d⟩ rest = run used stop ⟨l, es, some (join c d)⟩ rest
  deep : ∀ {c d rest}, d.depth ≤ depthLimit → (∀ x ∈ rest.head?, x.token ∉ inner.operators) →
    ¬ (join c d).depth ≤ depthLimit →
    run used stop ⟨right c, es, some d⟩ rest =
      .rejected (.tooDeep depthLimit (place stop rest)) (State.opened ⟨l, es, none⟩) rest
  operators : ∀ t, t ≠ operator → t ∉ inner.operators → t ∉ k.operators

theorem Chains.simulates {used stop : Nat} {k inner : Phrase} {operator : Token}
    {join : Condition → Condition → Condition} {l : Level} {right : Condition → Level}
    {es : List Level} (h : Chains used stop k inner operator join l right es)
    {operand : Parser → Reading}
    (hop : ∀ c rest, Simulates used stop inner (right c) es
      (run used stop ⟨right c, es, none⟩ rest) rest.length
      (operand (.inFrontOf stop (used + State.opened ⟨l, es, none⟩) rest)))
    {o : Outcome} {bound : Nat} (n : Nat) {c : Condition} {rest : List Lexeme}
    (hc : c.depth ≤ depthLimit) (hr : rest.length < bound)
    (hx : ∀ x ∈ rest.head?, x.token ∉ inner.operators)
    (ho : o = run used stop ⟨l, es, some c⟩ rest) (hn : rest.length < n) :
    Simulates used stop k l es o bound
      (Parser.chain operator join operand n c
        (.inFrontOf stop (used + State.opened ⟨l, es, none⟩) rest)) := by
  induction n generalizing c rest with
  | zero => exact absurd hn (Nat.not_lt_zero _)
  | succ n ih =>
      unfold Parser.chain
      by_cases hcur : (Parser.inFrontOf stop (used + State.opened ⟨l, es, none⟩) rest).current =
          some operator
      · rw [if_pos hcur]
        cases rest with
        | nil => exact absurd hcur (by simp)
        | cons x rest =>
            have ht : x.token = operator := by simpa using hcur
            rw [h.shift rest hc ht] at ho
            subst ho
            rw [List.length_cons] at hr hn
            rw [Parser.advance_inFrontOf]
            refine (hop c rest).andThen ?_
            intro d rest' hd hr' hx' ho'
            rw [h.opened]
            -- The two operands are joined first, and the chain goes on behind them.
            have hjoin := Simulates.bounded rfl hr' hx'
              (fun hj => ho'.trans (h.joined hd hx' hj)) (fun hj => ho'.trans (h.deep hd hx' hj))
            refine hjoin.andThen ?_
            intro c' rest'' hc' hr'' hx'' ho''
            exact ih hc' (by omega) hx'' ho'' (by omega)
      · rw [if_neg hcur]
        refine .read hc hr ?_ ho
        intro x hxr
        refine h.operators x.token ?_ (hx x hxr)
        intro ht
        apply hcur
        rw [Parser.inFrontOf_current, hxr, Option.map_some, ht]

theorem chains_and (used stop : Nat) {l : Level} (hl : Phrase.conjunction.Ready l)
    (es : List Level) :
    Chains used stop .conjunction .negation .and .and l
      (fun c => { l with conjunct := some c }) es := by
  obtain ⟨disjunct, conjunct, negations⟩ := l
  obtain ⟨rfl, rfl⟩ : conjunct = none ∧ negations = 0 := hl
  have hone (c : Condition) : Level.conjunction ⟨disjunct, none, 0⟩ c = .ok c := rfl
  have htwo (c : Condition) {d : Condition} (hd : d.depth ≤ depthLimit) :
      Level.conjunction ⟨disjunct, some c, 0⟩ d =
        if (Condition.and c d).depth ≤ depthLimit then .ok (.and c d) else .error 0 := by
    have hzero : d.depth + 0 - depthLimit - 1 = 0 := by omega
    rw [Level.conjunction_eq _ hd, hzero]
    rfl
  refine ⟨fun c => rfl, ?_, ?_, ?_, ?_⟩
  · intro c x rest _ hx
    simp only [run, State.step, State.afterOperand, hone, hx, if_true]
  · intro c d rest hd _ hj
    have hok : Level.conjunction ⟨disjunct, some c, 0⟩ d =
        Level.conjunction ⟨disjunct, none, 0⟩ (.and c d) := by
      rw [htwo c hd, if_pos hj, hone]
    exact run_congr_conjunction used stop es hok rfl rest
  · intro c d rest hd _ hj
    have herr : Level.conjunction ⟨disjunct, some c, 0⟩ d = .error 0 := by
      rw [htwo c hd, if_neg hj]
    exact run_of_deep_conjunction used stop es herr rest
  · intro t ht _
    simpa [Phrase.operators] using ht

/-- In a level where nothing waits an operand is already the whole tree. -/
theorem completion_empty (c : Condition) :
    Level.conjunction {} c >>= Level.disjunction {} = .ok c := rfl

theorem chains_or (used stop : Nat) (es : List Level) :
    Chains used stop .disjunction .conjunction .or .or {}
      (fun c => { disjunct := some c }) es := by
  have htwo (c : Condition) {d : Condition} (hd : d.depth ≤ depthLimit) :
      Level.conjunction { disjunct := some c } d >>= Level.disjunction { disjunct := some c } =
        if (Condition.or c d).depth ≤ depthLimit then .ok (.or c d) else .error 0 := by
    have hzero : d.depth + 0 - depthLimit - 1 = 0 := by omega
    rw [Level.completion_eq _ hd, hzero]
    rfl
  refine ⟨fun c => rfl, ?_, ?_, ?_, ?_⟩
  · intro c x rest _ hx
    have hne : x.token ≠ .and := by simp [hx]
    simp only [run, State.step, State.afterOperand_of_ne_and _ _ hne, completion_empty, hx, if_true]
  · intro c d rest hd hx hj
    have hok : Level.conjunction { disjunct := some c } d >>=
          Level.disjunction { disjunct := some c } =
        Level.conjunction {} (.or c d) >>= Level.disjunction {} := by
      rw [htwo c hd, if_pos hj, completion_empty]
    exact run_congr_disjunction used stop es hok (by simpa [Phrase.operators] using hx)
  · intro c d rest hd hx hj
    have herr : Level.conjunction { disjunct := some c } d >>=
        Level.disjunction { disjunct := some c } = .error 0 := by
      rw [htwo c hd, if_neg hj]
    exact run_of_deep_disjunction used stop es herr (by simpa [Phrase.operators] using hx)
  · intro t ht hi
    simpa [Phrase.operators, ht] using hi

/-- With enough readings left, every phrase of the kind `k` is read as a run reads
it, in whatever level it begins. An atom is read only where no `!` stands. -/
def Agrees (used stop n : Nat) (k : Phrase) : Prop :=
  ∀ (l : Level) (es : List Level) (ls : List Lexeme), k.Ready l →
    (k = .atom → ∀ x ∈ ls.head?, x.token ≠ .not) →
    4 * (depthLimit - (used + State.opened ⟨l, es, none⟩) + 1) ≤ n + k.saved →
    Simulates used stop k l es (run used stop ⟨l, es, none⟩ ls) ls.length
      (Parser.readPhrase n k (.inFrontOf stop (used + State.opened ⟨l, es, none⟩) ls))

section

variable {used stop n : Nat}

theorem Agrees.disjunction (h : Agrees used stop n .conjunction) :
    Agrees used stop (n + 1) .disjunction := by
  intro l es ls hl _ hn
  obtain rfl : l = {} := hl
  simp only [Phrase.saved] at hn
  have hfirst := h {} es ls ⟨rfl, rfl⟩ (by simp) (by simp only [Phrase.saved]; omega)
  rw [Parser.readPhrase]
  refine hfirst.andThen ?_
  intro c rest hc hr hx ho
  refine (chains_or used stop es).simulates ?_ _ hc hr hx ho (by simp)
  intro c rest
  exact h { disjunct := some c } es rest ⟨rfl, rfl⟩ (by simp) hn

theorem Agrees.conjunction (h : Agrees used stop n .negation) :
    Agrees used stop (n + 1) .conjunction := by
  intro l es ls hl _ hn
  simp only [Phrase.saved] at hn
  have hfirst := h l es ls trivial (by simp) (by simp only [Phrase.saved]; omega)
  rw [Parser.readPhrase]
  refine hfirst.andThen ?_
  intro c rest hc hr hx ho
  refine (chains_and used stop hl es).simulates ?_ _ hc hr hx ho (by simp)
  intro c rest
  exact h { l with conjunct := some c } es rest trivial (by simp) hn

/-- A negation that waits is applied to the operand, unless that gets too deep. -/
theorem run_negate (used stop : Nat) (l : Level) (es : List Level) (c : Condition)
    (rest : List Lexeme) :
    run used stop ⟨{ l with negations := l.negations + 1 }, es, some c⟩ rest =
      if (Condition.negate c).depth ≤ depthLimit then run used stop ⟨l, es, some (.negate c)⟩ rest
      else
        .rejected (.tooDeep depthLimit (place stop rest)) (State.opened ⟨l, es, none⟩) rest := by
  by_cases hc : (Condition.negate c).depth ≤ depthLimit
  · rw [if_pos hc]
    have hok : Level.conjunction { l with negations := l.negations + 1 } c =
        l.conjunction (.negate c) := by
      simp only [Level.conjunction, negateTimes, withinLimit?, if_pos hc]
    exact run_congr_conjunction used stop es hok rfl rest
  · rw [if_neg hc]
    have herr : Level.conjunction { l with negations := l.negations + 1 } c =
        .error l.negations := by
      simp only [Level.conjunction, negateTimes, withinLimit?, if_neg hc]
      rfl
    exact run_of_deep_conjunction used stop es herr rest

theorem opened_opening (l : Level) (es : List Level) :
    State.opened ⟨{}, l :: es, none⟩ = State.opened ⟨l, es, none⟩ + 1 := by
  simp only [State.opened, openAround_cons]
  omega

theorem opened_not (l : Level) (es : List Level) :
    State.opened ⟨{ l with negations := l.negations + 1 }, es, none⟩ =
      State.opened ⟨l, es, none⟩ + 1 := by
  simp only [State.opened]
  omega

theorem Agrees.negation (h : Agrees used stop n .negation) (ha : Agrees used stop n .atom) :
    Agrees used stop (n + 1) .negation := by
  intro l es ls _ _ hn
  simp only [Phrase.saved] at hn
  rw [Parser.readPhrase]
  by_cases hcur : (Parser.inFrontOf stop (used + State.opened ⟨l, es, none⟩) ls).current = some .not
  · rw [if_pos hcur]
    cases ls with
    | nil => exact absurd hcur (by simp)
    | cons x ls =>
        have ht : x.token = .not := by simpa using hcur
        rw [Parser.raise_inFrontOf, Parser.inFrontOf_nesting, Parser.advance_inFrontOf]
        by_cases hm : used + State.opened ⟨l, es, none⟩ + 1 ≤ depthLimit
        · have hshift : run used stop ⟨l, es, none⟩ (x :: ls) =
              run used stop ⟨{ l with negations := l.negations + 1 }, es, none⟩ ls := by
            simp only [run, State.step, State.beforeOperand, ht, if_pos (Nat.lt_of_succ_le hm)]
          have hinner := h { l with negations := l.negations + 1 } es ls trivial
            (by simp) (by simp only [Phrase.saved, opened_not]; omega)
          rw [if_pos hm, hshift]
          rw [opened_not, ← Nat.add_assoc] at hinner
          refine hinner.andThen ?_
          intro c rest hc hr hx ho
          rw [opened_not, ← Nat.add_assoc, Parser.lower?_inFrontOf, Option.bind_some]
          rw [run_negate] at ho
          refine Simulates.bounded rfl (Nat.lt_succ_of_lt hr) hx ?_ ?_
          · intro hj
            rw [ho, if_pos hj]
          · intro hj
            rw [ho, if_neg hj]
        · rw [if_neg hm]
          refine .refused ?_
          have hlt : ¬ used + State.opened ⟨l, es, none⟩ < depthLimit := by omega
          simp [run, State.step, State.beforeOperand, ht, hlt, Outcome.result,
            Parser.inFrontOf, Parser.tripped]
  · rw [if_neg hcur]
    refine (ha l es ls trivial ?_ hn).negation
    intro _ x hx ht
    apply hcur
    rw [Parser.inFrontOf_current, hx, Option.map_some, ht]

/-- Behind a complete phrase in parentheses only a `)` is taken. -/
theorem Simulates.group {l : Level} {es : List Level} {c : Condition} {rest : List Lexeme}
    {bound : Nat} (hc : c.depth ≤ depthLimit) (hr : rest.length < bound)
    (hx : ∀ x ∈ rest.head?, x.token ∉ Phrase.disjunction.operators) :
    Simulates used stop .atom l es (run used stop ⟨{}, l :: es, some c⟩ rest) bound
      (if (Parser.inFrontOf stop (used + State.opened ⟨l, es, none⟩ + 1) rest).current =
          some .closing then
        (Parser.inFrontOf stop (used + State.opened ⟨l, es, none⟩ + 1) rest).advance.lower?.map
          fun q => (.ok c, q)
      else
        (Parser.inFrontOf stop (used + State.opened ⟨l, es, none⟩ + 1) rest).refuse .closing) := by
  have hopen : used + State.opened ⟨l, es, none⟩ + 1 = used + openAround (l :: es) := by
    simp only [State.opened, openAround_cons]
    omega
  by_cases hcur : rest.head?.map (·.token) = some .closing
  · obtain ⟨x, hxr, ht⟩ := Option.map_eq_some_iff.1 hcur
    obtain ⟨rest, rfl⟩ : ∃ rest', rest = x :: rest' := List.head?_eq_some_iff.1 hxr
    rw [Parser.inFrontOf_current, if_pos hcur, Parser.advance_inFrontOf, Parser.lower?_inFrontOf]
    have hne : x.token ≠ .and := by simp [ht]
    have hshift : run used stop ⟨{}, l :: es, some c⟩ (x :: rest) =
        run used stop ⟨l, es, some c⟩ rest := by
      simp only [run, State.step, State.afterOperand_of_ne_and _ _ hne, completion_empty, ht]
      rfl
    exact .read hc (Nat.lt_of_succ_lt hr) (by simp [Phrase.operators]) hshift
  · rw [Parser.inFrontOf_current, if_neg hcur, hopen]
    refine .refused ?_
    cases rest with
    | nil => rfl
    | cons x rest =>
        have hops : x.token ≠ .and ∧ x.token ≠ .or := by
          simpa [Phrase.operators] using hx x rfl
        have hcl : x.token ≠ .closing := by simpa using hcur
        simp only [run, State.step, State.afterOperand_of_ne_and _ _ hops.1, completion_empty,
          if_neg hops.2, if_neg hcl]
        rfl

theorem Agrees.atom (h : Agrees used stop n .disjunction) : Agrees used stop (n + 1) .atom := by
  intro l es ls _ hnot hn
  simp only [Phrase.saved] at hn
  rw [Parser.readPhrase]
  cases ls with
  | nil => exact .refused rfl
  | cons x ls =>
      obtain ⟨t, i⟩ := x
      cases t with
      | identifier text =>
          exact .read (depth_reference_le text) (Nat.lt_succ_self _) (by simp [Phrase.operators]) rfl
      | and => exact .refused rfl
      | or => exact .refused rfl
      | not => exact absurd rfl (hnot rfl _ rfl)
      | closing => exact .refused rfl
      | opening =>
          change Simulates _ _ _ _ _ _ _ (if _ then _ else _)
          rw [Parser.raise_inFrontOf, Parser.inFrontOf_nesting, Parser.advance_inFrontOf]
          by_cases hm : used + State.opened ⟨l, es, none⟩ + 1 ≤ depthLimit
          · have hshift : run used stop ⟨l, es, none⟩ (⟨.opening, i⟩ :: ls) =
                run used stop ⟨{}, l :: es, none⟩ ls := by
              simp only [run, State.step, State.beforeOperand, if_pos (Nat.lt_of_succ_le hm)]
            have hinner := h {} (l :: es) ls rfl (by simp)
              (by simp only [Phrase.saved, opened_opening]; omega)
            rw [if_pos hm, hshift]
            rw [opened_opening, ← Nat.add_assoc] at hinner
            refine hinner.andThen ?_
            intro c rest hc hr hx ho
            rw [opened_opening, ← Nat.add_assoc, ho]
            exact Simulates.group hc (Nat.lt_succ_of_lt hr) hx
          · rw [if_neg hm]
            refine .refused ?_
            have hlt : ¬ used + State.opened ⟨l, es, none⟩ < depthLimit := by omega
            simp [run, State.step, State.beforeOperand, hlt, Outcome.result, Parser.inFrontOf,
              Parser.tripped]

end

theorem agrees (used stop n : Nat) (k : Phrase) : Agrees used stop n k := by
  induction n generalizing k with
  | zero =>
      intro l es ls _ _ hn
      have hk := k.saved_le
      omega
  | succ n ih =>
      cases k with
      | disjunction => exact (ih .conjunction).disjunction
      | conjunction => exact (ih .negation).conjunction
      | negation => exact (ih .negation).negation (ih .atom)
      | atom => exact (ih .disjunction).atom

/-- Where a phrase is complete and no operator follows, a run at the outermost level
ends with it. -/
theorem run_complete (used stop : Nat) {c : Condition} {rest : List Lexeme}
    (hx : ∀ x ∈ rest.head?, x.token ∉ Phrase.disjunction.operators) :
    run used stop ⟨{}, [], some c⟩ rest = .accepted c rest := by
  cases rest with
  | nil => rfl
  | cons x rest =>
      have hops : x.token ≠ .and ∧ x.token ≠ .or := by simpa [Phrase.operators] using hx x rfl
      simp only [run, State.step, State.afterOperand_of_ne_and _ _ hops.1, completion_empty,
        if_neg hops.2]

/-- With four readings for each parenthesis or negation that may still be opened, and
four more, a descent never gets stuck, and gives what the run over the levels
gives. -/
theorem Parser.readPhrase_eq_expression (p : Parser) {n : Nat}
    (hn : 4 * (depthLimit - p.nesting + 1) ≤ n) :
    p.readPhrase n .disjunction = some p.expression := by
  cases hcur : p.current with
  | none =>
      obtain ⟨m, rfl⟩ : ∃ m, n = m + 4 := ⟨n - 4, by omega⟩
      simp [readPhrase, expression, hcur, refuse, Reading.andThen]
  | some t =>
      have hs := agrees p.nesting p.stop n .disjunction {} [] p.pending rfl (by simp) hn
      have hp : inFrontOf p.stop (p.nesting + State.opened ⟨{}, [], none⟩) p.pending = p :=
        (eq_inFrontOf_pending hcur).symm
      rw [hp] at hs
      rw [expression_eq hcur]
      generalize p.readPhrase n .disjunction = r at hs ⊢
      cases hs with
      | read _ _ hx ho =>
          rw [ho, run_complete p.nesting p.stop hx]
          rfl
      | refused hq => rw [hq]

end QueryFilter.Binding
