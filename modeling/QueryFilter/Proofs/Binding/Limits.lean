import QueryFilter.Proofs.Binding.Layout
import QueryFilter.Proofs.Binding.Viable

/-!
# Reading within the limits

`run` goes through the states of `State.follow` as long as nothing is refused,
and `run_halts` says where and why it ends. Two quantities are carried along.
`State.weight` is the depth of the deepest tree that a state keeps; it never
decreases from one state to the next, so a tree that is too deep can only end up
in a tree that is too deep. `State.peak` counts the parentheses and negations,
and a reading that is not refused keeps both within the limit.
-/

namespace QueryFilter

theorem Condition.depth_iterate_negate (n : Nat) (c : Condition) :
    (Condition.negate^[n] c).depth = c.depth + n := by
  induction n with
  | zero => rfl
  | succ n ih => rw [Function.iterate_succ_apply', Condition.depth, ih, Nat.add_assoc]

namespace Binding

/-! ## The weight of a state -/

def depthOf (o : Option Condition) : Nat := (o.map Condition.depth).getD 0

@[simp] theorem depthOf_none : depthOf none = 0 := rfl

@[simp] theorem depthOf_some (c : Condition) : depthOf (some c) = c.depth := rfl

/-- The depth of the deepest tree that waits in a level. -/
def Level.weight (l : Level) : Nat := max (depthOf l.disjunct) (depthOf l.conjunct)

/-- The depth of the deepest tree that waits in the levels around a phrase. -/
def weightAround : List Level → Nat
  | [] => 0
  | l :: ls => max l.weight (weightAround ls)

/-- The depth of the deepest tree that a state keeps. -/
def State.weight (s : State) : Nat :=
  max (max s.level.weight (depthOf s.operand)) (weightAround s.enclosing)

theorem Level.le_depth_conjoin (l : Level) (c : Condition) :
    c.depth + l.negations ≤ (l.conjoin c).depth ∧ depthOf l.conjunct ≤ (l.conjoin c).depth := by
  unfold Level.conjoin
  cases l.conjunct with
  | none => simp [Condition.depth_iterate_negate]
  | some b =>
      simp only [depthOf_some, Condition.depth, Condition.depth_iterate_negate]
      omega

theorem Level.le_depth_tree (l : Level) (c : Condition) :
    (l.conjoin c).depth ≤ (l.tree c).depth ∧ depthOf l.disjunct ≤ (l.tree c).depth := by
  unfold Level.tree Level.disjoin
  cases l.disjunct with
  | none => simp
  | some b =>
      simp only [depthOf_some, Condition.depth]
      omega

/-- No transition loses a tree, except into a deeper one. -/
theorem State.Next.weight_le {s s' : State} {t : Token} (h : s.Next t s') :
    s.weight ≤ s'.weight := by
  cases h with
  | identifier l es text =>
      simp only [State.weight, depthOf_none, depthOf_some]
      omega
  | opening l es => simp [State.weight, Level.weight, weightAround]
  | not l es => exact Nat.le_refl _
  | and l es c =>
      have h₁ := l.le_depth_conjoin c
      simp only [State.weight, Level.weight, depthOf_none, depthOf_some]
      omega
  | or l es c =>
      have h₁ := l.le_depth_conjoin c
      have h₂ := l.le_depth_tree c
      simp only [State.weight, Level.weight, depthOf_none, depthOf_some]
      omega
  | closing l outer es c =>
      have h₁ := l.le_depth_conjoin c
      have h₂ := l.le_depth_tree c
      simp only [State.weight, Level.weight, weightAround, depthOf_some]
      omega

theorem State.weight_le_of_follow {s s' : State} {ts : List Token} (h : s.follow ts = some s') :
    s.weight ≤ s'.weight :=
  State.follow_rec (motive := fun q _ => s.weight ≤ q.weight) h [] (Nat.le_refl _)
    fun hq hn => Nat.le_trans hq hn.weight_le

theorem State.depth_le_weight_next {l : Level} {es : List Level} {a : Condition} {t : Token}
    {s : State} (h : State.Next ⟨l, es, some a⟩ t s) :
    (l.conjoin a).depth ≤ s.weight ∧ (t ≠ .and → (l.tree a).depth ≤ s.weight) := by
  have hc := (l.le_depth_tree a).1
  cases h with
  | and =>
      refine ⟨?_, fun ht => absurd rfl ht⟩
      simp only [State.weight, Level.weight, depthOf_some]
      omega
  | or =>
      simp only [State.weight, Level.weight, depthOf_some]
      omega
  | closing =>
      simp only [State.weight, depthOf_some]
      omega

/-! ## The checks on the depth -/

theorem depth_reference_le (text : String) : (Condition.reference text).depth ≤ depthLimit := by
  change 1 ≤ 128
  omega

theorem negateTimes_eq (n : Nat) {c : Condition} (hc : c.depth ≤ depthLimit) :
    negateTimes n c =
      if c.depth + n ≤ depthLimit then .ok (Condition.negate^[n] c)
      else .error (c.depth + n - depthLimit - 1) := by
  induction n generalizing c with
  | zero => simp [negateTimes, hc]
  | succ n ih =>
      have hd : (Condition.negate c).depth = c.depth + 1 := rfl
      unfold negateTimes withinLimit?
      by_cases h : c.depth + 1 ≤ depthLimit
      · have hn : (Condition.negate c).depth + n = c.depth + (n + 1) := by omega
        rw [if_pos (hd ▸ h)]
        simp only [ih (hd ▸ h), hn, Function.iterate_succ_apply]
      · rw [if_neg (hd ▸ h), if_neg (by omega)]
        simp only [Except.error.injEq]
        omega

theorem Level.conjunction_eq (l : Level) {c : Condition} (hc : c.depth ≤ depthLimit) :
    l.conjunction c =
      if (l.conjoin c).depth ≤ depthLimit then .ok (l.conjoin c)
      else .error (c.depth + l.negations - depthLimit - 1) := by
  unfold Level.conjunction Level.conjoin
  rw [negateTimes_eq l.negations hc]
  have hd := Condition.depth_iterate_negate l.negations c
  by_cases hn : c.depth + l.negations ≤ depthLimit
  · rw [if_pos hn]
    cases l.conjunct with
    | none => simp [joinLeft?, bind, Except.bind, hd, hn]
    | some b =>
        have hz : c.depth + l.negations - depthLimit - 1 = 0 := by omega
        by_cases hb : (Condition.and b (Condition.negate^[l.negations] c)).depth ≤ depthLimit
        · simp [joinLeft?, withinLimit?, bind, Except.bind, hb]
        · simp [joinLeft?, withinLimit?, bind, Except.bind, hb, hz]
  · have hj : ¬ (l.conjoin c).depth ≤ depthLimit := by
      have := (l.le_depth_conjoin c).1
      omega
    unfold Level.conjoin at hj
    rw [if_neg hn, if_neg hj]
    rfl

theorem Level.disjunction_eq (l : Level) {c : Condition} (hc : c.depth ≤ depthLimit) :
    l.disjunction c =
      if (l.disjoin c).depth ≤ depthLimit then .ok (l.disjoin c) else .error 0 := by
  unfold Level.disjunction Level.disjoin
  cases l.disjunct with
  | none => simp [joinLeft?, hc]
  | some b =>
      by_cases hb : (Condition.or b c).depth ≤ depthLimit
      · simp [joinLeft?, withinLimit?, hb]
      · simp [joinLeft?, withinLimit?, hb]

theorem Level.completion_eq (l : Level) {c : Condition} (hc : c.depth ≤ depthLimit) :
    l.conjunction c >>= l.disjunction =
      if (l.tree c).depth ≤ depthLimit then .ok (l.tree c)
      else .error (c.depth + l.negations - depthLimit - 1) := by
  have hle := (l.le_depth_tree c).1
  rw [l.conjunction_eq hc]
  by_cases h : (l.conjoin c).depth ≤ depthLimit
  · have hz : c.depth + l.negations - depthLimit - 1 = 0 := by
      have := (l.le_depth_conjoin c).1
      omega
    rw [if_pos h, hz]
    exact l.disjunction_eq h
  · have ht : ¬ (l.tree c).depth ≤ depthLimit := by omega
    rw [if_neg h, if_neg ht]
    rfl

/-! ## Where a reading ends -/

/-- The offset at which the next lexeme stands, or at which the text ends. -/
def place (stop : Nat) (rest : List Lexeme) : Nat := (rest.head?.map (·.start)).getD stop

/-- How many parentheses are not closed and how many negations have no complete
operand. -/
def State.pending : State → Nat
  | ⟨l, es, none⟩ => l.negations + openAround es
  | ⟨_, es, some _⟩ => openAround es

/-- How a reading ends in a state in front of the lexemes `rest`. -/
inductive Halts (used stop : Nat) : State → List Lexeme → Outcome → Prop
  /-- The tree is complete and within the limit, and the next token does not
  carry it on. -/
  | accepted (l : Level) (a : Condition) (rest : List Lexeme) :
      (l.tree a).depth ≤ depthLimit →
      (∀ x ∈ rest.head?, x.token ≠ .and ∧ x.token ≠ .or) →
      Halts used stop ⟨l, [], some a⟩ rest (.accepted (l.tree a) rest)
  /-- The next token cannot be read, or tokens are missing; a complete operand is
  within the limit. -/
  | rejected (s : State) (rest : List Lexeme) :
      s.expectation ≠ .continuation →
      (∀ x ∈ rest.head?, s.next? x.token = none) →
      (∀ a ∈ s.operand, (s.level.tree a).depth ≤ depthLimit) →
      Halts used stop s rest
        (.rejected
          (.unexpected s.expectation (rest.head?.map (·.token)) (place stop rest)) s.pending rest)
  /-- The tree that the next token completes is too deep. -/
  | deep (l : Level) (es : List Level) (a : Condition) (rest : List Lexeme) :
      depthLimit < (l.conjoin a).depth ∨
        depthLimit < (l.tree a).depth ∧ (∀ x ∈ rest.head?, x.token ≠ .and) →
      Halts used stop ⟨l, es, some a⟩ rest
        (.rejected (.tooDeep depthLimit (place stop rest))
          (a.depth + l.negations - depthLimit - 1 + openAround es) rest)
  /-- The next token opens one parenthesis or negation too many. -/
  | overflowed (l : Level) (es : List Level) (x : Lexeme) (rest : List Lexeme) :
      x.token = .opening ∨ x.token = .not →
      depthLimit ≤ used + State.opened ⟨l, es, none⟩ →
      Halts used stop ⟨l, es, none⟩ (x :: rest) (.overflowed x (State.opened ⟨l, es, none⟩) rest)

theorem State.depth_operand_le {l : Level} {es : List Level} {a : Condition}
    (h : State.weight ⟨l, es, some a⟩ ≤ depthLimit) : a.depth ≤ depthLimit := by
  simp only [State.weight, depthOf_some] at h
  omega

theorem State.halts_at_end (used stop : Nat) {s : State} (hs : s.weight ≤ depthLimit) :
    Halts used stop s [] (run used stop s []) := by
  obtain ⟨l, es, o⟩ := s
  cases o with
  | none => exact .rejected ⟨l, es, none⟩ [] (by simp [State.expectation]) (by simp) (by simp)
  | some a =>
      have hc := l.completion_eq (State.depth_operand_le hs)
      unfold run State.finish
      dsimp only
      rw [hc]
      by_cases h : (l.tree a).depth ≤ depthLimit
      · rw [if_pos h]
        cases es with
        | nil => exact .accepted l a [] h (by simp)
        | cons outer es =>
            exact .rejected ⟨l, outer :: es, some a⟩ [] (by simp [State.expectation]) (by simp)
              (by simpa using h)
      · rw [if_neg h]
        exact .deep l es a [] (.inr ⟨Nat.lt_of_not_le h, by simp⟩)

/-- A step is a transition that keeps both limits. -/
structure State.Steps (used : Nat) (s : State) (x : Lexeme) (s' : State) : Prop where
  next : s.Next x.token s'
  weight : s'.weight ≤ depthLimit
  opened : s'.opened ≤ max s.opened (depthLimit - used)

theorem State.steps_or_halts_before_operand (used stop : Nat) {l : Level} {es : List Level}
    (hs : State.weight ⟨l, es, none⟩ ≤ depthLimit) (x : Lexeme) (rest : List Lexeme) :
    (∃ s', State.step used ⟨l, es, none⟩ x = .shift s' ∧ State.Steps used ⟨l, es, none⟩ x s') ∨
      Halts used stop ⟨l, es, none⟩ (x :: rest) (run used stop ⟨l, es, none⟩ (x :: rest)) := by
  obtain ⟨t, i⟩ := x
  have refused (ht : State.next? ⟨l, es, none⟩ t = none) :
      Halts used stop ⟨l, es, none⟩ (⟨t, i⟩ :: rest)
        (.rejected (.unexpected .operand (some t) i) (l.negations + openAround es) (⟨t, i⟩ :: rest)) :=
    .rejected ⟨l, es, none⟩ (⟨t, i⟩ :: rest) (by simp [State.expectation]) (by simp [ht]) (by simp)
  cases t with
  | identifier text =>
      refine .inl ⟨_, rfl, .identifier l es text, ?_, Nat.le_max_left _ _⟩
      have hleaf := depth_reference_le text
      simp only [State.weight, depthOf_none, depthOf_some] at hs ⊢
      omega
  | and => exact .inr (refused rfl)
  | or => exact .inr (refused rfl)
  | closing => exact .inr (refused rfl)
  | opening =>
      by_cases h : used + State.opened ⟨l, es, none⟩ < depthLimit
      · refine .inl ⟨_, by simp only [State.step, State.beforeOperand, if_pos h],
          .opening l es, ?_, ?_⟩
        · simpa [State.weight, Level.weight, weightAround] using hs
        · simp only [State.opened, openAround_cons] at h ⊢
          omega
      · refine .inr ?_
        simp only [run, State.step, State.beforeOperand, if_neg h]
        exact .overflowed l es ⟨.opening, i⟩ rest (.inl rfl) (Nat.le_of_not_lt h)
  | not =>
      by_cases h : used + State.opened ⟨l, es, none⟩ < depthLimit
      · refine .inl ⟨_, by simp only [State.step, State.beforeOperand, if_pos h],
          .not l es, hs, ?_⟩
        simp only [State.opened] at h ⊢
        omega
      · refine .inr ?_
        simp only [run, State.step, State.beforeOperand, if_neg h]
        exact .overflowed l es ⟨.not, i⟩ rest (.inr rfl) (Nat.le_of_not_lt h)

theorem State.steps_or_halts_at_and (used stop : Nat) {l : Level} {es : List Level} {a : Condition}
    (hs : State.weight ⟨l, es, some a⟩ ≤ depthLimit) (i : Nat) (rest : List Lexeme) :
    (∃ s', State.step used ⟨l, es, some a⟩ ⟨.and, i⟩ = .shift s' ∧
        State.Steps used ⟨l, es, some a⟩ ⟨.and, i⟩ s') ∨
      Halts used stop ⟨l, es, some a⟩ (⟨.and, i⟩ :: rest)
        (run used stop ⟨l, es, some a⟩ (⟨.and, i⟩ :: rest)) := by
  have hc := l.conjunction_eq (State.depth_operand_le hs)
  by_cases h : (l.conjoin a).depth ≤ depthLimit
  · rw [if_pos h] at hc
    refine .inl ⟨_, by simp only [State.step, State.afterOperand, hc, if_true], .and l es a, ?_, ?_⟩
    · simp only [State.weight, Level.weight, depthOf_none, depthOf_some] at hs ⊢
      omega
    · simp only [State.opened]
      omega
  · rw [if_neg h] at hc
    refine .inr ?_
    simp only [run, State.step, State.afterOperand, hc]
    exact .deep l es a (⟨.and, i⟩ :: rest) (.inl (Nat.lt_of_not_le h))

theorem State.afterOperand_of_ne_and (s : State) (a : Condition) {x : Lexeme} (hx : x.token ≠ .and) :
    s.afterOperand a x =
      match s.level.conjunction a >>= s.level.disjunction with
      | .error n => .reject (.tooDeep depthLimit x.start) (n + openAround s.enclosing)
      | .ok d =>
        if x.token = .or then .shift { s with level := { disjunct := some d }, operand := none }
        else
          match s.enclosing with
          | [] => .accept d
          | outer :: others =>
            if x.token = .closing then
              .shift { level := outer, enclosing := others, operand := some d }
            else .reject (.unexpected .closing (some x.token) x.start) (openAround s.enclosing) := by
  unfold State.afterOperand
  cases s.level.conjunction a with
  | error n => rfl
  | ok c =>
      have hbind : (Except.ok c >>= s.level.disjunction) = s.level.disjunction c := rfl
      rw [hbind]
      refine (if_neg hx).trans ?_
      cases s.level.disjunction c <;> rfl

theorem State.steps_or_halts_after_operand (used stop : Nat) {l : Level} {es : List Level}
    {a : Condition} (hs : State.weight ⟨l, es, some a⟩ ≤ depthLimit) {x : Lexeme}
    (hx : x.token ≠ .and) (rest : List Lexeme) :
    (∃ s', State.step used ⟨l, es, some a⟩ x = .shift s' ∧
        State.Steps used ⟨l, es, some a⟩ x s') ∨
      Halts used stop ⟨l, es, some a⟩ (x :: rest)
        (run used stop ⟨l, es, some a⟩ (x :: rest)) := by
  have hc := l.completion_eq (State.depth_operand_le hs)
  have hstep := State.afterOperand_of_ne_and ⟨l, es, some a⟩ a hx
  rw [hc] at hstep
  by_cases h : (l.tree a).depth ≤ depthLimit
  · rw [if_pos h] at hstep
    by_cases hor : x.token = .or
    · refine .inl ⟨_, hstep.trans (if_pos hor), ?_, ?_, ?_⟩
      · rw [hor]
        exact .or l es a
      · simp only [State.weight, Level.weight, depthOf_none, depthOf_some] at hs ⊢
        omega
      · simp only [State.opened]
        omega
    · dsimp only at hstep
      rw [if_neg hor] at hstep
      cases es with
      | nil =>
          refine .inr ?_
          simp only [run, State.step, hstep]
          exact .accepted l a (x :: rest) h (by simp [hx, hor])
      | cons outer es =>
          by_cases hcl : x.token = .closing
          · refine .inl ⟨_, hstep.trans (if_pos hcl), ?_, ?_, ?_⟩
            · rw [hcl]
              exact .closing l outer es a
            · simp only [State.weight, weightAround, depthOf_some] at hs ⊢
              omega
            · simp only [State.opened, openAround_cons]
              omega
          · have hn : State.next? ⟨l, outer :: es, some a⟩ x.token = none := by
              cases ht : x.token <;> simp_all [State.next?]
            have hr := hstep.trans (if_neg hcl)
            refine .inr ?_
            simp only [run, State.step, hr]
            exact .rejected ⟨l, outer :: es, some a⟩ (x :: rest) (by simp [State.expectation])
              (by simp [hn]) (by simpa using h)
  · rw [if_neg h] at hstep
    refine .inr ?_
    simp only [run, State.step, hstep]
    exact .deep l es a (x :: rest) (.inr ⟨Nat.lt_of_not_le h, by simpa using hx⟩)

theorem State.steps_or_halts (used stop : Nat) {s : State} (hs : s.weight ≤ depthLimit)
    (x : Lexeme) (rest : List Lexeme) :
    (∃ s', s.step used x = .shift s' ∧ s.Steps used x s') ∨
      Halts used stop s (x :: rest) (run used stop s (x :: rest)) := by
  obtain ⟨l, es, o⟩ := s
  cases o with
  | none => exact State.steps_or_halts_before_operand used stop hs x rest
  | some a =>
      by_cases hx : x.token = .and
      · obtain ⟨t, i⟩ := x
        obtain rfl : t = .and := hx
        exact State.steps_or_halts_at_and used stop hs i rest
      · exact State.steps_or_halts_after_operand used stop hs hx rest

/-- A reading follows the transitions within both limits up to a state in which
it ends. -/
theorem run_halts (used stop : Nat) {s : State} (hs : s.weight ≤ depthLimit) (ls : List Lexeme) :
    ∃ ms rest s', ls = ms ++ rest ∧ s.follow (tokens ms) = some s' ∧ s'.weight ≤ depthLimit ∧
      s.peak (tokens ms) ≤ max s.opened (depthLimit - used) ∧
      Halts used stop s' rest (run used stop s ls) := by
  induction ls generalizing s with
  | nil => exact ⟨[], [], s, rfl, rfl, hs, Nat.le_max_left _ _, State.halts_at_end used stop hs⟩
  | cons x ls ih =>
      rcases State.steps_or_halts used stop hs x ls with ⟨q, hstep, hq⟩ | hh
      · obtain ⟨ms, rest, s', rfl, hf, hw, hp, hh⟩ := ih hq.weight
        have hn := State.next?_eq_some_iff.2 hq.next
        have hrun : run used stop s (x :: (ms ++ rest)) = run used stop q (ms ++ rest) := by
          rw [run, hstep]
        refine ⟨x :: ms, rest, s', rfl, ?_, hw, ?_, ?_⟩
        · exact (State.follow_cons_of_next? hn (tokens ms)).trans hf
        · have ho := hq.opened
          have hp' : s.peak (tokens (x :: ms)) = max s.opened (q.peak (tokens ms)) :=
            State.peak_cons_of_next? hn (tokens ms)
          omega
        · rw [hrun]
          exact hh
      · exact ⟨[], x :: ls, s, rfl, rfl, hs, Nat.le_max_left _ _, hh⟩

end Binding

end QueryFilter
