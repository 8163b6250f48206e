import Mathlib.Logic.Function.Iterate
import QueryFilter.Binding.Grammar
import QueryFilter.Binding.State

/-!
# Reading without limits

`State.next? s t` is the state that the token `t` leads to when neither nesting
nor depth is limited, and `none` when `t` cannot stand there. `State.follow`
carries a state along a list of tokens, and `State.peak` is the largest number
of parentheses and negations that were open on the way. A limited reading goes
through the same states as long as it goes (`Proofs/Binding/Limits.lean`), so
what the tokens mean is settled here, once, without any limit.

The main statement is `derives_iff_follow`: a list of tokens is a sentence with
tree `c` and nesting `n` exactly when reading it ends with a complete operand
and no open parenthesis, with `c` as the tree and `n` as the peak. From the
grammar to the states the proof is an induction on the derivation. From the
states to the grammar an invariant is carried along: `State.Holds s ts` splits
the tokens read so far into the phrases that the levels of `s` keep.
-/

namespace QueryFilter.Binding

namespace Level

/-- The conjunction that ends with the operand `c`, however deep it gets. -/
def conjoin (l : Level) (c : Condition) : Condition :=
  match l.conjunct with
  | none => Condition.negate^[l.negations] c
  | some b => .and b (Condition.negate^[l.negations] c)

/-- The disjunction that ends with the conjunction `c`, however deep it gets. -/
def disjoin (l : Level) (c : Condition) : Condition :=
  match l.disjunct with
  | none => c
  | some b => .or b c

/-- The tree of a level whose last operand is `c`. -/
def tree (l : Level) (c : Condition) : Condition := l.disjoin (l.conjoin c)

end Level

namespace State

/-- The state after a token, whatever the nesting and the depth. -/
def next? : State → Token → Option State
  | ⟨l, es, none⟩, .identifier text => some ⟨l, es, some (.reference text)⟩
  | ⟨l, es, none⟩, .opening => some ⟨{}, l :: es, none⟩
  | ⟨l, es, none⟩, .not => some ⟨{ l with negations := l.negations + 1 }, es, none⟩
  | ⟨l, es, some c⟩, .and =>
    some ⟨{ l with conjunct := some (l.conjoin c), negations := 0 }, es, none⟩
  | ⟨l, es, some c⟩, .or => some ⟨{ disjunct := some (l.tree c) }, es, none⟩
  | ⟨l, outer :: es, some c⟩, .closing => some ⟨outer, es, some (l.tree c)⟩
  | _, _ => none

/-- The transitions one by one: three where an operand is due, and three after a
complete one. -/
inductive Next : State → Token → State → Prop
  | identifier (l : Level) (es : List Level) (text : String) :
      Next ⟨l, es, none⟩ (.identifier text) ⟨l, es, some (.reference text)⟩
  | opening (l : Level) (es : List Level) : Next ⟨l, es, none⟩ .opening ⟨{}, l :: es, none⟩
  | not (l : Level) (es : List Level) :
      Next ⟨l, es, none⟩ .not ⟨{ l with negations := l.negations + 1 }, es, none⟩
  | and (l : Level) (es : List Level) (c : Condition) :
      Next ⟨l, es, some c⟩ .and
        ⟨{ l with conjunct := some (l.conjoin c), negations := 0 }, es, none⟩
  | or (l : Level) (es : List Level) (c : Condition) :
      Next ⟨l, es, some c⟩ .or ⟨{ disjunct := some (l.tree c) }, es, none⟩
  | closing (l outer : Level) (es : List Level) (c : Condition) :
      Next ⟨l, outer :: es, some c⟩ .closing ⟨outer, es, some (l.tree c)⟩

/-- A state has at most one transition at a token, which is the one `next?`
takes. -/
theorem next?_eq_some_iff {s s' : State} {t : Token} : s.next? t = some s' ↔ Next s t s' := by
  constructor
  · intro h
    fun_cases next? s t with
    | case1 l es text => obtain rfl := Option.some.inj h; exact .identifier l es text
    | case2 l es => obtain rfl := Option.some.inj h; exact .opening l es
    | case3 l es => obtain rfl := Option.some.inj h; exact .not l es
    | case4 l es c => obtain rfl := Option.some.inj h; exact .and l es c
    | case5 l es c => obtain rfl := Option.some.inj h; exact .or l es c
    | case6 l outer es c => obtain rfl := Option.some.inj h; exact .closing l outer es c
    | case7 => simp_all [next?]
  · intro h
    cases h <;> rfl

def follow (s : State) (ts : List Token) : Option State := ts.foldlM next? s

/-- The largest number of parentheses and negations that are open at once while
a list of tokens is read. -/
def peak : State → List Token → Nat
  | s, [] => s.opened
  | s, t :: ts =>
    match s.next? t with
    | some s' => max s.opened (s'.peak ts)
    | none => s.opened

@[simp] theorem follow_nil (s : State) : s.follow [] = some s := rfl

theorem follow_cons (s : State) (t : Token) (ts : List Token) :
    s.follow (t :: ts) = (s.next? t).bind fun s' => s'.follow ts := rfl

theorem follow_cons_of_next? {s s' : State} {t : Token} (h : s.next? t = some s')
    (ts : List Token) : s.follow (t :: ts) = s'.follow ts := by
  rw [follow_cons, h, Option.bind_some]

theorem exists_next?_of_follow_cons {s s' : State} {t : Token} {ts : List Token}
    (h : s.follow (t :: ts) = some s') : ∃ q, s.next? t = some q ∧ q.follow ts = some s' := by
  rw [follow_cons] at h
  exact Option.bind_eq_some_iff.1 h

theorem follow_append (s : State) (ts us : List Token) :
    s.follow (ts ++ us) = (s.follow ts).bind fun s' => s'.follow us := by
  induction ts generalizing s with
  | nil => rfl
  | cons t ts ih =>
      rw [List.cons_append, follow_cons, follow_cons]
      cases s.next? t with
      | none => rfl
      | some s' => exact ih s'

theorem follow_append_of_follow {s s' : State} {ts : List Token} (h : s.follow ts = some s')
    (us : List Token) : s.follow (ts ++ us) = s'.follow us := by
  rw [follow_append, h, Option.bind_some]

/-- What holds at the beginning and is kept by every transition holds after a
list of tokens. The list read so far is carried along. -/
theorem follow_rec {motive : State → List Token → Prop} {s s' : State} {ts : List Token}
    (h : s.follow ts = some s') (ps : List Token) (h₀ : motive s ps)
    (step : ∀ {q q' : State} {t : Token} {us : List Token},
      motive q us → Next q t q' → motive q' (us ++ [t])) :
    motive s' (ps ++ ts) := by
  induction ts generalizing s ps with
  | nil =>
      obtain rfl : s = s' := Option.some.inj h
      rwa [List.append_nil]
  | cons t ts ih =>
      obtain ⟨q, hn, hq⟩ := exists_next?_of_follow_cons h
      rw [List.append_cons]
      exact ih hq (ps ++ [t]) (step h₀ (next?_eq_some_iff.1 hn))

@[simp] theorem peak_nil (s : State) : s.peak [] = s.opened := rfl

theorem peak_cons_of_next? {s s' : State} {t : Token} (h : s.next? t = some s')
    (ts : List Token) : s.peak (t :: ts) = max s.opened (s'.peak ts) := by
  rw [peak, h]

theorem opened_le_peak (s : State) (ts : List Token) : s.opened ≤ s.peak ts := by
  cases ts with
  | nil => exact Nat.le_refl _
  | cons t ts =>
      rw [peak]
      split
      · exact Nat.le_max_left _ _
      · exact Nat.le_refl _

theorem peak_append {s s' : State} {ts : List Token} (h : s.follow ts = some s')
    (us : List Token) : s.peak (ts ++ us) = max (s.peak ts) (s'.peak us) := by
  induction ts generalizing s with
  | nil =>
      obtain rfl : s = s' := Option.some.inj h
      rw [List.nil_append, peak_nil, Nat.max_eq_right (opened_le_peak s us)]
  | cons t ts ih =>
      obtain ⟨q, hn, hq⟩ := exists_next?_of_follow_cons h
      rw [List.cons_append, peak_cons_of_next? hn, peak_cons_of_next? hn, ih hq, Nat.max_assoc]

theorem opened_le_peak_of_follow {s s' : State} {ts : List Token} (h : s.follow ts = some s') :
    s'.opened ≤ s.peak ts := by
  have hp := peak_append h []
  rw [List.append_nil, peak_nil] at hp
  rw [hp]
  exact Nat.le_max_right _ _

end State

/-! ## From the grammar to the states -/

/-- The levels at which a phrase of a given kind may begin. -/
def Phrase.Ready : Phrase → Level → Prop
  | .atom, _ => True
  | .negation, _ => True
  | .conjunction, l => l.conjunct = none ∧ l.negations = 0
  | .disjunction, l => l = {}

/-- How a phrase with tree `c` changes the level from `l` to `l'` when its last
operand is `a`. An atom is that operand; in the other phrases the operand is
still apart, and only the level makes it the tree of the phrase. -/
def Phrase.Moves : Phrase → Level → Level → Condition → Condition → Prop
  | .atom, l, l', a, c => l' = l ∧ a = c
  | .negation, l, l', a, c =>
    ∃ m, l' = { l with negations := l.negations + m } ∧ Condition.negate^[m] a = c
  | .conjunction, l, l', a, c => l'.disjunct = l.disjunct ∧ l'.conjoin a = c
  | .disjunction, _, l', a, c => l'.tree a = c

/-- Where a phrase may begin, it is read to its end, and what it opens on the way
comes on top of what is open already. -/
theorem Derives.follow {k : Phrase} {ts : List Token} {c : Condition} {n : Nat}
    (h : Derives k ts c n) (l : Level) (es : List Level) (hl : k.Ready l) :
    ∃ l' a, State.follow ⟨l, es, none⟩ ts = some ⟨l', es, some a⟩ ∧ k.Moves l l' a c ∧
      State.peak ⟨l, es, none⟩ ts = State.opened ⟨l, es, none⟩ + n := by
  induction h generalizing l es with
  | identifier text =>
      exact ⟨l, .reference text, rfl, ⟨rfl, rfl⟩, Nat.max_self _⟩
  | @group ts c n _ ih =>
      obtain ⟨l', a, hf, rfl, hp⟩ := ih {} (l :: es) rfl
      have ho : State.next? ⟨l, es, none⟩ .opening = some ⟨{}, l :: es, none⟩ := rfl
      have hc : State.next? ⟨l', l :: es, some a⟩ .closing = some ⟨l, es, some (l'.tree a)⟩ := rfl
      refine ⟨l, l'.tree a, ?_, ⟨rfl, rfl⟩, ?_⟩
      · rw [List.cons_append, State.follow_cons_of_next? ho, State.follow_append_of_follow hf,
          State.follow_cons_of_next? hc, State.follow_nil]
      · rw [List.cons_append, State.peak_cons_of_next? ho, State.peak_append hf, hp,
          State.peak_cons_of_next? hc, State.peak_nil]
        have hl' := State.opened_le_peak_of_follow hf
        simp only [State.opened, openAround_cons] at hp hl' ⊢
        omega
  | atom _ ih =>
      obtain ⟨l', a, hf, ⟨rfl, rfl⟩, hp⟩ := ih l es trivial
      exact ⟨l', a, hf, ⟨0, rfl, rfl⟩, hp⟩
  | @not ts c n _ ih =>
      obtain ⟨l', a, hf, ⟨m, rfl, rfl⟩, hp⟩ := ih { l with negations := l.negations + 1 } es trivial
      have hn : State.next? ⟨l, es, none⟩ .not =
          some ⟨{ l with negations := l.negations + 1 }, es, none⟩ := rfl
      refine ⟨_, a, (State.follow_cons_of_next? hn ts).trans hf, ⟨m + 1, ?_, ?_⟩, ?_⟩
      · simp only [Nat.add_assoc, Nat.add_comm 1 m]
      · exact Function.iterate_succ_apply' _ m a
      · rw [State.peak_cons_of_next? hn, hp]
        simp only [State.opened]
        omega
  | negation _ ih =>
      obtain ⟨l', a, hf, ⟨m, rfl, rfl⟩, hp⟩ := ih l es trivial
      refine ⟨_, a, hf, ⟨rfl, ?_⟩, hp⟩
      simp only [Level.conjoin, hl.1, hl.2, Nat.zero_add]
  | @and ts us p q m n _ _ ihl ihr =>
      obtain ⟨v', a, hf, ⟨hd, rfl⟩, hp⟩ := ihl l es hl
      obtain ⟨w, b, hf', ⟨i, rfl, rfl⟩, hp'⟩ :=
        ihr { v' with conjunct := some (v'.conjoin a), negations := 0 } es trivial
      have hn : State.next? ⟨v', es, some a⟩ .and =
          some ⟨{ v' with conjunct := some (v'.conjoin a), negations := 0 }, es, none⟩ := rfl
      refine ⟨{ v' with conjunct := some (v'.conjoin a), negations := 0 + i }, b,
        ?_, ⟨hd, ?_⟩, ?_⟩
      · rw [State.follow_append_of_follow hf, State.follow_cons_of_next? hn, hf']
      · simp only [Level.conjoin, Nat.zero_add]
      · rw [State.peak_append hf, State.peak_cons_of_next? hn, hp']
        have hv := State.opened_le_peak_of_follow hf
        obtain ⟨-, hl⟩ := hl
        simp only [State.opened] at hp hv ⊢
        omega
  | conjunction _ ih =>
      obtain rfl : l = {} := hl
      obtain ⟨l', a, hf, ⟨hd, rfl⟩, hp⟩ := ih {} es ⟨rfl, rfl⟩
      refine ⟨l', a, hf, ?_, hp⟩
      simp only [Phrase.Moves, Level.tree, Level.disjoin, hd]
  | @or ts us p q m n _ _ ihl ihr =>
      obtain ⟨v', a, hf, rfl, hp⟩ := ihl l es hl
      obtain ⟨w, b, hf', ⟨hd, rfl⟩, hp'⟩ := ihr { disjunct := some (v'.tree a) } es ⟨rfl, rfl⟩
      have hn : State.next? ⟨v', es, some a⟩ .or =
          some ⟨{ disjunct := some (v'.tree a) }, es, none⟩ := rfl
      refine ⟨w, b, ?_, ?_, ?_⟩
      · rw [State.follow_append_of_follow hf, State.follow_cons_of_next? hn, hf']
      · simp only [Phrase.Moves, Level.tree, Level.disjoin, hd]
      · rw [State.peak_append hf, State.peak_cons_of_next? hn, hp']
        have hv := State.opened_le_peak_of_follow hf
        obtain rfl : l = {} := hl
        simp only [State.opened] at hp hv ⊢
        omega

/-! ## From the states to the grammar -/

/-- The tokens of a left operand that waits, up to the operator it waits for. -/
def Waits (k : Phrase) (operator : Token) : Option Condition → List Token → Prop
  | none, ts => ts = []
  | some c, ts => ∃ us n, Derives k us c n ∧ ts = us ++ [operator]

/-- The tokens a level keeps in front of its last operand. -/
def Level.Holds (l : Level) (ts : List Token) : Prop :=
  ∃ ds cs, Waits .disjunction .or l.disjunct ds ∧ Waits .conjunction .and l.conjunct cs ∧
    ts = ds ++ cs ++ List.replicate l.negations .not

/-- The tokens that the levels around a phrase keep, each up to its
parenthesis. -/
inductive Encloses : List Level → List Token → Prop
  | nil : Encloses [] []
  | cons {l : Level} {ls : List Level} {es ts : List Token} :
      Encloses ls es → l.Holds ts → Encloses (l :: ls) (es ++ ts ++ [.opening])

/-- The tokens of a complete operand, and none where one is due. -/
def OperandHolds : Option Condition → List Token → Prop
  | none, ts => ts = []
  | some c, ts => ∃ n, Derives .atom ts c n

/-- The tokens that a state has read: those of the levels around, of the
innermost level, and of the operand. -/
def State.Holds (s : State) (ts : List Token) : Prop :=
  ∃ es us os, Encloses s.enclosing es ∧ s.level.Holds us ∧ OperandHolds s.operand os ∧
    ts = es ++ us ++ os

theorem Derives.negations {ts : List Token} {c : Condition} {n : Nat}
    (h : Derives .negation ts c n) (m : Nat) :
    Derives .negation (List.replicate m .not ++ ts) (Condition.negate^[m] c) (n + m) := by
  induction m with
  | zero => exact h
  | succ m ih =>
      rw [List.replicate_succ, List.cons_append, Function.iterate_succ_apply', ← Nat.add_assoc]
      exact ih.not

theorem Level.Holds.conjoin {l : Level} {ts os : List Token} {c : Condition} {n : Nat}
    (h : l.Holds ts) (hc : Derives .atom os c n) :
    ∃ ds us m, Waits .disjunction .or l.disjunct ds ∧
      Derives .conjunction us (l.conjoin c) m ∧ ts ++ os = ds ++ us := by
  obtain ⟨ds, cs, hd, hw, rfl⟩ := h
  have hn := hc.atom.negations l.negations
  unfold Level.conjoin
  cases hl : l.conjunct with
  | none =>
      rw [hl] at hw
      obtain rfl : cs = [] := hw
      exact ⟨ds, _, _, hd, hn.negation, by simp⟩
  | some b =>
      rw [hl] at hw
      obtain ⟨us, k, hb, rfl⟩ := hw
      exact ⟨ds, _, _, hd, hb.and hn, by simp⟩

theorem Level.Holds.tree {l : Level} {ts os : List Token} {c : Condition} {n : Nat}
    (h : l.Holds ts) (hc : Derives .atom os c n) :
    ∃ m, Derives .disjunction (ts ++ os) (l.tree c) m := by
  obtain ⟨ds, us, m, hd, hu, he⟩ := h.conjoin hc
  rw [he]
  unfold Level.tree Level.disjoin
  cases hl : l.disjunct with
  | none =>
      rw [hl] at hd
      obtain rfl : ds = [] := hd
      exact ⟨m, hu.conjunction⟩
  | some b =>
      rw [hl] at hd
      obtain ⟨vs, k, hb, rfl⟩ := hd
      refine ⟨max k m, ?_⟩
      rw [List.append_assoc]
      exact hb.or hu

theorem Level.holds_nil : Level.Holds {} [] := ⟨[], [], rfl, rfl, rfl⟩

theorem State.Holds.next {s s' : State} {t : Token} {ts : List Token} (h : s.Holds ts)
    (hn : s.Next t s') : s'.Holds (ts ++ [t]) := by
  obtain ⟨es, us, os, he, hu, ho, rfl⟩ := h
  cases hn with
  | identifier l ls text =>
      obtain rfl : os = [] := ho
      exact ⟨es, us, _, he, hu, ⟨0, .identifier text⟩, by simp⟩
  | opening l ls =>
      obtain rfl : os = [] := ho
      exact ⟨_, [], [], he.cons hu, Level.holds_nil, rfl, by simp⟩
  | not l ls =>
      obtain rfl : os = [] := ho
      obtain ⟨ds, cs, hd, hc, rfl⟩ := hu
      exact ⟨es, _, [], he, ⟨ds, cs, hd, hc, rfl⟩, rfl, by simp [List.replicate_succ']⟩
  | and l ls c =>
      obtain ⟨n, hc⟩ := ho
      obtain ⟨ds, vs, m, hd, hv, hw⟩ := hu.conjoin hc
      refine ⟨es, _, [], he, ⟨ds, _, hd, ⟨vs, m, hv, rfl⟩, rfl⟩, rfl, ?_⟩
      calc es ++ us ++ os ++ [.and] = es ++ (us ++ os) ++ [.and] := by simp
        _ = es ++ (ds ++ vs) ++ [.and] := by rw [hw]
        _ = es ++ (ds ++ (vs ++ [.and]) ++ List.replicate 0 .not) ++ [] := by simp
  | or l ls c =>
      obtain ⟨n, hc⟩ := ho
      obtain ⟨m, hm⟩ := hu.tree hc
      exact ⟨es, _, [], he, ⟨_, [], ⟨_, m, hm, rfl⟩, rfl, rfl⟩, rfl, by simp⟩
  | closing l outer ls c =>
      obtain ⟨n, hc⟩ := ho
      obtain ⟨m, hm⟩ := hu.tree hc
      cases he with
      | @cons _ _ es ws hes hws => exact ⟨es, ws, _, hes, hws, ⟨_, hm.group⟩, by simp⟩

theorem State.holds_of_follow {s : State} {ts : List Token} (h : State.follow {} ts = some s) :
    s.Holds ts := by
  have h₀ : State.Holds {} [] := ⟨[], [], [], .nil, Level.holds_nil, rfl, rfl⟩
  exact State.follow_rec (motive := State.Holds) h [] h₀ fun hq hn => hq.next hn

/-- The sentences are the lists of tokens after which an operand is complete and
no parenthesis is open. Their tree is the one of the level that is left, and
their nesting is the peak. -/
theorem derives_iff_follow (ts : List Token) (c : Condition) (n : Nat) :
    Derives .disjunction ts c n ↔
      ∃ l a, State.follow {} ts = some ⟨l, [], some a⟩ ∧ l.tree a = c ∧ State.peak {} ts = n := by
  constructor
  · intro h
    obtain ⟨l, a, hf, ht, hp⟩ := h.follow {} [] rfl
    exact ⟨l, a, hf, ht, hp.trans (Nat.zero_add n)⟩
  · rintro ⟨l, a, hf, rfl, rfl⟩
    obtain ⟨es, us, os, he, hu, ⟨m, ho⟩, rfl⟩ := State.holds_of_follow hf
    obtain rfl : es = [] := by cases he; rfl
    obtain ⟨k, hk⟩ := hu.tree ho
    -- The nesting of the derivation just found is the peak, by the other direction.
    obtain ⟨l', a', hf', -, hp⟩ := hk.follow {} [] rfl
    have hk' : State.peak {} (us ++ os) = k := hp.trans (Nat.zero_add k)
    rw [List.nil_append, hk']
    exact hk

theorem Derives.unique {ts : List Token} {c d : Condition} {m n : Nat}
    (hc : Derives .disjunction ts c m) (hd : Derives .disjunction ts d n) : c = d ∧ m = n := by
  obtain ⟨l, a, hf, rfl, rfl⟩ := (derives_iff_follow ts c m).1 hc
  obtain ⟨l', a', hf', rfl, rfl⟩ := (derives_iff_follow ts d n).1 hd
  cases hf.symm.trans hf'
  exact ⟨rfl, rfl⟩

end QueryFilter.Binding
