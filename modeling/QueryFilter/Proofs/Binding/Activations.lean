import Mathlib.Computability.StateTransition
import QueryFilter.Proofs.Binding.Exhaustion

/-!
# Readings under way

A call reads by descent: a reading asks for the phrases it is made of, one after the
other, and waits while they are read. A `Moment` of a call shows the readings that
wait, as a stack of frames, and what goes on above them. `Call.step` goes to the
next moment. It puts no bound on the stack, and for all it says a call could go on
forever.

Every call comes to its end, with the result and the parser of `Call.run`
(`Call.final_mem_eval`), because its moments follow `Parser.readPhrase`. That the
stack stays low is due to the count of open parentheses and negations, which is all
that a parser checks, and `Moment.Sound` ties the two together: the frames that
opened a parenthesis or negation are as many as the count says, and there are at
most three others between two of them, since it takes three readings to get from a
disjunction to an atom. A step keeps this, whether a reading is entered, goes on in
a row of operands, or is left by a refusal, which lowers no count. So there are at
most four readings for each parenthesis or negation that may still be opened, and
four more. `exists_active_of_openings` shows that so many do occur.
-/

namespace QueryFilter.Binding

open StateTransition

/-- The operators that join any number of operands in a row. -/
inductive Connective where
  | or
  | and
deriving DecidableEq, Repr

namespace Connective

def token : Connective → Token
  | .or => .or
  | .and => .and

def join : Connective → Condition → Condition → Condition
  | .or => .or
  | .and => .and

/-- The kind of the operands joined. -/
def joined : Connective → Phrase
  | .or => .disjunction
  | .and => .conjunction

/-- The kind of a single operand. -/
def operand : Connective → Phrase
  | .or => .conjunction
  | .and => .negation

end Connective

/-- A reading that waits for a phrase it has asked for. -/
inductive Frame where
  /-- Operands are joined, and the next one is read; `left` is the tree of those
  before it. -/
  | operand (o : Connective) (left : Option Condition)
  /-- A `!` is read, and its operand follows. -/
  | negation
  /-- There is no `!`, and an atom is read instead. -/
  | plain
  /-- A parenthesis is open. -/
  | group
deriving DecidableEq, Repr

/-- What goes on above the readings that wait. -/
inductive Activity where
  /-- The call is made. -/
  | begun
  /-- A reading begins. -/
  | calling (k : Phrase)
  /-- A reading has ended. -/
  | returning (r : Except SyntaxError Condition)
  /-- The call has ended. -/
  | ended (r : Except SyntaxError Condition)
deriving DecidableEq, Repr

structure Moment where
  /-- The readings that wait, the innermost first. -/
  frames : List Frame
  activity : Activity
  parser : Parser
deriving DecidableEq, Repr

namespace Moment

/-- How many readings are under way: those that wait, and one that begins. -/
def active : Moment → Nat
  | ⟨fs, .calling _, _⟩ => fs.length + 1
  | ⟨fs, _, _⟩ => fs.length

/-- A reading above the frames `fs` ends, if it has a result. -/
def leave (fs : List Frame) (r : Reading) : Option Moment :=
  r.map fun x => ⟨fs, .returning x.1, x.2⟩

/-- A reading of the given kind is entered above the frames `fs`. -/
def enter (fs : List Frame) : Phrase → Parser → Option Moment
  | .disjunction, p => some ⟨.operand .or none :: fs, .calling .conjunction, p⟩
  | .conjunction, p => some ⟨.operand .and none :: fs, .calling .negation, p⟩
  | .negation, p =>
    if p.current = some .not then
      if p.raise.nesting ≤ depthLimit then
        some ⟨.negation :: fs, .calling .negation, p.raise.advance⟩
      else leave fs p.raise.refuseDeep
    else some ⟨.plain :: fs, .calling .atom, p⟩
  | .atom, p =>
    match p.current with
    | some (.identifier text) => leave fs (some (.ok (.reference text), p.advance))
    | some .opening =>
      if p.raise.nesting ≤ depthLimit then
        some ⟨.group :: fs, .calling .disjunction, p.raise.advance⟩
      else leave fs { p.raise with current := none }.refuseDeep
    | _ => leave fs (p.refuse .operand)

/-- Behind operands with the tree `c`, the next one is asked for if the operator
follows. -/
def goOn (o : Connective) (fs : List Frame) (c : Condition) (p : Parser) : Option Moment :=
  if p.current = some o.token then
    some ⟨.operand o (some c) :: fs, .calling o.operand, p.advance⟩
  else leave fs (some (.ok c, p))

/-- The reading that waits in a frame above `fs` gets the tree `c`. -/
def resume (fs : List Frame) : Frame → Condition → Parser → Option Moment
  | .operand o none, c, p => goOn o fs c p
  | .operand o (some left), c, p =>
    if (o.join left c).depth ≤ depthLimit then goOn o fs (o.join left c) p
    else leave fs p.refuseDeep
  | .negation, c, p => leave fs (p.lower?.bind fun q => q.bounded (.negate c))
  | .plain, c, p => leave fs (some (.ok c, p))
  | .group, c, p =>
    leave fs
      (if p.current = some .closing then p.advance.lower?.map fun q => (.ok c, q)
      else p.refuse .closing)

end Moment

namespace Call

/-- What a call makes of a phrase that was read. -/
def conclude : Call → Condition → Parser → Except SyntaxError Condition
  | .expression, c, _ => .ok c
  | .sentence, c, p =>
    if p.current = none then .ok c
    else .error (.unexpected .continuation p.current p.position)

/-- The next moment of a call, `none` if there is no other. A refusal leaves one
reading after the other. -/
def step (call : Call) : Moment → Option Moment
  | ⟨fs, .begun, p⟩ =>
    if call = .sentence ∧ p.current = none then some ⟨fs, .ended (.error .emptyInput), p⟩
    else some ⟨fs, .calling .disjunction, p⟩
  | ⟨fs, .calling k, p⟩ => Moment.enter fs k p
  | ⟨f :: fs, .returning (.ok c), p⟩ => Moment.resume fs f c p
  | ⟨[], .returning (.ok c), p⟩ => some ⟨[], .ended (call.conclude c p), p⟩
  | ⟨_ :: fs, .returning (.error e), p⟩ => some ⟨fs, .returning (.error e), p⟩
  | ⟨[], .returning (.error e), p⟩ => some ⟨[], .ended (.error e), p⟩
  | ⟨_, .ended _, _⟩ => none

theorem step_begun (call : Call) {p : Parser} (hp : p.current ≠ none) (fs : List Frame) :
    call.step ⟨fs, .begun, p⟩ = some ⟨fs, .calling .disjunction, p⟩ :=
  if_neg fun h => hp h.2

/-- A call with at most `n` readings under way at once, `none` if it would need
more. -/
def runWithin (n : Nat) (call : Call) (p : Parser) : Reading :=
  if call = .sentence ∧ p.current = none then some (.error .emptyInput, p)
  else (p.readPhrase n .disjunction).andThen fun c q => some (call.conclude c q, q)

end Call

/-! ## The stack and the count -/

namespace Parser

@[simp] theorem nesting_advance (p : Parser) : p.advance.nesting = p.nesting := by
  rw [advance, moveTo_eq, inFrontOf_nesting]

@[simp] theorem nesting_raise (p : Parser) : p.raise.nesting = p.nesting + 1 := rfl

theorem nesting_of_lower? {p q : Parser} (h : p.lower? = some q) : p.nesting = q.nesting + 1 := by
  unfold lower? at h
  split at h
  · cases h
  next n hn =>
    cases h
    exact hn

theorem eq_of_bounded {p q : Parser} {c d : Condition} (h : p.bounded c = some (.ok d, q)) :
    q = p := by
  unfold bounded refuseDeep at h
  split at h
  · cases h
    rfl
  · cases h

end Parser

/-- How many parentheses and negations the readings that wait have opened. -/
def openedBy : List Frame → Nat
  | [] => 0
  | .negation :: fs => openedBy fs + 1
  | .group :: fs => openedBy fs + 1
  | .operand _ _ :: fs => openedBy fs
  | .plain :: fs => openedBy fs

/-- The frames wait for a phrase of the given kind, and with `used` parentheses and
negations open before, none of theirs was one too many. -/
inductive Awaits (used : Nat) : List Frame → Phrase → Prop
  | outermost : Awaits used [] .disjunction
  | operand {fs : List Frame} (o : Connective) (left : Option Condition) :
      Awaits used fs o.joined → Awaits used (.operand o left :: fs) o.operand
  | negation {fs : List Frame} :
      Awaits used fs .negation → used + openedBy fs < depthLimit →
      Awaits used (.negation :: fs) .negation
  | plain {fs : List Frame} : Awaits used fs .negation → Awaits used (.plain :: fs) .atom
  | group {fs : List Frame} :
      Awaits used fs .atom → used + openedBy fs < depthLimit →
      Awaits used (.group :: fs) .disjunction

section

variable {used : Nat} {fs : List Frame} {k : Phrase}

theorem Connective.saved_operand (o : Connective) : o.operand.saved = o.joined.saved + 1 := by
  cases o <;> rfl

/-- Frames that open nothing only lead from one kind of phrase to a tighter one. -/
theorem Awaits.length_le (h : Awaits used fs k) : fs.length ≤ 4 * openedBy fs + k.saved := by
  induction h with
  | outermost => exact Nat.zero_le _
  | operand o left _ ih =>
      have hs := o.saved_operand
      simp only [List.length_cons, openedBy]
      omega
  | negation _ _ ih =>
      simp only [List.length_cons, openedBy]
      omega
  | plain _ ih =>
      simp only [Phrase.saved, List.length_cons, openedBy] at ih ⊢
      omega
  | group _ _ ih =>
      simp only [Phrase.saved, List.length_cons, openedBy] at ih ⊢
      omega

theorem Awaits.openedBy_le (h : Awaits used fs k) : openedBy fs ≤ depthLimit - used := by
  induction h with
  | outermost => exact Nat.zero_le _
  | operand _ _ _ ih => exact ih
  | negation _ hlt _ =>
      simp only [openedBy]
      omega
  | plain _ ih => exact ih
  | group _ hlt _ =>
      simp only [openedBy]
      omega

/-- Four readings for each parenthesis or negation that may be opened, and four
more. -/
theorem Awaits.length_lt (h : Awaits used fs k) : fs.length < 4 * (depthLimit - used + 1) := by
  have hk := k.saved_le
  have hlen := h.length_le
  have hopen := h.openedBy_le
  omega

namespace Moment

/-- What holds at every moment of a call on a parser that counted `used` parentheses
and negations as open before. The count is exact, except after a refusal. -/
inductive Sound (used : Nat) : Moment → Prop
  | begun {p : Parser} : p.nesting = used → Sound used ⟨[], .begun, p⟩
  | calling {fs : List Frame} {k : Phrase} {p : Parser} :
      Awaits used fs k → p.nesting = used + openedBy fs → Sound used ⟨fs, .calling k, p⟩
  | read {fs : List Frame} {k : Phrase} {c : Condition} {p : Parser} :
      Awaits used fs k → p.nesting = used + openedBy fs →
      Sound used ⟨fs, .returning (.ok c), p⟩
  | refused {fs : List Frame} {k : Phrase} {e : SyntaxError} {p : Parser} :
      Awaits used fs k → Sound used ⟨fs, .returning (.error e), p⟩
  | ended {r : Except SyntaxError Condition} {p : Parser} : Sound used ⟨[], .ended r, p⟩

theorem Sound.active_le {m : Moment} (h : Sound used m) :
    m.active ≤ 4 * (depthLimit - used + 1) := by
  cases h with
  | begun => exact Nat.zero_le _
  | calling h => exact h.length_lt
  | read h => exact Nat.le_of_lt h.length_lt
  | refused h => exact Nat.le_of_lt h.length_lt
  | ended => exact Nat.zero_le _

variable {p : Parser} {m : Moment}

theorem sound_of_leave {r : Reading} (h : Awaits used fs k)
    (hr : ∀ c q, r = some (.ok c, q) → q.nesting = used + openedBy fs)
    (hm : leave fs r = some m) : Sound used m := by
  obtain ⟨⟨x, q⟩, rfl, rfl⟩ := Option.map_eq_some_iff.1 hm
  cases x with
  | error e => exact .refused h
  | ok c => exact .read h (hr c q rfl)

theorem sound_of_enter (h : Awaits used fs k) (hn : p.nesting = used + openedBy fs)
    (hm : enter fs k p = some m) : Sound used m := by
  have hopened : p.raise.advance.nesting = used + (openedBy fs + 1) := by
    rw [Parser.nesting_advance, Parser.nesting_raise, hn, Nat.add_assoc]
  have hroom (hlimit : p.raise.nesting ≤ depthLimit) : used + openedBy fs < depthLimit := by
    rw [← hn]
    exact hlimit
  cases k with
  | disjunction =>
      cases hm
      exact .calling (.operand .or none h) hn
  | conjunction =>
      cases hm
      exact .calling (.operand .and none h) hn
  | negation =>
      rw [enter] at hm
      split_ifs at hm with hcur hlimit
      · cases hm
        exact .calling (.negation h (hroom hlimit)) hopened
      · exact sound_of_leave h (by simp [Parser.refuseDeep]) hm
      · cases hm
        exact .calling (.plain h) hn
  | atom =>
      rw [enter] at hm
      split at hm
      · refine sound_of_leave h ?_ hm
        rintro c q ⟨⟩
        rw [Parser.nesting_advance, hn]
      · split_ifs at hm with hlimit
        · cases hm
          exact .calling (.group h (hroom hlimit)) hopened
        · exact sound_of_leave h (by simp [Parser.refuseDeep]) hm
      · exact sound_of_leave h (by simp [Parser.refuse]) hm

theorem sound_of_goOn {o : Connective} {c : Condition} (h : Awaits used fs o.joined)
    (hn : p.nesting = used + openedBy fs) (hm : goOn o fs c p = some m) : Sound used m := by
  unfold goOn at hm
  split_ifs at hm
  · cases hm
    refine .calling (.operand o (some c) h) ?_
    rw [Parser.nesting_advance]
    exact hn
  · refine sound_of_leave h ?_ hm
    rintro d q ⟨⟩
    exact hn

/-- Where a parenthesis or negation was opened, the count is lowered again. -/
theorem nesting_lower? {q : Parser} (hn : p.nesting = used + (openedBy fs + 1))
    (hq : p.lower? = some q) : q.nesting = used + openedBy fs := by
  have := Parser.nesting_of_lower? hq
  omega

theorem sound_of_resume {f : Frame} {c : Condition} (h : Awaits used (f :: fs) k)
    (hn : p.nesting = used + openedBy (f :: fs)) (hm : resume fs f c p = some m) :
    Sound used m := by
  cases h with
  | operand o left h =>
      cases left with
      | none => exact sound_of_goOn h hn hm
      | some left =>
          rw [resume] at hm
          split_ifs at hm
          · exact sound_of_goOn h hn hm
          · exact sound_of_leave h (by simp [Parser.refuseDeep]) hm
  | plain h =>
      refine sound_of_leave h ?_ hm
      rintro d q ⟨⟩
      exact hn
  | negation h _ =>
      refine sound_of_leave h ?_ hm
      intro d q hq
      obtain ⟨q', hq', hd⟩ := Option.bind_eq_some_iff.1 hq
      rw [Parser.eq_of_bounded hd]
      exact nesting_lower? hn hq'
  | group h _ =>
      refine sound_of_leave h ?_ hm
      intro d q hq
      split_ifs at hq
      · obtain ⟨q', hq', hd⟩ := Option.map_eq_some_iff.1 hq
        cases hd
        refine nesting_lower? ?_ hq'
        rw [Parser.nesting_advance]
        exact hn
      · cases hq

/-- What holds at a moment of a call holds at the next. -/
theorem Sound.step {call : Call} {m' : Moment} (h : Sound used m)
    (hm : call.step m = some m') : Sound used m' := by
  cases h with
  | begun hn =>
      rw [Call.step] at hm
      split_ifs at hm
      · cases hm
        exact .ended
      · cases hm
        exact .calling .outermost hn
  | calling h hn => exact sound_of_enter h hn hm
  | @read fs k c p h hn =>
      cases fs with
      | nil =>
          cases hm
          exact .ended
      | cons f fs => exact sound_of_resume h hn hm
  | @refused fs k e p h =>
      -- A refusal lowers no count, but nothing is entered behind it: the frames suffice.
      cases h with
      | outermost =>
          cases hm
          exact .ended
      | operand _ _ h | negation h _ | plain h | group h _ =>
          cases hm
          exact .refused h
  | ended => cases hm

theorem Sound.reaches {call : Call} {m' : Moment} (h : Sound used m)
    (hm : Reaches call.step m m') : Sound used m' := by
  induction hm with
  | refl => exact h
  | tail _ hstep ih => exact ih.step hstep

end Moment

end

/-! ## The moments of a reading -/

theorem Reading.andThen_eq_some {r : Reading} {f : Condition → Parser → Reading}
    {x : Except SyntaxError Condition × Parser} (h : r.andThen f = some x) :
    (∃ e q, r = some (.error e, q) ∧ x = (.error e, q)) ∨
      ∃ c q, r = some (.ok c, q) ∧ f c q = some x := by
  match r, h with
  | some (.error e, q), h => exact .inl ⟨e, q, rfl, (Option.some.inj h).symm⟩
  | some (.ok c, q), h => exact .inr ⟨c, q, rfl, h⟩

section

open Moment

variable {call : Call} {fs : List Frame} {m : Moment} {r : Except SyntaxError Condition}
  {q : Parser}

/-- A reading that waits goes on behind a phrase that was read, and is left when the
phrase is refused. -/
theorem reaches_of_andThen {f : Frame} {x : Reading} {g : Condition → Parser → Reading}
    (hx : x.andThen g = some (r, q))
    (hread : ∀ r' q', x = some (r', q') → Reaches call.step m ⟨f :: fs, .returning r', q'⟩)
    (hnext : ∀ c q', g c q' = some (r, q) →
      Reaches call.step ⟨f :: fs, .returning (.ok c), q'⟩ ⟨fs, .returning r, q⟩) :
    Reaches call.step m ⟨fs, .returning r, q⟩ := by
  rcases Reading.andThen_eq_some hx with ⟨e, q', hr, heq⟩ | ⟨c, q', hr, hg⟩
  · cases heq
    exact (hread _ _ hr).tail rfl
  · exact (hread _ _ hr).trans (hnext c q' hg)

/-- From the moment at which a phrase of the kind `k` is asked for, a call gets to
the moment at which it returns what `read` gives, above the same frames. -/
def Follows (call : Call) (k : Phrase) (read : Parser → Reading) : Prop :=
  ∀ ⦃p q : Parser⦄ ⦃r : Except SyntaxError Condition⦄, read p = some (r, q) →
    ∀ fs, Reaches call.step ⟨fs, .calling k, p⟩ ⟨fs, .returning r, q⟩

theorem Follows.chain {o : Connective} {read : Parser → Reading}
    (h : Follows call o.operand read) (n : Nat) {c : Condition} {p : Parser}
    (hc : Parser.chain o.token o.join read n c p = some (r, q))
    (hm : call.step m = goOn o fs c p) : Reaches call.step m ⟨fs, .returning r, q⟩ := by
  induction n generalizing c p m with
  | zero => cases hc
  | succ n ih =>
      rw [Parser.chain] at hc
      rw [goOn] at hm
      by_cases hcur : p.current = some o.token
      · rw [if_pos hcur] at hc hm
        refine .head hm (reaches_of_andThen hc (fun r' q' hr => h hr _) ?_)
        intro d q' hd
        -- The two operands are joined where the frame is resumed, and the row goes on.
        rw [Parser.bounded] at hd
        by_cases hdepth : (o.join c d).depth ≤ depthLimit
        · rw [if_pos hdepth] at hd
          exact ih hd (if_pos hdepth)
        · rw [if_neg hdepth] at hd
          cases hd
          exact .single (if_neg hdepth)
      · rw [if_neg hcur] at hc hm
        cases hc
        exact .single hm

theorem Follows.joined {n : Nat} (o : Connective)
    (h : Follows call o.operand (Parser.readPhrase n o.operand)) :
    Follows call o.joined (Parser.readPhrase (n + 1) o.joined) := by
  intro p q r hr fs
  have hread : Parser.readPhrase (n + 1) o.joined p =
      (Parser.readPhrase n o.operand p).andThen fun c q =>
        Parser.chain o.token o.join (Parser.readPhrase n o.operand) (q.pending.length + 1) c q := by
    cases o <;> rw [Connective.joined, Parser.readPhrase] <;> rfl
  have hstep : call.step ⟨fs, .calling o.joined, p⟩ =
      some ⟨.operand o none :: fs, .calling o.operand, p⟩ := by
    cases o <;> rfl
  rw [hread] at hr
  refine .head hstep (reaches_of_andThen hr (fun r' q' hr => h hr _) ?_)
  intro c q' hc
  exact h.chain _ hc rfl

theorem Follows.negation {n : Nat} (h : Follows call .negation (Parser.readPhrase n .negation))
    (ha : Follows call .atom (Parser.readPhrase n .atom)) :
    Follows call .negation (Parser.readPhrase (n + 1) .negation) := by
  intro p q r hr fs
  rw [Parser.readPhrase] at hr
  have hstep : call.step ⟨fs, .calling .negation, p⟩ = enter fs .negation p := rfl
  rw [enter] at hstep
  by_cases hcur : p.current = some .not
  · rw [if_pos hcur] at hr hstep
    by_cases hlimit : p.raise.nesting ≤ depthLimit
    · rw [if_pos hlimit] at hr hstep
      refine .head hstep (reaches_of_andThen hr (fun r' q' hr => h hr _) ?_)
      intro c q' hc
      exact .single (congrArg (leave fs) hc)
    · rw [if_neg hlimit] at hr hstep
      exact .single (hstep.trans (congrArg (leave fs) hr))
  · rw [if_neg hcur] at hr hstep
    have hplain : call.step ⟨.plain :: fs, .returning r, q⟩ = some ⟨fs, .returning r, q⟩ := by
      cases r <;> rfl
    exact .head hstep ((ha hr _).tail hplain)

theorem Follows.atom {n : Nat} (h : Follows call .disjunction (Parser.readPhrase n .disjunction)) :
    Follows call .atom (Parser.readPhrase (n + 1) .atom) := by
  intro p q r hr fs
  rw [Parser.readPhrase] at hr
  have hstep : call.step ⟨fs, .calling .atom, p⟩ = enter fs .atom p := rfl
  rw [enter] at hstep
  cases hcur : p.current with
  | none =>
      simp only [hcur] at hr hstep
      exact .single (hstep.trans (congrArg (leave fs) hr))
  | some t =>
      cases t with
      | opening =>
          simp only [hcur] at hr hstep
          by_cases hlimit : p.raise.nesting ≤ depthLimit
          · rw [if_pos hlimit] at hr hstep
            refine .head hstep (reaches_of_andThen hr (fun r' q' hr => h hr _) ?_)
            intro c q' hc
            exact .single (congrArg (leave fs) hc)
          · rw [if_neg hlimit] at hr hstep
            exact .single (hstep.trans (congrArg (leave fs) hr))
      | identifier _ | and | or | not | closing =>
          simp only [hcur] at hr hstep
          exact .single (hstep.trans (congrArg (leave fs) hr))

theorem follows (call : Call) (n : Nat) (k : Phrase) :
    Follows call k (Parser.readPhrase n k) := by
  induction n generalizing k with
  | zero =>
      intro p q r hr
      cases hr
  | succ n ih =>
      cases k with
      | disjunction => exact .joined .or (ih .conjunction)
      | conjunction => exact .joined .and (ih .negation)
      | negation => exact (ih .negation).negation (ih .atom)
      | atom => exact (ih .disjunction).atom

end

/-! ## The most readings under way -/

section

variable (call : Call)

/-- An atom is read within three other readings. -/
theorem reaches_atom {p : Parser} (hp : p.current ≠ some .not) (fs : List Frame) :
    Reaches call.step ⟨fs, .calling .disjunction, p⟩
      ⟨.plain :: .operand .and none :: .operand .or none :: fs, .calling .atom, p⟩ :=
  .head rfl (.head rfl (.single (if_neg hp)))

/-- Parentheses in a row take four readings each, as long as the limit allows them,
and what follows them four more. -/
theorem exists_active_of_openings (stop nesting : Nat) (ls rest : List Lexeme)
    (hls : ∀ x ∈ ls, x.token = .opening) (hrest : ∀ x ∈ rest.head?, x.token ≠ .not)
    (hlimit : nesting + ls.length ≤ depthLimit) (fs : List Frame) :
    ∃ m, Reaches call.step ⟨fs, .calling .disjunction, .inFrontOf stop nesting (ls ++ rest)⟩ m ∧
      m.active = fs.length + 4 * (ls.length + 1) := by
  induction ls generalizing nesting fs with
  | nil =>
      have hcur : (Parser.inFrontOf stop nesting rest).current ≠ some .not := by
        rw [Parser.inFrontOf_current]
        intro h
        obtain ⟨x, hx, ht⟩ := Option.map_eq_some_iff.1 h
        exact hrest x hx ht
      exact ⟨_, reaches_atom call hcur fs, rfl⟩
  | cons x ls ih =>
      obtain ⟨t, i⟩ := x
      obtain rfl : t = .opening := hls _ List.mem_cons_self
      rw [List.length_cons] at hlimit ⊢
      have hls' : ∀ x ∈ ls, x.token = .opening := fun x hx => hls x (List.mem_cons_of_mem _ hx)
      have hlimit' : nesting + 1 + ls.length ≤ depthLimit := by omega
      obtain ⟨m, hm, hactive⟩ := ih (nesting + 1) hls' hlimit'
        (.group :: .plain :: .operand .and none :: .operand .or none :: fs)
      have hlt : nesting + 1 ≤ depthLimit := by omega
      have hstep : call.step
          ⟨.plain :: .operand .and none :: .operand .or none :: fs, .calling .atom,
            .inFrontOf stop nesting (⟨.opening, i⟩ :: (ls ++ rest))⟩ =
          some ⟨.group :: .plain :: .operand .and none :: .operand .or none :: fs,
            .calling .disjunction, .inFrontOf stop (nesting + 1) (ls ++ rest)⟩ := by
        refine (if_pos hlt).trans ?_
        rw [Parser.raise_inFrontOf, Parser.advance_inFrontOf]
      refine ⟨m, (reaches_atom call (by simp) fs).trans (.head hstep hm), ?_⟩
      simp only [List.length_cons] at hactive
      omega

end

namespace Call

/-- With four readings for each parenthesis or negation that may still be opened, and
four more, a call gives what it gives without a bound. -/
theorem runWithin_eq_run (call : Call) (p : Parser) {n : Nat}
    (hn : 4 * (depthLimit - p.nesting + 1) ≤ n) : call.runWithin n p = some (call.run p) := by
  rw [runWithin, p.readPhrase_eq_expression hn]
  obtain ⟨r, q, hr⟩ : ∃ r q, p.expression = (r, q) := ⟨_, _, rfl⟩
  rw [hr]
  cases call with
  | expression =>
      change _ = some p.expression
      rw [hr]
      cases r <;> rfl
  | sentence =>
      change _ = some p.sentence
      cases hcur : p.current with
      | none =>
          rw [Parser.sentence_of_current_eq_none hcur]
          rfl
      | some t =>
          cases r with
          | error e =>
              rw [Parser.sentence_of_error hcur hr]
              rfl
          | ok c =>
              rw [Parser.sentence_of_ok hcur hr]
              cases hq : q.current <;> simp [Reading.andThen, conclude, hq, SyntaxError.unexpected]

theorem reaches_of_runWithin {call : Call} {n : Nat} {p q : Parser}
    {r : Except SyntaxError Condition} (h : call.runWithin n p = some (r, q)) :
    Reaches call.step ⟨[], .begun, p⟩ ⟨[], .ended r, q⟩ := by
  rw [runWithin] at h
  by_cases hp : call = .sentence ∧ p.current = none
  · rw [if_pos hp] at h
    cases h
    exact .single (if_pos hp)
  · rw [if_neg hp] at h
    refine .head (if_neg hp) ?_
    rcases Reading.andThen_eq_some h with ⟨e, q', hr, heq⟩ | ⟨c, q', hr, hc⟩
    · cases heq
      exact (follows call n .disjunction hr []).tail rfl
    · cases hc
      exact (follows call n .disjunction hr []).tail rfl

/-- A call comes to an end, with what `run` gives. -/
theorem final_mem_eval (call : Call) (p : Parser) :
    ⟨[], .ended (call.run p).1, (call.run p).2⟩ ∈ eval call.step ⟨[], .begun, p⟩ :=
  mem_eval.2 ⟨reaches_of_runWithin (call.runWithin_eq_run p (Nat.le_refl _)), rfl⟩

/-- However a parser was used before, a call on it has never more than 516 readings
under way, and comes to an end with what `run` gives; with no more readings allowed
it gives the same. -/
theorem readings_under_way_bounded (s : String) (skipped : Nat) (calls : List Call)
    (call : Call) :
    let p := Parser.reached s skipped calls
    (∀ m, Reaches call.step ⟨[], .begun, p⟩ m → m.active ≤ 516) ∧
      ⟨[], .ended (call.run p).1, (call.run p).2⟩ ∈ eval call.step ⟨[], .begun, p⟩ ∧
      call.runWithin 516 p = some (call.run p) := by
  intro p
  have hlimit : 4 * (depthLimit - p.nesting + 1) ≤ 516 := by
    unfold depthLimit
    omega
  refine ⟨?_, call.final_mem_eval p, call.runWithin_eq_run p hlimit⟩
  intro m hm
  have hsound : m.Sound p.nesting := Moment.Sound.reaches (.begun rfl) hm
  exact Nat.le_trans hsound.active_le hlimit

/-- The parenthesis that is one too many is met in the last of 516 readings, and
515 are not enough. -/
theorem readings_under_way_when_crowded :
    (∃ m, Reaches Call.sentence.step ⟨[], .begun, Parser.reached Parser.crowded 0 []⟩ m ∧
        516 ≤ m.active ∧ m.active ≤ 516) ∧
      Call.sentence.runWithin 516 (Parser.reached Parser.crowded 0 []) =
        some (.error (.tooDeep 128 128), ⟨none, 128, [⟨.identifier "a", 129⟩], 130, 129⟩) ∧
      Call.sentence.runWithin 515 (Parser.reached Parser.crowded 0 []) = none := by
  obtain ⟨hbound, -, hrun⟩ := readings_under_way_bounded Parser.crowded 0 [] .sentence
  have hstart : Parser.reached Parser.crowded 0 [] =
      .inFrontOf 130 0 ((List.range 128).map (Lexeme.mk .opening) ++
        [⟨.opening, 128⟩, ⟨.identifier "a", 129⟩]) := by
    rw [Parser.reached, Reader.ofText, Parser.toList_crowded]
    decide +kernel
  have hcur : (Parser.reached Parser.crowded 0 []).current = some .opening := by
    rw [hstart]
    decide +kernel
  have hlength : ((List.range 128).map (Lexeme.mk .opening)).length = 128 := by
    rw [List.length_map, List.length_range]
  refine ⟨?_, ?_, ?_⟩
  · obtain ⟨m, hm, hactive⟩ := exists_active_of_openings .sentence 130 0
      ((List.range 128).map (Lexeme.mk .opening)) [⟨.opening, 128⟩, ⟨.identifier "a", 129⟩]
      (by simp) (by simp) (by rw [hlength]; decide) []
    rw [← hstart] at hm
    rw [hlength] at hactive
    have hbegin := Call.sentence.step_begun (hcur ▸ Option.some_ne_none _) []
    have hreach : Reaches Call.sentence.step ⟨[], .begun, Parser.reached Parser.crowded 0 []⟩ m :=
      .head hbegin hm
    exact ⟨m, hreach, hactive.ge, hbound m hreach⟩
  · rw [hrun, Parser.givesUp_crowded.result]
    rfl
  · rw [hstart]
    decide +kernel

end Call

end QueryFilter.Binding
