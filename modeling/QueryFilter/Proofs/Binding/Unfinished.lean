import QueryFilter.Proofs.Binding.Limits

/-!
# Unfinished parentheses and negations

A `(` among tokens is finished when the `)` that closes it is among them too,
and a `!` when its operand is, as long as the tree of that operand is within the
limit. `unclosed` and `unapplied` count the others. Both are said in terms of
the grammar, token by token, without the states of a reading.

The main statement is `unfinished_eq`: after tokens that can be read, these are
exactly the parentheses and negations that the state keeps open. A complete
phrase in front of other tokens leaves nothing unfinished, so only the
negations of the levels and the parentheses between them count. That a
parenthesis between two levels is unfinished follows from `Viable`: what stands
behind it can be continued to a sentence of its own, and nothing that closes a
group can.
-/

namespace QueryFilter.Binding

/-- The group that a `(` in front of the tokens begins is closed among them. -/
def GroupClosed (ts : List Token) : Prop :=
  ∃ us vs, Sentence us ∧ ts = us ++ .closing :: vs

/-- The operand of a `!` in front of the tokens is complete among them, and within
the limit. -/
def OperandComplete (ts : List Token) : Prop :=
  ∃ us vs c n, Derives .negation us c n ∧ c.depth ≤ depthLimit ∧ ts = us ++ vs

open Classical in
/-- How many `(` among the tokens are not closed. -/
noncomputable def unclosed : List Token → Nat
  | [] => 0
  | t :: ts => (if t = .opening ∧ ¬ GroupClosed ts then 1 else 0) + unclosed ts

open Classical in
/-- How many `!` among the tokens have no complete operand. -/
noncomputable def unapplied : List Token → Nat
  | [] => 0
  | t :: ts => (if t = .not ∧ ¬ OperandComplete ts then 1 else 0) + unapplied ts

/-- How many parentheses and negations among the tokens are not finished. -/
noncomputable def unfinished (ts : List Token) : Nat := unclosed ts + unapplied ts

@[simp] theorem unfinished_nil : unfinished [] = 0 := rfl

theorem unfinished_cons_of_ne {t : Token} (ho : t ≠ .opening) (hn : t ≠ .not) (ts : List Token) :
    unfinished (t :: ts) = unfinished ts := by
  simp [unfinished, unclosed, unapplied, ho, hn]

theorem unfinished_opening_of_closed {ts : List Token} (h : GroupClosed ts) :
    unfinished (.opening :: ts) = unfinished ts := by
  simp [unfinished, unclosed, unapplied, h]

theorem unfinished_opening_of_not_closed {ts : List Token} (h : ¬ GroupClosed ts) :
    unfinished (.opening :: ts) = unfinished ts + 1 := by
  simp [unfinished, unclosed, unapplied, h]
  omega

theorem unfinished_not_of_complete {ts : List Token} (h : OperandComplete ts) :
    unfinished (.not :: ts) = unfinished ts := by
  simp [unfinished, unclosed, unapplied, h]

theorem unfinished_not_of_not_complete {ts : List Token} (h : ¬ OperandComplete ts) :
    unfinished (.not :: ts) = unfinished ts + 1 := by
  simp [unfinished, unclosed, unapplied, h]
  omega

/-- A complete phrase leaves nothing unfinished. -/
theorem Derives.unfinished_append {k : Phrase} {ts : List Token} {c : Condition} {n : Nat}
    (h : Derives k ts c n) (hc : c.depth ≤ depthLimit) (rest : List Token) :
    unfinished (ts ++ rest) = unfinished rest := by
  induction h generalizing rest with
  | identifier text => exact unfinished_cons_of_ne (by simp) (by simp) rest
  | @group ts c n hd ih =>
      have hclosed : GroupClosed (ts ++ .closing :: rest) := ⟨ts, rest, ⟨c, n, hd⟩, rfl⟩
      rw [List.append_assoc, List.cons_append, List.singleton_append,
        unfinished_opening_of_closed hclosed, ih hc, unfinished_cons_of_ne (by simp) (by simp)]
  | atom _ ih => exact ih hc rest
  | @not ts c n hd ih =>
      have hdepth : c.depth ≤ depthLimit := Nat.le_of_succ_le hc
      have hcomplete : OperandComplete (ts ++ rest) := ⟨ts, rest, c, n, hd, hdepth, rfl⟩
      rw [List.cons_append, unfinished_not_of_complete hcomplete, ih hdepth]
  | negation _ ih => exact ih hc rest
  | @and ts us l r m n _ _ ihl ihr =>
      simp only [Condition.depth] at hc
      rw [List.append_assoc, ihl (by omega), List.cons_append,
        unfinished_cons_of_ne (by simp) (by simp), ihr (by omega)]
  | conjunction _ ih => exact ih hc rest
  | @or ts us l r m n _ _ ihl ihr =>
      simp only [Condition.depth] at hc
      rw [List.append_assoc, ihl (by omega), List.cons_append,
        unfinished_cons_of_ne (by simp) (by simp), ihr (by omega)]

/-! ## What cannot be finished -/

theorem Viable.of_append {ts us : List Token} (h : Viable (ts ++ us)) : Viable ts := by
  obtain ⟨vs, hv⟩ := h
  exact ⟨us ++ vs, by rwa [← List.append_assoc]⟩

/-- What can be continued to a sentence of its own does not close a group. -/
theorem Viable.not_groupClosed {ts : List Token} (h : Viable ts) : ¬ GroupClosed ts := by
  rintro ⟨us, vs, ⟨c, n, hd⟩, rfl⟩
  obtain ⟨l, a, hf, -, -⟩ := (derives_iff_follow us c n).1 hd
  have hn : State.next? ⟨l, [], some a⟩ .closing = none := rfl
  rw [List.append_cons] at h
  exact not_viable_of_next?_eq_none hf hn h.of_append

theorem Derives.of_opening {us : List Token} {c : Condition} {n : Nat}
    (h : Derives .negation (.opening :: us) c n) :
    ∃ ws m, us = ws ++ [.closing] ∧ Derives .disjunction ws c m := by
  cases h with
  | atom h =>
      cases h with
      | group h => exact ⟨_, _, rfl, h⟩

theorem Derives.of_not {us : List Token} {c : Condition} {n : Nat}
    (h : Derives .negation (.not :: us) c n) :
    ∃ d m, c = .negate d ∧ Derives .negation us d m := by
  cases h with
  | atom h => cases h
  | not h => exact ⟨_, _, rfl, h⟩

theorem not_operandComplete_nil : ¬ OperandComplete [] := by
  rintro ⟨us, vs, c, n, hd, -, he⟩
  exact hd.ne_nil (List.append_eq_nil_iff.1 he.symm).1

theorem OperandComplete.exists_cons {t : Token} {ts : List Token} (h : OperandComplete (t :: ts)) :
    ∃ us vs c n, Derives .negation (t :: us) c n ∧ c.depth ≤ depthLimit ∧ ts = us ++ vs := by
  obtain ⟨us, vs, c, n, hd, hc, he⟩ := h
  obtain ⟨u, us, rfl⟩ := List.exists_cons_of_ne_nil hd.ne_nil
  rw [List.cons_append, List.cons.injEq] at he
  obtain ⟨rfl, rfl⟩ := he
  exact ⟨us, vs, c, n, hd, hc, rfl⟩

theorem Viable.not_operandComplete {ts : List Token} (h : Viable ts) :
    ¬ OperandComplete (.opening :: ts) := by
  intro ho
  obtain ⟨us, vs, c, n, hd, -, rfl⟩ := ho.exists_cons
  obtain ⟨ws, m, rfl, hw⟩ := hd.of_opening
  refine h.not_groupClosed ⟨ws, vs, ⟨c, m, hw⟩, ?_⟩
  rw [List.append_assoc, List.singleton_append]

theorem OperandComplete.of_not {ts : List Token} (h : OperandComplete (.not :: ts)) :
    OperandComplete ts := by
  obtain ⟨us, vs, c, n, hd, hc, rfl⟩ := h.exists_cons
  obtain ⟨d, m, rfl, hu⟩ := hd.of_not
  exact ⟨us, vs, d, m, hu, Nat.le_of_succ_le hc, rfl⟩

/-- Negations in front of what completes no operand stay unfinished. -/
theorem unfinished_replicate_not {ts : List Token} (h : ¬ OperandComplete ts) (k : Nat) :
    unfinished (List.replicate k .not ++ ts) = k + unfinished ts := by
  have hk : ∀ k, ¬ OperandComplete (List.replicate k .not ++ ts) := by
    intro k
    induction k with
    | zero => exact h
    | succ k ih => exact fun ho => ih ho.of_not
  induction k with
  | zero => simp
  | succ k ih =>
      rw [List.replicate_succ, List.cons_append, unfinished_not_of_not_complete (hk k), ih]
      omega

/-! ## Negations in front of a complete operand -/

/-- No phrase ends within an atom. -/
theorem Derives.eq_of_atom {os us vs : List Token} {a c : Condition} {m n : Nat}
    (ha : Derives .atom os a n) (hc : Derives .negation us c m) (he : os = us ++ vs) : c = a := by
  cases ha with
  | identifier text =>
      obtain ⟨u, us, rfl⟩ := List.exists_cons_of_ne_nil hc.ne_nil
      simp only [List.cons_append, List.cons.injEq, List.nil_eq, List.append_eq_nil_iff] at he
      obtain ⟨rfl, rfl, rfl⟩ := he
      cases hc with
      | atom h => cases h with | identifier => rfl
  | @group ts _ _ hd =>
      obtain ⟨u, us, rfl⟩ := List.exists_cons_of_ne_nil hc.ne_nil
      simp only [List.cons_append, List.cons.injEq] at he
      obtain ⟨rfl, he⟩ := he
      obtain ⟨ws, k, rfl, hw⟩ := hc.of_opening
      have hv : Viable ts := ⟨[], _, _, by rwa [List.append_nil]⟩
      rcases List.eq_nil_or_concat vs with rfl | ⟨vs, v, rfl⟩
      · rw [List.append_nil] at he
        obtain rfl := List.append_cancel_right he
        exact (hw.unique hd).1
      · -- A group that ends within this one would be closed by its tokens.
        rw [List.concat_eq_append, ← List.append_assoc, List.append_assoc ws] at he
        obtain ⟨rfl, -⟩ := List.append_inj' he rfl
        exact absurd ⟨ws, vs, ⟨c, k, hw⟩, rfl⟩ hv.not_groupClosed

theorem Derives.eq_of_negations {os us vs : List Token} {a c : Condition} {m n k : Nat}
    (ha : Derives .atom os a n) (hc : Derives .negation us c m)
    (he : List.replicate k .not ++ os = us ++ vs) : c = Condition.negate^[k] a := by
  induction k generalizing us c m with
  | zero => exact ha.eq_of_atom hc he
  | succ k ih =>
      obtain ⟨u, us, rfl⟩ := List.exists_cons_of_ne_nil hc.ne_nil
      rw [List.replicate_succ, List.cons_append, List.cons_append, List.cons.injEq] at he
      obtain ⟨rfl, he⟩ := he
      obtain ⟨d, j, rfl, hd⟩ := hc.of_not
      rw [ih hd he, Function.iterate_succ_apply']

theorem Derives.operandComplete_iff {os : List Token} {a : Condition} {n : Nat}
    (ha : Derives .atom os a n) (k : Nat) :
    OperandComplete (List.replicate k .not ++ os) ↔ a.depth + k ≤ depthLimit := by
  rw [← Condition.depth_iterate_negate]
  constructor
  · rintro ⟨us, vs, c, m, hc, hd, he⟩
    rwa [ha.eq_of_negations hc he] at hd
  · intro hd
    exact ⟨_, [], _, _, ha.atom.negations k, hd, (List.append_nil _).symm⟩

theorem Derives.unfinished_negations {os : List Token} {a : Condition} {n : Nat}
    (ha : Derives .atom os a n) (hd : a.depth ≤ depthLimit) (k : Nat) :
    unfinished (List.replicate k .not ++ os) = a.depth + k - depthLimit - 1 := by
  induction k with
  | zero =>
      have hos := ha.unfinished_append hd []
      rw [List.append_nil, unfinished_nil] at hos
      rw [List.replicate_zero, List.nil_append, hos]
      omega
  | succ k ih =>
      rw [List.replicate_succ, List.cons_append]
      by_cases hk : a.depth + k ≤ depthLimit
      · rw [unfinished_not_of_complete ((ha.operandComplete_iff k).2 hk), ih]
        omega
      · rw [unfinished_not_of_not_complete fun h => hk ((ha.operandComplete_iff k).1 h), ih]
        omega

/-! ## From the levels to the tokens -/

theorem Waits.unfinished_append {k : Phrase} {operator : Token} {o : Option Condition}
    {ts : List Token} (h : Waits k operator o ts) (ho : operator ≠ .opening)
    (hn : operator ≠ .not) (hd : depthOf o ≤ depthLimit) (rest : List Token) :
    unfinished (ts ++ rest) = unfinished rest := by
  cases o with
  | none =>
      obtain rfl : ts = [] := h
      rfl
  | some c =>
      obtain ⟨us, n, hc, rfl⟩ := h
      rw [List.append_assoc, hc.unfinished_append hd, List.singleton_append,
        unfinished_cons_of_ne ho hn]

theorem Level.Holds.unfinished_append {l : Level} {ts : List Token} (h : l.Holds ts)
    (hw : l.weight ≤ depthLimit) (rest : List Token) :
    unfinished (ts ++ rest) = unfinished (List.replicate l.negations .not ++ rest) := by
  obtain ⟨ds, cs, hd, hc, rfl⟩ := h
  unfold Level.weight at hw
  rw [List.append_assoc, List.append_assoc, hd.unfinished_append (by simp) (by simp) (by omega),
    hc.unfinished_append (by simp) (by simp) (by omega)]

theorem Level.Holds.viable {l : Level} {ts rest : List Token} (h : l.Holds ts)
    (hr : Viable rest) : Viable (ts ++ .opening :: rest) := by
  obtain ⟨us, c, n, hd⟩ := hr
  obtain ⟨m, hm⟩ := h.tree hd.group
  refine ⟨us ++ [.closing], l.tree c, m, ?_⟩
  simpa using hm

theorem Encloses.unfinished_append {ls : List Level} {es : List Token} (h : Encloses ls es)
    (hw : weightAround ls ≤ depthLimit) {rest : List Token} (hr : Viable rest) :
    unfinished (es ++ rest) = openAround ls + unfinished rest := by
  induction h generalizing rest with
  | nil => simp
  | @cons l ls es ts _ hl ih =>
      unfold weightAround at hw
      rw [List.append_assoc, List.append_assoc, List.singleton_append,
        ih (by omega) (hl.viable hr), hl.unfinished_append (by omega),
        unfinished_replicate_not hr.not_operandComplete,
        unfinished_opening_of_not_closed hr.not_groupClosed, openAround_cons]
      omega

/-- The parentheses that are not closed and the negations that were not applied when
a reading ends in a state. Of the negations in front of a complete operand those
are left for which it would get too deep. -/
def State.unfinished : State → Nat
  | ⟨l, es, none⟩ => l.negations + openAround es
  | ⟨l, es, some a⟩ => a.depth + l.negations - depthLimit - 1 + openAround es

/-- After tokens that can be read within the depth limit, what is unfinished among
them is what the state keeps open. -/
theorem unfinished_eq {s : State} {ts : List Token} (h : State.follow {} ts = some s)
    (hw : s.weight ≤ depthLimit) : unfinished ts = s.unfinished := by
  obtain ⟨es, us, os, he, hu, ho, rfl⟩ := State.holds_of_follow h
  obtain ⟨l, ls, o⟩ := s
  simp only [State.weight] at hw
  have hl : l.weight ≤ depthLimit := by omega
  have hls : weightAround ls ≤ depthLimit := by omega
  cases o with
  | none =>
      obtain rfl : os = [] := ho
      obtain ⟨m, hm⟩ := hu.tree (Derives.identifier "")
      have hv : Viable (us ++ []) := ⟨[.identifier ""], _, m, by rwa [List.append_nil]⟩
      rw [List.append_assoc, he.unfinished_append hls hv, hu.unfinished_append hl,
        unfinished_replicate_not not_operandComplete_nil, unfinished_nil]
      simp only [State.unfinished]
      omega
  | some a =>
      obtain ⟨n, ha⟩ := ho
      obtain ⟨m, hm⟩ := hu.tree ha
      have hv : Viable (us ++ os) := ⟨[], l.tree a, m, by rwa [List.append_nil]⟩
      rw [List.append_assoc, he.unfinished_append hls hv, hu.unfinished_append hl,
        ha.unfinished_negations (by rw [depthOf_some] at hw; omega)]
      simp only [State.unfinished]
      omega

end QueryFilter.Binding
