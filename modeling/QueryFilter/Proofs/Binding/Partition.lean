import QueryFilter.Proofs.Binding.RoundTrip

/-!
# How lexemes cover a text

`Partitions i cs ls` says offset by offset what is asked of the lexemes `ls` of the
characters `cs`, which begin at offset `i`: they stand one behind the other, each is
spelled where it stands, only blanks lie outside of them, and no word could be made
longer. Nothing is said about how the text is read. These properties belong to the
lexemes of a layout and to no other list (`partitions_iff_laid`).

A `Cursor` reads a text on demand. It skips blanks, takes the operator or the word that
it finds behind them, and stays at the end once it is there. It gives one by one what
`Scan` collects in a single pass (`Laid.readings_eq`).
-/

namespace QueryFilter.Binding

/-- The offset behind the last character of a lexeme. -/
def Lexeme.stop (x : Lexeme) : Nat := x.start + x.token.spelling.length

theorem Lexeme.stop_operator {c : Char} {t : Token} (ht : Token.ofChar? c = some t) (i : Nat) :
    Lexeme.stop ⟨t, i⟩ = i + 1 := by
  rw [Lexeme.stop, Token.spelling_of_ofChar? c t ht, List.length_singleton]

theorem Lexeme.stop_word (w : List Char) (i : Nat) :
    Lexeme.stop ⟨.identifier (String.ofList w), i⟩ = i + w.length := by
  rw [Lexeme.stop, Token.spelling, String.toList_ofList]

/-- The lexeme is spelled over an offset. -/
def Lexeme.Covers (x : Lexeme) (j : Nat) : Prop := x.start ≤ j ∧ j < x.stop

/-- What the lexemes `ls` of the characters `cs`, which begin at offset `i`, satisfy. -/
structure Partitions (i : Nat) (cs : List Char) (ls : List Lexeme) : Prop where
  increasing : ls.Pairwise fun x y => x.start < y.start
  disjoint : ls.Pairwise fun x y => x.stop ≤ y.start
  /-- Each lexeme is spelled where it stands. -/
  spelled : ∀ x ∈ ls, i ≤ x.start ∧ x.token.spelling <+: cs.drop (x.start - i)
  /-- Only blanks lie outside of the lexemes. -/
  blank : ∀ j c, cs[j]? = some c → (∀ x ∈ ls, ¬ x.Covers (i + j)) → Text.isBlank c = true
  word : ∀ x ∈ ls, ∀ text, x.token = .identifier text → IsWord text
  /-- The characters right before and right behind a word cannot belong to it. -/
  maximal : ∀ x ∈ ls, ∀ text, x.token = .identifier text → ∀ j c, cs[j]? = some c →
    i + j + 1 = x.start ∨ i + j = x.stop → isIdentifierChar c = false

/-- The first character of a lexeme tells an operator from a word. -/
theorem Token.ofChar?_or_identifier {t : Token} (h : ∀ text, t = .identifier text → IsWord text)
    {c : Char} {rest : List Char} (hs : t.spelling = c :: rest) :
    Token.ofChar? c = some t ∨ (∃ text, t = .identifier text) ∧ isIdentifierChar c = true := by
  cases t with
  | identifier text =>
      obtain ⟨-, hw⟩ := (isWord_iff text).1 (h text rfl)
      have htext : text.toList = c :: rest := hs
      exact .inr ⟨⟨text, rfl⟩, hw c (by simp [htext])⟩
  | _ =>
      obtain ⟨rfl, -⟩ := List.cons.inj hs
      exact .inl rfl

theorem Token.exists_spelling_eq_cons {t : Token} (h : ∀ text, t = .identifier text → IsWord text) :
    ∃ c rest, t.spelling = c :: rest ∧ Text.isBlank c = false := by
  obtain ⟨c, rest, hs⟩ : ∃ c rest, t.spelling = c :: rest := by
    cases t with
    | identifier text => exact List.exists_cons_of_ne_nil ((isWord_iff text).1 (h text rfl)).1
    | _ => exact ⟨_, _, rfl⟩
  refine ⟨c, rest, hs, ?_⟩
  rcases Token.ofChar?_or_identifier h hs with ht | ⟨-, hc⟩
  · exact isBlank_eq_false_of_ofChar? ht
  · exact isBlank_eq_false_of_isIdentifierChar hc

/-! ## The lexemes of a layout -/

section

variable {i : Nat} {cs : List Char} {ls : List Lexeme}

theorem Laid.isWord (h : Laid i cs ls) {x : Lexeme} (hx : x ∈ ls) (text : String)
    (ht : x.token = .identifier text) : IsWord text := by
  refine (isWord_iff text).2 (h.identifier ?_)
  rw [← ht]
  exact List.mem_map_of_mem hx

theorem Laid.start_lt_stop (h : Laid i cs ls) {x : Lexeme} (hx : x ∈ ls) : x.start < x.stop := by
  obtain ⟨c, rest, hs, -⟩ := Token.exists_spelling_eq_cons (h.isWord hx)
  simp [Lexeme.stop, hs]

theorem Laid.stop_le (h : Laid i cs ls) {x : Lexeme} (hx : x ∈ ls) : x.stop ≤ i + cs.length := by
  obtain ⟨hi, hp⟩ := h.spelling_isPrefix hx
  have hlen := hp.length_le
  have hlt := h.start_lt_stop hx
  rw [List.length_drop] at hlen
  unfold Lexeme.stop at hlt ⊢
  omega

theorem Laid.disjoint (h : Laid i cs ls) : ls.Pairwise fun x y => x.stop ≤ y.start := by
  induction h with
  | nil i => exact .nil
  | blank _ _ ih => exact ih
  | @operator i c t cs ls ht hl ih =>
      refine .cons ?_ ih
      intro y hy
      rw [Lexeme.stop_operator ht]
      exact (hl.spelling_isPrefix hy).1
  | @word i w cs ls _ _ _ hl ih =>
      refine .cons ?_ ih
      intro y hy
      rw [Lexeme.stop_word]
      exact (hl.spelling_isPrefix hy).1

theorem Laid.increasing (h : Laid i cs ls) : ls.Pairwise fun x y => x.start < y.start := by
  refine h.disjoint.imp_of_mem ?_
  intro x y hx _ hle
  exact Nat.lt_of_lt_of_le (h.start_lt_stop hx) hle

theorem Laid.isBlank_of_not_covered (h : Laid i cs ls) (j : Nat) (c : Char) (hj : cs[j]? = some c)
    (hcover : ∀ x ∈ ls, ¬ x.Covers (i + j)) : Text.isBlank c = true := by
  induction h generalizing j with
  | nil i => simp at hj
  | @blank i b cs ls hb _ ih =>
      cases j with
      | zero =>
          obtain rfl : b = c := by simpa using hj
          exact hb
      | succ j =>
          refine ih j (by simpa using hj) ?_
          rwa [Nat.add_assoc, Nat.add_comm 1]
  | @operator i b t cs ls ht _ ih =>
      cases j with
      | zero =>
          refine absurd ?_ (hcover ⟨t, i⟩ (by simp))
          simp [Lexeme.Covers, Lexeme.stop_operator ht]
      | succ j =>
          refine ih j (by simpa using hj) ?_
          rw [Nat.add_assoc, Nat.add_comm 1]
          exact fun x hx => hcover x (List.mem_cons_of_mem _ hx)
  | @word i w cs ls _ _ _ _ ih =>
      by_cases hlt : j < w.length
      · refine absurd ?_ (hcover ⟨.identifier (String.ofList w), i⟩ (by simp))
        simp [Lexeme.Covers, Lexeme.stop_word, hlt]
      · have hle : w.length ≤ j := Nat.le_of_not_lt hlt
        rw [List.getElem?_append_right hle] at hj
        refine ih (j - w.length) hj ?_
        rw [Nat.add_assoc, Nat.add_sub_cancel' hle]
        exact fun x hx => hcover x (List.mem_cons_of_mem _ hx)

/-- The characters next to a word of the layout do not belong to words. -/
theorem Laid.maximal (h : Laid i cs ls) (x : Lexeme) (hx : x ∈ ls) (text : String)
    (ht : x.token = .identifier text) (j : Nat) (c : Char) (hj : cs[j]? = some c)
    (hnext : i + j + 1 = x.start ∨ i + j = x.stop) : isIdentifierChar c = false := by
  induction h generalizing j with
  | nil i => simp at hj
  | @blank i b cs ls hb _ ih =>
      cases j with
      | zero =>
          obtain rfl : b = c := by simpa using hj
          exact isIdentifierChar_eq_false_of_isBlank hb
      | succ j => exact ih hx j (by simpa using hj) (by omega)
  | @operator i b t cs ls hop _ ih =>
      cases j with
      | zero =>
          obtain rfl : b = c := by simpa using hj
          simp [isIdentifierChar, hop]
      | succ j =>
          rcases List.mem_cons.1 hx with rfl | hx
          · grind [Token.ofChar?]
          · exact ih hx j (by simpa using hj) (by omega)
  | @word i w cs ls hn hw hc hl ih =>
      rcases List.mem_cons.1 hx with rfl | hx
      · obtain rfl : j = w.length := by
          simp only [Lexeme.stop_word] at hnext
          omega
        rw [List.getElem?_append_right (Nat.le_refl _), Nat.sub_self] at hj
        exact hc c (by simpa [List.head?_eq_getElem?] using hj)
      · obtain ⟨hstart, hp⟩ := hl.spelling_isPrefix hx
        have hstop := hl.start_lt_stop hx
        by_cases hlt : j < w.length
        · -- The word would begin right behind `w` and carry it on.
          have hzero : x.start - (i + w.length) = 0 := by omega
          obtain ⟨hne, hword⟩ := (isWord_iff text).1 (hl.isWord hx text ht)
          obtain ⟨d, rest, hd⟩ := List.exists_cons_of_ne_nil hne
          obtain ⟨ds, rfl⟩ : text.toList <+: cs := by
            simpa [hzero, ht, Token.spelling] using hp
          have hfalse := hc d (by simp [hd])
          rw [hword d (by simp [hd])] at hfalse
          exact absurd hfalse (by simp)
        · rw [List.getElem?_append_right (Nat.le_of_not_lt hlt)] at hj
          exact ih hx (j - w.length) hj (by omega)

theorem Laid.partitions (h : Laid i cs ls) : Partitions i cs ls where
  increasing := h.increasing
  disjoint := h.disjoint
  spelled := fun _ hx => h.spelling_isPrefix hx
  blank := h.isBlank_of_not_covered
  word := fun _ hx => h.isWord hx
  maximal := h.maximal

end

/-! ## No other lexemes -/

section

variable {i : Nat} {cs : List Char} {ls : List Lexeme}

theorem takeWhile_word {w cs : List Char} (hw : ∀ c ∈ w, isIdentifierChar c = true)
    (hc : ∀ c ∈ cs.head?, isIdentifierChar c = false) :
    (w ++ cs).takeWhile isIdentifierChar = w := by
  rw [List.takeWhile_append_of_pos hw]
  cases cs with
  | nil => simp
  | cons c cs => simp [hc c rfl]

/-- The lexemes `ls` behind the first ones partition the characters behind theirs. -/
theorem Partitions.of_append (ws : List Char) (front : List Lexeme)
    (h : Partitions i (ws ++ cs) (front ++ ls)) (hfront : ∀ x ∈ front, x.stop ≤ i + ws.length)
    (hback : ∀ x ∈ ls, i + ws.length ≤ x.start) : Partitions (i + ws.length) cs ls := by
  have hmem {x : Lexeme} (hx : x ∈ ls) : x ∈ front ++ ls := List.mem_append_right _ hx
  have hget (j : Nat) : (ws ++ cs)[ws.length + j]? = cs[j]? := by
    rw [List.getElem?_append_right (Nat.le_add_right _ _), Nat.add_sub_cancel_left]
  refine ⟨(List.pairwise_append.1 h.increasing).2.1, (List.pairwise_append.1 h.disjoint).2.1,
    ?_, ?_, fun x hx => h.word x (hmem hx), ?_⟩
  · intro x hx
    have hle := hback x hx
    have hp := (h.spelled x (hmem hx)).2
    have hsub : x.start - i = ws.length + (x.start - (i + ws.length)) := by omega
    rw [hsub, ← List.drop_drop, List.drop_left] at hp
    exact ⟨hle, hp⟩
  · intro j c hj hcover
    refine h.blank (ws.length + j) c ((hget j).trans hj) ?_
    rw [← Nat.add_assoc]
    intro x hx
    rcases List.mem_append.1 hx with hx | hx
    · have := hfront x hx
      unfold Lexeme.Covers
      omega
    · exact hcover x hx
  · intro x hx text ht j c hj hnext
    refine h.maximal x (hmem hx) text ht (ws.length + j) c ((hget j).trans hj) ?_
    rwa [← Nat.add_assoc]

/-- A character that is not blank is the first of a lexeme, if it is the first of all. -/
theorem Partitions.exists_cons {c : Char} (h : Partitions i (c :: cs) ls)
    (hc : Text.isBlank c = false) :
    ∃ t ms rest, ls = ⟨t, i⟩ :: ms ∧ t.spelling = c :: rest ∧ c :: rest <+: c :: cs := by
  obtain ⟨x, hx, hcover⟩ : ∃ x ∈ ls, x.Covers i := by
    by_contra hno
    have := h.blank 0 c rfl fun x hx hcover => hno ⟨x, hx, hcover⟩
    simp [hc] at this
  obtain ⟨y, ms, rfl⟩ := List.exists_cons_of_ne_nil (List.ne_nil_of_mem hx)
  obtain ⟨hle, hp⟩ := h.spelled y (by simp)
  have hy : y.start = i := by
    rcases List.mem_cons.1 hx with rfl | hx
    · exact Nat.le_antisymm hcover.1 hle
    · have := List.rel_of_pairwise_cons h.increasing hx
      have := hcover.1
      omega
  rw [hy, Nat.sub_self, List.drop_zero] at hp
  obtain ⟨d, rest, hs, -⟩ := Token.exists_spelling_eq_cons (h.word y (by simp))
  rw [hs] at hp
  obtain rfl : d = c := (List.cons_prefix_cons.1 hp).1
  obtain ⟨t, j⟩ := y
  obtain rfl : j = i := hy
  exact ⟨t, ms, rest, rfl, hs, hp⟩

theorem Partitions.of_blank {c : Char} (h : Partitions i (c :: cs) ls)
    (hc : Text.isBlank c = true) : Partitions (i + 1) cs ls := by
  refine Partitions.of_append [c] [] h (by simp) ?_
  intro x hx
  obtain ⟨hle, hp⟩ := h.spelled x hx
  obtain ⟨d, rest, hs, hd⟩ := Token.exists_spelling_eq_cons (h.word x hx)
  refine Nat.lt_of_le_of_ne hle ?_
  rintro rfl
  rw [Nat.sub_self, List.drop_zero, hs] at hp
  obtain rfl : d = c := (List.cons_prefix_cons.1 hp).1
  simp [hd] at hc

theorem Partitions.behind_head {t : Token} {w : List Char} (h : Partitions i (w ++ cs) (⟨t, i⟩ :: ls))
    (ht : t.spelling = w) : Partitions (i + w.length) cs ls := by
  refine Partitions.of_append w [⟨t, i⟩] h ?_ ?_
  · simp [Lexeme.stop, ht]
  · intro x hx
    simpa [Lexeme.stop, ht] using List.rel_of_pairwise_cons h.disjoint hx

theorem Partitions.of_operator {c : Char} {t : Token} (h : Partitions i (c :: cs) ls)
    (ht : Token.ofChar? c = some t) : ∃ ms, ls = ⟨t, i⟩ :: ms ∧ Partitions (i + 1) cs ms := by
  obtain ⟨u, ms, rest, rfl, hs, -⟩ := h.exists_cons (isBlank_eq_false_of_ofChar? ht)
  rcases Token.ofChar?_or_identifier (h.word _ (List.mem_cons_self ..)) hs with hu | ⟨-, hc⟩
  · obtain rfl : u = t := Option.some.inj (hu.symm.trans ht)
    exact ⟨ms, rfl, Partitions.behind_head (w := [c]) h (Token.spelling_of_ofChar? c u ht)⟩
  · simp [isIdentifierChar, ht] at hc

theorem Partitions.of_word {w : List Char} (h : Partitions i (w ++ cs) ls) (hn : w ≠ [])
    (hw : ∀ c ∈ w, isIdentifierChar c = true) (hc : ∀ c ∈ cs.head?, isIdentifierChar c = false) :
    ∃ ms, ls = ⟨.identifier (String.ofList w), i⟩ :: ms ∧ Partitions (i + w.length) cs ms := by
  obtain ⟨c, w', hcw⟩ := List.exists_cons_of_ne_nil hn
  have hident : isIdentifierChar c = true := hw c (by simp [hcw])
  have hcons : w ++ cs = c :: (w' ++ cs) := by rw [hcw, List.cons_append]
  obtain ⟨u, ms, rest, rfl, hs, hp⟩ :=
    Partitions.exists_cons (hcons ▸ h) (isBlank_eq_false_of_isIdentifierChar hident)
  rw [← hcons, ← hs] at hp
  obtain ⟨text, rfl⟩ : ∃ text, u = .identifier text := by
    rcases Token.ofChar?_or_identifier (h.word _ (List.mem_cons_self ..)) hs with hu | ⟨hu, -⟩
    · simp [isIdentifierChar, hu] at hident
    · exact hu
  obtain ⟨-, htext⟩ := (isWord_iff text).1 (h.word _ (List.mem_cons_self ..) text rfl)
  obtain ⟨ds, hds⟩ : text.toList <+: w ++ cs := hp
  -- Both words reach from `i` to the first character that cannot belong to them.
  have hend : ∀ d ∈ ds.head?, isIdentifierChar d = false := by
    intro d hd
    refine h.maximal _ (List.mem_cons_self ..) text rfl text.toList.length d ?_ (.inr rfl)
    rw [← hds, List.getElem?_append_right (Nat.le_refl _), Nat.sub_self, ← List.head?_eq_getElem?]
    exact hd
  have hw' : text.toList = w := by
    rw [← takeWhile_word hw hc, ← hds, takeWhile_word htext hend]
  refine ⟨ms, ?_, h.behind_head hw'⟩
  rw [← hw', String.ofList_toList]

theorem Laid.eq_of_partitions (h : Laid i cs ls) {ms : List Lexeme} (hms : Partitions i cs ms) :
    ms = ls := by
  induction h generalizing ms with
  | nil i =>
      refine List.eq_nil_iff_forall_not_mem.2 fun x hx => ?_
      obtain ⟨c, rest, hs, -⟩ := Token.exists_spelling_eq_cons (hms.word x hx)
      have hp := (hms.spelled x hx).2
      simp [hs] at hp
  | blank hb _ ih => exact ih (hms.of_blank hb)
  | operator ht _ ih =>
      obtain ⟨ms, rfl, hrest⟩ := hms.of_operator ht
      rw [ih hrest]
  | word hn hw hc _ ih =>
      obtain ⟨ms, rfl, hrest⟩ := hms.of_word hn hw hc
      rw [ih hrest]

/-- Exactly the lexemes of the layout have the properties of a partition. -/
theorem partitions_iff_laid : Partitions i cs ls ↔ Laid i cs ls := by
  constructor
  · intro h
    have hl := laid_lexemes_add i cs
    rwa [← hl.eq_of_partitions h] at hl
  · exact Laid.partitions

end

/-! ## Reading on demand -/

/-- A text that is read on demand: the characters that are left, and the offset of the
first of them. -/
structure Cursor where
  rest : List Char
  offset : Nat
deriving DecidableEq, Repr

namespace Cursor

def skipBlanks (p : Cursor) : Cursor :=
  ⟨p.rest.dropWhile Text.isBlank, p.offset + (p.rest.takeWhile Text.isBlank).length⟩

/-- Takes the operator or the word in front, with the offset it stands at; at the end
there is none, and the cursor stays. -/
def take (p : Cursor) : (Option Token × Nat) × Cursor :=
  match p.rest with
  | [] => ((none, p.offset), p)
  | c :: cs =>
    match Token.ofChar? c with
    | some t => ((some t, p.offset), ⟨cs, p.offset + 1⟩)
    | none =>
      let w := (c :: cs).takeWhile isIdentifierChar
      ((some (.identifier (String.ofList w)), p.offset),
        ⟨(c :: cs).drop w.length, p.offset + w.length⟩)

def next (p : Cursor) : (Option Token × Nat) × Cursor := p.skipBlanks.take

def readings : Cursor → Nat → List (Option Token × Nat)
  | _, 0 => []
  | p, n + 1 => p.next.1 :: p.next.2.readings n

theorem next_of_isBlank {c : Char} (hc : Text.isBlank c = true) (cs : List Char) (i : Nat) :
    next ⟨c :: cs, i⟩ = next ⟨cs, i + 1⟩ := by
  simp [next, skipBlanks, hc, Nat.add_assoc, Nat.add_comm 1]

theorem next_of_not_isBlank {c : Char} (hc : Text.isBlank c = false) (cs : List Char) (i : Nat) :
    next ⟨c :: cs, i⟩ = take ⟨c :: cs, i⟩ := by
  simp [next, skipBlanks, hc]

theorem next_of_operator {c : Char} {t : Token} (ht : Token.ofChar? c = some t) (cs : List Char)
    (i : Nat) : next ⟨c :: cs, i⟩ = ((some t, i), ⟨cs, i + 1⟩) := by
  rw [next_of_not_isBlank (isBlank_eq_false_of_ofChar? ht)]
  simp only [take, ht]

theorem next_of_word {w cs : List Char} (hn : w ≠ []) (hw : ∀ c ∈ w, isIdentifierChar c = true)
    (hc : ∀ c ∈ cs.head?, isIdentifierChar c = false) (i : Nat) :
    next ⟨w ++ cs, i⟩ = ((some (.identifier (String.ofList w)), i), ⟨cs, i + w.length⟩) := by
  have htake := takeWhile_word hw hc
  obtain ⟨c, w', rfl⟩ := List.exists_cons_of_ne_nil hn
  have hident : isIdentifierChar c = true := hw c (by simp)
  have hop : Token.ofChar? c = none := by
    simpa [isIdentifierChar, isBlank_eq_false_of_isIdentifierChar hident] using hident
  rw [List.cons_append] at htake ⊢
  rw [next_of_not_isBlank (isBlank_eq_false_of_isIdentifierChar hident)]
  simp only [take, hop, htake]
  rw [← List.cons_append, List.drop_left]

end Cursor

theorem Reader.readings_zero (r : Reader) : r.readings 0 = [] := by
  simp [readings]

theorem Reader.readings_nil_succ (stop n : Nat) :
    Reader.readings ⟨[], stop⟩ (n + 1) = (none, stop) :: Reader.readings ⟨[], stop⟩ n := by
  simp [readings, List.replicate_succ]

theorem Reader.readings_cons_succ (x : Lexeme) (ls : List Lexeme) (stop n : Nat) :
    Reader.readings ⟨x :: ls, stop⟩ (n + 1) =
      (some x.token, x.start) :: Reader.readings ⟨ls, stop⟩ n := by
  simp [readings]

section

variable {i : Nat} {cs : List Char} {ls : List Lexeme}

theorem Laid.length_le (h : Laid i cs ls) : ls.length ≤ cs.length := by
  induction h with
  | nil i => exact Nat.le_refl _
  | blank _ _ ih => exact Nat.le_succ_of_le ih
  | operator _ _ ih => exact Nat.succ_le_succ ih
  | word hn _ _ _ ih =>
      have := List.length_pos_of_ne_nil hn
      rw [List.length_cons, List.length_append]
      omega

/-- The next reading gives the first lexeme of the layout and leaves a cursor in front of
the others; without lexemes the cursor goes to the end. -/
theorem Laid.next (h : Laid i cs ls) :
    (ls = [] ∧ Cursor.next ⟨cs, i⟩ = ((none, i + cs.length), ⟨[], i + cs.length⟩)) ∨
      ∃ x ms ds, ls = x :: ms ∧ Cursor.next ⟨cs, i⟩ = ((some x.token, x.start), ⟨ds, x.stop⟩) ∧
        Laid x.stop ds ms ∧ x.stop + ds.length = i + cs.length := by
  induction h with
  | nil i => exact .inl ⟨rfl, rfl⟩
  | @blank i c cs ls hb _ ih =>
      rw [Cursor.next_of_isBlank hb, List.length_cons, ← Nat.add_assoc, Nat.add_right_comm]
      exact ih
  | @operator i c t cs ls ht hl _ =>
      refine .inr ⟨⟨t, i⟩, ls, cs, rfl, ?_, ?_, ?_⟩ <;> rw [Lexeme.stop_operator ht]
      · rw [Cursor.next_of_operator ht]
      · exact hl
      · rw [List.length_cons, Nat.add_right_comm, Nat.add_assoc]
  | @word i w cs ls hn hw hc hl _ =>
      refine .inr ⟨⟨.identifier (String.ofList w), i⟩, ls, cs, rfl, ?_, ?_, ?_⟩ <;>
        rw [Lexeme.stop_word]
      · rw [Cursor.next_of_word hn hw hc]
      · exact hl
      · rw [List.length_append, Nat.add_assoc]

/-- Reading on demand gives the lexemes of the layout one by one, and then the end. -/
theorem Laid.readings_eq (h : Laid i cs ls) (n : Nat) :
    Cursor.readings ⟨cs, i⟩ n = Reader.readings ⟨ls, i + cs.length⟩ n := by
  induction n generalizing i cs ls with
  | zero => rw [Reader.readings_zero, Cursor.readings]
  | succ n ih =>
      rcases h.next with ⟨rfl, hnext⟩ | ⟨x, ms, ds, rfl, hnext, hl, hstop⟩
      · have hend := ih (.nil (i + cs.length))
        rw [Cursor.readings, hnext, Reader.readings_nil_succ, hend]
        rfl
      · rw [Cursor.readings, hnext, Reader.readings_cons_succ, ih hl, hstop]

end

example : Cursor.readings ⟨" ab&!".toList, 0⟩ 5 =
    [(some (.identifier "ab"), 1), (some .and, 3), (some .not, 4), (none, 5), (none, 5)] := by
  decide

/-- The lexemes of a text are at most as many as its characters, and they partition the
text as no other lexemes do. Successive readings give them one by one with the offsets at
which they stand, and from then on the end, at the number of characters; reading on
demand gives the same. -/
theorem readings_partition_text (s : String) :
    ∃ ls : List Lexeme, ls.length ≤ s.length ∧
      (∀ n, (Reader.ofText s).readings n =
        (ls.take n).map (fun x => (some x.token, x.start)) ++
          List.replicate (n - ls.length) (none, s.length)) ∧
      (∀ n, Cursor.readings ⟨s.toList, 0⟩ n = (Reader.ofText s).readings n) ∧
      ∀ ms, Partitions 0 s.toList ms ↔ ms = ls := by
  have hlaid := laid_lexemes s.toList
  refine ⟨lexemes s.toList, ?_, ?_, ?_, ?_⟩
  · rw [← String.length_toList]
    exact hlaid.length_le
  · intro n
    rw [← String.length_toList]
    rfl
  · intro n
    rw [hlaid.readings_eq n, Nat.zero_add]
    rfl
  · intro ms
    rw [partitions_iff_laid, ← lexemes_eq_iff_laid]
    exact eq_comm

end QueryFilter.Binding
