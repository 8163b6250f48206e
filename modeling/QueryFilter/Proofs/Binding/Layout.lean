import Mathlib.Data.List.Basic
import QueryFilter.Binding.Lexeme

/-!
# How lexemes lie in a text

`Laid i cs ls` says how the characters `cs`, of which the first stands at offset
`i`, fall into blanks, operators and maximal words, and that `ls` are the
operators and words among them with the offsets at which they stand. The text is
cut from the front, one blank or one lexeme at a time, whereas `Scan` reads it
character by character with an unfinished word at hand. The two agree
(`lexemes_eq_iff_laid`), so facts about lexemes are proved by induction on the
layout.
-/

namespace QueryFilter.Binding

def tokens (ls : List Lexeme) : List Token := ls.map (·.token)

def tokensOf (s : String) : List Token := tokens (lexemes s.toList)

theorem tokensOf_eq_append {s : String} {before rest : List Lexeme}
    (h : lexemes s.toList = before ++ rest) : tokensOf s = tokens before ++ tokens rest := by
  rw [tokensOf, h]
  exact List.map_append

/-- The lexemes `ls` of the characters `cs`, which begin at offset `i`. -/
inductive Laid : Nat → List Char → List Lexeme → Prop
  | nil (i : Nat) : Laid i [] []
  | blank {i : Nat} {c : Char} {cs : List Char} {ls : List Lexeme} :
      Text.isBlank c = true → Laid (i + 1) cs ls → Laid i (c :: cs) ls
  | operator {i : Nat} {c : Char} {t : Token} {cs : List Char} {ls : List Lexeme} :
      Token.ofChar? c = some t → Laid (i + 1) cs ls → Laid i (c :: cs) (⟨t, i⟩ :: ls)
  | word {i : Nat} {w cs : List Char} {ls : List Lexeme} :
      w ≠ [] → (∀ c ∈ w, isIdentifierChar c = true) →
      (∀ c ∈ cs.head?, isIdentifierChar c = false) →
      Laid (i + w.length) cs ls →
      Laid i (w ++ cs) (⟨.identifier (String.ofList w), i⟩ :: ls)

theorem Laid.cons_of_not_identifier {i : Nat} {c : Char} {cs : List Char} {ls : List Lexeme}
    (hc : isIdentifierChar c = false) (h : Laid (i + 1) cs ls) :
    Laid i (c :: cs) (((Token.ofChar? c).map fun t => ⟨t, i⟩).toList ++ ls) := by
  cases ht : Token.ofChar? c with
  | some t => exact .operator ht h
  | none =>
      have hb : Text.isBlank c = true := by simpa [isIdentifierChar, ht] using hc
      exact .blank hb h

namespace Scan

theorem step_of_identifier {c : Char} (hc : isIdentifierChar c = true) (s : Scan) :
    s.step c = { s with offset := s.offset + 1, word := c :: s.word } := by
  rw [step, if_pos hc]

theorem step_of_not_identifier {c : Char} (hc : isIdentifierChar c = false) (s : Scan) :
    s.step c =
      ⟨s.offset + 1, [],
        ((Token.ofChar? c).map fun token => ⟨token, s.offset⟩).toList ++ s.close.found⟩ := by
  rw [step, if_neg (by simp [hc]), ← s.close_word]

theorem close_of_word_eq_nil {s : Scan} (h : s.word = []) : s.close = s := by
  rw [close, h]

theorem close_of_word_ne_nil {s : Scan} (h : s.word ≠ []) :
    s.close =
      ⟨s.offset, [],
        ⟨.identifier (String.ofList s.word.reverse), s.offset - s.word.length⟩ :: s.found⟩ := by
  unfold close
  cases hw : s.word with
  | nil => exact absurd hw h
  | cons w ws => rfl

theorem laid_close (s : Scan) (hw : ∀ c ∈ s.word, isIdentifierChar c = true)
    (hl : s.word.length ≤ s.offset) {cs : List Char} {ls : List Lexeme}
    (hc : ∀ c ∈ cs.head?, isIdentifierChar c = false) (h : Laid s.offset cs ls) :
    ∃ ms, Laid (s.offset - s.word.length) (s.word.reverse ++ cs) ms ∧
      s.close.found.reverse ++ ls = s.found.reverse ++ ms := by
  by_cases hn : s.word = []
  · refine ⟨ls, ?_, ?_⟩
    · rw [hn]
      exact h
    · rw [close_of_word_eq_nil hn]
  · have hoff : s.offset - s.word.length + s.word.reverse.length = s.offset := by
      rw [List.length_reverse]
      omega
    refine ⟨_, .word (by simpa using hn) (by simpa using hw) hc (hoff.symm ▸ h), ?_⟩
    rw [close_of_word_ne_nil hn, List.reverse_cons, List.append_assoc]
    rfl

/-- The lexemes found while the characters `cs` are read are those of the
unfinished word and `cs` together. -/
theorem exists_laid (cs : List Char) (s : Scan) (hw : ∀ c ∈ s.word, isIdentifierChar c = true)
    (hl : s.word.length ≤ s.offset) :
    ∃ ls, Laid (s.offset - s.word.length) (s.word.reverse ++ cs) ls ∧
      (s.read cs).close.found.reverse = s.found.reverse ++ ls := by
  induction cs generalizing s with
  | nil =>
      obtain ⟨ls, hls, hf⟩ := s.laid_close hw hl (by simp) (.nil _)
      rw [List.append_nil] at hf
      exact ⟨ls, hls, hf⟩
  | cons c cs ih =>
      rw [read_cons]
      by_cases hc : isIdentifierChar c = true
      · obtain ⟨ls, hls, hf⟩ := ih { s with offset := s.offset + 1, word := c :: s.word }
          (by simpa [hc] using hw) (by simpa using hl)
        refine ⟨ls, ?_, ?_⟩
        · simpa using hls
        · rw [step_of_identifier hc, hf]
      · have hc' : isIdentifierChar c = false := by simpa using hc
        have hstep := step_of_not_identifier hc' s
        obtain ⟨ls, hls, hf⟩ := ih (s.step c) (by simp [hstep]) (by simp [hstep])
        have hcs : Laid (s.offset + 1) cs ls := by simpa [hstep] using hls
        obtain ⟨ms, hms, hfound⟩ :=
          s.laid_close hw hl (by simpa using hc') (Laid.cons_of_not_identifier hc' hcs)
        refine ⟨ms, hms, ?_⟩
        rw [hf, ← hfound, hstep, List.reverse_append, List.append_assoc]
        cases Token.ofChar? c <;> rfl

theorem close_read_close (s : Scan) {cs : List Char}
    (hc : ∀ c ∈ cs.head?, isIdentifierChar c = false) :
    (s.close.read cs).close = (s.read cs).close := by
  cases cs with
  | nil => exact close_of_word_eq_nil s.close_word
  | cons c cs =>
      have hc' := hc c rfl
      rw [read_cons, read_cons, step_of_not_identifier hc', step_of_not_identifier hc',
        close_offset, close_of_word_eq_nil s.close_word]

theorem read_word (s : Scan) {w : List Char} (hw : ∀ c ∈ w, isIdentifierChar c = true) :
    s.read w = ⟨s.offset + w.length, w.reverse ++ s.word, s.found⟩ := by
  induction w generalizing s with
  | nil => rfl
  | cons c w ih =>
      rw [read_cons, step_of_identifier (hw c (by simp)),
        ih _ fun d hd => hw d (List.mem_cons_of_mem c hd)]
      simp only [List.length_cons, List.reverse_cons, List.append_assoc, List.singleton_append]
      congr 1
      omega

theorem found_of_laid {i : Nat} {cs : List Char} {ls : List Lexeme} (h : Laid i cs ls)
    (found : List Lexeme) :
    (Scan.read ⟨i, [], found⟩ cs).close.found.reverse = found.reverse ++ ls := by
  induction h generalizing found with
  | nil i => simp [close]
  | @blank i c cs ls hb _ ih =>
      have ht : Token.ofChar? c = none := Token.ofChar?_of_isBlank c hb
      have hc : isIdentifierChar c = false := by simp [isIdentifierChar, hb]
      rw [read_cons, step_of_not_identifier hc, ht]
      exact ih found
  | @operator i c t cs ls ht _ ih =>
      have hc : isIdentifierChar c = false := by simp [isIdentifierChar, ht]
      rw [read_cons, step_of_not_identifier hc, ht]
      exact (ih (⟨t, i⟩ :: found)).trans (by simp)
  | @word i w cs ls hn hw hc _ ih =>
      -- What follows the word does not carry it on, so it may be closed at its end.
      have hclose := close_of_word_ne_nil (s := ⟨i + w.length, w.reverse ++ [], found⟩)
        (by simpa using hn)
      rw [read_append, read_word _ hw, ← close_read_close _ hc, hclose]
      simpa using ih (⟨.identifier (String.ofList w), i⟩ :: found)

end Scan

theorem lexemes_eq_iff_laid (cs : List Char) (ls : List Lexeme) :
    lexemes cs = ls ↔ Laid 0 cs ls := by
  constructor
  · rintro rfl
    obtain ⟨ls, hls, hf⟩ := Scan.exists_laid cs {} (by simp) (Nat.le_refl _)
    have he : lexemes cs = ls := hf.trans (List.nil_append ls)
    rw [he]
    exact hls
  · intro h
    exact (Scan.found_of_laid h []).trans (List.nil_append ls)

theorem laid_lexemes (cs : List Char) : Laid 0 cs (lexemes cs) :=
  (lexemes_eq_iff_laid cs _).1 rfl

theorem isBlank_eq_false_of_isIdentifierChar {c : Char} (h : isIdentifierChar c = true) :
    Text.isBlank c = false := by
  simp only [isIdentifierChar, Bool.and_eq_true, Bool.not_eq_true'] at h
  exact h.1

theorem isIdentifierChar_eq_false_of_isBlank {c : Char} (h : Text.isBlank c = true) :
    isIdentifierChar c = false := by
  simp [isIdentifierChar, h]

theorem isBlank_eq_false_of_ofChar? {c : Char} {t : Token} (h : Token.ofChar? c = some t) :
    Text.isBlank c = false := by
  by_contra hb
  rw [Token.ofChar?_of_isBlank c (by simpa using hb)] at h
  exact absurd h (by simp)

theorem Laid.eq_nil_iff {i : Nat} {cs : List Char} {ls : List Lexeme} (h : Laid i cs ls) :
    ls = [] ↔ ∀ c ∈ cs, Text.isBlank c = true := by
  induction h with
  | nil i => simp
  | blank hb _ ih => simp [ih, hb]
  | operator ht _ ih => simp [isBlank_eq_false_of_ofChar? ht]
  | @word i w cs ls hn hw _ _ ih =>
      obtain ⟨c, w, rfl⟩ := List.exists_cons_of_ne_nil hn
      have hc := isBlank_eq_false_of_isIdentifierChar (hw c (by simp))
      simp [hc]

theorem Laid.spelling_isPrefix {i : Nat} {cs : List Char} {ls : List Lexeme} (h : Laid i cs ls)
    {x : Lexeme} (hx : x ∈ ls) : i ≤ x.start ∧ x.token.spelling <+: cs.drop (x.start - i) := by
  induction h with
  | nil i => exact absurd hx (by simp)
  | @blank i c cs ls _ _ ih =>
      obtain ⟨hi, hp⟩ := ih hx
      have hsub : x.start - i = x.start - (i + 1) + 1 := by omega
      refine ⟨by omega, ?_⟩
      rwa [hsub, List.drop_succ_cons]
  | @operator i c t cs ls ht _ ih =>
      rcases List.mem_cons.1 hx with rfl | hx
      · refine ⟨Nat.le_refl _, ?_⟩
        rw [Nat.sub_self, List.drop_zero, Token.spelling_of_ofChar? c t ht]
        exact ⟨cs, rfl⟩
      · obtain ⟨hi, hp⟩ := ih hx
        have hsub : x.start - i = x.start - (i + 1) + 1 := by omega
        refine ⟨by omega, ?_⟩
        rwa [hsub, List.drop_succ_cons]
  | @word i w cs ls _ _ _ _ ih =>
      rcases List.mem_cons.1 hx with rfl | hx
      · refine ⟨Nat.le_refl _, ?_⟩
        rw [Nat.sub_self, List.drop_zero, Token.spelling, String.toList_ofList]
        exact List.prefix_append w cs
      · obtain ⟨hi, hp⟩ := ih hx
        have hsub : x.start - i = w.length + (x.start - (i + w.length)) := by omega
        refine ⟨by omega, ?_⟩
        rwa [hsub, ← List.drop_drop, List.drop_left]

theorem Laid.identifier {i : Nat} {cs : List Char} {ls : List Lexeme} (h : Laid i cs ls)
    {text : String} (hx : .identifier text ∈ tokens ls) :
    text.toList ≠ [] ∧ ∀ c ∈ text.toList, isIdentifierChar c = true := by
  induction h with
  | nil i => exact absurd hx (by simp [tokens])
  | blank _ _ ih => exact ih hx
  | @operator i c t cs ls ht _ ih =>
      rw [tokens, List.map_cons, List.mem_cons] at hx
      rcases hx with rfl | hx
      · grind [Token.ofChar?]
      · exact ih hx
  | @word i w cs ls hn hw _ _ ih =>
      rw [tokens, List.map_cons, List.mem_cons] at hx
      rcases hx with hx | hx
      · obtain rfl := Token.identifier.inj hx
        rw [String.toList_ofList]
        exact ⟨hn, hw⟩
      · exact ih hx

/-- No word goes on from the first text into the second. -/
def Apart (cs ds : List Char) : Prop :=
  ∀ c ∈ cs.getLast?, ∀ d ∈ ds.head?, isIdentifierChar c = true → isIdentifierChar d = false

/-- Two texts keep their lexemes side by side, unless a word goes on from one into the
other. -/
theorem Laid.append_of_apart {i : Nat} {cs ds : List Char} {ls ms : List Lexeme} (h : Laid i cs ls)
    (hapart : Apart cs ds) (h' : Laid (i + cs.length) ds ms) : Laid i (cs ++ ds) (ls ++ ms) := by
  induction h with
  | nil i => simpa using h'
  | @blank i c cs ls hb _ ih =>
      refine .blank hb (ih ?_ ?_)
      · intro a ha
        exact hapart a (List.mem_getLast?_cons ha)
      · rwa [Nat.add_assoc, Nat.add_comm 1]
  | @operator i c t cs ls ht _ ih =>
      refine .operator ht (ih ?_ ?_)
      · intro a ha
        exact hapart a (List.mem_getLast?_cons ha)
      · rwa [Nat.add_assoc, Nat.add_comm 1]
  | @word i w cs ls hn hw hc _ ih =>
      have hhead : ∀ d ∈ (cs ++ ds).head?, isIdentifierChar d = false := by
        cases cs with
        | nil =>
            -- The text ends with the word, which the second text must not carry on.
            intro d hd
            have hlast := List.getLast?_eq_some_getLast hn
            exact hapart (w.getLast hn) (by simp [hlast]) d hd (hw _ (List.getLast_mem hn))
        | cons c cs => exact hc
      rw [List.append_assoc]
      refine .word hn hw hhead (ih ?_ ?_)
      · intro a ha
        exact hapart a (List.mem_getLast?_append_of_mem_getLast? ha)
      · rwa [Nat.add_assoc, ← List.length_append]

theorem Laid.append {i : Nat} {cs ds : List Char} {ls ms : List Lexeme} (h : Laid i cs ls)
    (hd : ∀ c ∈ ds.head?, isIdentifierChar c = false) (h' : Laid (i + cs.length) ds ms) :
    Laid i (cs ++ ds) (ls ++ ms) :=
  h.append_of_apart (fun _ _ d hd' _ => hd d hd') h'

/-! ## Tokens without their offsets -/

/-- The same token at another offset. -/
def Lexeme.move (f : Nat → Nat) (x : Lexeme) : Lexeme := { x with start := f x.start }

theorem tokens_map_move (f : Nat → Nat) (ls : List Lexeme) : tokens (ls.map (.move f)) = tokens ls :=
  List.map_map

/-- Characters that begin later have the same lexemes later. -/
theorem Laid.move_add {i : Nat} {cs : List Char} {ls : List Lexeme} (h : Laid i cs ls) (k : Nat) :
    Laid (i + k) cs (ls.map (.move (· + k))) := by
  induction h with
  | nil i => exact .nil _
  | blank hb _ ih =>
      rw [Nat.add_right_comm] at ih
      exact .blank hb ih
  | operator ht _ ih =>
      rw [Nat.add_right_comm] at ih
      exact .operator ht ih
  | word hn hw hc _ ih =>
      rw [Nat.add_right_comm] at ih
      exact .word hn hw hc ih

theorem laid_lexemes_add (i : Nat) (cs : List Char) :
    Laid i cs ((lexemes cs).map (.move (· + i))) := by
  have h := (laid_lexemes cs).move_add i
  rwa [Nat.zero_add] at h

/-- The characters `cs` are laid out as the tokens `ts`, wherever they begin. -/
def Spelled (cs : List Char) (ts : List Token) : Prop := ∀ i, ∃ ls, Laid i cs ls ∧ tokens ls = ts

namespace Spelled

theorem of_text (s : String) : Spelled s.toList (tokensOf s) :=
  fun i => ⟨_, laid_lexemes_add i s.toList, tokens_map_move _ _⟩

theorem nil : Spelled [] [] := fun i => ⟨[], .nil i, rfl⟩

theorem blank {c : Char} {cs : List Char} {ts : List Token} (hc : Text.isBlank c = true)
    (h : Spelled cs ts) : Spelled (c :: cs) ts := by
  intro i
  obtain ⟨ls, hl, ht⟩ := h (i + 1)
  exact ⟨ls, .blank hc hl, ht⟩

theorem operator {c : Char} {t : Token} {cs : List Char} {ts : List Token}
    (hc : Token.ofChar? c = some t) (h : Spelled cs ts) : Spelled (c :: cs) (t :: ts) := by
  intro i
  obtain ⟨ls, hl, rfl⟩ := h (i + 1)
  exact ⟨⟨t, i⟩ :: ls, .operator hc hl, rfl⟩

theorem word {text : String} (hn : text.toList ≠ [])
    (hw : ∀ c ∈ text.toList, isIdentifierChar c = true) :
    Spelled text.toList [.identifier text] := by
  intro i
  have hword : Laid i (text.toList ++ []) [⟨.identifier (String.ofList text.toList), i⟩] :=
    .word hn hw (by simp) (.nil _)
  rw [String.ofList_toList, List.append_nil] at hword
  exact ⟨_, hword, rfl⟩

theorem append {cs ds : List Char} {ts us : List Token} (h : Spelled cs ts)
    (hd : ∀ c ∈ ds.head?, isIdentifierChar c = false) (h' : Spelled ds us) :
    Spelled (cs ++ ds) (ts ++ us) := by
  intro i
  obtain ⟨ls, hl, rfl⟩ := h i
  obtain ⟨ms, hm, rfl⟩ := h' (i + cs.length)
  exact ⟨ls ++ ms, hl.append hd hm, List.map_append⟩

theorem group {cs : List Char} {ts : List Token} (h : Spelled cs ts) :
    Spelled ('(' :: cs ++ [')']) (.opening :: ts ++ [.closing]) := by
  have hclose : ∀ d ∈ [')'].head?, isIdentifierChar d = false := by
    rintro d ⟨⟩
    rfl
  exact .operator rfl (h.append hclose (.operator rfl .nil))

/-- Two texts with an operator between them, which stands between blanks. -/
theorem between {cs ds : List Char} {ts us : List Token} {c : Char} {t : Token}
    (hcs : Spelled cs ts) (hc : Token.ofChar? c = some t) (hds : Spelled ds us) :
    Spelled (cs ++ ' ' :: c :: ' ' :: ds) (ts ++ t :: us) := by
  have hblank : ∀ d ∈ (' ' :: c :: ' ' :: ds).head?, isIdentifierChar d = false := by
    rintro d ⟨⟩
    rfl
  exact hcs.append hblank (.blank rfl (.operator hc (.blank rfl hds)))

theorem tokensOf_eq {s : String} {ts : List Token} (h : Spelled s.toList ts) : tokensOf s = ts := by
  obtain ⟨ls, hl, rfl⟩ := h 0
  rw [tokensOf, (lexemes_eq_iff_laid _ _).2 hl]

end Spelled

end QueryFilter.Binding
