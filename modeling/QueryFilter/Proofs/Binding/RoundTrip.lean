import QueryFilter.Proofs.Binding.Acceptance

/-!
# Rendering and parsing

A rendered tree has parentheses around every `&` and `|`, so its tokens are a
phrase no looser than a negation, and each node but the leaves opens one
parenthesis or negation. Hence the nesting of the text is one less than the
depth of the tree, and parsing the text back is refused exactly when the tree is
too deep. What a text says about a parameter is its identification only, so the
tree that comes back is the one with all leaves unresolved.
-/

namespace QueryFilter

namespace Condition

theorem map_eq_self {f : Parameter → Parameter} {c : Condition}
    (h : ∀ p ∈ c.parameters, f p = p) : c.map f = c := by
  induction c with
  | parameter p => simpa [map] using h
  | and l r ihl ihr =>
      simp only [parameters_and, List.mem_append] at h
      rw [map, ihl fun p hp => h p (.inl hp), ihr fun p hp => h p (.inr hp)]
  | or l r ihl ihr =>
      simp only [parameters_or, List.mem_append] at h
      rw [map, ihl fun p hp => h p (.inl hp), ihr fun p hp => h p (.inr hp)]
  | negate c ih => rw [map, ih h]

/-- The tree with only the identifications of its leaves. -/
def unresolve (c : Condition) : Condition := c.map fun p => .unresolved p.identification

end Condition

namespace Binding

/-- A word that a binding can refer to a parameter by. -/
def IsWord (s : String) : Prop :=
  s ≠ "" ∧ ∀ c ∈ s.toList, Text.isBlank c = false ∧ c ∉ ['&', '|', '!', '(', ')']

theorem isIdentifierChar_iff (c : Char) :
    isIdentifierChar c = true ↔ Text.isBlank c = false ∧ c ∉ ['&', '|', '!', '(', ')'] := by
  have ht : Token.ofChar? c = none ↔ c ∉ ['&', '|', '!', '(', ')'] := by
    grind [Token.ofChar?]
  simp [isIdentifierChar, ht]

theorem isWord_iff (s : String) :
    IsWord s ↔ s.toList ≠ [] ∧ ∀ c ∈ s.toList, isIdentifierChar c = true := by
  simp only [IsWord, isIdentifierChar_iff, ne_eq, String.toList_eq_nil_iff]

def renderTokens : Condition → List Token
  | .parameter p => [.identifier p.identification]
  | .and l r => .opening :: (renderTokens l ++ .and :: renderTokens r) ++ [.closing]
  | .or l r => .opening :: (renderTokens l ++ .or :: renderTokens r) ++ [.closing]
  | .negate c => .not :: renderTokens c

theorem Spelled.join {cs ds : List Char} {ts us : List Token} {c : Char} {t : Token}
    (hcs : Spelled cs ts) (hc : Token.ofChar? c = some t) (hds : Spelled ds us) :
    Spelled ('(' :: (cs ++ ' ' :: c :: ' ' :: (ds ++ [')'])))
      (.opening :: (ts ++ t :: us) ++ [.closing]) := by
  have hboth := (hcs.between hc hds).group
  simpa using hboth

theorem spelled_render {c : Condition} (hc : ∀ p ∈ c.parameters, IsWord p.identification) :
    Spelled c.render.toList (renderTokens c) := by
  induction c with
  | parameter p =>
      obtain ⟨hn, hw⟩ := (isWord_iff _).1 (hc p (by simp))
      exact .word hn hw
  | and l r ihl ihr =>
      simp only [Condition.parameters_and, List.mem_append] at hc
      have hl := ihl fun p hp => hc p (.inl hp)
      have hr := ihr fun p hp => hc p (.inr hp)
      simpa [Condition.render, renderTokens] using hl.join (c := '&') rfl hr
  | or l r ihl ihr =>
      simp only [Condition.parameters_or, List.mem_append] at hc
      have hl := ihl fun p hp => hc p (.inl hp)
      have hr := ihr fun p hp => hc p (.inr hp)
      simpa [Condition.render, renderTokens] using hl.join (c := '|') rfl hr
  | negate c ih => simpa [Condition.render, renderTokens] using Spelled.operator (c := '!') rfl (ih hc)

theorem derives_renderTokens (c : Condition) :
    ∃ n, n + 1 = c.depth ∧ Derives .negation (renderTokens c) c.unresolve n := by
  induction c with
  | parameter p => exact ⟨0, rfl, .atom (.identifier p.identification)⟩
  | and l r ihl ihr =>
      obtain ⟨m, hm, hl⟩ := ihl
      obtain ⟨n, hn, hr⟩ := ihr
      refine ⟨max m n + 1, ?_, .atom (.group (.conjunction (.and (.negation hl) hr)))⟩
      rw [Condition.depth]
      omega
  | or l r ihl ihr =>
      obtain ⟨m, hm, hl⟩ := ihl
      obtain ⟨n, hn, hr⟩ := ihr
      refine ⟨max m n + 1, ?_,
        .atom (.group (.or (.conjunction (.negation hl)) (.negation hr)))⟩
      rw [Condition.depth]
      omega
  | negate c ih =>
      obtain ⟨n, hn, hc⟩ := ih
      exact ⟨n + 1, by rw [Condition.depth, hn], .not hc⟩

/-- The texts of the identifiers among tokens. -/
def words (ts : List Token) : List String :=
  ts.filterMap fun
    | .identifier text => some text
    | _ => none

theorem Derives.parameters_eq {k : Phrase} {ts : List Token} {c : Condition} {n : Nat}
    (h : Derives k ts c n) : c.parameters = (words ts).map .unresolved := by
  induction h with
  | identifier text => rfl
  | group _ ih => simpa [words] using ih
  | atom _ ih => exact ih
  | not _ ih => simpa [words] using ih
  | negation _ ih => exact ih
  | and _ _ ihl ihr => simp [words, ihl, ihr]
  | conjunction _ ih => exact ih
  | or _ _ ihl ihr => simp [words, ihl, ihr]

theorem isWord_of_mem_words {s text : String} (h : text ∈ words (tokensOf s)) : IsWord text := by
  obtain ⟨t, ht, he⟩ := List.mem_filterMap.1 h
  cases t with
  | identifier w =>
      obtain rfl := Option.some.inj he
      exact (isWord_iff _).2 ((laid_lexemes s.toList).identifier ht)
  | _ => exact absurd he (by simp)

theorem leaf_of_parse {s : String} {c : Condition} (h : parse s = .ok c) {p : Parameter}
    (hp : p ∈ c.parameters) : p = .unresolved p.identification ∧ IsWord p.identification := by
  obtain ⟨n, hd, -⟩ := derives_of_parse h
  rw [hd.parameters_eq] at hp
  obtain ⟨text, ht, rfl⟩ := List.mem_map.1 hp
  exact ⟨rfl, isWord_of_mem_words ht⟩

theorem unresolve_of_parse {s : String} {c : Condition} (h : parse s = .ok c) :
    c.unresolve = c :=
  Condition.map_eq_self fun _ hp => (leaf_of_parse h hp).1.symm

theorem derives_render {c : Condition} (hc : ∀ p ∈ c.parameters, IsWord p.identification) :
    ∃ n, n + 1 = c.depth ∧ Derives .disjunction (tokensOf c.render) c.unresolve n := by
  obtain ⟨n, hn, hd⟩ := derives_renderTokens c
  rw [(spelled_render hc).tokensOf_eq]
  exact ⟨n, hn, hd.negation.conjunction⟩

theorem parse_render_of_depth_le {c : Condition}
    (hc : ∀ p ∈ c.parameters, IsWord p.identification) (hd : c.depth ≤ depthLimit) :
    parse c.render = .ok c.unresolve := by
  obtain ⟨n, hn, h⟩ := derives_render hc
  have hdepth : c.unresolve.depth = c.depth := Condition.depth_map _ c
  rcases h.parse with ⟨hok, -⟩ | ⟨-, hlt⟩
  · exact hok
  · omega

theorem parse_render_of_lt_depth {c : Condition}
    (hc : ∀ p ∈ c.parameters, IsWord p.identification) (hd : depthLimit < c.depth) :
    ∃ i, parse c.render = .error (.tooDeep depthLimit i) := by
  obtain ⟨n, -, h⟩ := derives_render hc
  have hdepth : c.unresolve.depth = c.depth := Condition.depth_map _ c
  rcases h.parse with ⟨-, -, hle⟩ | ⟨herr, -⟩
  · omega
  · exact herr

theorem parse_render_of_parse {s : String} {c : Condition} (h : parse s = .ok c) :
    parse c.render = .ok c := by
  obtain ⟨n, -, -, hd⟩ := derives_of_parse h
  rw [parse_render_of_depth_le (fun p hp => (leaf_of_parse h hp).2) hd, unresolve_of_parse h]

/-- A tree whose leaves can be written in a binding is parsed back from its
rendering, up to what was filled in at its leaves, unless it is more than 128
deep; then its rendering is refused as too deep. A parsed tree is parsed back as
it is. -/
theorem parse_render_inverse :
    (∀ c : Condition, (∀ p ∈ c.parameters, IsWord p.identification) →
      (c.depth ≤ 128 → parse c.render = .ok (c.map fun p => .unresolved p.identification)) ∧
      (128 < c.depth → ∃ i, parse c.render = .error (.tooDeep 128 i))) ∧
    (∀ s c, parse s = .ok c → parse c.render = .ok c) := by
  refine ⟨?_, ?_⟩
  · intro c hc
    exact ⟨parse_render_of_depth_le hc, parse_render_of_lt_depth hc⟩
  · intro s c h
    exact parse_render_of_parse h

theorem parse_render_resolved_leaf :
    (∀ p ∈ (Condition.negate (.parameter ⟨"a", "age", some .eq, some "3"⟩)).parameters,
        IsWord p.identification) ∧
      parse (Condition.negate (.parameter ⟨"a", "age", some .eq, some "3"⟩)).render =
        .ok (.negate (.reference "a")) := by
  have words : ∀ p ∈ (Condition.negate (.parameter ⟨"a", "age", some .eq, some "3"⟩)).parameters,
      IsWord p.identification := by
    intro p hp
    obtain rfl := List.mem_singleton.1 hp
    refine (isWord_iff _).2 ⟨by decide, ?_⟩
    intro c hc
    have ha : c ∈ ['a'] := hc
    obtain rfl := List.mem_singleton.1 ha
    rfl
  exact ⟨words, (parse_render_inverse.1 _ words).1 (by decide)⟩

end Binding

end QueryFilter
