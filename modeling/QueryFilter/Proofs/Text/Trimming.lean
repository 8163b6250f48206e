import Mathlib.Data.List.DropRight
import QueryFilter.Text.Blank

/-!
# Trimming

`Trimmed s core` says that `core` is what is left of `s` without the blanks at its
two ends. There is exactly one such text, and `trim` computes it (`trimmed_iff`).
A text is blank when this leaves nothing of it (`isBlankText_iff_trim`).
-/

namespace QueryFilter.Text

/-- The second text is the first one without the blanks in front and at the end. -/
structure Trimmed (s core : String) : Prop where
  between : ∃ before after, s = before ++ core ++ after ∧
    isBlankText before = true ∧ isBlankText after = true
  first : ∀ c ∈ core.toList.head?, isBlank c = false
  last : ∀ c ∈ core.toList.getLast?, isBlank c = false

theorem isBlankText_iff (s : String) :
    isBlankText s = true ↔ ∀ c ∈ s.toList, isBlank c = true := by
  rw [isBlankText, List.all_eq_true]

theorem trim_eq (cs : List Char) : trim cs = (cs.dropWhile isBlank).rdropWhile isBlank := rfl

theorem dropWhile_isBlank_of_first {cs : List Char}
    (h : ∀ c ∈ cs.head?, isBlank c = false) : cs.dropWhile isBlank = cs := by
  cases cs with
  | nil => rfl
  | cons c cs => rw [List.dropWhile_cons_of_neg (by simpa using h c)]

theorem isBlank_head?_dropWhile (cs : List Char) :
    ∀ c ∈ (cs.dropWhile isBlank).head?, isBlank c = false := by
  intro c hc
  have h := List.head?_dropWhile_not isBlank cs
  rw [Option.mem_def.1 hc] at h
  simpa using h

/-! ## What trimming takes away -/

/-- Trimming takes away all blanks in front of a text and behind it. -/
theorem trim_surrounded {before core after : List Char}
    (hbefore : ∀ c ∈ before, isBlank c = true) (hafter : ∀ c ∈ after, isBlank c = true)
    (hfirst : ∀ c ∈ core.head?, isBlank c = false)
    (hlast : ∀ c ∈ core.getLast?, isBlank c = false) :
    trim (before ++ core ++ after) = core := by
  rw [trim_eq, List.append_assoc, List.dropWhile_append_of_pos hbefore]
  cases core with
  | nil =>
      have hnil : after.dropWhile isBlank = [] := List.dropWhile_eq_nil_iff.2 hafter
      rw [List.nil_append, hnil, List.rdropWhile_nil]
  | cons c core =>
      have hback : (after.reverse ++ (c :: core).reverse).dropWhile isBlank =
          (c :: core).reverse := by
        rw [List.dropWhile_append_of_pos (by simpa using hafter)]
        apply dropWhile_isBlank_of_first
        rwa [List.head?_reverse]
      have hfront : ((c :: core) ++ after).dropWhile isBlank = (c :: core) ++ after :=
        dropWhile_isBlank_of_first (by simpa using hfirst)
      rw [hfront, List.rdropWhile, List.reverse_append, hback, List.reverse_reverse]

theorem exists_surrounded (cs : List Char) :
    ∃ before after, cs = before ++ trim cs ++ after ∧
      (∀ c ∈ before, isBlank c = true) ∧ (∀ c ∈ after, isBlank c = true) := by
  refine ⟨cs.takeWhile isBlank, (cs.dropWhile isBlank).rtakeWhile isBlank, ?_, ?_, ?_⟩
  · rw [trim_eq, List.append_assoc, List.rdropWhile_append_rtakeWhile,
      List.takeWhile_append_dropWhile]
  · exact fun c hc => List.mem_takeWhile_imp hc
  · exact fun c hc => List.mem_rtakeWhile_imp hc

theorem isBlank_head?_trim (cs : List Char) : ∀ c ∈ (trim cs).head?, isBlank c = false := by
  intro c hc
  apply isBlank_head?_dropWhile cs c
  -- What trimming leaves is the beginning of what dropping the first blanks leaves.
  obtain ⟨rest, hrest⟩ : trim cs <+: cs.dropWhile isBlank := List.rdropWhile_prefix _ _
  rw [← hrest, List.head?_append, Option.mem_def.1 hc]
  rfl

theorem isBlank_getLast?_trim (cs : List Char) :
    ∀ c ∈ (trim cs).getLast?, isBlank c = false := by
  rw [trim, List.getLast?_reverse]
  exact isBlank_head?_dropWhile _

/-- A text has exactly one trimmed form. -/
theorem trimmed_iff (s core : String) : Trimmed s core ↔ trim s.toList = core.toList := by
  constructor
  · rintro ⟨⟨before, after, rfl, hbefore, hafter⟩, hfirst, hlast⟩
    rw [String.toList_append, String.toList_append]
    exact trim_surrounded ((isBlankText_iff _).1 hbefore) ((isBlankText_iff _).1 hafter)
      hfirst hlast
  · intro h
    obtain ⟨before, after, hs, hbefore, hafter⟩ := exists_surrounded s.toList
    refine ⟨⟨String.ofList before, String.ofList after, ?_, ?_, ?_⟩, ?_, ?_⟩
    · rw [← String.toList_inj, hs, h]
      simp
    · rwa [isBlankText_iff, String.toList_ofList]
    · rwa [isBlankText_iff, String.toList_ofList]
    · rw [← h]
      exact isBlank_head?_trim _
    · rw [← h]
      exact isBlank_getLast?_trim _

theorem isBlankText_iff_trim (s : String) : isBlankText s = true ↔ trim s.toList = [] := by
  rw [isBlankText_iff]
  constructor
  · intro h
    rw [trim_eq, List.dropWhile_eq_nil_iff.2 h, List.rdropWhile_nil]
  · intro h
    obtain ⟨before, after, hs, hbefore, hafter⟩ := exists_surrounded s.toList
    rw [hs, h, List.append_nil, List.forall_mem_append]
    exact ⟨hbefore, hafter⟩

end QueryFilter.Text
