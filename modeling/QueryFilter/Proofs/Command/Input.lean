import QueryFilter.Command.Run
import QueryFilter.Proofs.Command.Agreement
import QueryFilter.Proofs.Text.Lines
import QueryFilter.Proofs.Text.Trimming

/-!
# Pairs from the standard input

A check without pairs takes those that are not blank among the lines of the standard
input. A stream that is not UTF-8 is refused before a pair is looked at, and since no
check fails in this way for another reason, the refusal tells exactly that.

`Listed pairs text` says that a text lists pairs line by line, whatever line breaks and
blank lines it uses. Its lines that are not blank are then the pairs
(`Listed.exists_lined`), so the check answers as if they had been given to it.
-/

namespace QueryFilter.Command

/-- A text that lists pairs in order, one in a line. Lines are ended by a line feed, with
or without a carriage return in front of it; the last one may have no end. Blank lines
may stand anywhere. -/
inductive Listed : List String → String → Prop
  | last {pair : String} : Listed [pair] pair
  | lastBlank {line : String} : Text.isBlankText line = true → '\n' ∉ line.toList →
      Listed [] line
  | pair {pair lineBreak text : String} {pairs : List String} :
      lineBreak = "\n" ∨ lineBreak = "\r\n" → Listed pairs text →
      Listed (pair :: pairs) (pair ++ lineBreak ++ text)
  | blank {line lineBreak text : String} {pairs : List String} :
      Text.isBlankText line = true → '\n' ∉ line.toList →
      lineBreak = "\n" ∨ lineBreak = "\r\n" → Listed pairs text →
      Listed pairs (line ++ lineBreak ++ text)

/-- A text that can be given as a line of its own. -/
structure FitsLine (pair : String) : Prop where
  feed : '\n' ∉ pair.toList
  carriageReturn : pair.toList.getLast? ≠ some '\r'
  filled : Text.trim pair.toList ≠ []

def filled (lines : List String) : List String := lines.filter fun line => !Text.isBlankText line

theorem filled_cons_of_fitsLine {pair : String} (h : FitsLine pair) (lines : List String) :
    filled (pair :: lines) = pair :: filled lines := by
  have hblank := mt (Text.isBlankText_iff_trim pair).1 h.filled
  rw [filled, List.filter_cons_of_pos (by simpa using hblank), filled]

theorem filled_cons_of_isBlankText {line : String} (h : Text.isBlankText line = true)
    (lines : List String) : filled (line :: lines) = filled lines := by
  rw [filled, List.filter_cons_of_neg (by simpa using h), filled]

theorem isBlankText_of_append_return {line first : String} (h : Text.isBlankText line = true)
    (hline : line = first ∨ line = first ++ "\r") : Text.isBlankText first = true := by
  rcases hline with rfl | rfl
  · exact h
  · rw [Text.isBlankText_iff, String.toList_append, List.forall_mem_append] at h
    exact (Text.isBlankText_iff first).2 h.1

/-- The lines of a listing that are not blank are its pairs. -/
theorem Listed.exists_lined {pairs : List String} {text : String} (h : Listed pairs text)
    (hpairs : ∀ pair ∈ pairs, FitsLine pair) :
    ∃ lines, Text.Lined text lines ∧ filled lines = pairs := by
  induction h with
  | @last pair =>
      have hpair := hpairs pair (List.mem_singleton_self _)
      refine ⟨[pair], .unended ?_ hpair.feed, filled_cons_of_fitsLine hpair []⟩
      rintro rfl
      exact hpair.filled rfl
  | @lastBlank line hblank hline =>
      by_cases hne : line = ""
      · exact ⟨[], hne ▸ .nil, rfl⟩
      · exact ⟨[line], .unended hne hline, filled_cons_of_isBlankText hblank []⟩
  | @pair pair lineBreak text pairs hbreak _ ih =>
      rw [List.forall_mem_cons] at hpairs
      obtain ⟨lines, hlines, rfl⟩ := ih hpairs.2
      refine ⟨pair :: lines, ?_, filled_cons_of_fitsLine hpairs.1 lines⟩
      rcases hbreak with rfl | rfl
      · exact .feed hpairs.1.feed hpairs.1.carriageReturn hlines
      · exact .returnFeed hpairs.1.feed hlines
  | @blank line lineBreak text pairs hblank hline hbreak _ ih =>
      obtain ⟨lines, hlines, rfl⟩ := ih hpairs
      rcases hbreak with rfl | rfl
      · -- A carriage return at the end of the blank line goes to the line break.
        obtain ⟨first, hfirst, hreturn⟩ := Text.Lined.exists_cons hline hlines
        exact ⟨first :: lines, hfirst,
          filled_cons_of_isBlankText (isBlankText_of_append_return hblank hreturn) lines⟩
      · exact ⟨line :: lines, .returnFeed hline hlines, filled_cons_of_isBlankText hblank lines⟩

/-! ## Gathering the pairs -/

theorem gatherPairs_of_lined {text : String} {lines : List String} (h : Text.Lined text lines) :
    gatherPairs (some (Text.bytes text)) [] = .ok (filled lines) := by
  rw [gatherPairs, Text.filledLines?, (Text.lines?_eq_some_iff _ _).2 ⟨text, rfl, h⟩]
  rfl

theorem exists_gatherPairs_of_valid {input : List UInt8} (h : input.toByteArray.IsValidUTF8) :
    ∃ lines, Text.Lined (String.fromUTF8 input.toByteArray h) lines ∧
      gatherPairs (some input) [] = .ok (filled lines) := by
  obtain ⟨lines, hlines⟩ := Text.exists_lined (String.fromUTF8 input.toByteArray h)
  have hgather := gatherPairs_of_lined hlines
  rw [← Text.eq_bytes_fromUTF8 h] at hgather
  exact ⟨lines, hlines, hgather⟩

theorem gatherPairs_of_invalid {input : List UInt8} (h : ¬ input.toByteArray.IsValidUTF8) :
    gatherPairs (some input) [] = .error .unreadableInput := by
  have hnone : Text.lines? input = none := by
    rw [Option.eq_none_iff_forall_ne_some]
    intro lines hlines
    obtain ⟨text, rfl, -⟩ := (Text.lines?_eq_some_iff _ _).1 hlines
    exact h (Text.isValidUTF8_bytes text)
  rw [gatherPairs, Text.filledLines?, hnone]
  rfl

theorem gatherPairs_of_ne_nil (input : Option (List UInt8)) {pairs : List String} (h : pairs ≠ []) :
    gatherPairs input pairs = .ok pairs := by
  obtain ⟨pair, rest, rfl⟩ := List.exists_cons_of_ne_nil h
  rfl

/-! ## The answer of a check -/

/-- Only the standard input can be unreadable. -/
theorem map_check_ne_unreadableInput (o : CheckOptions) (g : String → String) :
    (check o).map g ≠ .error .unreadableInput := by
  intro h
  cases hfind : o.pairs.find? (fun pair => '=' ∉ pair.toList) with
  | some pair =>
      rw [check_of_malformed hfind] at h
      exact absurd h (by simp [Except.map])
  | none =>
      have hpairs : ∀ pair ∈ o.pairs, '=' ∈ pair.toList := by simpa using hfind
      obtain ⟨arguments, hkeys, ho⟩ := exists_written hpairs
      obtain ⟨hok, herror⟩ := check_of_written hkeys ho
      cases hparse : o.requested.parse arguments with
      | ok s =>
          rw [hok s hparse] at h
          exact absurd h (by simp [Except.map])
      | error e =>
          rw [herror e hparse] at h
          exact absurd h (by simp [Except.map])

theorem answer_of_gatherPairs {o : CheckOptions} {input : Option (List UInt8)}
    {pairs : List String} (h : gatherPairs input o.pairs = .ok pairs) :
    (Request.check o).answer input = (check { o with pairs := pairs }).map (· ++ "\n") := by
  rw [Request.answer, checkInput, h]
  rfl

theorem answer_of_gatherPairs_error {o : CheckOptions} {input : Option (List UInt8)} {f : Failure}
    (h : gatherPairs input o.pairs = .error f) : (Request.check o).answer input = .error f := by
  rw [Request.answer, checkInput, h]
  rfl

/-- Pairs that fit on lines mean the same in any text that lists them on the standard
input as they mean as arguments, whatever else is asked of the check. -/
theorem listed_pairs_as_arguments (o : CheckOptions) (input : Option (List UInt8))
    {pairs : List String} {text : String} (hne : pairs ≠ [])
    (hpairs : ∀ pair ∈ pairs, FitsLine pair) (h : Listed pairs text) :
    (Request.check { o with pairs := pairs }).answer input =
      (Request.check { o with pairs := [] }).answer (some (Text.bytes text)) := by
  obtain ⟨lines, hlines, hfilled⟩ := h.exists_lined hpairs
  have hgather := gatherPairs_of_lined hlines
  rw [hfilled] at hgather
  rw [answer_of_gatherPairs (gatherPairs_of_ne_nil input hne), answer_of_gatherPairs hgather]

theorem listed_pairs_between_blank_lines :
    (Request.check { pairs := ["filter[param][name]=\u00e9", " filter[order]=desc(name)"] }).answer
        none =
      (Request.check { pairs := [] }).answer (some (Text.bytes
        "\r\nfilter[param][name]=\u00e9\r\n\u2003\n filter[order]=desc(name)")) := by
  have hlisted : Listed ["filter[param][name]=\u00e9", " filter[order]=desc(name)"]
      "\r\nfilter[param][name]=\u00e9\r\n\u2003\n filter[order]=desc(name)" :=
    @Listed.blank "" "\r\n" _ _ rfl (by simp) (Or.inr rfl)
      (@Listed.pair "filter[param][name]=\u00e9" "\r\n" _ _ (Or.inr rfl)
        (@Listed.blank "\u2003" "\n" _ _ rfl (by simp) (Or.inl rfl)
          (@Listed.last " filter[order]=desc(name)")))
  refine listed_pairs_as_arguments {} none (by simp) ?_ hlisted
  rw [List.forall_mem_cons, List.forall_mem_singleton]
  exact ⟨⟨by simp, by simp, by decide⟩, ⟨by simp, by simp, by decide⟩⟩

/-- The standard input is refused exactly if it is not UTF-8, whatever its lines hold and
whatever is asked of the check. Otherwise its text consists of lines in one way, and the
pairs that are checked are those of its lines that are not blank, in order. -/
theorem input_refused_iff_invalid (o : CheckOptions) (input : List UInt8) :
    ((Request.check { o with pairs := [] }).answer (some input) = .error .unreadableInput ↔
      ¬ input.toByteArray.IsValidUTF8) ∧
    (∀ h : input.toByteArray.IsValidUTF8, ∃ lines,
      (∀ ls, Text.Lined (String.fromUTF8 input.toByteArray h) ls ↔ ls = lines) ∧
      gatherPairs (some input) [] = .ok (filled lines) ∧
      (Request.check { o with pairs := [] }).answer (some input) =
        (check { o with pairs := filled lines }).map (· ++ "\n")) := by
  refine ⟨⟨?_, ?_⟩, ?_⟩
  · intro hanswer hvalid
    obtain ⟨lines, -, hgather⟩ := exists_gatherPairs_of_valid hvalid
    rw [answer_of_gatherPairs hgather] at hanswer
    exact map_check_ne_unreadableInput _ _ hanswer
  · intro hinvalid
    exact answer_of_gatherPairs_error (gatherPairs_of_invalid hinvalid)
  · intro hvalid
    obtain ⟨lines, hlines, hgather⟩ := exists_gatherPairs_of_valid hvalid
    refine ⟨lines, fun ls => ⟨fun h => h.unique hlines, ?_⟩, hgather,
      answer_of_gatherPairs hgather⟩
    rintro rfl
    exact hlines

theorem input_refused_where_cut :
    (Request.check { operations := ["lt"], pairs := [] }).answer
        (some [0x78, 0x0A, 0xC3, 0x0A, 0xA9]) = .error .unreadableInput ∧
      gatherPairs (some [0x78, 0x0D, 0x0A, 0x20, 0x0A, 0xC3, 0xA9, 0x0D]) [] =
        .ok ["x", "\u00e9\r"] := by
  have hvalid : [0x78, 0x0D, 0x0A, 0x20, 0x0A, 0xC3, 0xA9, 0x0D].toByteArray.IsValidUTF8 :=
    Text.isValidUTF8_bytes "x\r\n \n\u00e9\r"
  refine ⟨(input_refused_iff_invalid { operations := ["lt"] } _).1.2 ?_, ?_⟩
  · decide
  · obtain ⟨lines, hunique, hgather, -⟩ :=
      (input_refused_iff_invalid {} [0x78, 0x0D, 0x0A, 0x20, 0x0A, 0xC3, 0xA9, 0x0D]).2 hvalid
    have hlined : Text.Lined "x\r\n \n\u00e9\r" ["x", " ", "\u00e9\r"] :=
      @Text.Lined.returnFeed "x" _ _ (by simp)
        (@Text.Lined.feed " " _ _ (by simp) (by simp)
          (@Text.Lined.unended "\u00e9\r" (by simp) (by simp)))
    obtain rfl := (hunique _).1 hlined
    rw [hgather]
    decide

end QueryFilter.Command
