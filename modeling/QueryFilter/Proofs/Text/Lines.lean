import Mathlib.Data.List.Induction
import QueryFilter.Proofs.Text.ByteOrder
import QueryFilter.Text.Lines

/-!
# Lines of a text

`Lined s lines` says how a text consists of lines. A line ends at the first line
feed, a carriage return in front of the line feed belongs to the line break, and what
stands after the last line break is a line of its own unless it is empty.

The lines of a stream are cut out of its bytes and decoded one by one. The bytes of a
line feed and of a carriage return occur in the encoding of no other character, so the
cuts in the bytes are the cuts in the text. Hence the lines of a stream can be decoded
exactly if the whole stream can, and are then the lines of the text
(`lines?_eq_some_iff`).
-/

namespace QueryFilter.Text

/-- A text and its lines. -/
inductive Lined : String → List String → Prop
  | nil : Lined "" []
  /-- The last line has no line break. -/
  | unended {line : String} : line ≠ "" → '\n' ∉ line.toList → Lined line [line]
  | feed {line rest : String} {lines : List String} : '\n' ∉ line.toList →
      line.toList.getLast? ≠ some '\r' → Lined rest lines →
      Lined (line ++ "\n" ++ rest) (line :: lines)
  | returnFeed {line rest : String} {lines : List String} : '\n' ∉ line.toList →
      Lined rest lines → Lined (line ++ "\r\n" ++ rest) (line :: lines)

/-- Induction over the pieces of a list: it has no separator, or the first separator ends
its first piece and a shorter list follows. -/
theorem piecewise_induction {α : Type} (sep : α) {motive : List α → Prop}
    (piece : ∀ xs, sep ∉ xs → motive xs)
    (cut : ∀ xs ys, sep ∉ xs → motive ys → motive (xs ++ sep :: ys)) (xs : List α) :
    motive xs := by
  classical
  induction hn : xs.length using Nat.strongRecOn generalizing xs with
  | ind n ih =>
      by_cases hmem : sep ∈ xs
      · obtain ⟨ys, zs, rfl, hys⟩ := List.eq_append_cons_of_mem hmem
        refine cut ys zs hys (ih zs.length ?_ zs rfl)
        rw [← hn, List.length_append, List.length_cons]
        omega
      · exact piece xs hmem

/-! ## Encoded texts -/

theorem bytes_append (s t : String) : bytes (s ++ t) = bytes s ++ bytes t := by
  rw [bytes_eq_flatMap, bytes_eq_flatMap, bytes_eq_flatMap, String.toList_append,
    List.flatMap_append]

theorem bytes_feed (line rest : String) :
    bytes (line ++ "\n" ++ rest) = bytes line ++ lineFeed :: bytes rest := by
  rw [bytes_append, bytes_append, List.append_assoc]
  rfl

theorem bytes_returnFeed (line rest : String) :
    bytes (line ++ "\r\n" ++ rest) =
      (bytes line ++ [carriageReturn]) ++ lineFeed :: bytes rest := by
  rw [bytes_append, bytes_append, List.append_assoc, List.append_assoc]
  rfl

theorem toByteArray_bytes (s : String) : (bytes s).toByteArray = s.toByteArray := by
  apply ByteArray.ext
  rw [List.data_toByteArray, bytes, Array.toArray_toList]
  rfl

theorem decodeBytes?_eq_some_iff (bs : List UInt8) (s : String) :
    decodeBytes? bs = some s ↔ bs = bytes s := by
  rw [← List.toByteArray_inj, toByteArray_bytes]
  unfold decodeBytes? String.fromUTF8?
  constructor
  · intro h
    rw [Option.dite_none_right_eq_some] at h
    obtain ⟨hvalid, h⟩ := h
    obtain rfl := Option.some.inj h
    rfl
  · intro h
    have hvalid : bs.toByteArray.IsValidUTF8 := h ▸ s.isValidUTF8
    rw [dif_pos hvalid, Option.some.injEq, ← String.toByteArray_inj]
    exact h

@[simp] theorem decodeBytes?_bytes (s : String) : decodeBytes? (bytes s) = some s :=
  (decodeBytes?_eq_some_iff _ _).2 rfl

theorem eq_bytes_fromUTF8 {bs : List UInt8} (h : bs.toByteArray.IsValidUTF8) :
    bs = bytes (String.fromUTF8 bs.toByteArray h) := by
  rw [← decodeBytes?_eq_some_iff, decodeBytes?, String.fromUTF8?, dif_pos h]

theorem isValidUTF8_bytes (s : String) : (bytes s).toByteArray.IsValidUTF8 := by
  rw [toByteArray_bytes]
  exact s.isValidUTF8

theorem bytes_eq_nil_iff (s : String) : bytes s = [] ↔ s = "" := by
  constructor
  · intro h
    have hs := decodeBytes?_bytes s
    rw [h] at hs
    exact (Option.some.inj (hs.symm.trans (decodeBytes?_bytes "")))
  · rintro rfl
    rfl

/-- The byte of an ASCII character occurs in the encoding of that character only. -/
theorem mem_utf8EncodeChar_iff (d : Char) (hd : d.toNat < 128) (c : Char) :
    UInt8.ofNat d.toNat ∈ String.utf8EncodeChar c ↔ c = d := by
  constructor
  · intro h
    rw [← Char.toNat_inj]
    change c.val.toNat = d.toNat
    unfold String.utf8EncodeChar at h
    generalize c.val.toNat = n at h ⊢
    dsimp only at h
    -- The bytes of a longer encoding are all at least 128.
    split_ifs at h <;>
      simp only [List.mem_cons, List.not_mem_nil, or_false, ← UInt8.toNat_inj,
        UInt8.toNat_ofNat'] at h <;>
      omega
  · rintro rfl
    have hsmall : c.val.toNat ≤ 127 := Nat.le_of_lt_succ hd
    rw [String.utf8EncodeChar, if_pos hsmall]
    exact List.mem_singleton_self _

theorem lineFeed_mem_bytes_iff (s : String) : lineFeed ∈ bytes s ↔ '\n' ∈ s.toList := by
  have hbyte (c : Char) : lineFeed ∈ String.utf8EncodeChar c ↔ c = '\n' :=
    mem_utf8EncodeChar_iff '\n' (by decide) c
  simp only [bytes_eq_flatMap, List.mem_flatMap, hbyte, exists_eq_right]

theorem getLast?_bytes_iff (s : String) :
    (bytes s).getLast? = some carriageReturn ↔ s.toList.getLast? = some '\r' := by
  rw [bytes_eq_flatMap]
  cases s.toList using List.reverseRecOn with
  | nil => simp
  | append_singleton cs c =>
      rw [List.flatMap_append, List.flatMap_singleton, List.getLast?_concat,
        List.getLast?_append_of_ne_nil _ String.utf8EncodeChar_ne_nil, Option.some.injEq]
      constructor
      · intro h
        exact (mem_utf8EncodeChar_iff '\r' (by decide) c).1 (List.mem_of_getLast? h)
      · rintro rfl
        rfl

theorem dropCarriageReturn_bytes {s : String} (h : s.toList.getLast? ≠ some '\r') :
    dropCarriageReturn (bytes s) = bytes s :=
  if_neg (mt (getLast?_bytes_iff s).1 h)

/-! ## Lines of bytes -/

theorem lineBytes_of_not_mem {bs : List UInt8} (h : lineFeed ∉ bs) :
    lineBytes bs = if bs = [] then [] else [bs] := by
  rw [lineBytes, split_of_not_mem h]
  by_cases hbs : bs = [] <;> simp [hbs]

theorem lineBytes_append_cons {line : List UInt8} (h : lineFeed ∉ line) (rest : List UInt8) :
    lineBytes (line ++ lineFeed :: rest) = dropCarriageReturn line :: lineBytes rest := by
  obtain ⟨piece, pieces, hsplit⟩ := List.exists_cons_of_ne_nil (split_ne_nil lineFeed rest)
  simp only [lineBytes, split_append_cons h, hsplit]
  rfl

theorem lines?_append_cons {line : List UInt8} (h : lineFeed ∉ line) (rest : List UInt8) :
    lines? (line ++ lineFeed :: rest) =
      (decodeBytes? (dropCarriageReturn line)).bind fun s => (lines? rest).map (s :: ·) := by
  rw [lines?, lineBytes_append_cons h, List.mapM_cons, ← lines?]
  cases decodeBytes? (dropCarriageReturn line) with
  | none => rfl
  | some s => cases lines? rest <;> rfl

theorem Lined.lines?_bytes {s : String} {lines : List String} (h : Lined s lines) :
    lines? (bytes s) = some lines := by
  induction h with
  | nil => rfl
  | @unended line hne hline =>
      rw [lines?, lineBytes_of_not_mem (mt (lineFeed_mem_bytes_iff line).1 hline),
        if_neg (mt (bytes_eq_nil_iff line).1 hne), List.mapM_cons, decodeBytes?_bytes]
      rfl
  | @feed line rest lines hline hreturn _ ih =>
      rw [bytes_feed, lines?_append_cons (mt (lineFeed_mem_bytes_iff line).1 hline),
        dropCarriageReturn_bytes hreturn, decodeBytes?_bytes, ih]
      rfl
  | @returnFeed line rest lines hline _ ih =>
      have hmem : lineFeed ∉ bytes line ++ [carriageReturn] := by
        rw [List.mem_append, List.mem_singleton, not_or]
        exact ⟨mt (lineFeed_mem_bytes_iff line).1 hline, by decide⟩
      have hdrop : dropCarriageReturn (bytes line ++ [carriageReturn]) = bytes line := by
        simp [dropCarriageReturn]
      rw [bytes_returnFeed, lines?_append_cons hmem, hdrop, decodeBytes?_bytes, ih]
      rfl

/-! ## Lines of a text and of its bytes -/

/-- A text without line feeds and a line break make a line, possibly less a carriage
return. -/
theorem Lined.exists_cons {line rest : String} {lines : List String}
    (hline : '\n' ∉ line.toList) (h : Lined rest lines) :
    ∃ first, Lined (line ++ "\n" ++ rest) (first :: lines) ∧
      (line = first ∨ line = first ++ "\r") := by
  by_cases hreturn : line.toList.getLast? = some '\r'
  · obtain ⟨cs, hcs⟩ := List.getLast?_eq_some_iff.1 hreturn
    have hfirst : line = String.ofList cs ++ "\r" := by
      rw [← String.toList_inj, hcs]
      simp
    have hcs' : '\n' ∉ (String.ofList cs).toList := by
      rw [hfirst, String.toList_append, List.mem_append, not_or] at hline
      exact hline.1
    have hbreak : line ++ "\n" ++ rest = String.ofList cs ++ "\r\n" ++ rest := by
      rw [← String.toList_inj, hfirst]
      simp
    refine ⟨String.ofList cs, ?_, Or.inr hfirst⟩
    rw [hbreak]
    exact .returnFeed hcs' h
  · exact ⟨line, .feed hline hreturn h, Or.inl rfl⟩

/-- Every text consists of lines. -/
theorem exists_lined (s : String) : ∃ lines, Lined s lines := by
  suffices h : ∀ cs : List Char, ∃ lines, Lined (String.ofList cs) lines by
    simpa using h s.toList
  intro cs
  induction cs using piecewise_induction '\n' with
  | piece cs hcs =>
      cases cs with
      | nil => exact ⟨[], .nil⟩
      | cons c cs => exact ⟨_, .unended (by simp) (by simpa using hcs)⟩
  | cut cs rest hcs ih =>
      obtain ⟨lines, hlines⟩ := ih
      have hline : '\n' ∉ (String.ofList cs).toList := by simpa using hcs
      have hcut : String.ofList (cs ++ '\n' :: rest) =
          String.ofList cs ++ "\n" ++ String.ofList rest := by
        rw [← String.toList_inj]
        simp
      obtain ⟨first, hfirst, -⟩ := Lined.exists_cons hline hlines
      exact ⟨first :: lines, hcut ▸ hfirst⟩

theorem exists_lined_of_lines? {bs : List UInt8} {lines : List String}
    (h : lines? bs = some lines) : ∃ s, bs = bytes s ∧ Lined s lines := by
  induction bs using piecewise_induction lineFeed generalizing lines with
  | piece bs hbs =>
      rw [lines?, lineBytes_of_not_mem hbs] at h
      by_cases hnil : bs = []
      · rw [if_pos hnil] at h
        obtain rfl : [] = lines := Option.some.inj h
        exact ⟨"", hnil, .nil⟩
      · rw [if_neg hnil, List.mapM_cons] at h
        obtain ⟨s, hs, h⟩ := Option.bind_eq_some_iff.1 h
        obtain rfl : [s] = lines := Option.some.inj h
        obtain rfl := (decodeBytes?_eq_some_iff _ _).1 hs
        refine ⟨s, rfl, .unended (mt (bytes_eq_nil_iff s).2 hnil) ?_⟩
        exact mt (lineFeed_mem_bytes_iff s).2 hbs
  | cut line rest hline ih =>
      rw [lines?_append_cons hline] at h
      obtain ⟨s, hs, h⟩ := Option.bind_eq_some_iff.1 h
      obtain ⟨lines, hlines, rfl⟩ := Option.map_eq_some_iff.1 h
      obtain ⟨t, rfl, ht⟩ := ih hlines
      rw [decodeBytes?_eq_some_iff] at hs
      -- The text of a line does not say how the line ended, its bytes do.
      by_cases hreturn : line.getLast? = some carriageReturn
      · obtain ⟨bs, rfl⟩ := List.getLast?_eq_some_iff.1 hreturn
        rw [dropCarriageReturn, if_pos hreturn, List.dropLast_concat] at hs
        subst hs
        rw [List.mem_append, not_or] at hline
        refine ⟨s ++ "\r\n" ++ t, ?_, .returnFeed (mt (lineFeed_mem_bytes_iff s).2 hline.1) ht⟩
        rw [bytes_returnFeed]
      · rw [dropCarriageReturn, if_neg hreturn] at hs
        subst hs
        refine ⟨s ++ "\n" ++ t, ?_, .feed (mt (lineFeed_mem_bytes_iff s).2 hline)
          (mt (getLast?_bytes_iff s).2 hreturn) ht⟩
        rw [bytes_feed]

/-- The lines of a stream can be decoded exactly if the stream can, and are the lines of
its text. -/
theorem lines?_eq_some_iff (bs : List UInt8) (lines : List String) :
    lines? bs = some lines ↔ ∃ s, bs = bytes s ∧ Lined s lines := by
  constructor
  · exact exists_lined_of_lines?
  · rintro ⟨s, rfl, hs⟩
    exact hs.lines?_bytes

theorem Lined.unique {s : String} {lines lines' : List String} (h : Lined s lines)
    (h' : Lined s lines') : lines = lines' :=
  Option.some.inj (h.lines?_bytes.symm.trans h'.lines?_bytes)

end QueryFilter.Text
