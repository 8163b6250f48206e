import Mathlib.Data.List.Basic
import QueryFilter.Proofs.Json.Grammar

/-!
# Reading JSON texts

`read?` reads a text back into its value. It reads what the grammar writes
(`Denotes.read?_eq`), so a text has one value only (`Denotes.unique`).

Each reader returns what it has read and the rest of the text. The parts are written so
that none is the beginning of another, so the rest may be anything. Arrays and objects
are read by one function, `readRow`, which is given the reader for an entry. The depth
and the number of entries are bounded by a counter, and the length of the text is
enough for it.
-/

namespace QueryFilter.Json

/-! ## Readers -/

/-- The character with a code, if there is one. -/
def charOfCode? (n : Nat) : Option Char := if n.isValidChar then some (Char.ofNat n) else none

/-- The character that a letter after a backslash stands for. -/
def unescape? (letter : Char) : Option Char :=
  (escapes.find? fun e => e.2 = letter).map (·.1)

def prepend {α β : Type} (x : α) (read : List α × β) : List α × β := (x :: read.1, read.2)

/-- Reads characters up to the closing quote. -/
def readChars : List Char → Option (List Char × List Char)
  | [] => none
  | '"' :: rest => some ([], rest)
  | '\\' :: 'u' :: a :: b :: c :: d :: rest => do
    let x ← charOfCode? (← hexCode? a b c d)
    return prepend x (← readChars rest)
  | '\\' :: letter :: rest => do
    let x ← unescape? letter
    return prepend x (← readChars rest)
  | c :: rest => if c.toNat < 0x20 ∨ c = '\\' then none else (readChars rest).map (prepend c)

/-- The rest of a text after white space. -/
def skip (cs : List Char) : List Char := cs.dropWhile isSpace

/-- Reads entries up to the closing bracket, with commas between them. -/
def readRow {α : Type} (entry : List Char → Option (α × List Char)) (close : Char) :
    Nat → List Char → Option (List α × List Char)
  | 0, _ => none
  | n + 1, cs => do
    let (x, rest) ← entry (skip cs)
    match skip rest with
    | [] => none
    | c :: rest =>
      if c = ',' then (readRow entry close n rest).map (prepend x)
      else if c = close then some ([x], rest)
      else none

/-- Reads the entries after an opening bracket, of which there may be none. -/
def readEntries {α : Type} (entry : List Char → Option (α × List Char)) (close : Char) (n : Nat)
    (cs : List Char) : Option (List α × List Char) :=
  if (skip cs).head? = some close then some ([], (skip cs).tail) else readRow entry close n cs

/-- Reads a field, given the reader for its value. -/
def readField (value : List Char → Option (Json × List Char)) :
    List Char → Option ((String × Json) × List Char)
  | '"' :: cs => do
    let (name, rest) ← readChars cs
    match skip rest with
    | ':' :: rest => (value (skip rest)).map fun x => ((String.ofList name, x.1), x.2)
    | _ => none
  | _ => none

/-- Reads a value of at most a depth. -/
def readValue : Nat → List Char → Option (Json × List Char)
  | 0, _ => none
  | n + 1, cs =>
    match cs with
    | 'n' :: 'u' :: 'l' :: 'l' :: rest => some (.null, rest)
    | 't' :: 'r' :: 'u' :: 'e' :: rest => some (.bool true, rest)
    | 'f' :: 'a' :: 'l' :: 's' :: 'e' :: rest => some (.bool false, rest)
    | '"' :: rest => (readChars rest).map fun x => (.string (String.ofList x.1), x.2)
    | '[' :: rest => (readEntries (readValue n) ']' n rest).map fun x => (.array x.1, x.2)
    | '\x7b' :: rest =>
      (readEntries (readField (readValue n)) '\x7d' n rest).map fun x => (.object x.1, x.2)
    | _ => none

def read? (text : String) : Option Json :=
  match readValue text.length (skip text.toList) with
  | some (j, rest) => if skip rest = [] then some j else none
  | none => none

/-! ## Strings -/

theorem charOfCode?_toNat (c : Char) : charOfCode? c.toNat = some c := by
  have hvalid : c.toNat.isValidChar := c.valid
  rw [charOfCode?, if_pos hvalid, Char.ofNat_toNat]

theorem unescape?_of_mem : ∀ e ∈ escapes, unescape? e.2 = some e.1 := by decide

theorem ne_of_mem_escapes : ∀ e ∈ escapes, e.2 ≠ 'u' := by decide

theorem CharText.readChars_append {ts : List Char} {c : Char} (h : CharText ts c)
    (rest : List Char) : readChars (ts ++ rest) = (readChars rest).map (prepend c) := by
  cases h with
  | plain hlow hquote hslash =>
      have hplain : ¬ (c.toNat < 0x20 ∨ c = '\\') := by
        rw [not_or]
        exact ⟨Nat.not_lt.2 hlow, hslash⟩
      rw [List.singleton_append, readChars.eq_def]
      split
      · next heq => cases heq
      · next heq => cases heq; exact absurd rfl hquote
      · next heq => cases heq; exact absurd rfl hslash
      · next heq => cases heq; exact absurd rfl hslash
      · next heq => cases heq; rw [if_neg hplain]
  | @letter _ l hmem =>
      have hl : unescape? l = some c := unescape?_of_mem _ hmem
      have hu : l ≠ 'u' := ne_of_mem_escapes _ hmem
      rw [List.cons_append, List.singleton_append, readChars.eq_def]
      split
      · next heq => cases heq
      · next heq => cases heq
      · next heq => cases heq; exact absurd rfl hu
      · next heq =>
        cases heq
        rw [hl]
        cases readChars rest <;> rfl
      · next hno heq => cases heq; exact absurd rfl (hno l rest rfl)
  | code hcode =>
      simp only [List.cons_append, List.nil_append]
      rw [readChars, hcode]
      dsimp only [Option.bind_eq_bind, Option.bind_some]
      rw [charOfCode?_toNat]
      cases readChars rest <;> rfl

theorem StringText.readChars_append {ts cs : List Char} (h : StringText ts cs)
    (rest : List Char) : readChars (ts ++ '"' :: rest) = some (cs, rest) := by
  induction h with
  | nil => rw [List.nil_append, readChars]
  | cons hc _ ih =>
      rw [List.append_assoc, hc.readChars_append, ih]
      rfl

/-! ## White space -/

theorem Spaces.skip_append {v : List Char} (h : Spaces v) (cs : List Char) :
    skip (v ++ cs) = skip cs :=
  List.dropWhile_append_of_pos h

theorem skip_cons {c : Char} (h : isSpace c = false) (cs : List Char) :
    skip (c :: cs) = c :: cs := by
  rw [skip, List.dropWhile_cons, h]
  rfl

/-- The characters that values and fields begin with. -/
def beginnings : List Char := ['n', 't', 'f', '"', '[', '\x7b']

/-- A text that begins as a value or a field does. -/
def Begins (cs : List Char) : Prop := ∃ c ds, c ∈ beginnings ∧ cs = c :: ds

theorem Begins.skip_append {cs : List Char} (h : Begins cs) (rest : List Char) :
    skip (cs ++ rest) = cs ++ rest := by
  obtain ⟨c, ds, hc, rfl⟩ := h
  have hspaces : (beginnings.all fun d => !isSpace d) = true := by decide
  have hspace := List.all_eq_true.1 hspaces c hc
  exact skip_cons (by simpa using hspace) _

theorem Begins.append {cs : List Char} (h : Begins cs) (rest : List Char) :
    Begins (cs ++ rest) := by
  obtain ⟨c, ds, hc, rfl⟩ := h
  exact ⟨c, ds ++ rest, hc, rfl⟩

theorem Begins.length_pos {cs : List Char} (h : Begins cs) : 0 < cs.length := by
  obtain ⟨c, ds, -, rfl⟩ := h
  exact Nat.succ_pos _

/-- No value and no field begins with a closing bracket. -/
theorem Begins.head?_ne {cs : List Char} (h : Begins cs) :
    cs.head? ≠ some ']' ∧ cs.head? ≠ some '\x7d' := by
  obtain ⟨c, ds, hc, rfl⟩ := h
  have hbrackets : (beginnings.all fun d => d ≠ ']' && d ≠ '\x7d') = true := by decide
  have hbracket := List.all_eq_true.1 hbrackets c hc
  simpa using hbracket

theorem begins_skip {v cs : List Char} (hv : Spaces v) (h : Begins cs) (rest : List Char) :
    Begins (skip (v ++ cs ++ rest)) := by
  rw [List.append_assoc, hv.skip_append, h.skip_append]
  exact h.append rest

theorem Written.begins_value {cs : List Char} {j : Json} (h : Written cs (.value j)) :
    Begins cs := by
  cases h <;> exact ⟨_, _, by decide, rfl⟩

theorem Written.begins_field {cs : List Char} {name : String} {j : Json}
    (h : Written cs (.field name j)) : Begins cs := by
  cases h
  exact ⟨_, _, by decide, rfl⟩

theorem Written.begins_items {cs : List Char} {js : List Json} (h : Written cs (.items js))
    (rest : List Char) : Begins (skip (cs ++ rest)) := by
  cases h with
  | item hv hcs _ =>
      rw [List.append_assoc]
      exact begins_skip hv hcs.begins_value _
  | items hv hcs _ _ =>
      rw [List.append_assoc, List.append_assoc]
      exact begins_skip hv hcs.begins_value _

theorem Written.begins_fields {cs : List Char} {fs : List (String × Json)}
    (h : Written cs (.fields fs)) (rest : List Char) : Begins (skip (cs ++ rest)) := by
  cases h with
  | lastField hv hcs _ =>
      rw [List.append_assoc]
      exact begins_skip hv hcs.begins_field _
  | fields hv hcs _ _ =>
      rw [List.append_assoc, List.append_assoc]
      exact begins_skip hv hcs.begins_field _

/-! ## Rows -/

theorem readEntries_nil {α : Type} (entry : List Char → Option (α × List Char)) {close : Char}
    {w : List Char} (hw : Spaces w) (hclose : isSpace close = false) (n : Nat)
    (rest : List Char) : readEntries entry close n (w ++ close :: rest) = some ([], rest) := by
  rw [readEntries, hw.skip_append, skip_cons hclose]
  exact if_pos rfl

theorem readEntries_of_head?_ne {α : Type} (entry : List Char → Option (α × List Char))
    {close : Char} {cs : List Char} (h : (skip cs).head? ≠ some close) (n : Nat) :
    readEntries entry close n cs = readRow entry close n cs :=
  if_neg h

theorem readRow_entry {α : Type} {entry : List Char → Option (α × List Char)} {x : α}
    {v cs w : List Char} {c : Char} (hv : Spaces v) (hcs : Begins cs) (hw : Spaces w)
    (hc : isSpace c = false) (hentry : ∀ rest, entry (cs ++ rest) = some (x, rest))
    (close : Char) (n : Nat) (rest : List Char) :
    readRow entry close (n + 1) (v ++ cs ++ w ++ c :: rest) =
      if c = ',' then (readRow entry close n rest).map (prepend x)
      else if c = close then some ([x], rest)
      else none := by
  have hsplit : v ++ cs ++ w ++ c :: rest = v ++ (cs ++ (w ++ c :: rest)) := by
    simp only [List.append_assoc]
  rw [hsplit, readRow, hv.skip_append, hcs.skip_append, hentry]
  dsimp only [Option.bind_eq_bind, Option.bind_some]
  rw [hw.skip_append, skip_cons hc]

theorem readRow_last {α : Type} {entry : List Char → Option (α × List Char)} {x : α}
    {v cs w : List Char} {close : Char} (hv : Spaces v) (hcs : Begins cs) (hw : Spaces w)
    (hclose : isSpace close = false) (hcomma : close ≠ ',')
    (hentry : ∀ rest, entry (cs ++ rest) = some (x, rest)) {n : Nat}
    (hn : (v ++ cs ++ w).length ≤ n) (rest : List Char) :
    readRow entry close n (v ++ cs ++ w ++ close :: rest) = some ([x], rest) := by
  have hpos := hcs.length_pos
  simp only [List.length_append] at hn
  obtain ⟨m, rfl⟩ := Nat.exists_eq_succ_of_ne_zero (show n ≠ 0 by omega)
  rw [readRow_entry hv hcs hw hclose hentry, if_neg hcomma, if_pos rfl]

theorem readRow_cons {α : Type} {entry : List Char → Option (α × List Char)} {x : α} {xs : List α}
    {v cs w ds : List Char} {close : Char} (hv : Spaces v) (hcs : Begins cs) (hw : Spaces w)
    (hentry : ∀ rest, entry (cs ++ rest) = some (x, rest)) {rest : List Char}
    (hrow : ∀ m, ds.length ≤ m → readRow entry close m (ds ++ close :: rest) = some (xs, rest))
    {n : Nat} (hn : (v ++ cs ++ w ++ ',' :: ds).length ≤ n) :
    readRow entry close n (v ++ cs ++ w ++ ',' :: ds ++ close :: rest) = some (x :: xs, rest) := by
  simp only [List.length_append, List.length_cons] at hn
  obtain ⟨m, rfl⟩ := Nat.exists_eq_succ_of_ne_zero (show n ≠ 0 by omega)
  have hsplit : v ++ cs ++ w ++ ',' :: ds ++ close :: rest =
      v ++ cs ++ w ++ ',' :: (ds ++ close :: rest) := by
    rw [List.append_assoc _ (',' :: ds), List.cons_append]
  rw [hsplit, readRow_entry hv hcs hw (by decide) hentry, if_pos rfl, hrow m (by omega)]
  rfl

/-! ## Values -/

/-- A part is read from the front of every text that it begins. -/
def Part.ReadFrom (cs : List Char) : Part → Prop
  | .value j => ∀ n rest, cs.length ≤ n → readValue n (cs ++ rest) = some (j, rest)
  | .field name j => ∀ n rest, cs.length ≤ n →
      readField (readValue n) (cs ++ rest) = some ((name, j), rest)
  | .items js => ∀ n rest, cs.length ≤ n → ∀ m, cs.length ≤ m →
      readRow (readValue n) ']' m (cs ++ ']' :: rest) = some (js, rest)
  | .fields fs => ∀ n rest, cs.length ≤ n → ∀ m, cs.length ≤ m →
      readRow (readField (readValue n)) '\x7d' m (cs ++ '\x7d' :: rest) = some (fs, rest)

theorem Part.readFrom_value {cs : List Char} {j : Json} (hcs : Begins cs)
    (h : ∀ n rest, cs.length ≤ n + 1 → readValue (n + 1) (cs ++ rest) = some (j, rest)) :
    (Part.value j).ReadFrom cs := by
  intro n rest hn
  have hpos := hcs.length_pos
  obtain ⟨m, rfl⟩ := Nat.exists_eq_succ_of_ne_zero (show n ≠ 0 by omega)
  exact h m rest hn

theorem readValue_array (n : Nat) (rest : List Char) :
    readValue (n + 1) ('[' :: rest) =
      (readEntries (readValue n) ']' n rest).map fun x => (.array x.1, x.2) := rfl

theorem readValue_object (n : Nat) (rest : List Char) :
    readValue (n + 1) ('\x7b' :: rest) =
      (readEntries (readField (readValue n)) '\x7d' n rest).map fun x => (.object x.1, x.2) := rfl

theorem Part.readFrom_bracketed {α : Type} {entry : Nat → List Char → Option (α × List Char)}
    {make : List α → Json} {first close : Char} {cs : List Char} {xs : List α}
    (hfirst : first ∈ beginnings)
    (hvalue : ∀ n rest, readValue (n + 1) (first :: rest) =
      (readEntries (entry n) close n rest).map fun x => (make x.1, x.2))
    (h : ∀ n rest, cs.length ≤ n →
      readEntries (entry n) close n (cs ++ close :: rest) = some (xs, rest)) :
    (Part.value (make xs)).ReadFrom (first :: cs ++ [close]) := by
  refine Part.readFrom_value ⟨first, cs ++ [close], hfirst, rfl⟩ fun n rest hn => ?_
  simp only [List.length_append, List.length_cons] at hn
  simp only [List.cons_append, List.append_assoc, List.nil_append]
  rw [hvalue, h n rest (by omega), Option.map_some]

theorem Written.readFrom {cs : List Char} {part : Part} (h : Written cs part) :
    part.ReadFrom cs := by
  induction h with
  | null => exact Part.readFrom_value Written.null.begins_value fun n rest _ => rfl
  | true => exact Part.readFrom_value Written.true.begins_value fun n rest _ => rfl
  | false => exact Part.readFrom_value Written.false.begins_value fun n rest _ => rfl
  | @string cs s hs =>
      refine Part.readFrom_value (Written.string hs).begins_value fun n rest _ => ?_
      simp only [List.cons_append, List.append_assoc, List.nil_append]
      rw [readValue, hs.readChars_append, Option.map_some, String.ofList_toList]
  | emptyArray hw =>
      exact Part.readFrom_bracketed (by decide) readValue_array fun n rest _ =>
        readEntries_nil _ hw (by decide) n rest
  | array hcs ih =>
      refine Part.readFrom_bracketed (by decide) readValue_array fun n rest hn => ?_
      rw [readEntries_of_head?_ne _ (hcs.begins_items _).head?_ne.1]
      exact ih n rest hn n hn
  | emptyObject hw =>
      exact Part.readFrom_bracketed (by decide) readValue_object fun n rest _ =>
        readEntries_nil _ hw (by decide) n rest
  | object hcs ih =>
      refine Part.readFrom_bracketed (by decide) readValue_object fun n rest hn => ?_
      rw [readEntries_of_head?_ne _ (hcs.begins_fields _).head?_ne.2]
      exact ih n rest hn n hn
  | @field ns v w cs name j hns hv hw hcs ih =>
      intro n rest hn
      simp only [List.length_append, List.length_cons] at hn
      have hsplit : '"' :: ns ++ '"' :: v ++ ':' :: w ++ cs ++ rest =
          '"' :: (ns ++ '"' :: (v ++ ':' :: (w ++ (cs ++ rest)))) := by simp
      rw [hsplit, readField, hns.readChars_append]
      dsimp only [Option.bind_eq_bind, Option.bind_some]
      rw [hv.skip_append, skip_cons (by decide)]
      change Option.map _ (readValue n (skip (w ++ (cs ++ rest)))) = _
      rw [hw.skip_append, hcs.begins_value.skip_append, ih n rest (by omega), Option.map_some,
        String.ofList_toList]
  | item hv hcs hw ih =>
      intro n rest hn m hm
      simp only [List.length_append] at hn
      exact readRow_last hv hcs.begins_value hw (by decide) (by decide)
        (fun rest => ih n rest (by omega)) hm rest
  | items hv hcs hw hds ih ihds =>
      intro n rest hn m hm
      simp only [List.length_append, List.length_cons] at hn
      exact readRow_cons hv hcs.begins_value hw (fun rest => ih n rest (by omega))
        (ihds n rest (by omega)) hm
  | lastField hv hcs hw ih =>
      intro n rest hn m hm
      simp only [List.length_append] at hn
      exact readRow_last hv hcs.begins_field hw (by decide) (by decide)
        (fun rest => ih n rest (by omega)) hm rest
  | fields hv hcs hw hds ih ihds =>
      intro n rest hn m hm
      simp only [List.length_append, List.length_cons] at hn
      exact readRow_cons hv hcs.begins_field hw (fun rest => ih n rest (by omega))
        (ihds n rest (by omega)) hm

/-! ## Texts -/

theorem skip_of_spaces {w : List Char} (h : Spaces w) : skip w = [] := by
  have hnil := h.skip_append []
  rw [List.append_nil] at hnil
  exact hnil

/-- A text is read back into the value it denotes. -/
theorem Denotes.read?_eq {text : String} {j : Json} (h : Denotes text j) : read? text = some j := by
  obtain ⟨v, cs, w, hv, hcs, hw, htext⟩ := h
  have hlength : cs.length ≤ text.length := by
    rw [← String.length_toList, htext]
    simp only [List.length_append]
    omega
  rw [read?, htext, List.append_assoc, hv.skip_append, hcs.begins_value.skip_append,
    hcs.readFrom text.length w hlength]
  exact if_pos (skip_of_spaces hw)

theorem Denotes.unique {text : String} {j j' : Json} (h : Denotes text j) (h' : Denotes text j') :
    j = j' := by
  have heq := h.read?_eq
  rw [h'.read?_eq] at heq
  exact (Option.some.inj heq).symm

end QueryFilter.Json
