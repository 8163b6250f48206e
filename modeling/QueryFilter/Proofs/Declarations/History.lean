import Mathlib.Data.List.Sort
import QueryFilter.Proofs.Declarations.Updates
import QueryFilter.Proofs.Text.ByteOrder

/-!
# Declarations and their history

Declarations are reached from nothing, or from accepted arguments, by one update
after the other. `Declarations.Reached d us` records the updates `us` made on the
way, those of the arguments included. All that can be asked of `d` is read off
this history: the entries increase strictly, there is one for each
identification that was ever declared, and it holds what was declared last.

Entries that increase strictly are determined by their look-ups
(`Increasing.ext`), so two histories with the same look-ups lead to the same
entries.
-/

namespace QueryFilter

/-! ## Increasing entries -/

/-- Entries with strictly increasing identifications. -/
def Increasing (entries : List (String × Definition)) : Prop :=
  entries.Pairwise fun e f => e.1 < f.1

theorem mem_insertEntry {k : String} {x : Definition} {entries : List (String × Definition)}
    {e : String × Definition} (h : e ∈ insertEntry k x entries) : e = (k, x) ∨ e ∈ entries := by
  induction entries with
  | nil => exact Or.inl (List.mem_singleton.1 h)
  | cons f entries ih =>
      obtain ⟨k', x'⟩ := f
      rw [insertEntry] at h
      split at h
      · exact List.mem_cons.1 h
      · split at h
        · exact (List.mem_cons.1 h).imp_right (List.mem_cons_of_mem _)
        · rcases List.mem_cons.1 h with rfl | h
          · exact Or.inr List.mem_cons_self
          · exact (ih h).imp_right (List.mem_cons_of_mem _)

theorem Increasing.insertEntry {entries : List (String × Definition)} (h : Increasing entries)
    (k : String) (x : Definition) : Increasing (insertEntry k x entries) := by
  induction entries with
  | nil => exact List.pairwise_singleton _ _
  | cons f entries ih =>
      obtain ⟨k', x'⟩ := f
      obtain ⟨hfirst, hrest⟩ := List.pairwise_cons.1 h
      rw [QueryFilter.insertEntry]
      split
      · next hlt =>
        refine List.pairwise_cons.2 ⟨fun e he => ?_, h⟩
        rcases List.mem_cons.1 he with rfl | he
        · exact hlt
        · exact String.lt_trans hlt (hfirst e he)
      · next hnlt =>
        split
        · next heq =>
          subst heq
          exact List.pairwise_cons.2 ⟨hfirst, hrest⟩
        · next hne =>
          refine List.pairwise_cons.2 ⟨fun e he => ?_, ih hrest⟩
          rcases mem_insertEntry he with rfl | he
          · rcases Std.lt_trichotomy k k' with hlt | heq | hgt
            · exact absurd hlt hnlt
            · exact absurd heq hne
            · exact hgt
          · exact hfirst e he

/-- Each identification has one entry, so looking it up finds every entry. -/
theorem Increasing.mem_iff {entries : List (String × Definition)} (h : Increasing entries)
    (i : String) (x : Definition) : (i, x) ∈ entries ↔ entries.lookup i = some x := by
  induction entries with
  | nil => simp
  | cons f entries ih =>
      obtain ⟨k, y⟩ := f
      obtain ⟨hfirst, hrest⟩ := List.pairwise_cons.1 h
      rw [List.mem_cons, ih hrest, List.lookup_cons]
      by_cases hik : i = k
      · subst hik
        have hnone : entries.lookup i = none := by
          rw [List.lookup_eq_none_iff]
          intro e he
          have hlt := hfirst e he
          rw [bne_iff_ne]
          rintro rfl
          exact String.lt_irrefl _ hlt
        simp [hnone, eq_comm]
      · have hne : (i == k) = false := by simpa using hik
        simp [hik, hne]

theorem Increasing.ext {entries entries' : List (String × Definition)} (h : Increasing entries)
    (h' : Increasing entries') (hlookup : ∀ i, entries.lookup i = entries'.lookup i) :
    entries = entries' := by
  have : Std.Irrefl fun e f : String × Definition => e.1 < f.1 := ⟨fun e => String.lt_irrefl e.1⟩
  have : Std.Antisymm fun e f : String × Definition => e.1 < f.1 :=
    ⟨fun e f hef hfe => absurd hfe (String.lt_asymm hef)⟩
  refine List.Pairwise.eq_of_mem_iff h h' ?_
  rintro ⟨i, x⟩
  rw [h.mem_iff, h'.mem_iff, hlookup]

namespace Declarations

theorem increasing_update {d : Declarations} (h : Increasing d.entries) (u : Update) :
    Increasing (d.update u).entries := by
  cases u with
  | parameter i x => exact h.insertEntry i x
  | binding text => exact h
  | order token => exact h

theorem increasing_ofUpdates (us : List Update) : Increasing (ofUpdates us).entries := by
  induction us using List.reverseRecOn with
  | nil => exact List.Pairwise.nil
  | append_singleton us u ih =>
      rw [ofUpdates_append_singleton]
      exact increasing_update ih u

/-- Every identification that was declared has an entry, and no other has. -/
theorem mem_identifications_ofUpdates (us : List Update) (i : String) :
    i ∈ (ofUpdates us).entries.map (·.1) ↔ i ∈ (us.filterMap Update.parameter?).map (·.1) := by
  have hdefined := isSome_lastDeclared?_iff (us.filterMap Update.parameter?) i
  rw [← hdefined, ← definition?_ofUpdates, definition?, Option.isSome_iff_exists, List.mem_map]
  constructor
  · rintro ⟨⟨i, x⟩, he, rfl⟩
    exact ⟨x, ((increasing_ofUpdates us).mem_iff i x).1 he⟩
  · rintro ⟨x, hx⟩
    exact ⟨(i, x), ((increasing_ofUpdates us).mem_iff i x).2 hx, rfl⟩

/-! ## Accepted arguments -/

theorem eq_ofUpdates_of_ofArguments {settings : Settings} {arguments : List (String × String)}
    {d : Declarations} (h : ofArguments settings arguments = .ok d) :
    d = ofUpdates (settings.updates arguments) := by
  rw [ofArguments_eq] at h
  split at h
  · exact absurd h (by simp)
  · exact (Except.ok.inj h).symm

theorem firstDisabled?_updates_eq_none_iff (settings : Settings)
    (arguments : List (String × String)) :
    firstDisabled? settings (settings.updates arguments) = none ↔
      ∀ a ∈ arguments, ∀ f o l, Key.decode? a.1 = some (.parameter f o l) →
        (⟨o.getD settings.default.name⟩ : Operation) ∈ settings.enabled := by
  rw [firstDisabled?, Settings.updates, List.filterMap_filterMap, List.find?_eq_none]
  constructor
  · intro h a ha f o l hk
    have hmem := h (l.getD f, ⟨f, ⟨o.getD settings.default.name⟩, a.2⟩)
      (List.mem_filterMap.2 ⟨a, ha, by simp [Settings.update?, hk, Update.parameter?]⟩)
    simpa using hmem
  · intro h x hx
    obtain ⟨a, ha, hax⟩ := List.mem_filterMap.1 hx
    unfold Settings.update? at hax
    split at hax
    · next f o l hk =>
      obtain rfl := Option.some.inj hax
      simpa using h a ha f o l hk
    · exact absurd hax (by simp [Update.parameter?])
    · exact absurd hax (by simp [Update.parameter?])
    · exact absurd hax (by simp)

theorem exists_ofArguments_eq_ok_iff (settings : Settings) (arguments : List (String × String)) :
    (∃ d, ofArguments settings arguments = .ok d) ↔
      ∀ a ∈ arguments, ∀ f o l, Key.decode? a.1 = some (.parameter f o l) →
        (⟨o.getD settings.default.name⟩ : Operation) ∈ settings.enabled := by
  rw [← firstDisabled?_updates_eq_none_iff, ofArguments_eq]
  cases firstDisabled? settings (settings.updates arguments) with
  | some x => simp
  | none => simp

/-! ## Reached declarations -/

/-- The declarations that can be reached, each with the updates made on the
way. -/
inductive Reached : Declarations → List Update → Prop
  | empty : Reached {} []
  | accepted {settings : Settings} {arguments : List (String × String)} {d : Declarations} :
      ofArguments settings arguments = .ok d → Reached d (settings.updates arguments)
  | update {d : Declarations} {us : List Update} (u : Update) :
      Reached d us → Reached (d.update u) (us ++ [u])

theorem Reached.eq_ofUpdates {d : Declarations} {us : List Update} (h : Reached d us) :
    d = ofUpdates us := by
  induction h with
  | empty => rfl
  | accepted h => exact eq_ofUpdates_of_ofArguments h
  | update u _ ih => rw [ofUpdates_append_singleton, ih]

/-- Reached declarations are their history. The entries increase strictly in the
byte order of their identifications, which are those ever declared, and each holds
what was declared last. An empty binding hides those before it, and no sort token
is lost. Arguments are accepted exactly when each operation that they use is
enabled, and then declare what their updates do. -/
theorem reached_reads_history :
    (∀ (d : Declarations) (us : List Update), Reached d us →
      (d.entries.map (·.1)).Pairwise (fun i j => Text.bytes i < Text.bytes j) ∧
      (∀ i, i ∈ d.entries.map (·.1) ↔ i ∈ (us.filterMap Update.parameter?).map (·.1)) ∧
      (∀ i x, (i, x) ∈ d.entries ↔ d.definition? i = some x) ∧
      (∀ i, d.definition? i = lastDeclared? (us.filterMap Update.parameter?) i) ∧
      (∀ i, d.definition? i = none ↔ i ∉ (us.filterMap Update.parameter?).map (·.1)) ∧
      d.explicitBinding = (us.filterMap Update.binding?).getLast?.filter (· ≠ "") ∧
      d.orderTokens = us.filterMap Update.orderToken?) ∧
    (∀ (settings : Settings) (arguments : List (String × String)),
      ((∃ d, ofArguments settings arguments = .ok d) ↔
        ∀ a ∈ arguments, ∀ f o l, Key.decode? a.1 = some (.parameter f o l) →
          (⟨o.getD settings.default.name⟩ : Operation) ∈ settings.enabled) ∧
      ∀ d, ofArguments settings arguments = .ok d →
        d = ofUpdates (settings.updates arguments)) := by
  refine ⟨?_, fun settings arguments => ⟨exists_ofArguments_eq_ok_iff settings arguments,
    fun d h => eq_ofUpdates_of_ofArguments h⟩⟩
  intro d us h
  obtain rfl := h.eq_ofUpdates
  have hincreasing := increasing_ofUpdates us
  refine ⟨?_, mem_identifications_ofUpdates us, hincreasing.mem_iff, definition?_ofUpdates us,
    ?_, ?_, orderTokens_ofUpdates us⟩
  · rw [List.pairwise_map]
    exact hincreasing.imp Text.bytes_lt_bytes
  · intro i
    rw [definition?_ofUpdates, ← isSome_lastDeclared?_iff, Option.not_isSome_iff_eq_none]
  · rw [explicitBinding, bindingText_ofUpdates]

theorem reached_reads_redeclared :
    ∃ d us, Reached d us ∧
      d.entries.map (·.1) = ["b", "～", "😀"] ∧
      (d.entries.map (·.1)).Pairwise (fun i j => Text.bytes i < Text.bytes j) ∧
      d.definition? "b" = some ⟨"b", ⟨"eq"⟩, "4"⟩ ∧
      d.explicitBinding = none := by
  have hstart : ofArguments ⟨[⟨"eq"⟩], .eq⟩
      [("filter[param][c][eq][😀]", "1"), ("filter[binding]", "b"), ("filter[param][a][eq][b]", "2"),
        ("filter[param][b]", "4")] =
      .ok ⟨[("b", ⟨"b", ⟨"eq"⟩, "4"⟩), ("😀", ⟨"c", ⟨"eq"⟩, "1"⟩)], some "b", []⟩ := by decide
  have hreached := ((Reached.accepted hstart).update (.parameter "～" ⟨"t", ⟨"eq"⟩, "3"⟩)).update
    (.binding "")
  obtain ⟨hordered, -, -, hlast, -, hbinding, -⟩ := reached_reads_history.1 _ _ hreached
  refine ⟨_, _, hreached, by decide, hordered, ?_, ?_⟩
  · rw [hlast]
    decide
  · rw [hbinding]
    decide

end Declarations

end QueryFilter
