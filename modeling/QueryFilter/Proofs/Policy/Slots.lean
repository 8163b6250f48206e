import QueryFilter.Proofs.Declarations.History
import QueryFilter.Proofs.Policy.Outcome

/-!
# Arguments by slot

Arguments compete only within a slot: declarations of one identification with each
other, bindings with each other, and sort tokens follow each other. Two lists of
arguments that agree on every slot may interleave the slots differently and hold
different arguments without a slot, and still declare the same
(`Declarations.ofUpdates_eq_of_agree`). The one thing that depends on the order
across slots is which disabled operation is found first.
-/

namespace QueryFilter

/-- What an argument is compared with others for. -/
inductive Slot where
  | parameter (identification : String)
  | binding
  | order
deriving DecidableEq, Repr

/-- The slot of a key. A parameter is identified by its label, or else by its
field. -/
def Key.slot : Key → Slot
  | .parameter field _ label => .parameter (label.getD field)
  | .binding => .binding
  | .order => .order

/-- The slot of an argument, `none` if its key is not recognised. -/
def slot? (argument : String × String) : Option Slot :=
  (Key.decode? argument.1).map Key.slot

/-- The arguments of a slot, in their order. -/
def onSlot (s : Slot) (arguments : List (String × String)) : List (String × String) :=
  arguments.filter fun a => slot? a = some s

/-- Two lists have the same arguments on every slot. -/
def AgreeOnSlots (as bs : List (String × String)) : Prop := ∀ s, onSlot s as = onSlot s bs

theorem onSlot_eq_nil {s : Slot} {arguments : List (String × String)}
    (h : s ∉ arguments.filterMap slot?) : onSlot s arguments = [] := by
  rw [onSlot, List.filter_eq_nil_iff]
  intro a ha hs
  exact h (List.mem_filterMap.2 ⟨a, ha, of_decide_eq_true hs⟩)

/-- Agreement has to be looked at only on the slots that are used. -/
theorem agreeOnSlots_iff (as bs : List (String × String)) :
    AgreeOnSlots as bs ↔
      ∀ s ∈ as.filterMap slot? ++ bs.filterMap slot?, onSlot s as = onSlot s bs := by
  constructor
  · intro h s _
    exact h s
  · intro h s
    by_cases hs : s ∈ as.filterMap slot? ++ bs.filterMap slot?
    · exact h s hs
    · rw [List.mem_append, not_or] at hs
      rw [onSlot_eq_nil hs.1, onSlot_eq_nil hs.2]

instance (as bs : List (String × String)) : Decidable (AgreeOnSlots as bs) :=
  decidable_of_iff _ (agreeOnSlots_iff as bs).symm

/-! ## Updates by slot -/

def Update.slot : Update → Slot
  | .parameter identification _ => .parameter identification
  | .binding _ => .binding
  | .order _ => .order

theorem Update.binding?_eq_none {u : Update} (h : u.slot ≠ .binding) : u.binding? = none := by
  cases u with
  | parameter i x => rfl
  | binding text => exact absurd rfl h
  | order token => rfl

theorem Update.orderToken?_eq_none {u : Update} (h : u.slot ≠ .order) : u.orderToken? = none := by
  cases u with
  | parameter i x => rfl
  | binding text => rfl
  | order token => exact absurd rfl h

/-- Two lists have the same updates on every slot. -/
def Update.Agree (us vs : List Update) : Prop :=
  ∀ s, us.filter (fun u => u.slot = s) = vs.filter fun u => u.slot = s

theorem Settings.slot_update? (settings : Settings) (a : String × String) :
    (settings.update? a).map Update.slot = slot? a := by
  unfold update? slot?
  cases Key.decode? a.1 with
  | none => rfl
  | some k => cases k <;> rfl

theorem Settings.filter_updates (settings : Settings) (s : Slot)
    (arguments : List (String × String)) :
    (settings.updates arguments).filter (fun u => u.slot = s) =
      settings.updates (onSlot s arguments) := by
  rw [updates, updates, onSlot, List.filter_filterMap, List.filterMap_filter]
  congr 1
  funext a
  rw [← settings.slot_update? a]
  cases settings.update? a with
  | none => simp
  | some u => by_cases hs : u.slot = s <;> simp [Option.filter, hs]

theorem AgreeOnSlots.updates {as bs : List (String × String)} (h : AgreeOnSlots as bs)
    (settings : Settings) : Update.Agree (settings.updates as) (settings.updates bs) := by
  intro s
  rw [settings.filter_updates, settings.filter_updates, h s]

namespace Update.Agree

/-- What is collected from one slot alone is the same. -/
theorem filterMap_eq {us vs : List Update} (h : Update.Agree us vs) {α : Type}
    {f : Update → Option α} {s : Slot} (hf : ∀ u, u.slot ≠ s → f u = none) :
    us.filterMap f = vs.filterMap f := by
  have honly : ∀ ws : List Update,
      ws.filterMap f = (ws.filter fun u => u.slot = s).filterMap f := by
    intro ws
    rw [List.filterMap_filter]
    congr 1
    funext u
    by_cases hs : u.slot = s
    · simp [hs]
    · simp [hs, hf u hs]
  rw [honly us, honly vs, h s]

theorem mem_iff {us vs : List Update} (h : Update.Agree us vs) (u : Update) :
    u ∈ us ↔ u ∈ vs := by
  have hslot := congrArg (u ∈ ·) (h u.slot)
  simpa using hslot

theorem lastDeclared?_eq {us vs : List Update} (h : Update.Agree us vs) (i : String) :
    Declarations.lastDeclared? (us.filterMap parameter?) i =
      Declarations.lastDeclared? (vs.filterMap parameter?) i := by
  unfold Declarations.lastDeclared?
  rw [List.filter_filterMap, List.filter_filterMap]
  congr 2
  refine h.filterMap_eq (s := .parameter i) ?_
  intro u hu
  cases u with
  | parameter j x =>
      have hij : ¬ j = i := fun e => hu (congrArg Slot.parameter e)
      simp [parameter?, hij]
  | binding text => rfl
  | order token => rfl

end Update.Agree

theorem Declarations.ofUpdates_eq_of_agree {us vs : List Update} (h : Update.Agree us vs) :
    ofUpdates us = ofUpdates vs := by
  have hentries : (ofUpdates us).entries = (ofUpdates vs).entries := by
    refine (increasing_ofUpdates us).ext (increasing_ofUpdates vs) fun i => ?_
    have hus := definition?_ofUpdates us i
    rw [h.lastDeclared?_eq, ← definition?_ofUpdates vs i] at hus
    exact hus
  have hbinding : (ofUpdates us).bindingText = (ofUpdates vs).bindingText := by
    rw [bindingText_ofUpdates, bindingText_ofUpdates,
      h.filterMap_eq fun u hu => Update.binding?_eq_none hu]
  have horder : (ofUpdates us).orderTokens = (ofUpdates vs).orderTokens := by
    rw [orderTokens_ofUpdates, orderTokens_ofUpdates,
      h.filterMap_eq fun u hu => Update.orderToken?_eq_none hu]
  calc ofUpdates us
      = ⟨(ofUpdates us).entries, (ofUpdates us).bindingText, (ofUpdates us).orderTokens⟩ := rfl
    _ = ofUpdates vs := by rw [hentries, hbinding, horder]

namespace Policy

theorem mem_declared_iff_of_agree {as bs : List (String × String)} (h : AgreeOnSlots as bs)
    (p : Policy) (x : String × Definition) : x ∈ p.declared as ↔ x ∈ p.declared bs := by
  have hmem := (h.updates p.toSettings).mem_iff
  simp only [declared, List.mem_filterMap, hmem]

/-- Only the order within a slot matters. Two lists of arguments that agree on every
slot are accepted together and with the same selection, are refused together for a
disabled operation, and are refused together for every other cause, which is then the
same. -/
theorem parse_depends_on_slots (p : Policy) (as bs : List (String × String))
    (h : AgreeOnSlots as bs) :
    (∀ s, p.parse as = .ok s ↔ p.parse bs = .ok s) ∧
    ((∃ name, p.parse as = .error (.unsupportedOperation name)) ↔
      ∃ name, p.parse bs = .error (.unsupportedOperation name)) ∧
    (∀ e, (∀ name, e ≠ .unsupportedOperation name) →
      (p.parse as = .error e ↔ p.parse bs = .error e)) := by
  have hdeclared := mem_declared_iff_of_agree h p
  by_cases has : ∀ x ∈ p.declared as, x.2.operation ∈ p.enabled
  · have hbs : ∀ x ∈ p.declared bs, x.2.operation ∈ p.enabled :=
      fun x hx => has x ((hdeclared x).2 hx)
    have hparse : p.parse as = p.parse bs := by
      rw [parse_of_enabled has, parse_of_enabled hbs,
        Declarations.ofUpdates_eq_of_agree (h.updates p.toSettings)]
    rw [hparse]
    exact ⟨fun _ => Iff.rfl, Iff.rfl, fun _ _ => Iff.rfl⟩
  · have hbs : ¬ ∀ x ∈ p.declared bs, x.2.operation ∈ p.enabled :=
      fun hall => has fun x hx => hall x ((hdeclared x).1 hx)
    obtain ⟨m, hm⟩ := exists_parse_eq_unsupported has
    obtain ⟨n, hn⟩ := exists_parse_eq_unsupported hbs
    refine ⟨?_, ⟨fun _ => ⟨n, hn⟩, fun _ => ⟨m, hm⟩⟩, ?_⟩
    · intro s
      simp [hm, hn]
    · intro e he
      have hne : ∀ name, Error.unsupportedOperation name ≠ e := fun name => (he name).symm
      simp [hm, hn, hne]

theorem parse_depends_on_slots_interleaved :
    AgreeOnSlots
        [("filter[param][a][lt][x]", "1"), ("filter[order]", "a"), ("filter[param][b][eq][x]", "2"),
          ("filter[param][c]", "3"), ("filter[order]", "desc(b)")]
        [("filter[order]", "a"), ("filter[param][c]", "3"), ("page", "7"),
          ("filter[param][a][lt][x]", "1"), ("filter[order]", "desc(b)"),
          ("filter[param][b][eq][x]", "2")] ∧
      ∃ s, s.orders = [⟨"a", false⟩, ⟨"b", true⟩] ∧
        Policy.parse ⟨⟨[⟨"eq"⟩, ⟨"lt"⟩], .eq⟩, false⟩
          [("filter[order]", "a"), ("filter[param][c]", "3"), ("page", "7"),
            ("filter[param][a][lt][x]", "1"), ("filter[order]", "desc(b)"),
            ("filter[param][b][eq][x]", "2")] = .ok s := by
  have hagree : AgreeOnSlots
      [("filter[param][a][lt][x]", "1"), ("filter[order]", "a"), ("filter[param][b][eq][x]", "2"),
        ("filter[param][c]", "3"), ("filter[order]", "desc(b)")]
      [("filter[order]", "a"), ("filter[param][c]", "3"), ("page", "7"),
        ("filter[param][a][lt][x]", "1"), ("filter[order]", "desc(b)"),
        ("filter[param][b][eq][x]", "2")] := by decide
  refine ⟨hagree, ⟨some (.and (.parameter ⟨"c", "c", some ⟨"eq"⟩, some "3"⟩)
    (.parameter ⟨"x", "b", some ⟨"eq"⟩, some "2"⟩)), [⟨"a", false⟩, ⟨"b", true⟩]⟩, rfl, ?_⟩
  exact ((parse_depends_on_slots _ _ _ hagree).1 _).1 (by decide)

/-- Which of two disabled operations is named depends on their order. -/
example :
    Policy.parse {} [("filter[param][a][lt]", "1"), ("filter[param][b][gt]", "2")] ≠
      Policy.parse {} [("filter[param][b][gt]", "2"), ("filter[param][a][lt]", "1")] := by
  decide

end Policy

end QueryFilter
