import Mathlib.Data.List.Induction
import QueryFilter.Declarations

/-!
# What arguments declare

An argument with a recognised key asks for one update: it declares a parameter,
gives a binding or gives a sort token. `Settings.updates` lists the updates of
a list of arguments, and reading the arguments is applying these updates one
after the other, unless one of them declares a parameter with an operation that
is not enabled (`Declarations.ofArguments_eq`).

What is declared after a list of updates is read off the list: the last binding
counts, the last declaration of each identification counts, and all sort tokens
do. Each of these is an induction from the end of the list, since an update is
only ever added behind the others.
-/

namespace QueryFilter

/-- A change to what is declared. -/
inductive Update where
  | parameter (identification : String) (definition : Definition)
  | binding (text : String)
  | order (token : String)
deriving DecidableEq, Repr

namespace Update

def parameter? : Update → Option (String × Definition)
  | .parameter identification definition => some (identification, definition)
  | _ => none

def binding? : Update → Option String
  | .binding text => some text
  | _ => none

def orderToken? : Update → Option String
  | .order token => some token
  | _ => none

end Update

namespace Settings

/-- The update that an argument asks for. A parameter that names no operation has
the default one. -/
def update? (settings : Settings) (argument : String × String) : Option Update :=
  match Key.decode? argument.1 with
  | some (.parameter field operation label) =>
    some (.parameter (label.getD field)
      ⟨field, ⟨operation.getD settings.default.name⟩, argument.2⟩)
  | some .binding => some (.binding argument.2)
  | some .order => some (.order argument.2)
  | none => none

/-- The updates that arguments ask for, in their order. -/
def updates (settings : Settings) (arguments : List (String × String)) : List Update :=
  arguments.filterMap settings.update?

end Settings

/-- The first parameter among updates whose operation is not enabled. -/
def firstDisabled? (settings : Settings) (us : List Update) : Option (String × Definition) :=
  (us.filterMap Update.parameter?).find? fun x => x.2.operation ∉ settings.enabled

theorem firstDisabled?_cons (settings : Settings) (u : Update) (us : List Update) :
    firstDisabled? settings (u :: us) =
      (firstDisabled? settings [u]).or (firstDisabled? settings us) := by
  unfold firstDisabled?
  rw [← List.singleton_append, List.filterMap_append, List.find?_append]

namespace Declarations

def update (d : Declarations) : Update → Declarations
  | .parameter identification definition => d.declare identification definition
  | .binding text => d.withBinding text
  | .order token => d.sortBy token

def ofUpdates (us : List Update) : Declarations := us.foldl update {}

@[simp] theorem ofUpdates_nil : ofUpdates [] = {} := rfl

theorem ofUpdates_append_singleton (us : List Update) (u : Update) :
    ofUpdates (us ++ [u]) = (ofUpdates us).update u := by
  rw [ofUpdates, List.foldl_append]
  rfl

/-! ## Reading arguments -/

theorem addArgument_eq (settings : Settings) (d : Declarations) (argument : String × String) :
    addArgument settings d argument =
      match settings.update? argument with
      | none => .ok d
      | some u =>
        match firstDisabled? settings [u] with
        | some x => .error (.unsupportedOperation x.2.operation.name)
        | none => .ok (d.update u) := by
  unfold addArgument Settings.update?
  cases Key.decode? argument.1 with
  | none => rfl
  | some k =>
      cases k with
      | binding => rfl
      | order => rfl
      | parameter field operation label =>
          simp only [Settings.operation, Operation.find?_eq, firstDisabled?]
          by_cases h : (⟨operation.getD settings.default.name⟩ : Operation) ∈ settings.enabled
          · simp [h, Update.parameter?, Except.map, update]
          · simp [h, Update.parameter?, Except.map]

theorem foldlM_addArgument (settings : Settings) (arguments : List (String × String))
    (d : Declarations) :
    arguments.foldlM (addArgument settings) d =
      match firstDisabled? settings (settings.updates arguments) with
      | some x => .error (.unsupportedOperation x.2.operation.name)
      | none => .ok ((settings.updates arguments).foldl update d) := by
  induction arguments generalizing d with
  | nil => rfl
  | cons argument arguments ih =>
      rw [List.foldlM_cons, addArgument_eq]
      cases hu : settings.update? argument with
      | none =>
          have hus : settings.updates (argument :: arguments) = settings.updates arguments :=
            List.filterMap_cons_none hu
          rw [hus]
          exact ih d
      | some u =>
          have hus : settings.updates (argument :: arguments) = u :: settings.updates arguments :=
            List.filterMap_cons_some hu
          rw [hus, firstDisabled?_cons]
          dsimp only
          cases firstDisabled? settings [u] with
          | some x => rfl
          | none => exact ih (d.update u)

/-- Arguments are refused for the first parameter whose operation is not enabled,
and otherwise declare what their updates do. -/
theorem ofArguments_eq (settings : Settings) (arguments : List (String × String)) :
    ofArguments settings arguments =
      match firstDisabled? settings (settings.updates arguments) with
      | some x => .error (.unsupportedOperation x.2.operation.name)
      | none => .ok (ofUpdates (settings.updates arguments)) :=
  foldlM_addArgument settings arguments {}

/-! ## What a list of updates declares -/

theorem bindingText_ofUpdates (us : List Update) :
    (ofUpdates us).bindingText = (us.filterMap Update.binding?).getLast? := by
  induction us using List.reverseRecOn with
  | nil => rfl
  | append_singleton us u ih =>
      rw [ofUpdates_append_singleton, List.filterMap_append]
      cases u with
      | parameter i x => simpa [update, declare, Update.binding?] using ih
      | binding text => simp [update, withBinding, Update.binding?]
      | order token => simpa [update, sortBy, Update.binding?] using ih

theorem orderTokens_ofUpdates (us : List Update) :
    (ofUpdates us).orderTokens = us.filterMap Update.orderToken? := by
  induction us using List.reverseRecOn with
  | nil => rfl
  | append_singleton us u ih =>
      rw [ofUpdates_append_singleton, List.filterMap_append, ← ih]
      cases u with
      | parameter i x => simp [update, declare, Update.orderToken?]
      | binding text => simp [update, withBinding, Update.orderToken?]
      | order token => simp [update, sortBy, Update.orderToken?]

/-- The last parameter with a given identification. -/
def lastDeclared? (ps : List (String × Definition)) (identification : String) :
    Option Definition :=
  ((ps.filter fun x => x.1 = identification).getLast?).map (·.2)

theorem lastDeclared?_append_singleton (ps : List (String × Definition)) (i j : String)
    (x : Definition) :
    lastDeclared? (ps ++ [(i, x)]) j = if j = i then some x else lastDeclared? ps j := by
  unfold lastDeclared?
  by_cases h : j = i
  · subst h
    simp
  · have h' : ¬ i = j := fun e => h e.symm
    simp [h, h']

theorem isSome_lastDeclared?_iff (ps : List (String × Definition)) (i : String) :
    (lastDeclared? ps i).isSome = true ↔ i ∈ ps.map (·.1) := by
  rw [lastDeclared?, Option.isSome_map, List.getLast?_isSome]
  simp

theorem definition?_ofUpdates (us : List Update) (i : String) :
    (ofUpdates us).definition? i = lastDeclared? (us.filterMap Update.parameter?) i := by
  induction us using List.reverseRecOn with
  | nil => rfl
  | append_singleton us u ih =>
      rw [ofUpdates_append_singleton, List.filterMap_append]
      cases u with
      | parameter j x =>
          have hdeclare := definition?_declare (ofUpdates us) j i x
          rw [ih] at hdeclare
          exact hdeclare.trans (lastDeclared?_append_singleton _ j i x).symm
      | binding text =>
          have hnone : [Update.binding text].filterMap Update.parameter? = [] := rfl
          rw [hnone, List.append_nil]
          exact ih
      | order token =>
          have hnone : [Update.order token].filterMap Update.parameter? = [] := rfl
          rw [hnone, List.append_nil]
          exact ih

theorem insertEntry_ne_nil (k : String) (x : Definition) (entries : List (String × Definition)) :
    insertEntry k x entries ≠ [] := by
  cases entries with
  | nil => simp [insertEntry]
  | cons e entries =>
      rw [insertEntry]
      split
      · simp
      · split <;> simp

theorem isEmpty_ofUpdates (us : List Update) :
    (ofUpdates us).isEmpty = true ↔ us.filterMap Update.parameter? = [] := by
  induction us using List.reverseRecOn with
  | nil => simp [isEmpty]
  | append_singleton us u ih =>
      rw [ofUpdates_append_singleton, List.filterMap_append]
      cases u with
      | parameter i x =>
          simp [update, declare, isEmpty, Update.parameter?, insertEntry_ne_nil]
      | binding text => simpa [update, withBinding, isEmpty, Update.parameter?] using ih
      | order token => simpa [update, sortBy, isEmpty, Update.parameter?] using ih

end Declarations

end QueryFilter
