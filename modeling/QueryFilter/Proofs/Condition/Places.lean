import Mathlib.Data.List.Basic
import QueryFilter.Condition

/-!
# Places of leaves

A place is the way from the root of a tree to a leaf. `places` lists those of all
leaves from left to right, by a traversal of its own. It lists them in the order of
`parameters` (`map_leaf?_places`), so changing the leaf with some number is writing at
the place with that number (`exists_modify_eq_write`).

A tree is determined by its shape and its leaves (`eq_of_shape_eq`). A change of one
leaf keeps the shape and changes one item of the list of leaves, so all that is to be
known about two changes can be read off that list.

A change of all leaves, which may fail at one of them, can be made by writing at the
places one after the other (`foldlM_updateAt_places`).
-/

namespace QueryFilter.Condition

/-- A step from a node to one below it. -/
inductive Turn where
  | left
  | right
  | inner
deriving DecidableEq, Repr

/-- The places of the leaves, from left to right. -/
def places : Condition → List (List Turn)
  | .parameter _ => [[]]
  | .and l r => l.places.map (.left :: ·) ++ r.places.map (.right :: ·)
  | .or l r => l.places.map (.left :: ·) ++ r.places.map (.right :: ·)
  | .negate c => c.places.map (.inner :: ·)

def leaf? : Condition → List Turn → Option Parameter
  | .parameter p, [] => some p
  | .and l _, .left :: π => l.leaf? π
  | .and _ r, .right :: π => r.leaf? π
  | .or l _, .left :: π => l.leaf? π
  | .or _ r, .right :: π => r.leaf? π
  | .negate c, .inner :: π => c.leaf? π
  | _, _ => none

/-- Puts a leaf at a place; where there is no leaf nothing happens. -/
def write (q : Parameter) : Condition → List Turn → Condition
  | .parameter _, [] => .parameter q
  | .and l r, .left :: π => .and (l.write q π) r
  | .and l r, .right :: π => .and l (r.write q π)
  | .or l r, .left :: π => .or (l.write q π) r
  | .or l r, .right :: π => .or l (r.write q π)
  | .negate c, .inner :: π => .negate (c.write q π)
  | c, _ => c

/-- The tree with the same leaf everywhere. -/
def shape (c : Condition) : Condition := c.map fun _ => .unresolved ""

/-! ## Places and numbers -/

/-- The leaves at the places are the leaves in order. -/
theorem map_leaf?_places (c : Condition) : c.places.map c.leaf? = c.parameters.map some := by
  induction c with
  | parameter p => rfl
  | and l r ihl ihr => simp [places, leaf?, Function.comp_def, ← ihl, ← ihr]
  | or l r ihl ihr => simp [places, leaf?, Function.comp_def, ← ihl, ← ihr]
  | negate c ih => simp [places, leaf?, Function.comp_def, ← ih]

theorem length_places (c : Condition) : c.places.length = c.parameters.length := by
  simpa using congrArg List.length c.map_leaf?_places

/-- A place in one of two trees that are joined is a place of the left one, or one of the
right one with a number less by the leaves on the left. -/
theorem places_join_cases {l r : Condition} {n : Nat} {π : List Turn}
    (h : (l.places.map (Turn.left :: ·) ++ r.places.map (Turn.right :: ·))[n]? = some π) :
    (n < l.parameters.length ∧ ∃ ρ, l.places[n]? = some ρ ∧ π = .left :: ρ) ∨
      (¬ n < l.parameters.length ∧
        ∃ ρ, r.places[n - l.parameters.length]? = some ρ ∧ π = .right :: ρ) := by
  have hlength : (l.places.map (Turn.left :: ·)).length = l.parameters.length := by
    rw [List.length_map, length_places]
  by_cases hn : n < l.parameters.length
  · rw [List.getElem?_append_left (hlength ▸ hn), List.getElem?_map] at h
    obtain ⟨ρ, hρ, rfl⟩ := Option.map_eq_some_iff.1 h
    exact Or.inl ⟨hn, ρ, hρ, rfl⟩
  · rw [List.getElem?_append_right (hlength ▸ Nat.le_of_not_lt hn), hlength,
      List.getElem?_map] at h
    obtain ⟨ρ, hρ, rfl⟩ := Option.map_eq_some_iff.1 h
    exact Or.inr ⟨hn, ρ, hρ, rfl⟩

/-- Changing the leaf with a number is writing the changed leaf at the place with that
number. -/
theorem exists_modify_eq_write {c : Condition} {n : Nat} {π : List Turn}
    (h : c.places[n]? = some π) :
    ∃ p, c.leaf? π = some p ∧ ∀ f, c.modify f n = c.write (f p) π := by
  induction c generalizing n π with
  | parameter p =>
      obtain ⟨rfl, rfl⟩ : n = 0 ∧ [] = π := by simpa [places, List.getElem?_singleton] using h
      exact ⟨p, rfl, fun _ => rfl⟩
  | and l r ihl ihr =>
      obtain ⟨hn, ρ, hρ, rfl⟩ | ⟨hn, ρ, hρ, rfl⟩ := places_join_cases h
      · obtain ⟨p, hp, hmodify⟩ := ihl hρ
        exact ⟨p, hp, fun f => by rw [modify, if_pos hn, hmodify, write]⟩
      · obtain ⟨p, hp, hmodify⟩ := ihr hρ
        exact ⟨p, hp, fun f => by rw [modify, if_neg hn, hmodify, write]⟩
  | or l r ihl ihr =>
      obtain ⟨hn, ρ, hρ, rfl⟩ | ⟨hn, ρ, hρ, rfl⟩ := places_join_cases h
      · obtain ⟨p, hp, hmodify⟩ := ihl hρ
        exact ⟨p, hp, fun f => by rw [modify, if_pos hn, hmodify, write]⟩
      · obtain ⟨p, hp, hmodify⟩ := ihr hρ
        exact ⟨p, hp, fun f => by rw [modify, if_neg hn, hmodify, write]⟩
  | negate c ih =>
      rw [places, List.getElem?_map] at h
      obtain ⟨ρ, hρ, rfl⟩ := Option.map_eq_some_iff.1 h
      obtain ⟨p, hp, hmodify⟩ := ih hρ
      exact ⟨p, hp, fun f => by rw [modify, hmodify, write]⟩

theorem write_eq_modify {c : Condition} {n : Nat} {π : List Turn} (h : c.places[n]? = some π)
    (q : Parameter) : c.write q π = c.modify (fun _ => q) n := by
  obtain ⟨p, -, hmodify⟩ := exists_modify_eq_write h
  exact (hmodify fun _ => q).symm

/-! ## Shape and leaves -/

theorem length_parameters_shape (c : Condition) :
    c.shape.parameters.length = c.parameters.length := by
  rw [shape, parameters_map, List.length_map]

theorem parameters_append_inj {l l' r r' : Condition} (hshape : l.shape = l'.shape)
    (h : l.parameters ++ r.parameters = l'.parameters ++ r'.parameters) :
    l.parameters = l'.parameters ∧ r.parameters = r'.parameters := by
  apply List.append_inj h
  rw [← length_parameters_shape l, hshape, length_parameters_shape l']

/-- A tree is determined by its shape and its leaves. -/
theorem eq_of_shape_eq {c c' : Condition} (hshape : c.shape = c'.shape)
    (hparameters : c.parameters = c'.parameters) : c = c' := by
  induction c generalizing c' with
  | parameter p =>
      cases c' with
      | parameter p' => rw [List.singleton_inj.1 hparameters]
      | _ => exact absurd hshape (by simp [shape, map])
  | and l r ihl ihr =>
      cases c' with
      | and l' r' =>
          obtain ⟨hl, hr⟩ := Condition.and.inj hshape
          obtain ⟨hpl, hpr⟩ := parameters_append_inj hl hparameters
          rw [ihl hl hpl, ihr hr hpr]
      | _ => exact absurd hshape (by simp [shape, map])
  | or l r ihl ihr =>
      cases c' with
      | or l' r' =>
          obtain ⟨hl, hr⟩ := Condition.or.inj hshape
          obtain ⟨hpl, hpr⟩ := parameters_append_inj hl hparameters
          rw [ihl hl hpl, ihr hr hpr]
      | _ => exact absurd hshape (by simp [shape, map])
  | negate c ih =>
      cases c' with
      | negate c' => rw [ih (Condition.negate.inj hshape) hparameters]
      | _ => exact absurd hshape (by simp [shape, map])

theorem places_shape (c : Condition) : c.shape.places = c.places := by
  unfold shape
  induction c with
  | parameter p => rfl
  | and l r ihl ihr => rw [map, places, places, ihl, ihr]
  | or l r ihl ihr => rw [map, places, places, ihl, ihr]
  | negate c ih => rw [map, places, places, ih]

theorem shape_modify (f : Parameter → Parameter) (n : Nat) (c : Condition) :
    (c.modify f n).shape = c.shape := by
  unfold shape
  induction c generalizing n with
  | parameter p => by_cases hn : n = 0 <;> simp [modify, hn, map]
  | and l r ihl ihr =>
      rw [modify]
      split
      · rw [map, map, ihl]
      · rw [map, map, ihr]
  | or l r ihl ihr =>
      rw [modify]
      split
      · rw [map, map, ihl]
      · rw [map, map, ihr]
  | negate c ih => rw [modify, map, map, ih]

theorem parameters_modify (q : Parameter) (n : Nat) (c : Condition) :
    (c.modify (fun _ => q) n).parameters = c.parameters.set n q := by
  induction c generalizing n with
  | parameter p => cases n <;> simp [modify]
  | and l r ihl ihr =>
      rw [modify, parameters_and]
      split
      · next hn => rw [parameters_and, ihl, List.set_append_left _ _ hn]
      · next hn => rw [parameters_and, ihr, List.set_append_right _ _ (Nat.le_of_not_lt hn)]
  | or l r ihl ihr =>
      rw [modify, parameters_or]
      split
      · next hn => rw [parameters_or, ihl, List.set_append_left _ _ hn]
      · next hn => rw [parameters_or, ihr, List.set_append_right _ _ (Nat.le_of_not_lt hn)]
  | negate c ih => rw [modify, parameters_negate, ih, parameters_negate]

/-! ## Writing at places -/

theorem places_write {c : Condition} {n : Nat} {π : List Turn} (h : c.places[n]? = some π)
    (q : Parameter) : (c.write q π).places = c.places := by
  rw [write_eq_modify h, ← places_shape, shape_modify, places_shape]

theorem modify_comm {m n : Nat} (hne : m ≠ n) (c : Condition) (q q' : Parameter) :
    (c.modify (fun _ => q) m).modify (fun _ => q') n =
      (c.modify (fun _ => q') n).modify (fun _ => q) m := by
  apply eq_of_shape_eq
  · simp only [shape_modify]
  · simp only [parameters_modify]
    exact List.set_comm q q' hne

/-- The places of a tree are those of its leaves, in their order, and changing the leaf
with some number is a write at the place with that number. Writing at a place keeps the
shape of the tree and all leaves but the one there, and so the places too. Writes at two
places with different numbers can be made in either order. -/
theorem places_address_leaves (c : Condition) :
    c.places.map c.leaf? = c.parameters.map some ∧
    (∀ (n : Nat) π, c.places[n]? = some π →
      (∃ p, c.leaf? π = some p ∧ ∀ f, c.modify f n = c.write (f p) π) ∧
      ∀ q, (c.write q π).parameters = c.parameters.set n q ∧
        (c.write q π).shape = c.shape ∧
        (c.write q π).places = c.places) ∧
    (∀ (m n : Nat) π ρ, c.places[m]? = some π → c.places[n]? = some ρ → m ≠ n → ∀ q q',
      (c.write q π).write q' ρ = (c.write q' ρ).write q π) := by
  refine ⟨c.map_leaf?_places, ?_, ?_⟩
  · intro n π h
    refine ⟨exists_modify_eq_write h, fun q => ⟨?_, ?_, places_write h q⟩⟩
    · rw [write_eq_modify h, parameters_modify]
    · rw [write_eq_modify h, shape_modify]
  · intro m n π ρ hm hn hne q q'
    -- Both places keep their numbers after a write at the other one.
    have hn' : (c.write q π).places[n]? = some ρ := by rw [places_write hm, hn]
    have hm' : (c.write q' ρ).places[m]? = some π := by rw [places_write hn, hm]
    rw [write_eq_modify hn', write_eq_modify hm, write_eq_modify hm', write_eq_modify hn,
      modify_comm hne]

theorem places_address_equal_leaves :
    (write (.unresolved "b") (.and (.reference "a") (.negate (.reference "a")))
        [.right, .inner]).parameters = [.unresolved "a", .unresolved "b"] ∧
      write (.unresolved "b") (write (.unresolved "c")
          (.and (.reference "a") (.negate (.reference "a"))) [.left]) [.right, .inner] =
        write (.unresolved "c") (write (.unresolved "b")
          (.and (.reference "a") (.negate (.reference "a"))) [.right, .inner]) [.left] := by
  obtain ⟨-, hwrite, hcomm⟩ :=
    places_address_leaves (.and (.reference "a") (.negate (.reference "a")))
  exact ⟨((hwrite 1 _ rfl).2 _).1, hcomm 0 1 _ _ rfl rfl (by decide) _ _⟩

/-! ## Writing at all places -/

section

variable {ε : Type} (f : Parameter → Except ε Parameter)

/-- Changes the leaf at a place, unless the change fails. -/
def updateAt (c : Condition) (π : List Turn) : Except ε Condition :=
  match c.leaf? π with
  | some p => (f p).map fun q => c.write q π
  | none => .ok c

variable {f}

theorem updateAt_around {turn : Turn} (around : Condition → Condition) {c : Condition}
    {π : List Turn} (hleaf : (around c).leaf? (turn :: π) = c.leaf? π)
    (hwrite : ∀ q, (around c).write q (turn :: π) = around (c.write q π)) :
    (around c).updateAt f (turn :: π) = (c.updateAt f π).map around := by
  unfold updateAt
  rw [hleaf]
  cases c.leaf? π with
  | none => rfl
  | some p =>
      simp only [hwrite]
      cases f p <;> rfl

/-- What is done at places that all begin with one turn is done in the tree to which
that turn leads. -/
theorem foldlM_updateAt_map {turn : Turn} {around : Condition → Condition}
    (hstep : ∀ c π, (around c).updateAt f (turn :: π) = (c.updateAt f π).map around)
    (πs : List (List Turn)) (c : Condition) :
    (πs.map (turn :: ·)).foldlM (updateAt f) (around c) =
      (πs.foldlM (updateAt f) c).map around := by
  induction πs generalizing c with
  | nil => rfl
  | cons π πs ih =>
      rw [List.map_cons, List.foldlM_cons, List.foldlM_cons, hstep]
      cases c.updateAt f π with
      | error e => rfl
      | ok c' => exact ih c'

theorem foldlM_updateAt_join {join : Condition → Condition → Condition}
    (hleft : ∀ r c π, (join c r).updateAt f (.left :: π) = (c.updateAt f π).map (join · r))
    (hright : ∀ l c π, (join l c).updateAt f (.right :: π) = (c.updateAt f π).map (join l))
    (l r : Condition) :
    (l.places.map (Turn.left :: ·) ++ r.places.map (Turn.right :: ·)).foldlM (updateAt f)
        (join l r) =
      (do return join (← l.places.foldlM (updateAt f) l) (← r.places.foldlM (updateAt f) r)) := by
  -- The places on the left come first, and the right tree is as it was when they are done.
  rw [List.foldlM_append, foldlM_updateAt_map (hleft r)]
  cases l.places.foldlM (updateAt f) l with
  | error e => rfl
  | ok l' =>
      change (r.places.map (Turn.right :: ·)).foldlM (updateAt f) (join l' r) = _
      rw [foldlM_updateAt_map (hright l')]
      cases r.places.foldlM (updateAt f) r <;> rfl

/-- Changing the leaves in one traversal is changing them at one place after the other,
the places being those of the tree at the start. -/
theorem foldlM_updateAt_places (c : Condition) :
    c.places.foldlM (updateAt f) c = c.mapM f := by
  induction c with
  | parameter p =>
      change ((f p).map Condition.parameter >>= pure) = (f p).map Condition.parameter
      rw [bind_pure]
  | and l r ihl ihr =>
      rw [places, mapM, ← ihl, ← ihr]
      exact foldlM_updateAt_join
        (fun r _ _ => updateAt_around (Condition.and · r) rfl fun _ => rfl)
        (fun l _ _ => updateAt_around (Condition.and l) rfl fun _ => rfl) l r
  | or l r ihl ihr =>
      rw [places, mapM, ← ihl, ← ihr]
      exact foldlM_updateAt_join
        (fun r _ _ => updateAt_around (Condition.or · r) rfl fun _ => rfl)
        (fun l _ _ => updateAt_around (Condition.or l) rfl fun _ => rfl) l r
  | negate c ih =>
      rw [places, mapM, ← ih]
      exact foldlM_updateAt_map
        (fun _ _ => updateAt_around Condition.negate rfl fun _ => rfl) c.places c

end

end QueryFilter.Condition
