import Mathlib.Data.Nat.Log
import QueryFilter.Proofs.Declarations.Filling
import QueryFilter.Proofs.Declarations.History

/-!
# Joining all declared parameters

Without a binding the declared parameters are joined round by round, neighbour to
neighbour. As long as two trees are left, a round joins the first of them, so the
first tree is never less deep than another one, and it grows by one level while
the number of trees is halved, rounded up. The depth of the first tree and the
number of rounds that are still needed therefore keep their sum (`Leads`), and when
one tree is left this sum is its depth.

The tree has exactly the declared parameters as leaves, so resolving it never fails
(`Declarations.resolve_conjunction`).
-/

namespace QueryFilter

namespace Condition

/-- A tree without other nodes than `&`. -/
def OnlyAnd : Condition → Prop
  | .parameter _ => True
  | .and l r => l.OnlyAnd ∧ r.OnlyAnd
  | .or _ _ => False
  | .negate _ => False

/-- Trees of which rounds of joining leave one of depth `n`. -/
structure Leads (n : Nat) (cs : List Condition) : Prop where
  depth_le : ∀ c ∈ cs, c.depth + Nat.clog 2 cs.length ≤ n
  depth_first : ∀ c ∈ cs.head?, c.depth + Nat.clog 2 cs.length = n

/-! ## One round -/

/-- A round keeps a tree as it is or joins two of them. -/
theorem forall_mem_joinPairs {P Q : Condition → Prop} (hkeep : ∀ c, P c → Q c)
    (hjoin : ∀ l r, P l → P r → Q (.and l r)) {cs : List Condition} (h : ∀ c ∈ cs, P c) :
    ∀ c ∈ joinPairs cs, Q c := by
  fun_induction joinPairs cs with
  | case1 l r rest ih =>
      simp only [List.forall_mem_cons] at h ⊢
      exact ⟨hjoin l r h.1 h.2.1, ih h.2.2⟩
  | case2 cs _ => exact fun c hc => hkeep c (h c hc)

theorem Leads.joinPairs {n : Nat} {cs : List Condition} (h : Leads n cs) :
    Leads n (joinPairs cs) := by
  rcases cs with _ | ⟨l, _ | ⟨r, rest⟩⟩
  · exact h
  · exact h
  · have hlength := length_joinPairs (l :: r :: rest)
    have hclog : Nat.clog 2 (l :: r :: rest).length =
        Nat.clog 2 (Condition.joinPairs (l :: r :: rest)).length + 1 := by
      rw [hlength]
      exact Nat.clog_of_two_le Nat.one_lt_two (by simp)
    have hfirst := h.depth_first l rfl
    have hright := h.depth_le r (by simp)
    have hrise : ∀ c ∈ Condition.joinPairs (l :: r :: rest), c.depth ≤ l.depth + 1 := by
      refine forall_mem_joinPairs (P := fun c => c.depth ≤ l.depth) ?_ ?_ ?_
      · intro c hc
        exact Nat.le_succ_of_le hc
      · intro a b ha hb
        exact Nat.succ_le_succ (Nat.max_le.2 ⟨ha, hb⟩)
      · intro c hc
        have := h.depth_le c hc
        omega
    refine ⟨?_, ?_⟩
    · intro c hc
      have := hrise c hc
      omega
    · rintro c ⟨⟩
      rw [depth]
      omega

/-! ## All rounds -/

theorem Leads.repeat {n : Nat} {cs : List Condition} (h : Leads n cs) (k : Nat) :
    Leads n (Nat.repeat Condition.joinPairs k cs) := by
  induction k with
  | zero => exact h
  | succ k ih => exact ih.joinPairs

theorem onlyAnd_repeat_joinPairs {cs : List Condition} (h : ∀ c ∈ cs, c.OnlyAnd) (k : Nat) :
    ∀ c ∈ Nat.repeat joinPairs k cs, c.OnlyAnd := by
  induction k with
  | zero => exact h
  | succ k ih => exact forall_mem_joinPairs (fun _ hc => hc) (fun _ _ hl hr => ⟨hl, hr⟩) ih

theorem onlyAnd_of_joinAll? {cs : List Condition} {c : Condition} (h : ∀ c ∈ cs, c.OnlyAnd)
    (hc : joinAll? cs = some c) : c.OnlyAnd :=
  onlyAnd_repeat_joinPairs h cs.length c (List.mem_of_head? hc)

theorem Leads.depth_of_joinAll? {n : Nat} {cs : List Condition} {c : Condition} (h : Leads n cs)
    (hc : joinAll? cs = some c) : c.depth = n := by
  have hlength := length_repeat_joinPairs_le cs.length cs
  have hfirst := (h.repeat cs.length).depth_first c hc
  have hrounds : Nat.clog 2 (Nat.repeat Condition.joinPairs cs.length cs).length = 0 :=
    Nat.clog_of_right_le_one (by omega) 2
  rwa [hrounds] at hfirst

/-- Trees of the same depth lead to one that is deeper by the number of rounds. -/
theorem leads_of_depth_eq {cs : List Condition} {m : Nat} (h : ∀ c ∈ cs, c.depth = m) :
    Leads (m + Nat.clog 2 cs.length) cs := by
  refine ⟨?_, ?_⟩
  · intro c hc
    rw [h c hc]
  · intro c hc
    rw [h c (List.mem_of_head? hc)]

end Condition

namespace Declarations

theorem conjunction_of_ne_nil {d : Declarations} (h : d.entries ≠ []) :
    ∃ c, d.conjunction = .ok c ∧ c.OnlyAnd ∧
      c.parameters = d.entries.map (fun e => .unresolved e.1) ∧
      c.depth = Nat.clog 2 d.entries.length + 1 := by
  have hne : (d.entries.map fun e => Condition.reference e.1) ≠ [] := by simpa using h
  obtain ⟨c, hc, hleaves⟩ := Condition.joinAll?_eq_some hne
  have hand : ∀ c ∈ d.entries.map fun e => Condition.reference e.1, c.OnlyAnd :=
    List.forall_mem_map.2 fun _ _ => trivial
  have hone : ∀ c ∈ d.entries.map fun e => Condition.reference e.1, c.depth = 1 :=
    List.forall_mem_map.2 fun _ _ => rfl
  refine ⟨c, ?_, Condition.onlyAnd_of_joinAll? hand hc, ?_, ?_⟩
  · rw [conjunction, hc]
  · rw [hleaves, List.flatMap_map]
    exact List.flatMap_pure_eq_map _ _
  · have hdepth := (Condition.leads_of_depth_eq hone).depth_of_joinAll? hc
    rw [hdepth, List.length_map, Nat.add_comm]

theorem isSome_definition?_of_mem {d : Declarations} {e : String × Definition}
    (h : e ∈ d.entries) : (d.definition? e.1).isSome = true := by
  rw [definition?, Option.isSome_iff_ne_none]
  intro hn
  rw [List.lookup_eq_none_iff] at hn
  exact absurd (hn e h) (by simp)

theorem resolve_conjunction {d : Declarations} {c : Condition}
    (hleaves : c.parameters = d.entries.map fun e => .unresolved e.1) :
    d.resolve c = .ok (c.map d.fill) := by
  apply resolve_of_declared
  rw [hleaves, List.forall_mem_map]
  exact fun e he => isSome_definition?_of_mem he

theorem Reached.nodup_identifications {d : Declarations} {us : List Update} (h : Reached d us) :
    (d.entries.map (·.1)).Nodup := by
  rw [h.eq_ofUpdates, List.Nodup, List.pairwise_map]
  refine (increasing_ofUpdates us).imp ?_
  intro e f hlt heq
  exact String.lt_irrefl _ (heq ▸ hlt)

/-- Without a binding, the declared parameters are joined to one tree of `&` nodes,
with a leaf for each identification in the order of the entries, which list each one
declared once. Its depth exceeds the upper logarithm of their number by one. It can
always be resolved, and there is none only if nothing is declared. -/
theorem conjunction_joins_declared (d : Declarations) :
    (d.entries = [] → d.conjunction = .error .emptyInput) ∧
    (d.entries ≠ [] →
      ∃ c, d.conjunction = .ok c ∧ c.OnlyAnd ∧
        c.parameters = d.entries.map (fun e => .unresolved e.1) ∧
        c.depth = Nat.clog 2 d.entries.length + 1 ∧
        ∃ c', d.resolve c = .ok c') ∧
    (∀ us, Reached d us →
      (d.entries.map (·.1)).Nodup ∧
      ∀ i, i ∈ d.entries.map (·.1) ↔ i ∈ (us.filterMap Update.parameter?).map (·.1)) := by
  refine ⟨?_, ?_, ?_⟩
  · intro h
    rw [conjunction, h]
    rfl
  · intro h
    obtain ⟨c, hc, hand, hleaves, hdepth⟩ := conjunction_of_ne_nil h
    exact ⟨c, hc, hand, hleaves, hdepth, _, resolve_conjunction hleaves⟩
  · intro us h
    refine ⟨h.nodup_identifications, ?_⟩
    rw [h.eq_ofUpdates]
    exact mem_identifications_ofUpdates us

theorem conjunction_joins_three :
    ∃ d us c, Reached d us ∧ d.entries.map (·.1) = ["a | b", "c", "d"] ∧
      (d.entries.map (·.1)).Nodup ∧ d.conjunction = .ok c ∧ c.OnlyAnd ∧
      c.parameters = [.unresolved "a | b", .unresolved "c", .unresolved "d"] ∧ c.depth = 3 ∧
      ∃ c', d.resolve c = .ok c' := by
  have hreached : Reached
      ⟨[("a | b", ⟨"a", .eq, "2"⟩), ("c", ⟨"c", .eq, "3"⟩), ("d", ⟨"d", .eq, "1"⟩)], none, []⟩ _ :=
    ((Reached.empty.update (.parameter "d" ⟨"d", .eq, "1"⟩)).update
      (.parameter "a | b" ⟨"a", .eq, "2"⟩)).update (.parameter "c" ⟨"c", .eq, "3"⟩)
  obtain ⟨-, hjoin, hlisted⟩ := conjunction_joins_declared
    ⟨[("a | b", ⟨"a", .eq, "2"⟩), ("c", ⟨"c", .eq, "3"⟩), ("d", ⟨"d", .eq, "1"⟩)], none, []⟩
  obtain ⟨c, hc, hand, hleaves, hdepth, hresolve⟩ := hjoin (by decide)
  exact ⟨_, _, c, hreached, rfl, (hlisted _ hreached).1, hc, hand, hleaves, hdepth, hresolve⟩

end Declarations

end QueryFilter
