import QueryFilter.Binding.Token
import QueryFilter.Condition

/-!
# The grammar of bindings

`Derives k ts c n` says that the tokens `ts` are a phrase of kind `k` that
stands for the tree `c` and has at most `n` parentheses and negations open at
once, `n` being attained. Negation binds tighter than `&`, and `&` tighter than
`|`; both chains group to the left, and parentheses leave no node in the tree.
The number `n` is an index of its own because parentheses count towards it
although they do not deepen the tree.
-/

namespace QueryFilter.Binding

/-- The kinds of phrases, from the loosest to the tightest. -/
inductive Phrase where
  | disjunction
  | conjunction
  | negation
  | atom
deriving DecidableEq, Repr

/-- The phrases of each kind, with their tree and their nesting. -/
inductive Derives : Phrase → List Token → Condition → Nat → Prop
  | identifier (text : String) :
      Derives .atom [.identifier text] (.reference text) 0
  | group {ts : List Token} {c : Condition} {n : Nat} :
      Derives .disjunction ts c n →
      Derives .atom (.opening :: ts ++ [.closing]) c (n + 1)
  | atom {ts : List Token} {c : Condition} {n : Nat} :
      Derives .atom ts c n → Derives .negation ts c n
  | not {ts : List Token} {c : Condition} {n : Nat} :
      Derives .negation ts c n → Derives .negation (.not :: ts) (.negate c) (n + 1)
  | negation {ts : List Token} {c : Condition} {n : Nat} :
      Derives .negation ts c n → Derives .conjunction ts c n
  | and {ts us : List Token} {l r : Condition} {m n : Nat} :
      Derives .conjunction ts l m → Derives .negation us r n →
      Derives .conjunction (ts ++ .and :: us) (.and l r) (max m n)
  | conjunction {ts : List Token} {c : Condition} {n : Nat} :
      Derives .conjunction ts c n → Derives .disjunction ts c n
  | or {ts us : List Token} {l r : Condition} {m n : Nat} :
      Derives .disjunction ts l m → Derives .conjunction us r n →
      Derives .disjunction (ts ++ .or :: us) (.or l r) (max m n)

def Sentence (ts : List Token) : Prop := ∃ c n, Derives .disjunction ts c n

theorem Derives.ne_nil {k : Phrase} {ts : List Token} {c : Condition} {n : Nat}
    (h : Derives k ts c n) : ts ≠ [] := by
  induction h with
  | identifier => simp
  | group => simp
  | atom _ ih => exact ih
  | not => simp
  | negation _ ih => exact ih
  | and => simp
  | conjunction _ ih => exact ih
  | or => simp

end QueryFilter.Binding
