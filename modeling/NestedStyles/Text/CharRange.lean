/-!
# Character classes as range tables

A character class is a list of closed ranges of code points, in increasing order.
-/

namespace NestedStyles.Text

/-- The code point of `c` lies in one of the closed ranges `rs`. -/
def inRanges (rs : List (Nat × Nat)) (c : Char) : Bool :=
  rs.any fun r => decide (r.1 ≤ c.toNat) && decide (c.toNat ≤ r.2)

theorem inRanges_iff {rs : List (Nat × Nat)} {c : Char} :
    inRanges rs c = true ↔ ∃ r ∈ rs, r.1 ≤ c.toNat ∧ c.toNat ≤ r.2 := by
  simp [inRanges]

end NestedStyles.Text
