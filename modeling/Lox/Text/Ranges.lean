/-!
Ranges of code points: a property of characters as the list of the ranges that have it, which is
how a property of a standard is written down.
-/

namespace Lox.Text

/-- Ranges of code points, ends included. -/
abbrev Ranges := List (Nat × Nat)

namespace Ranges

/-- The character lies in one of the ranges. -/
def holds (rs : Ranges) (c : Char) : Bool :=
  rs.any fun r => r.1 ≤ c.toNat && c.toNat ≤ r.2

/-- The ranges are in order, and no two of them touch. -/
def isAscending : Ranges → Bool
  | [] => true
  | [r] => r.1 ≤ r.2
  | r :: s :: rest => r.1 ≤ r.2 && r.2 + 1 < s.1 && isAscending (s :: rest)

/-- The number of code points in ranges that are in order. -/
def size (rs : Ranges) : Nat :=
  rs.foldl (fun n r => n + (r.2 + 1 - r.1)) 0

end Ranges

end Lox.Text
