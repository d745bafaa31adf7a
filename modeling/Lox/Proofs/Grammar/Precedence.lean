import Lox.Program.Parser

/-!
Precedence: how tightly an operator joins its operands, and how tightly the parts of an expression are
joined. The binary operators of `levels` bind more tightly from level to level.
-/

namespace Lox

namespace Grammar

open Lox.Parser

/-- The constant that a token of this kind stands for. -/
def literal? : Kind → Option Literal
  | .kwNil => some .nil
  | .kwTrue => some (.boolean true)
  | .kwFalse => some (.boolean false)
  | .number value => some (.number value)
  | .string contents => some (.string contents)
  | _ => none

/-- The operators in front of an expression. -/
def IsSign (k : Kind) : Prop :=
  k = .bang ∨ k = .minus

/-- How tightly a token of this kind joins what stands before it to what follows; a token that joins
nothing is at zero, and what a sign joins is between the last two levels. -/
def binding : Kind → Nat
  | .equal => 1
  | .kwOr => 2
  | .kwAnd => 3
  | .bangEqual | .equalEqual => 4
  | .greater | .greaterEqual | .less | .lessEqual => 5
  | .minus | .plus => 6
  | .slash | .star => 7
  | .leftParen | .dot => 9
  | _ => 0

/-- How tightly the parts of an expression are joined. -/
def tightness : Expr → Nat
  | .assign _ _ _ | .set _ _ _ _ => 1
  | .binary _ _ operator _ | .logical _ _ operator _ => binding operator.kind
  | .unary _ _ _ => 8
  | .literal _ _ | .grouping _ _ | .var _ _ | .call _ _ _ _ | .get _ _ _ | .this _ _
  | .super _ _ _ => 9

section

variable {i : Nat} {level : Level} (hlevel : levels[i]? = some level)

include hlevel

theorem lt_of_level : i < levels.length :=
  (List.getElem?_eq_some_iff.1 hlevel).1

theorem level_cases : i = 0 ∨ i = 1 ∨ i = 2 ∨ i = 3 ∨ i = 4 ∨ i = 5 := by
  have hi := lt_of_level hlevel
  simp only [levels, List.length_cons, List.length_nil] at hi
  omega

/-- The operators of a level are those that bind as tightly. -/
theorem mem_operators_iff {k : Kind} : k ∈ level.operators ↔ binding k = i + 2 := by
  obtain rfl | rfl | rfl | rfl | rfl | rfl := level_cases hlevel
  all_goals
    cases hlevel
    cases k <;> simp [binding]

theorem make_eq : level.make = .logical ∨ level.make = .binary := by
  obtain rfl | rfl | rfl | rfl | rfl | rfl := level_cases hlevel
  all_goals
    cases hlevel
    simp

theorem tightness_make (id : Nat) (left : Expr) (operator : Token) (right : Expr) :
    tightness (level.make id left operator right) = binding operator.kind := by
  rcases make_eq hlevel with h | h <;> rw [h] <;> rfl

end

end Grammar

end Lox
