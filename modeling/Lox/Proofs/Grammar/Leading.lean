import Lox.Proofs.Grammar.Written

/-!
How phrases and parts begin. One token is enough to tell which rule of the grammar to follow, as no
expression begins like a statement of another kind or like what may follow it.
-/

namespace Lox

namespace Grammar

open Lox.Parser

/-- The kinds with which a call begins. -/
def startsCall : Kind → Bool
  | .kwThis | .kwSuper | .identifier | .leftParen => true
  | k => (literal? k).isSome

/-- The kinds with which an expression begins. -/
def startsExpression (k : Kind) : Bool :=
  startsCall k || k = .bang || k = .minus

/-- The kinds with which a statement begins that declares nothing. -/
def startsInner : Kind → Bool
  | .kwFor | .kwIf | .kwWhile | .kwReturn | .leftBrace => true
  | k => startsExpression k

/-- The kinds with which a declaration or a statement begins. -/
def startsDeclaration : Kind → Bool
  | .kwClass | .kwFun | .kwVar => true
  | k => startsInner k

theorem startsExpression_of_startsCall {k : Kind} (h : startsCall k = true) :
    startsExpression k = true := by
  simp [startsExpression, h]

theorem startsInner_of_startsExpression {k : Kind} (h : startsExpression k = true) :
    startsInner k = true := by
  cases k <;> first | rfl | exact h

theorem startsDeclaration_of_startsInner {k : Kind} (h : startsInner k = true) :
    startsDeclaration k = true := by
  cases k <;> first | rfl | exact h

/-- The list begins with a token of such a kind. -/
def Begins (starts : Kind → Bool) (ts : List Token) : Prop :=
  ∃ t us, ts = t :: us ∧ starts t.kind = true

namespace Begins

variable {starts starts' : Kind → Bool} {ts : List Token}

theorem cons {t : Token} (ht : starts t.kind = true) (us : List Token) : Begins starts (t :: us) :=
  ⟨t, us, rfl, ht⟩

theorem append (h : Begins starts ts) (us : List Token) : Begins starts (ts ++ us) := by
  obtain ⟨t, vs, rfl, ht⟩ := h
  exact ⟨t, vs ++ us, rfl, ht⟩

theorem imp (h : Begins starts ts) (himp : ∀ k, starts k = true → starts' k = true) :
    Begins starts' ts := by
  obtain ⟨t, us, rfl, ht⟩ := h
  exact ⟨t, us, rfl, himp _ ht⟩

theorem length_pos (h : Begins starts ts) : 0 < ts.length := by
  obtain ⟨t, us, rfl, -⟩ := h
  exact Nat.succ_pos _

/-- The first token is of no other kind. -/
theorem head_ne (h : Begins starts ts) {k : Kind} (hk : starts k = false) :
    ∀ t ∈ ts.head?, t.kind ≠ k := by
  obtain ⟨t, us, rfl, ht⟩ := h
  rintro _ ⟨⟩ rfl
  rw [ht] at hk
  cases hk

end Begins

/-- How a phrase begins. -/
def Phrase.Leads : Phrase → List Token → Prop
  | .call _, ts => Begins startsCall ts
  | .expression _, ts | .operation _ _, ts | .entries _, ts => Begins startsExpression ts
  | .arguments _, _ => True

theorem Phrase.Written.leads {limit : Limit} {ph : Phrase} {ts : List Token}
    (h : ph.Written limit ts) : ph.Leads ts := by
  induction h with
  | @literal _ t _ hvalue =>
    refine .cons ?_ []
    unfold startsCall
    split <;> simp [hvalue]
  | var _ hname => exact .cons (by rw [hname]; rfl) _
  | this _ hkeyword => exact .cons (by rw [hkeyword]; rfl) _
  | super _ hkeyword => exact .cons (by rw [hkeyword]; rfl) _
  | grouping _ hleft => exact .cons (by rw [hleft]; rfl) _
  | call _ _ _ _ _ ih => exact Begins.append ih _
  | get _ _ _ _ ih => exact Begins.append ih _
  | tightest _ ih => exact Begins.imp ih fun _ => startsExpression_of_startsCall
  | unary _ hsign =>
    refine .cons ?_ _
    rcases hsign with hsign | hsign <;> rw [hsign] <;> rfl
  | tighter _ _ ih => exact ih
  | joined _ _ _ _ _ ih => exact Begins.append ih _
  | loosest _ ih => exact ih
  | assign _ hname => exact .cons (by rw [hname]; rfl) _
  | set _ _ _ _ _ _ ih =>
    exact (Begins.append ih _).imp fun _ => startsExpression_of_startsCall
  | entry _ ih => exact ih
  | entries _ _ _ ih => exact Begins.append ih _
  | noArguments | arguments => trivial

theorem begins_expression {limit : Limit} {e : Expr} {ts : List Token}
    (h : (Phrase.expression e).Written limit ts) : Begins startsExpression ts :=
  h.leads

/-- How a part begins. -/
def Part.Leads : Part → List Token → Prop
  | .statement _ _, ts => Begins startsInner ts
  | .declaration _, ts => Begins startsDeclaration ts
  | .routine _, ts => Begins (· = .identifier) ts
  | .declarations _, ts => ts = [] ∨ Begins startsDeclaration ts
  | .routines _, _ => True

theorem Part.Written.leads {limit : Limit} {part : Part} {ts : List Token}
    (h : part.Written limit ts) : part.Leads ts := by
  induction h with
  | expression h =>
    exact ((begins_expression h).append _).imp fun _ => startsInner_of_startsExpression
  | block hleft => exact .cons (by rw [hleft]; rfl) _
  | ifThen hkeyword => exact .cons (by rw [hkeyword]; rfl) _
  | ifElse hkeyword => exact .cons (by rw [hkeyword]; rfl) _
  | whileLoop hkeyword => exact .cons (by rw [hkeyword]; rfl) _
  | forLoop _ hkeyword => exact .cons (by rw [hkeyword]; rfl) _
  | returnValue hkeyword => exact .cons (by rw [hkeyword]; rfl) _
  | statement _ ih => exact Begins.imp ih fun _ => startsDeclaration_of_startsInner
  | varDecl hvar => exact .cons (by rw [hvar]; rfl) _
  | funDecl hkeyword => exact .cons (by rw [hkeyword]; rfl) _
  | classDecl hkeyword => exact .cons (by rw [hkeyword]; rfl) _
  | noDeclarations => exact .inl rfl
  | declarations _ _ ih => exact .inr (Begins.append ih _)
  | routine hname => exact ⟨_, _, rfl, decide_eq_true hname⟩
  | noRoutines | routines => trivial

end Grammar

end Lox
