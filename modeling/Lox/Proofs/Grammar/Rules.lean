import Lox.Program.Cursor

/-!
The grammar of programs, as data, and what may be derived from it. A `Form` is the right side of a
rule, and `Derives` says which lists of tokens may be derived from a form. To prove something of all
that the nonterminals derive, it is enough to show that each rule keeps it (`Derives.holds`).
-/

namespace Lox

/-- A list of so many entries is not too long. -/
def Limit.Allows (limit : Limit) (count : Nat) : Prop :=
  limit.strict → count ≤ limit.maxArguments

/-- The same limit, of which nothing takes notice. -/
def Limit.lenient (limit : Limit) : Limit :=
  { limit with strict := false }

theorem Limit.lenient_allows (limit : Limit) (count : Nat) : limit.lenient.Allows count := by
  intro hstrict
  cases hstrict

namespace Grammar

/-! ### Forms -/

inductive Nonterminal where
  | program
  | declaration | classDecl | funDecl | function | varDecl
  | statement | exprStmt | forStmt | ifStmt | returnStmt | whileStmt | block
  | parameters | arguments
  | expression | assignment
  | logicOr | logicAnd | equality | comparison | term | factor | unary | call | primary
  deriving DecidableEq, Repr

/-- What may stand on the right side of a rule. -/
inductive Form where
  | empty
  /-- A token of this kind. -/
  | word (k : Kind)
  | number
  | string
  | rule (n : Nonterminal)
  | seq (first second : Form)
  | either (left right : Form)
  /-- Any number of times, also never. -/
  | star (f : Form)
  /-- Once or more, with commas between, and no more often than the limit allows. -/
  | list (f : Form)

/-- Something that may be missing. -/
def Form.opt (f : Form) : Form :=
  .either f .empty

/-- One after another. -/
def Form.inOrder : List Form → Form
  | [] => .empty
  | [f] => f
  | f :: g :: fs => .seq f (inOrder (g :: fs))

/-- One of two or more. -/
def Form.oneOf (f g : Form) : List Form → Form
  | [] => .either f g
  | h :: fs => .either f (oneOf g h fs)

open Form in
/-- Operands with binary operators between. -/
def Form.joined (operand : Nonterminal) (operator : Form) : Form :=
  inOrder [rule operand, star (inOrder [operator, rule operand])]

open Form in
/-- The rules. -/
def production : Nonterminal → Form
  | .program => inOrder [star (rule .declaration), word .eof]
  | .declaration => oneOf (rule .classDecl) (rule .funDecl) [rule .varDecl, rule .statement]
  | .classDecl =>
    inOrder [word .kwClass, word .identifier, opt (inOrder [word .colon, word .identifier]),
      word .leftBrace, star (rule .function), word .rightBrace]
  | .funDecl => inOrder [word .kwFun, rule .function]
  | .function =>
    inOrder [word .identifier, word .leftParen, opt (rule .parameters), word .rightParen,
      rule .block]
  | .varDecl =>
    inOrder [word .kwVar, word .identifier, opt (inOrder [word .equal, rule .expression]),
      word .semicolon]
  | .statement =>
    oneOf (rule .exprStmt) (rule .forStmt)
      [rule .ifStmt, rule .returnStmt, rule .whileStmt, rule .block]
  | .exprStmt => inOrder [rule .expression, word .semicolon]
  | .forStmt =>
    inOrder [word .kwFor, word .leftParen,
      oneOf (rule .varDecl) (rule .exprStmt) [word .semicolon],
      opt (rule .expression), word .semicolon, opt (rule .expression), word .rightParen,
      rule .statement]
  | .ifStmt =>
    inOrder [word .kwIf, word .leftParen, rule .expression, word .rightParen, rule .statement,
      opt (inOrder [word .kwElse, rule .statement])]
  | .returnStmt => inOrder [word .kwReturn, opt (rule .expression), word .semicolon]
  | .whileStmt =>
    inOrder [word .kwWhile, word .leftParen, rule .expression, word .rightParen, rule .statement]
  | .block => inOrder [word .leftBrace, star (rule .declaration), word .rightBrace]
  | .parameters => list (word .identifier)
  | .arguments => list (rule .expression)
  | .expression => rule .assignment
  | .assignment =>
    either
      (inOrder [opt (inOrder [rule .call, word .dot]), word .identifier, word .equal,
        rule .assignment])
      (rule .logicOr)
  | .logicOr => joined .logicAnd (word .kwOr)
  | .logicAnd => joined .equality (word .kwAnd)
  | .equality => joined .comparison (either (word .bangEqual) (word .equalEqual))
  | .comparison =>
    joined .term (oneOf (word .greater) (word .greaterEqual) [word .less, word .lessEqual])
  | .term => joined .factor (either (word .minus) (word .plus))
  | .factor => joined .unary (either (word .slash) (word .star))
  | .unary => either (inOrder [either (word .bang) (word .minus), rule .unary]) (rule .call)
  | .call =>
    inOrder [rule .primary,
      star (either
        (inOrder [word .leftParen, opt (rule .arguments), word .rightParen])
        (inOrder [word .dot, word .identifier]))]
  | .primary =>
    oneOf number string
      [word .kwTrue, word .kwFalse, word .kwNil, word .kwThis, word .identifier,
        inOrder [word .leftParen, rule .expression, word .rightParen],
        inOrder [word .kwSuper, word .dot, word .identifier]]

/-! ### Derivations -/

/-- The list consists of these parts, with commas between. -/
inductive Separated : List (List Token) → List Token → Prop where
  | one (ts : List Token) : Separated [ts] ts
  | more {ts us : List Token} {parts : List (List Token)} {comma : Token} :
    comma.kind = .comma → Separated parts us → Separated (ts :: parts) (ts ++ comma :: us)

/-- The tokens may be derived from the form, with lists no longer than the limit allows. -/
inductive Derives (limit : Limit) : Form → List Token → Prop where
  | empty : Derives limit .empty []
  | word {k : Kind} {t : Token} : t.kind = k → Derives limit (.word k) [t]
  | number {t : Token} {value : Float} : t.kind = .number value → Derives limit .number [t]
  | string {t : Token} {contents : String} :
    t.kind = .string contents → Derives limit .string [t]
  | rule {n : Nonterminal} {ts : List Token} :
    Derives limit (production n) ts → Derives limit (.rule n) ts
  | seq {f g : Form} {ts us : List Token} :
    Derives limit f ts → Derives limit g us → Derives limit (.seq f g) (ts ++ us)
  | left {f g : Form} {ts : List Token} : Derives limit f ts → Derives limit (.either f g) ts
  | right {f g : Form} {ts : List Token} : Derives limit g ts → Derives limit (.either f g) ts
  | star {f : Form} {parts : List (List Token)} :
    (∀ ts ∈ parts, Derives limit f ts) → Derives limit (.star f) parts.flatten
  | list {f : Form} {parts : List (List Token)} {ts : List Token} :
    (∀ us ∈ parts, Derives limit f us) → Separated parts ts → limit.Allows parts.length →
      Derives limit (.list f) ts

/-- The tokens are as the form says, if the nonterminals stand for what `P` says. -/
def Form.Holds (limit : Limit) (P : Nonterminal → List Token → Prop) : Form → List Token → Prop
  | .empty, ts => ts = []
  | .word k, ts => ∃ t, t.kind = k ∧ ts = [t]
  | .number, ts => ∃ t value, t.kind = .number value ∧ ts = [t]
  | .string, ts => ∃ t contents, t.kind = .string contents ∧ ts = [t]
  | .rule n, ts => P n ts
  | .seq f g, ts => ∃ us vs, f.Holds limit P us ∧ g.Holds limit P vs ∧ ts = us ++ vs
  | .either f g, ts => f.Holds limit P ts ∨ g.Holds limit P ts
  | .star f, ts =>
    ∃ parts : List (List Token), (∀ us ∈ parts, f.Holds limit P us) ∧ ts = parts.flatten
  | .list f, ts =>
    ∃ parts, (∀ us ∈ parts, f.Holds limit P us) ∧ Separated parts ts
      ∧ limit.Allows parts.length

/-- What each rule keeps holds of all that is derived. -/
theorem Derives.holds {limit : Limit} {P : Nonterminal → List Token → Prop}
    (hrules : ∀ n ts, (production n).Holds limit P ts → P n ts) {f : Form}
    {ts : List Token} (h : Derives limit f ts) : f.Holds limit P ts := by
  induction h with
  | empty => rfl
  | word hk => exact ⟨_, hk, rfl⟩
  | number hk => exact ⟨_, _, hk, rfl⟩
  | string hk => exact ⟨_, _, hk, rfl⟩
  | rule _ ih => exact hrules _ _ ih
  | seq _ _ ih₁ ih₂ => exact ⟨_, _, ih₁, ih₂, rfl⟩
  | left _ ih => exact .inl ih
  | right _ ih => exact .inr ih
  | star _ ih => exact ⟨_, ih, rfl⟩
  | list _ hts hcount ih => exact ⟨_, ih, hts, hcount⟩

/-- What is as the form says may be derived, if the nonterminals stand for what they derive. -/
theorem Form.Holds.derives {limit : Limit} {f : Form} {ts : List Token}
    (h : f.Holds limit (fun n => Derives limit (.rule n)) ts) : Derives limit f ts := by
  induction f generalizing ts with
  | empty =>
    cases h
    exact .empty
  | word k =>
    obtain ⟨t, hk, rfl⟩ := h
    exact .word hk
  | number =>
    obtain ⟨t, value, hk, rfl⟩ := h
    exact .number hk
  | string =>
    obtain ⟨t, contents, hk, rfl⟩ := h
    exact .string hk
  | rule n => exact h
  | seq f g ih₁ ih₂ =>
    obtain ⟨us, vs, hf, hg, rfl⟩ := h
    exact .seq (ih₁ hf) (ih₂ hg)
  | either f g ih₁ ih₂ => exact h.elim (fun h => .left (ih₁ h)) fun h => .right (ih₂ h)
  | star f ih =>
    obtain ⟨parts, hparts, rfl⟩ := h
    exact .star fun us hus => ih (hparts us hus)
  | list f ih =>
    obtain ⟨parts, hparts, hts, hcount⟩ := h
    exact .list (fun us hus => ih (hparts us hus)) hts hcount

end Grammar

end Lox
