import Lox.Proofs.Parsing.Phrases
import Lox.Proofs.Parsing.Relabeled

/-!
What is written is read, part by part (`Takes.parts`): where the tokens are a way to write a statement
or what statements make up, and what follows does not belong to it, the reading of it takes them all
and gives the same tree, but for the numbers.
-/

namespace Lox

namespace Parser

open Grammar

/-- How a part is read. -/
def PartReads (limit : Limit) : Part → List Token → Prop
  | .statement o s, ts => ∀ {rounds rest}, 4 * ts.length ≤ rounds →
    (o = true → ∀ t ∈ rest.head?, t.kind ≠ .kwElse) →
    Takes (statement limit rounds) ts rest fun s' => s'.Alike s
  | .declaration s, ts => ∀ {rounds rest}, 4 * ts.length + 1 ≤ rounds →
    (∀ t ∈ rest.head?, t.kind ≠ .kwElse) →
    Takes (declaration limit rounds) ts rest fun s? => ∃ s', s? = some s' ∧ s'.Alike s
  | .declarations body, ts => ∀ {closes rounds rounds' rest}, 4 * ts.length + 1 ≤ rounds →
    ts.length < rounds' → (∀ k, closes k = true → k = .rightBrace) →
    (∀ t ∈ rest.head?, closes t.kind = true) →
    Takes (upTo closes (declaration limit rounds) rounds') ts rest
      fun body' => Stmt.AlikeEach body'.reduceOption body
  | .routine r, ts => ∀ {rounds kind rest}, 4 * ts.length ≤ rounds →
    Takes (routine limit (block (declaration limit rounds) rounds) rounds kind) ts rest
      fun r' => r'.Alike r
  | .routines rs, ts => ∀ {rounds rounds' kind rest}, 4 * ts.length ≤ rounds →
    ts.length < rounds' → Next .rightBrace rest →
    Takes (upTo (· = .rightBrace)
        (routine limit (block (declaration limit rounds) rounds) rounds kind) rounds') ts rest
      fun rs' => Routine.AlikeEach rs' rs

namespace Takes

variable {limit : Limit} {rounds : Nat} {ts us rest : List Token} {e : Expr} {β : Type}

/-- Nothing that a statement begins with is read before a statement of another kind. -/
theorem head_ne_of_kind {t : Token} {k : Kind} (ht : t.kind = k) {k' : Kind} (hk : k ≠ k')
    (us : List Token) : ∀ t' ∈ (t :: us).head?, t'.kind ≠ k' := by
  rintro _ ⟨⟩
  rwa [ht]

/-! ### Clauses -/

protected theorem expression (h : (Phrase.expression e).Written limit ts)
    (hrounds : 4 * ts.length + 3 ≤ rounds) (hrest : Stops 1 rest) :
    Takes (expression limit rounds) ts rest fun e' => e'.Alike e :=
  phrases h hrounds hrest

protected theorem option {e? : Option Expr} (h : Optional limit e? ts)
    (hrounds : 4 * ts.length + 3 ≤ rounds) {k : Kind} (hk : k = .semicolon ∨ k = .rightParen)
    (hrest : Next k rest) :
    Takes (unlessNext k (expression limit rounds)) ts rest fun e'? => Expr.AlikeOption e'? e? := by
  cases h with
  | none => exact (unlessNext_none hrest).conseq fun e'? he => he ▸ rfl
  | some h =>
    have hstarts : startsExpression k = false ∧ binding k < 1 := by
      rcases hk with rfl | rfl <;> decide
    refine (unlessNext_some (((begins_expression h).append rest).head_ne hstarts.1)
      (Takes.expression h hrounds (hrest.stops hstarts.2))).conseq ?_
    rintro _ ⟨e', rfl, he⟩
    exact congrArg some he

/-- A condition, and what follows it. -/
theorem condition_bind {start : Expectation} {next : Expr → Reading β} {last : β → Prop}
    {left right : Token} (hleft : left.kind = .leftParen)
    (h : (Phrase.expression e).Written limit ts) (hright : right.kind = .rightParen)
    (hrounds : 4 * ts.length + 3 ≤ rounds)
    (hnext : ∀ e', e'.Alike e → Takes (next e') us rest last) :
    Takes (condition start (expression limit rounds) >>= next) (left :: (ts ++ right :: us)) rest
      last := by
  have hcondition : Takes (condition start (expression limit rounds)) (left :: (ts ++ [right]))
      (us ++ rest) fun e' => e'.Alike e := by
    refine expect_bind hleft (Takes.bind
      (Takes.expression h hrounds (stops_cons hright (by decide) _)) fun e' he => ?_)
    exact expect_bind hright (.pure he)
  simpa using hcondition.bind hnext

protected theorem varDecl {s : Stmt} (h : Variable limit s ts) (hrounds : 4 * ts.length ≤ rounds) :
    Takes (varDecl (expression limit rounds)) ts rest fun s' => s'.Alike s := by
  cases h with
  | plain hname hsemicolon =>
    refine expect_bind hname (accept_ite_none (head_ne_of_kind hsemicolon (by decide) _) ?_)
    exact expect_bind hsemicolon (.pure rfl)
  | @initialized name equals semicolon e ts hname hequals h hsemicolon =>
    simp only [List.length_cons, List.length_append, List.length_nil] at hrounds
    have hvalue : Takes (some <$> expression limit rounds) ts ([semicolon] ++ rest)
        fun e'? => ∃ e', e'? = some e' ∧ e'.Alike e :=
      (Takes.expression h (by omega) (stops_cons hsemicolon (by decide) _)).map
        fun e' he => ⟨e', rfl, he⟩
    refine expect_bind hname (accept_ite_some hequals (Takes.bind hvalue ?_))
    rintro _ ⟨e', rfl, he⟩
    refine expect_bind hsemicolon (.pure ?_)
    unfold Expr.Alike at he
    simp [Stmt.Alike, Stmt.relabel, he]

protected theorem expressionStatement {semicolon : Token}
    (h : (Phrase.expression e).Written limit ts) (hsemicolon : semicolon.kind = .semicolon)
    (hrounds : 4 * ts.length + 3 ≤ rounds) :
    Takes (expressionStatement (expression limit rounds)) (ts ++ [semicolon]) rest
      fun s' => s'.Alike (.expression e) := by
  refine Takes.bind (Takes.expression h hrounds (stops_cons hsemicolon (by decide) _))
    fun e' he => expect_bind hsemicolon (.pure ?_)
  unfold Expr.Alike at he
  simp [Stmt.Alike, Stmt.relabel, he]

protected theorem forInitializer {s? : Option Stmt} (h : Initializer limit s? ts)
    (hrounds : 4 * ts.length ≤ rounds) :
    Takes (forInitializer (expression limit rounds)) ts rest fun s'? =>
      s'?.map (Stmt.relabel (.numbers fun _ => 0)) = s?.map (Stmt.relabel (.numbers fun _ => 0)) := by
  cases h with
  | none hsemicolon => exact accept_ite_some hsemicolon (.pure rfl)
  | declaring hvar h =>
    rw [List.length_cons] at hrounds
    refine accept_ite_none (head_ne_of_kind hvar (by decide) _) (accept_ite_some hvar ?_)
    exact (Takes.varDecl h (by omega)).map fun s' hs => congrArg some hs
  | @evaluating e semicolon ts h hsemicolon =>
    rw [List.length_append, List.length_singleton] at hrounds
    have hts : Begins startsExpression ((ts ++ [semicolon]) ++ rest) :=
      ((begins_expression h).append _).append rest
    refine accept_ite_none (hts.head_ne rfl) (accept_ite_none (hts.head_ne rfl) ?_)
    exact (Takes.expressionStatement h hsemicolon (by omega)).map fun s' hs => congrArg some hs

theorem listed_parameters {params : List Token} (hnames : ∀ p ∈ params, p.kind = .identifier)
    (hts : Separated (params.map fun p => [p]) ts) {count : Nat}
    (hcount : limit.Allows (count + params.length)) (hrounds : ts.length ≤ rounds)
    (hrest : Next .rightParen rest) :
    Takes (listed limit .parameters (expect .identifier .parameterName) count rounds) ts rest
      (· = params) := by
  induction params generalizing ts count rounds with
  | nil => cases hts
  | cons p params ih =>
    rw [List.forall_mem_cons] at hnames
    rcases separated_cases hts with ⟨rfl, rfl⟩ | ⟨comma, us, hcomma, hus, rfl⟩
    · obtain ⟨rounds, rfl⟩ : ∃ k, rounds = k + 1 := Nat.exists_eq_add_one.2 hrounds
      refine (listed_one hcount hrest (Takes.expect hnames.1)).conseq ?_
      rintro _ ⟨_, rfl, rfl⟩
      rfl
    · simp only [List.length_cons] at hrounds hcount
      obtain ⟨rounds, rfl⟩ : ∃ k, rounds = k + 1 := Nat.exists_eq_add_one.2 (by omega)
      have hcount₁ : limit.Allows (count + 1) := fun hs => Nat.le_trans (by omega) (hcount hs)
      rw [Nat.add_comm params.length, ← Nat.add_assoc] at hcount
      refine (listed_more hcount₁ hcomma (Takes.expect hnames.1)
        (ih hnames.2 hus hcount (by omega))).conseq ?_
      rintro _ ⟨_, _, rfl, rfl, rfl⟩
      rfl

/-- The names between the parentheses of a function. -/
theorem parameters {params : List Token} (h : Parameters limit params ts)
    (hrounds : ts.length ≤ rounds) (hrest : Next .rightParen rest) :
    Takes (listedOrNone limit .parameters (expect .identifier .parameterName) rounds) ts rest
      (· = params) := by
  cases h with
  | none => exact listedOrNone_none hrest
  | some hnames hts hcount =>
    refine listedOrNone_some ?_ (listed_parameters hnames hts (by rwa [Nat.zero_add]) hrounds hrest)
    cases params with
    | nil => cases hts
    | cons p params =>
      have hp := hnames p List.mem_cons_self
      rcases separated_cases hts with ⟨-, rfl⟩ | ⟨comma, us, -, -, rfl⟩
      · exact head_ne_of_kind hp (by decide) _
      · exact head_ne_of_kind hp (by decide) _

/-! ### Loops, functions and classes -/

/-- The body of a block or a function, and the brace that closes it. -/
protected theorem block {body : List Stmt} {right : Token}
    (h : PartReads limit (.declarations body) ts) (hright : right.kind = .rightBrace)
    (hrounds : 4 * ts.length + 1 ≤ rounds) :
    Takes (block (declaration limit rounds) rounds) (ts ++ [right]) rest
      fun body' => Stmt.AlikeEach body' body := by
  refine Takes.bind (h hrounds (by omega) (fun k => of_decide_eq_true) ?_)
    fun body' hbody => expect_bind hright (.pure hbody)
  rintro _ ⟨⟩
  exact decide_eq_true hright

theorem alike_forLoop {s? s'? : Option Stmt} {c c' : Expr} {n? n'? : Option Expr} {b b' : Stmt}
    (hs : s'?.map (Stmt.relabel (.numbers fun _ => 0)) = s?.map (Stmt.relabel (.numbers fun _ => 0)))
    (hc : c'.Alike c) (hn : Expr.AlikeOption n'? n?) (hb : b'.Alike b) :
    (forLoop s'? c' n'? b').Alike (forLoop s? c n? b) := by
  unfold Expr.Alike Expr.AlikeOption Stmt.Alike at *
  rw [forLoop_relabel, forLoop_relabel, hs, hc, hn, hb]

protected theorem forStatement (id : Nat) {left semicolon right : Token} {s? : Option Stmt}
    {c? n? : Option Expr} {b : Stmt} {vs ws : List Token} (hleft : left.kind = .leftParen)
    (hinit : Initializer limit s? ts) (hcondition : Optional limit c? us)
    (hsemicolon : semicolon.kind = .semicolon) (hincrement : Optional limit n? vs)
    (hright : right.kind = .rightParen)
    (hbody : Takes (statement limit rounds) ws rest fun b' => b'.Alike b)
    (hrounds : 4 * (ts.length + us.length + vs.length) + 3 ≤ rounds) :
    Takes (forStatement (expression limit rounds) (statement limit rounds))
      (left :: (ts ++ (us ++ semicolon :: (vs ++ right :: ws)))) rest
      fun s' => s'.Alike (forLoop s? (c?.getD (.literal id (.boolean true))) n? b) := by
  refine expect_bind hleft (Takes.bind (Takes.forInitializer hinit (by omega)) fun s'? hs => ?_)
  refine Takes.bind (Takes.option hcondition (by omega) (.inl rfl) (next_cons hsemicolon _))
    fun c'? hc => expect_bind hsemicolon ?_
  refine Takes.bind (Takes.option hincrement (by omega) (.inr rfl) (next_cons hright _))
    fun n'? hn => expect_bind hright ?_
  rw [← List.append_nil ws]
  refine Takes.bind hbody fun b' hb => ?_
  have hloop {e e' : Expr} (he : e'.Alike e) : (forLoop s'? e' n'? b').Alike (forLoop s? e n? b) :=
    alike_forLoop hs he hn hb
  cases c? with
  | none =>
    obtain rfl : c'? = none := by simpa [Expr.AlikeOption] using hc
    exact node_bind fun id' => .pure (hloop rfl)
  | some c =>
    obtain ⟨c', rfl, hc'⟩ : ∃ c', c'? = some c' ∧ c'.Alike c := by
      simpa [Expr.AlikeOption, Expr.Alike] using hc
    exact .pure (hloop hc')

protected theorem routine {name left right opening closing : Token} {params : List Token}
    {body : List Stmt} (hname : name.kind = .identifier) (hleft : left.kind = .leftParen)
    (hparams : Parameters limit params ts) (hright : right.kind = .rightParen)
    (hopening : opening.kind = .leftBrace) (h : PartReads limit (.declarations body) us)
    (hclosing : closing.kind = .rightBrace) :
    PartReads limit (.routine (.mk name params body))
      (name :: left :: (ts ++ right :: opening :: (us ++ [closing]))) := by
  intro rounds kind rest hrounds
  simp only [List.length_cons, List.length_append, List.length_nil] at hrounds
  refine expect_bind hname (expect_bind hleft ?_)
  refine Takes.bind (parameters hparams (by omega) (next_cons hright _)) ?_
  rintro _ rfl
  refine expect_bind hright (expect_bind hopening ?_)
  refine (Takes.block h hclosing (by omega)).bind_pure fun body' hbody => ?_
  unfold Stmt.AlikeEach at hbody
  simp [Routine.Alike, Routine.relabel, hbody]

protected theorem classDecl {keyword name left right : Token} {superclass : Option Expr}
    {rs : List Routine} (hkeyword : keyword.kind = .kwClass) (hname : name.kind = .identifier)
    (hancestor : Ancestor superclass ts) (hleft : left.kind = .leftBrace)
    (h : PartReads limit (.routines rs) us) (hright : right.kind = .rightBrace) :
    PartReads limit (.declaration (.classDecl name superclass rs))
      (keyword :: name :: (ts ++ left :: (us ++ [right]))) := by
  intro rounds rest hrounds _
  simp only [List.length_cons, List.length_append, List.length_nil] at hrounds
  obtain ⟨rounds, rfl⟩ : ∃ k, rounds = k + 1 := Nat.exists_eq_add_one.2 (by omega)
  refine Takes.recovering (accept_ite_some hkeyword (expect_bind hname ?_))
  have hrest {superclass' : Option Expr} (hs : Expr.AlikeOption superclass' superclass) :
      Takes (do
        let _ ← expect .leftBrace .classBodyStart
        let methods ← upTo (· = .rightBrace) (routine limit (block (declaration limit rounds) rounds)
          rounds .method) rounds
        let _ ← expect .rightBrace .classBodyEnd
        return Stmt.classDecl name superclass' methods) (left :: (us ++ [right])) rest
        fun s' => s'.Alike (.classDecl name superclass rs) := by
    refine expect_bind hleft (Takes.bind (h (by omega) (by omega) (next_cons hright _))
      fun rs' hrs => expect_bind hright (.pure ?_))
    unfold Expr.AlikeOption at hs
    unfold Routine.AlikeEach at hrs
    simp [Stmt.Alike, Stmt.relabel, hs, hrs]
  cases hancestor with
  | none =>
    refine accept_ite_none (head_ne_of_kind hleft (by decide) _) ?_
    have hnone : Takes (pure none) [] (left :: (us ++ [right]) ++ rest)
        fun superclass' : Option Expr => Expr.AlikeOption superclass' none := .pure rfl
    exact hnone.bind fun superclass' hs => hrest hs
  | @some id colon ancestor hcolon hancestor =>
    refine accept_ite_some hcolon (expect_bind hancestor ?_)
    have hsome : Takes (some <$> node (.var · ancestor)) [] (left :: (us ++ [right]) ++ rest)
        fun superclass' => Expr.AlikeOption superclass' (some (.var id ancestor)) :=
      Takes.map (.node fun _ => rfl) fun e' he => congrArg some he
    exact hsome.bind fun superclass' hs => hrest hs

/-! ### Statements by their first token -/

section

variable {keyword left right semicolon : Token} {o : Bool} {s s' : Stmt}

protected theorem innerExpression (h : (Phrase.expression e).Written limit ts)
    (hsemicolon : semicolon.kind = .semicolon) :
    PartReads limit (.statement false (.expression e)) (ts ++ [semicolon]) := by
  intro rounds rest hrounds _
  rw [List.length_append, List.length_singleton] at hrounds
  obtain ⟨rounds, rfl⟩ : ∃ k, rounds = k + 1 := Nat.exists_eq_add_one.2 (by omega)
  have hts : Begins startsExpression ((ts ++ [semicolon]) ++ rest) :=
    ((begins_expression h).append _).append rest
  refine accept_ite_none (hts.head_ne rfl) (accept_ite_none (hts.head_ne rfl)
    (accept_ite_none (hts.head_ne rfl) (accept_bind_none (hts.head_ne rfl)
      (accept_ite_none (hts.head_ne rfl) ?_))))
  exact Takes.expressionStatement h hsemicolon (by omega)

protected theorem innerBlock {body : List Stmt} (hleft : left.kind = .leftBrace)
    (h : PartReads limit (.declarations body) ts) (hright : right.kind = .rightBrace) :
    PartReads limit (.statement false (.block body)) (left :: (ts ++ [right])) := by
  intro rounds rest hrounds _
  simp only [List.length_cons, List.length_append, List.length_nil] at hrounds
  obtain ⟨rounds, rfl⟩ : ∃ k, rounds = k + 1 := Nat.exists_eq_add_one.2 (by omega)
  have hne {k : Kind} (hk : .leftBrace ≠ k) := head_ne_of_kind hleft hk (ts ++ [right] ++ rest)
  refine accept_ite_none (hne (by decide)) (accept_ite_none (hne (by decide))
    (accept_ite_none (hne (by decide)) (accept_bind_none (hne (by decide))
      (accept_ite_some hleft ?_))))
  refine (Takes.block h hright (by omega)).map fun body' hbody => ?_
  unfold Stmt.AlikeEach at hbody
  simp [Stmt.Alike, Stmt.relabel, hbody]

protected theorem ifThen (hkeyword : keyword.kind = .kwIf) (hleft : left.kind = .leftParen)
    (hcondition : (Phrase.expression e).Written limit ts) (hright : right.kind = .rightParen)
    (h : PartReads limit (.statement o s) us) :
    PartReads limit (.statement true (.ifThen e s)) (keyword :: left :: (ts ++ right :: us)) := by
  intro rounds rest hrounds hopen
  simp only [List.length_cons, List.length_append] at hrounds
  obtain ⟨rounds, rfl⟩ : ∃ k, rounds = k + 1 := Nat.exists_eq_add_one.2 (by omega)
  refine accept_ite_none (head_ne_of_kind hkeyword (by decide) _) (accept_ite_some hkeyword ?_)
  refine condition_bind hleft hcondition hright (by omega) fun c hc => ?_
  rw [← List.append_nil us]
  refine Takes.bind (h (by omega) fun _ => hopen rfl) fun s' hs => ?_
  refine accept_ite_none (hopen rfl) (.pure ?_)
  unfold Expr.Alike Stmt.Alike at *
  simp [Stmt.relabel, hc, hs]

protected theorem ifElse {other : Token} {vs : List Token} (hkeyword : keyword.kind = .kwIf)
    (hleft : left.kind = .leftParen) (hcondition : (Phrase.expression e).Written limit ts)
    (hright : right.kind = .rightParen) (h : PartReads limit (.statement false s) us)
    (hother : other.kind = .kwElse) (h' : PartReads limit (.statement o s') vs) :
    PartReads limit (.statement o (.ifElse e s s'))
      (keyword :: left :: (ts ++ right :: (us ++ other :: vs))) := by
  intro rounds rest hrounds hopen
  simp only [List.length_cons, List.length_append] at hrounds
  obtain ⟨rounds, rfl⟩ : ∃ k, rounds = k + 1 := Nat.exists_eq_add_one.2 (by omega)
  refine accept_ite_none (head_ne_of_kind hkeyword (by decide) _) (accept_ite_some hkeyword ?_)
  refine condition_bind hleft hcondition hright (by omega) fun c hc => ?_
  refine Takes.bind (h (by omega) (by simp)) fun s₁ hs₁ => accept_ite_some hother ?_
  refine (h' (by omega) hopen).bind_pure fun s₂ hs₂ => ?_
  unfold Expr.Alike Stmt.Alike at *
  simp [Stmt.relabel, hc, hs₁, hs₂]

protected theorem whileLoop (hkeyword : keyword.kind = .kwWhile) (hleft : left.kind = .leftParen)
    (hcondition : (Phrase.expression e).Written limit ts) (hright : right.kind = .rightParen)
    (h : PartReads limit (.statement o s) us) :
    PartReads limit (.statement o (.whileLoop e s)) (keyword :: left :: (ts ++ right :: us)) := by
  intro rounds rest hrounds hopen
  simp only [List.length_cons, List.length_append] at hrounds
  obtain ⟨rounds, rfl⟩ : ∃ k, rounds = k + 1 := Nat.exists_eq_add_one.2 (by omega)
  have hne {k : Kind} (hk : .kwWhile ≠ k) :=
    head_ne_of_kind hkeyword hk (left :: (ts ++ right :: us) ++ rest)
  refine accept_ite_none (hne (by decide)) (accept_ite_none (hne (by decide))
    (accept_ite_some hkeyword ?_))
  refine condition_bind hleft hcondition hright (by omega) fun c hc => ?_
  refine (h (by omega) hopen).bind_pure fun s' hs => ?_
  unfold Expr.Alike Stmt.Alike at *
  simp [Stmt.relabel, hc, hs]

protected theorem returnValue {value? : Option Expr} (hkeyword : keyword.kind = .kwReturn)
    (hvalue : Optional limit value? ts) (hsemicolon : semicolon.kind = .semicolon) :
    PartReads limit (.statement false (.returnValue keyword value?))
      (keyword :: (ts ++ [semicolon])) := by
  intro rounds rest hrounds _
  simp only [List.length_cons, List.length_append, List.length_nil] at hrounds
  obtain ⟨rounds, rfl⟩ : ∃ k, rounds = k + 1 := Nat.exists_eq_add_one.2 (by omega)
  have hne {k : Kind} (hk : .kwReturn ≠ k) := head_ne_of_kind hkeyword hk (ts ++ [semicolon] ++ rest)
  refine accept_ite_none (hne (by decide)) (accept_ite_none (hne (by decide))
    (accept_ite_none (hne (by decide)) (accept_bind_some hkeyword ?_)))
  refine Takes.bind (Takes.option hvalue (by omega) (.inl rfl) (next_cons hsemicolon _))
    fun value'? hv => expect_bind hsemicolon (.pure ?_)
  unfold Expr.AlikeOption at hv
  simp [Stmt.Alike, Stmt.relabel, hv]

/-! ### Lists of declarations and of methods -/

protected theorem declarations {body : List Stmt} (hs : (Part.declaration s).Written limit ts)
    (hbody : (Part.declarations body).Written limit us) (h : PartReads limit (.declaration s) ts)
    (h' : PartReads limit (.declarations body) us) :
    PartReads limit (.declarations (s :: body)) (ts ++ us) := by
  intro closes rounds rounds' rest hrounds hrounds' hcloses hrest
  have hts : Begins startsDeclaration ts := hs.leads
  have hpos := hts.length_pos
  rw [List.length_append] at hrounds hrounds'
  obtain ⟨rounds', rfl⟩ : ∃ k, rounds' = k + 1 := Nat.exists_eq_add_one.2 (by omega)
  have hopens {k : Kind} (hk : startsDeclaration k = true) : closes k = false := by
    rw [Bool.eq_false_iff]
    intro hc
    rw [hcloses k hc] at hk
    cases hk
  have helse : ∀ t ∈ (us ++ rest).head?, t.kind ≠ .kwElse := by
    rcases hbody.leads with rfl | hus
    · intro t ht he
      cases (hcloses _ (hrest t ht)).symm.trans he
    · exact (hus.append rest).head_ne rfl
  refine (upTo_cons ?_ (h (by omega) helse) (h' (by omega) (by omega) hcloses hrest)).conseq ?_
  · obtain ⟨t, ts, rfl, ht⟩ := hts
    exact ⟨t, rfl, hopens ht⟩
  · rintro _ ⟨_, body', rfl, ⟨s', rfl, hs'⟩, hbody'⟩
    unfold Stmt.Alike at hs'
    unfold Stmt.AlikeEach at *
    show Stmt.relabelEach _ (s' :: body'.reduceOption) = _
    simp [Stmt.relabelEach, hs', hbody']

protected theorem routines {r : Routine} {rs : List Routine}
    (hr : (Part.routine r).Written limit ts) (h : PartReads limit (.routine r) ts)
    (h' : PartReads limit (.routines rs) us) : PartReads limit (.routines (r :: rs)) (ts ++ us) := by
  intro rounds rounds' kind rest hrounds hrounds' hrest
  have hts : Begins (· = .identifier) ts := hr.leads
  have hpos := hts.length_pos
  rw [List.length_append] at hrounds hrounds'
  obtain ⟨rounds', rfl⟩ : ∃ k, rounds' = k + 1 := Nat.exists_eq_add_one.2 (by omega)
  refine (upTo_cons ?_ (h (by omega)) (h' (by omega) (by omega) hrest)).conseq ?_
  · obtain ⟨t, ts, rfl, ht⟩ := hts
    exact ⟨t, rfl, by simpa using (of_decide_eq_true ht) ▸ (by decide)⟩
  · rintro _ ⟨r', rs', rfl, hr', hrs'⟩
    unfold Routine.Alike at hr'
    unfold Routine.AlikeEach at *
    simp [Routine.relabelEach, hr', hrs']

end

/-! ### All parts -/

/-- All parts are read. -/
theorem parts {part : Part} (h : part.Written limit ts) : PartReads limit part ts := by
  induction h with
  | expression h hsemicolon => exact Takes.innerExpression h hsemicolon
  | block hleft _ hright ih => exact Takes.innerBlock hleft ih hright
  | ifThen hkeyword hleft hcondition hright _ ih =>
    exact Takes.ifThen hkeyword hleft hcondition hright ih
  | ifElse hkeyword hleft hcondition hright _ hother _ ih ih' =>
    exact Takes.ifElse hkeyword hleft hcondition hright ih hother ih'
  | whileLoop hkeyword hleft hcondition hright _ ih =>
    exact Takes.whileLoop hkeyword hleft hcondition hright ih
  | forLoop id hkeyword hleft hinit hcondition hsemicolon hincrement hright _ ih =>
    intro rounds rest hrounds hopen
    simp only [List.length_cons, List.length_append] at hrounds
    obtain ⟨rounds, rfl⟩ : ∃ k, rounds = k + 1 := Nat.exists_eq_add_one.2 (by omega)
    exact accept_ite_some hkeyword (Takes.forStatement id hleft hinit hcondition hsemicolon hincrement
      hright (ih (by omega) hopen) (by omega))
  | returnValue hkeyword hvalue hsemicolon => exact Takes.returnValue hkeyword hvalue hsemicolon
  | @statement o s ts h ih =>
    intro rounds rest hrounds hrest
    obtain ⟨rounds, rfl⟩ : ∃ k, rounds = k + 1 := Nat.exists_eq_add_one.2 (by omega)
    have hts : Begins startsInner (ts ++ rest) := Begins.append h.leads rest
    refine Takes.recovering (accept_ite_none (hts.head_ne rfl) (accept_ite_none (hts.head_ne rfl)
      (accept_ite_none (hts.head_ne rfl) ?_)))
    exact ih (by omega) fun _ => hrest
  | @varDecl var s ts hvar h =>
    intro rounds rest hrounds _
    rw [List.length_cons] at hrounds
    obtain ⟨rounds, rfl⟩ : ∃ k, rounds = k + 1 := Nat.exists_eq_add_one.2 (by omega)
    have hne {k : Kind} (hk : .kwVar ≠ k) := head_ne_of_kind hvar hk (ts ++ rest)
    refine Takes.recovering (accept_ite_none (hne (by decide)) (accept_ite_none (hne (by decide))
      (accept_ite_some hvar ?_)))
    exact Takes.varDecl h (by omega)
  | @funDecl keyword r ts hkeyword _ ih =>
    intro rounds rest hrounds _
    rw [List.length_cons] at hrounds
    obtain ⟨rounds, rfl⟩ : ∃ k, rounds = k + 1 := Nat.exists_eq_add_one.2 (by omega)
    refine Takes.recovering (accept_ite_none (head_ne_of_kind hkeyword (by decide) _)
      (accept_ite_some hkeyword ?_))
    refine (ih (by omega)).map fun r' hr => ?_
    unfold Routine.Alike at hr
    simp [Stmt.Alike, Stmt.relabel, hr]
  | classDecl hkeyword hname hancestor hleft _ hright ih =>
    exact Takes.classDecl hkeyword hname hancestor hleft ih hright
  | noDeclarations =>
    intro closes rounds rounds' rest _ hrounds' _ hrest
    obtain ⟨rounds', rfl⟩ : ∃ k, rounds' = k + 1 := Nat.exists_eq_add_one.2 (by omega)
    exact (upTo_nil hrest).conseq fun body' hbody => hbody ▸ rfl
  | declarations hs hbody ih ih' => exact Takes.declarations hs hbody ih ih'
  | routine hname hleft hparams hright hopening _ hclosing ih =>
    exact Takes.routine hname hleft hparams hright hopening ih hclosing
  | noRoutines =>
    intro rounds rounds' kind rest _ hrounds' hrest
    obtain ⟨rounds', rfl⟩ : ∃ k, rounds' = k + 1 := Nat.exists_eq_add_one.2 (by omega)
    exact (upTo_nil fun t ht => decide_eq_true (hrest.kind_eq ht)).conseq fun rs' hrs => hrs ▸ rfl
  | routines hr _ ih ih' => exact Takes.routines hr ih ih'

end Takes

end Parser

end Lox
