import Lox.Proofs.Grammar.Leading
import Lox.Proofs.Parsing.Takes

/-!
What is written is read, phrase by phrase (`Takes.phrases`). Where the tokens are a way to write an
expression, and what follows them does not belong to it, the reading of it takes them all and gives
the same tree, but for the numbers. It needs four rounds for each token and some for the way down to
the first one.
-/

namespace Lox

namespace Parser

open Grammar

/-- What follows binds less tightly than that. -/
def Stops (b : Nat) (rest : List Token) : Prop :=
  ∀ t ∈ rest.head?, binding t.kind < b

theorem stops_cons {t : Token} {k : Kind} (ht : t.kind = k) {b : Nat} (hk : binding k < b)
    (rest : List Token) : Stops b (t :: rest) := by
  rintro _ ⟨⟩
  rwa [ht]

theorem Next.stops {k : Kind} {rest : List Token} (h : Next k rest) {b : Nat}
    (hk : binding k < b) : Stops b rest := by
  intro t ht
  rwa [h.kind_eq ht]

namespace Stops

variable {b b' : Nat} {rest : List Token}

theorem mono (h : Stops b rest) (hle : b ≤ b') : Stops b' rest :=
  fun t ht => Nat.lt_of_lt_of_le (h t ht) hle

theorem head_ne (h : Stops b rest) {k : Kind} (hk : b ≤ binding k) :
    ∀ t ∈ rest.head?, t.kind ≠ k := by
  rintro t ht rfl
  exact Nat.not_lt.2 hk (h t ht)

/-- An operator of a level that binds at least so tightly does not follow. -/
theorem contains_eq_false {i : Nat} {level : Level} (hlevel : levels[i]? = some level)
    (h : Stops (i + 2) rest) : ∀ t ∈ rest.head?, level.operators.contains t.kind = false := by
  intro t ht
  have hlt := h t ht
  rw [Bool.eq_false_iff]
  intro hmem
  have hmem : t.kind ∈ level.operators := by simpa using hmem
  rw [(mem_operators_iff hlevel).1 hmem] at hlt
  exact Nat.lt_irrefl _ hlt

end Stops

theorem drop_levels {i : Nat} {level : Level} (hlevel : levels[i]? = some level) :
    levels.drop i = level :: levels.drop (i + 1) := by
  obtain ⟨hi, rfl⟩ := List.getElem?_eq_some_iff.1 hlevel
  exact List.drop_eq_getElem_cons hi

/-! ### Expressions -/

section

variable (limit : Limit)

/-- An expression is read before anything that joins nothing. -/
def ReadsExpression (e : Expr) (ts : List Token) : Prop :=
  ∀ {rounds rest}, 4 * ts.length + 3 ≤ rounds → Stops 1 rest →
    Takes (expression limit rounds) ts rest fun e' => e'.Alike e

/-- An operation is read before anything that binds less tightly. -/
def ReadsOperation (i : Nat) (e : Expr) (ts : List Token) : Prop :=
  ∀ {rounds rest}, 4 * ts.length + 2 ≤ rounds → Stops (i + 2) rest →
    Takes (operation (unary limit rounds) rounds (levels.drop i)) ts rest fun e' => e'.Alike e

/-- A left operand of a level is read before anything that does not bind more tightly, and what
follows it is read as what goes on from it. -/
def LeadsOperation (i : Nat) (level : Level) (e : Expr) (ts : List Token) : Prop :=
  ∀ {rounds us rest} {post : Expr → Prop}, 4 * ts.length + 2 ≤ rounds → Stops (i + 3) (us ++ rest) →
    (∀ e' rounds', e'.Alike e → rounds ≤ rounds' + ts.length →
      Takes (operations level (operation (unary limit rounds) rounds (levels.drop (i + 1))) e' rounds')
        us rest post) →
    Takes (operation (unary limit rounds) rounds (levels.drop i)) (ts ++ us) rest post

/-- A callee or an object is read, and what follows it is read as what goes on from it. -/
def LeadsCall (e : Expr) (ts : List Token) : Prop :=
  ∀ {rounds us rest} {post : Expr → Prop}, 4 * ts.length ≤ rounds →
    (∀ e' rounds', e'.Alike e → rounds ≤ rounds' + ts.length →
      Takes (accesses limit (expression limit rounds) e' rounds') us rest post) →
    Takes (call limit (rounds + 1)) (ts ++ us) rest post

/-- Entries are read before a closing parenthesis. -/
def ReadsEntries (es : List Expr) (ts : List Token) : Prop :=
  ∀ {rounds rounds' count rest}, 4 * ts.length + 3 ≤ rounds → ts.length ≤ rounds' →
    limit.Allows (count + es.length) → Next .rightParen rest →
    Takes (listed limit .arguments (expression limit rounds) count rounds') ts rest
      fun es' => Expr.AlikeEach es' es

/-- Arguments are read before a closing parenthesis. -/
def ReadsArguments (es : List Expr) (ts : List Token) : Prop :=
  ∀ {rounds rounds' rest}, 4 * ts.length + 3 ≤ rounds → ts.length ≤ rounds' → Next .rightParen rest →
    Takes (listedOrNone limit .arguments (expression limit rounds) rounds') ts rest
      fun es' => Expr.AlikeEach es' es

/-- How a phrase is read. -/
def PhraseReads : Phrase → List Token → Prop
  | .expression e, ts => ReadsExpression limit e ts
  | .operation i e, ts => ReadsOperation limit i e ts
    ∧ ∀ level, levels[i]? = some level → LeadsOperation limit i level e ts
  | .call e, ts => LeadsCall limit e ts
  | .entries es, ts => ReadsEntries limit es ts
  | .arguments es, ts => ReadsArguments limit es ts

end

namespace Takes

variable {limit : Limit} {i : Nat} {level : Level} {e : Expr} {ts : List Token}

/-- What leads an operation is one, if nothing of its level follows. -/
theorem readsOperation_of_leads (hlevel : levels[i]? = some level)
    (h : LeadsOperation limit i level e ts) : ReadsOperation limit i e ts := by
  intro rounds rest hrounds hstops
  rw [← List.append_nil ts]
  refine h hrounds (hstops.mono (Nat.le_succ _)) fun e' rounds' he hle => ?_
  obtain ⟨rounds', rfl⟩ : ∃ k, rounds' = k + 1 := Nat.exists_eq_add_one.2 (by omega)
  exact takeIf_bind_none (hstops.contains_eq_false hlevel) (.pure he)

/-- A tighter operation leads a looser one. -/
theorem leads_of_readsOperation (hlevel : levels[i]? = some level)
    (h : ReadsOperation limit (i + 1) e ts) : LeadsOperation limit i level e ts := by
  intro rounds us rest post hrounds hstops hnext
  rw [drop_levels hlevel]
  refine Takes.bind (h hrounds hstops) fun e' he => ?_
  exact hnext e' rounds he (Nat.le_add_right _ _)

theorem reads_of_leads (hlevel : levels[i]? = some level)
    (h : LeadsOperation limit i level e ts) : PhraseReads limit (.operation i e) ts := by
  refine ⟨readsOperation_of_leads hlevel h, fun level' hlevel' => ?_⟩
  cases hlevel.symm.trans hlevel'
  exact h

theorem reads_tighter (hi : i < levels.length) (h : PhraseReads limit (.operation (i + 1) e) ts) :
    PhraseReads limit (.operation i e) ts :=
  reads_of_leads (List.getElem?_eq_getElem hi)
    (leads_of_readsOperation (List.getElem?_eq_getElem hi) h.1)

/-- A call that stands alone. -/
theorem reads_tightest (hts : Begins startsCall ts) (h : LeadsCall limit e ts) :
    PhraseReads limit (.operation levels.length e) ts := by
  refine ⟨?_, fun level hlevel => absurd (lt_of_level hlevel) (Nat.lt_irrefl _)⟩
  intro rounds rest hrounds hstops
  have hpos := hts.length_pos
  obtain ⟨rounds, rfl⟩ : ∃ k, rounds = k + 2 := ⟨rounds - 2, by omega⟩
  have hsign : ∀ t ∈ (ts ++ rest).head?, decide (t.kind = .bang ∨ t.kind = .minus) = false := by
    intro t ht
    have hbang := (hts.append rest).head_ne (k := .bang) rfl t ht
    have hminus := (hts.append rest).head_ne (k := .minus) rfl t ht
    simp [hbang, hminus]
  show Takes (unary limit (rounds + 2)) ts rest _
  refine takeIf_bind_none hsign ?_
  rw [← List.append_nil ts]
  refine h (by omega) fun e' rounds' he hle => ?_
  obtain ⟨rounds', rfl⟩ : ∃ k, rounds' = k + 1 := Nat.exists_eq_add_one.2 (by omega)
  refine accept_ite_none (hstops.head_ne (by decide)) ?_
  exact accept_ite_none (hstops.head_ne (by decide)) (.pure he)

/-- A call may stand where an operation of any level may. -/
theorem reads_of_leadsCall (hts : Begins startsCall ts) (h : LeadsCall limit e ts)
    (hi : i ≤ levels.length) : PhraseReads limit (.operation i e) ts := by
  obtain ⟨n, hn⟩ := Nat.exists_eq_add_of_le hi
  induction n generalizing i with
  | zero =>
    obtain rfl : i = levels.length := hn.symm
    exact reads_tightest hts h
  | succ n ih => exact reads_tighter (by omega) (ih (by omega) (by omega))

theorem alike_make (hlevel : levels[i]? = some level) {id id' : Nat} {left left' right right' : Expr}
    {operator : Token} (hleft : left'.Alike left) (hright : right'.Alike right) :
    (level.make id' left' operator right').Alike (level.make id left operator right) := by
  unfold Expr.Alike at *
  rcases make_eq hlevel with h | h <;> rw [h] <;> simp [Expr.relabel, hleft, hright]

/-- What `primary` reads leads a call. -/
theorem leadsCall_of_primary (h : ∀ {rounds rest}, 4 * ts.length ≤ rounds →
      Takes (primary (expression limit rounds)) ts rest fun e' => e'.Alike e) :
    LeadsCall limit e ts := by
  intro rounds us rest post hrounds hnext
  exact Takes.bind (h hrounds) fun e' he => hnext e' rounds he (Nat.le_add_right _ _)

theorem leadsCall_var (id : Nat) {name : Token} (hname : name.kind = .identifier) :
    LeadsCall limit (.var id name) [name] := by
  refine leadsCall_of_primary fun {rounds rest} _ => peek_bind ?_
  rw [List.cons_append, List.head?_cons, Option.map_some, hname]
  exact advance_bind (.node fun _ => rfl)

theorem leadsCall_get (id : Nat) {dot name : Token} (h : LeadsCall limit e ts)
    (hdot : dot.kind = .dot) (hname : name.kind = .identifier) :
    LeadsCall limit (.get id e name) (ts ++ [dot, name]) := by
  intro rounds us rest post hrounds hnext
  simp only [List.length_append, List.length_cons, List.length_nil] at hrounds hnext
  rw [List.append_assoc]
  refine h (by omega) fun e' rounds' he hle => ?_
  obtain ⟨rounds', rfl⟩ : ∃ k, rounds' = k + 1 := Nat.exists_eq_add_one.2 (by omega)
  refine accept_ite_none ?_ (accept_ite_some hdot (expect_bind hname (node_bind fun id' => ?_)))
  · rintro _ ⟨⟩ hparen
    rw [hdot] at hparen
    cases hparen
  · refine hnext _ rounds' ?_ (by omega)
    unfold Expr.Alike at *
    simp [Expr.relabel, he]

theorem leadsCall_call (id : Nat) {args : List Expr} {us : List Token} {left paren : Token}
    (h : LeadsCall limit e ts) (hleft : left.kind = .leftParen)
    (hargs : ReadsArguments limit args us) (hparen : paren.kind = .rightParen) :
    LeadsCall limit (.call id e paren args) (ts ++ left :: (us ++ [paren])) := by
  intro rounds vs rest post hrounds hnext
  simp only [List.length_append, List.length_cons, List.length_nil] at hrounds hnext
  rw [List.append_assoc, List.cons_append, List.append_assoc]
  refine h (by omega) fun e' rounds' he hle => ?_
  obtain ⟨rounds', rfl⟩ : ∃ k, rounds' = k + 1 := Nat.exists_eq_add_one.2 (by omega)
  refine accept_ite_some hleft ?_
  refine Takes.bind (hargs (by omega) (by omega) (next_cons hparen _)) fun args' hargs' => ?_
  refine expect_bind hparen (node_bind fun id' => hnext _ rounds' ?_ (by omega))
  unfold Expr.Alike Expr.AlikeEach at *
  simp [Expr.relabel, he, hargs']

/-- An operation with signs in front of it. -/
theorem reads_unary (id : Nat) {operator : Token} (hsign : IsSign operator.kind)
    (h : ReadsOperation limit levels.length e ts) :
    PhraseReads limit (.operation levels.length (.unary id operator e)) (operator :: ts) := by
  refine ⟨?_, fun level hlevel => absurd (lt_of_level hlevel) (Nat.lt_irrefl _)⟩
  intro rounds rest hrounds hstops
  rw [List.length_cons] at hrounds
  obtain ⟨rounds, rfl⟩ : ∃ k, rounds = k + 1 := Nat.exists_eq_add_one.2 (by omega)
  show Takes (unary limit (rounds + 1)) (operator :: ts) rest _
  have hright : Takes (unary limit rounds) ts rest fun e' => e'.Alike e := h (by omega) hstops
  refine takeIf_bind_some (decide_eq_true hsign) (hright.bind_node fun e' id' he => ?_)
  unfold Expr.Alike at *
  simp [Expr.relabel, he]

theorem leads_joined (id : Nat) (hlevel : levels[i]? = some level) {left right : Expr}
    {operator : Token} {us : List Token} (hleft : LeadsOperation limit i level left ts)
    (hoperator : operator.kind ∈ level.operators) (hright : ReadsOperation limit (i + 1) right us) :
    LeadsOperation limit i level (level.make id left operator right) (ts ++ operator :: us) := by
  intro rounds vs rest post hrounds hstops hnext
  simp only [List.length_append, List.length_cons] at hrounds hnext
  have hbinding : binding operator.kind < i + 3 := by
    rw [(mem_operators_iff hlevel).1 hoperator]
    exact Nat.lt_succ_self _
  rw [List.append_assoc]
  refine hleft (by omega) (stops_cons rfl hbinding _) fun left' rounds' hleft' hle => ?_
  obtain ⟨rounds', rfl⟩ : ∃ k, rounds' = k + 1 := Nat.exists_eq_add_one.2 (by omega)
  refine takeIf_bind_some (by simpa using hoperator) ?_
  refine Takes.bind (hright (by omega) hstops) fun right' hright' => node_bind fun id' => ?_
  exact hnext _ rounds' (alike_make hlevel hleft' hright') (by omega)

theorem readsExpression_loosest (h : ReadsOperation limit 0 e ts) : ReadsExpression limit e ts := by
  intro rounds rest hrounds hstops
  obtain ⟨rounds, rfl⟩ : ∃ k, rounds = k + 1 := Nat.exists_eq_add_one.2 (by omega)
  rw [← List.append_nil ts]
  refine Takes.bind (h (by omega) (hstops.mono (by decide))) fun e' he => ?_
  exact accept_bind_none (hstops.head_ne (by decide)) (.pure he)

/-- What is assigned to a target. -/
theorem readsExpression_assignment {target value : Expr} {equals : Token} {us : List Token}
    (htarget : LeadsCall limit target ts) (hts : Begins startsCall ts)
    (hequals : equals.kind = .equal) (hvalue : ReadsExpression limit value us)
    (hassign : ∀ {target' value' rest}, target'.Alike target → value'.Alike value →
      Takes (assignTo target' equals value') [] rest fun e' => e'.Alike e) :
    ReadsExpression limit e (ts ++ equals :: us) := by
  intro rounds rest hrounds hstops
  simp only [List.length_append, List.length_cons] at hrounds
  obtain ⟨rounds, rfl⟩ : ∃ k, rounds = k + 1 := Nat.exists_eq_add_one.2 (by omega)
  have htarget : ReadsOperation limit 0 target ts :=
    (reads_of_leadsCall hts htarget (Nat.zero_le _)).1
  refine Takes.bind (htarget (by omega) (stops_cons hequals (by decide) _)) fun target' ht => ?_
  refine accept_bind_some hequals ?_
  rw [← List.append_nil us]
  exact Takes.bind (hvalue (by omega) hstops) fun value' hv => hassign ht hv

theorem assignTo_var {id : Nat} {name equals : Token} {value target' value' : Expr}
    {rest : List Token} (ht : target'.Alike (.var 0 name)) (hv : value'.Alike value) :
    Takes (assignTo target' equals value') [] rest fun e' => e'.Alike (.assign id name value) := by
  unfold Expr.Alike at *
  cases target' <;> simp [Expr.relabel] at ht
  show Takes (node (.assign · _ value')) [] rest _
  refine .node fun id' => ?_
  simp [Expr.relabel, hv, ht]

theorem assignTo_get {id : Nat} {name equals : Token} {object value target' value' : Expr}
    {rest : List Token} (ht : target'.Alike (.get 0 object name)) (hv : value'.Alike value) :
    Takes (assignTo target' equals value') [] rest
      fun e' => e'.Alike (.set id object name value) := by
  unfold Expr.Alike at *
  cases target' <;> simp [Expr.relabel] at ht
  show Takes (node (.set · _ _ value')) [] rest _
  refine .node fun id' => ?_
  simp [Expr.relabel, hv, ht]

/-- All phrases are read. -/
theorem phrases {ph : Phrase} (h : ph.Written limit ts) : PhraseReads limit ph ts := by
  induction h with
  | @literal id t value hvalue =>
    refine leadsCall_of_primary fun {rounds rest} _ => peek_bind ?_
    have hnode : Takes (do let _ ← advance; node (.literal · value)) [t] rest
        fun e' => e'.Alike (.literal id value) :=
      advance_bind (.node fun _ => rfl)
    rw [List.cons_append, List.head?_cons, Option.map_some]
    cases hk : t.kind <;> rw [hk] at hvalue <;> cases hvalue <;> exact hnode
  | var id hname => exact leadsCall_var id hname
  | this id hkeyword =>
    refine leadsCall_of_primary fun {rounds rest} _ => peek_bind ?_
    rw [List.cons_append, List.head?_cons, Option.map_some, hkeyword]
    exact advance_bind (.node fun _ => rfl)
  | super id hkeyword hdot hmethod =>
    refine leadsCall_of_primary fun {rounds rest} _ => peek_bind ?_
    rw [List.cons_append, List.head?_cons, Option.map_some, hkeyword]
    exact advance_bind (expect_bind hdot (expect_bind hmethod (.node fun _ => rfl)))
  | grouping id hleft _ hright ih =>
    refine leadsCall_of_primary fun {rounds rest} hrounds => peek_bind ?_
    rw [List.length_cons, List.length_append, List.length_singleton] at hrounds
    rw [List.cons_append, List.head?_cons, Option.map_some, hleft]
    refine advance_bind (Takes.bind (ih (by omega) (stops_cons hright (by decide) _))
      fun inner' hinner => expect_bind hright (.node fun _ => ?_))
    unfold Expr.Alike at *
    simp [Expr.relabel, hinner]
  | call id _ hleft _ hparen ihcallee ihargs => exact leadsCall_call id ihcallee hleft ihargs hparen
  | get id _ hdot hname ih => exact leadsCall_get id ih hdot hname
  | tightest h ih => exact reads_tightest h.leads ih
  | unary id hsign _ ih => exact reads_unary id hsign ih.1
  | tighter hi _ ih => exact reads_tighter hi ih
  | joined id hlevel _ hoperator _ ihleft ihright =>
    exact reads_of_leads hlevel
      (leads_joined id hlevel (ihleft.2 _ hlevel) hoperator ihright.1)
  | loosest _ ih => exact readsExpression_loosest ih.1
  | assign id hname hequals _ ih =>
    exact readsExpression_assignment (leadsCall_var 0 hname) (.cons (by rw [hname]; rfl) _) hequals ih
      assignTo_var
  | @set id object value dot name equals ts us hobject hdot hname hequals _ ihobject ihvalue =>
    have hts : ts ++ dot :: name :: equals :: us = (ts ++ [dot, name]) ++ equals :: us := by simp
    show ReadsExpression limit (.set id object name value) _
    rw [hts]
    exact readsExpression_assignment (leadsCall_get 0 ihobject hdot hname)
      (hobject.leads.append _) hequals ihvalue assignTo_get
  | entry h ih =>
    intro rounds rounds' count rest hrounds hrounds' hcount hrest
    have hpos := (begins_expression h).length_pos
    obtain ⟨rounds', rfl⟩ : ∃ k, rounds' = k + 1 := Nat.exists_eq_add_one.2 (by omega)
    refine (listed_one hcount hrest (ih hrounds (hrest.stops (by decide)))).conseq ?_
    rintro _ ⟨e', rfl, he⟩
    unfold Expr.Alike at he
    simp [Expr.AlikeEach, Expr.relabelEach, he]
  | entries h hcomma _ ih ihs =>
    intro rounds rounds' count rest hrounds hrounds' hcount hrest
    simp only [List.length_append, List.length_cons] at hrounds hrounds' hcount
    obtain ⟨rounds', rfl⟩ : ∃ k, rounds' = k + 1 := Nat.exists_eq_add_one.2 (by omega)
    have hcount₁ : limit.Allows (count + 1) := fun hs => Nat.le_trans (by omega) (hcount hs)
    rw [Nat.add_comm (List.length _), ← Nat.add_assoc] at hcount
    refine (listed_more hcount₁ hcomma (ih (by omega) (stops_cons hcomma (by decide) _))
      (ihs (by omega) (by omega) hcount hrest)).conseq ?_
    rintro _ ⟨e', es', rfl, he, hes⟩
    unfold Expr.Alike at he
    unfold Expr.AlikeEach at *
    simp [Expr.relabelEach, he, hes]
  | noArguments =>
    intro rounds rounds' rest _ _ hrest
    exact (listedOrNone_none hrest).conseq fun es' hes => hes ▸ rfl
  | arguments h hcount ih =>
    intro rounds rounds' rest hrounds hrounds' hrest
    have hts : Begins startsExpression _ := h.leads
    refine listedOrNone_some ((hts.append rest).head_ne rfl) (ih hrounds hrounds' ?_ hrest)
    rwa [Nat.zero_add]

end Takes

end Parser

end Lox
