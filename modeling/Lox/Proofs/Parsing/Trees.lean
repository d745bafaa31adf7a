import Lox.Program.Parser
import Lox.Proofs.Parsing.Makes

/-!
The trees that the grammar makes: they are proper, and their expressions have numbers of their own,
each from the number at which the reading started up to the one at which it ended, and greater than
the numbers inside it. One lemma for each
rule of the grammar, given those that it refers to.
-/

namespace Lox

/-- The expression is proper and has numbers from `n` on and below `n'`, which rise outward. -/
structure Expr.Made (n n' : Nat) (e : Expr) : Prop where
  proper : e.Proper
  rising : e.Rising
  numbered : Numbered n n' e.ids

structure Expr.MadeEach (n n' : Nat) (es : List Expr) : Prop where
  proper : Expr.ProperEach es
  rising : Expr.RisingEach es
  numbered : Numbered n n' (Expr.idsEach es)

structure Expr.MadeOption (n n' : Nat) (e : Option Expr) : Prop where
  proper : Expr.ProperOption e
  rising : Expr.RisingOption e
  numbered : Numbered n n' (Expr.idsOption e)

structure Stmt.Made (n n' : Nat) (s : Stmt) : Prop where
  proper : s.Proper
  rising : s.Rising
  numbered : Numbered n n' s.ids

/-- The statement declares nothing. -/
structure Stmt.MadeInner (n n' : Nat) (s : Stmt) : Prop extends Stmt.Made n n' s where
  declares : s.declares = false

structure Stmt.MadeEach (n n' : Nat) (body : List Stmt) : Prop where
  proper : Stmt.ProperEach body
  rising : Stmt.RisingEach body
  numbered : Numbered n n' (Stmt.idsEach body)

structure Stmt.MadeOption (n n' : Nat) (s? : Option Stmt) : Prop where
  proper : ∀ s, s? = some s → s.Proper
  rising : Stmt.RisingEach s?.toList
  numbered : Numbered n n' (Stmt.idsEach s?.toList)

structure Routine.Made (n n' : Nat) (r : Routine) : Prop where
  proper : r.Proper
  rising : r.Rising
  numbered : Numbered n n' r.ids

structure Routine.MadeEach (n n' : Nat) (rs : List Routine) : Prop where
  proper : Routine.ProperEach rs
  rising : Routine.RisingEach rs
  numbered : Numbered n n' (Routine.idsEach rs)

namespace Parser

/-! ### Expressions -/

/-- The operators of a level join two expressions. -/
def Level.Joins (level : Level) : Prop :=
  ∀ id left operator right, ((level.make id left operator right).Proper
      ↔ left.Proper ∧ right.Proper)
    ∧ ((level.make id left operator right).Rising
      ↔ (∀ i ∈ left.ids ++ right.ids, i < id) ∧ left.Rising ∧ right.Rising)
    ∧ (level.make id left operator right).ids = id :: (left.ids ++ right.ids)

theorem joins_of_mem_levels {level : Level} (h : level ∈ levels) : level.Joins := by
  intro id left operator right
  simp only [levels, List.mem_cons, List.not_mem_nil, or_false] at h
  rcases h with rfl | rfl | rfl | rfl | rfl | rfl <;> simp [Expr.Proper, Expr.Rising, Expr.ids]

namespace Makes

variable {n n₁ n₂ : Nat} {limit : Limit}

theorem node_of (make : Nat → Expr) {m : Nat} (h : (make n).Made m (n + 1)) :
    Makes n (Parser.node make) (Expr.Made m) := by
  refine (Makes.node make).conseq ?_
  rintro n' e - ⟨rfl, rfl⟩
  exact h

protected theorem operations {level : Level} (hlevel : level.Joins) {operand : Reading Expr}
    (hoperand : ∀ n, Makes n operand (Expr.Made n)) {left : Expr} (rounds : Nat)
    (hleft : left.Made n n₁) (hle : n ≤ n₁) :
    Makes n₁ (operations level operand left rounds) (Expr.Made n) := by
  induction rounds generalizing left n₁ with
  | zero => exact .outOfRounds
  | succ rounds ih =>
    refine (Makes.takeIf _).skip fun t? _ => ?_
    cases t? with
    | none => exact .pure hleft
    | some operator =>
      refine (hoperand n₁).bind fun n₂ right hle' hright => ?_
      obtain ⟨hproper, hrising, hids⟩ := hlevel n₂ left operator right
      have hinside := hleft.numbered.append hright.numbered hle hle'
      have hjoined : (level.make n₂ left operator right).Made n (n₂ + 1) :=
        ⟨hproper.2 ⟨hleft.proper, hright.proper⟩,
          hrising.2 ⟨hinside.below, hleft.rising, hright.rising⟩,
          hids ▸ hinside.cons (Nat.le_trans hle hle')⟩
      refine (node_of (level.make · left operator right) hjoined).bind fun n₃ joined hle'' hj => ?_
      exact ih hj (by omega)

protected theorem operation {unary : Reading Expr} (hunary : ∀ n, Makes n unary (Expr.Made n))
    (rounds : Nat) {ls : List Level} (hls : ∀ level ∈ ls, level.Joins) (n : Nat) :
    Makes n (operation unary rounds ls) (Expr.Made n) := by
  induction ls generalizing n with
  | nil => exact hunary n
  | cons level tighter ih =>
    have ih := ih fun l hl => hls l (List.mem_cons_of_mem _ hl)
    refine (ih n).bind fun n₁ left hle hleft => ?_
    exact Makes.operations (hls level List.mem_cons_self) ih rounds hleft hle

protected theorem accesses {argument : Reading Expr} (hargument : ∀ n, Makes n argument (Expr.Made n))
    {left : Expr} (rounds : Nat) (hleft : left.Made n n₁) (hle : n ≤ n₁) :
    Makes n₁ (accesses limit argument left rounds) (Expr.Made n) := by
  induction rounds generalizing left n₁ with
  | zero => exact .outOfRounds
  | succ rounds ih =>
    refine (Makes.accept _).skip fun t? _ => ?_
    split
    · have harguments : Makes n₁ (listedOrNone limit .arguments argument rounds)
          (Expr.MadeEach n₁) :=
        Makes.listedOrNone limit .arguments hargument (fun n => ⟨trivial, trivial, .nil n n⟩)
          (fun hle hle' ha has => ⟨⟨ha.proper, has.proper⟩, ⟨ha.rising, has.rising⟩,
            ha.numbered.append has.numbered hle hle'⟩) rounds n₁
      refine harguments.bind fun n₂ arguments hle' hargs => ?_
      refine (Makes.expect _ _).skip fun paren _ => ?_
      have hinside := hleft.numbered.append hargs.numbered hle hle'
      have hcall : (Expr.call n₂ left paren arguments).Made n (n₂ + 1) :=
        ⟨⟨hleft.proper, hargs.proper⟩, ⟨hinside.below, hleft.rising, hargs.rising⟩,
          hinside.cons (Nat.le_trans hle hle')⟩
      refine (node_of (.call · left paren arguments) hcall).bind fun n₃ call hle'' hc => ?_
      exact ih hc (by omega)
    · refine (Makes.accept _).skip fun t? _ => ?_
      split
      · refine (Makes.expect _ _).skip fun name _ => ?_
        have hget : (Expr.get n₁ left name).Made n (n₁ + 1) :=
          ⟨hleft.proper, ⟨hleft.numbered.below, hleft.rising⟩, hleft.numbered.cons hle⟩
        refine (node_of (.get · left name) hget).bind fun n₂ property hle' hp => ?_
        exact ih hp (by omega)
      · exact .pure hleft

protected theorem assignTo {target value : Expr} (equals : Token) (htarget : target.Made n n₁)
    (hvalue : value.Made n₁ n₂) (hle : n ≤ n₁) (hle' : n₁ ≤ n₂) :
    Makes n₂ (assignTo target equals value) (Expr.Made n) := by
  unfold Parser.assignTo
  split
  · exact node_of (.assign · _ value) ⟨⟨htarget.proper, hvalue.proper⟩,
      ⟨hvalue.numbered.below, hvalue.rising⟩,
      (hvalue.numbered.mono hle (Nat.le_refl _)).cons (Nat.le_trans hle hle')⟩
  · rename_i id object name
    have hobject : Numbered n n₁ object.ids :=
      ⟨htarget.numbered.nodup.of_cons,
        fun i hi => htarget.numbered.bounds i (List.mem_cons_of_mem _ hi)⟩
    have hinside := hobject.append hvalue.numbered hle hle'
    exact node_of (.set · object name value) ⟨⟨htarget.proper, hvalue.proper⟩,
      ⟨hinside.below, htarget.rising.2, hvalue.rising⟩, hinside.cons (Nat.le_trans hle hle')⟩
  · refine (Makes.report _ _).bind fun n' _ _ hn => .pure ?_
    subst hn
    exact ⟨htarget.proper, htarget.rising, htarget.numbered.mono (Nat.le_refl _) hle'⟩

/-- An expression without others in it. -/
theorem leaf (make : Nat → Expr) (hproper : (make n).Proper) (hrising : (make n).Rising)
    (hids : (make n).ids = [n]) : Makes n (Parser.node make) (Expr.Made n) :=
  node_of make ⟨hproper, hrising, hids ▸ .single n⟩

protected theorem primary {expression : Reading Expr}
    (h : ∀ n, Makes n expression (Expr.Made n)) (n : Nat) :
    Makes n (primary expression) (Expr.Made n) := by
  rintro s rfl hs
  have hpeek : ∀ f : Option Token → Reading Expr, MakesAt s (f s.rest.head?) (Expr.Made s.nextId) →
      MakesAt s (Parser.peek? >>= f) (Expr.Made s.nextId) := fun f h => h
  refine hpeek _ ?_
  cases hr : s.rest with
  | nil => exact Makes.fail s rfl hs
  | cons t rest =>
    obtain ⟨hname, hthis, hsuper⟩ := hs t (by simp [hr])
    rw [List.head?_cons, Option.map_some]
    split
    · exact advance_bind hr hs (leaf _ trivial trivial rfl)
    · exact advance_bind hr hs (leaf _ trivial trivial rfl)
    · exact advance_bind hr hs (leaf _ trivial trivial rfl)
    · exact advance_bind hr hs (leaf _ trivial trivial rfl)
    · exact advance_bind hr hs (leaf _ trivial trivial rfl)
    · rename_i hk
      exact advance_bind hr hs (leaf _ (hthis (Option.some.inj hk)) trivial rfl)
    · rename_i hk
      refine advance_bind hr hs ((Makes.expect _ _).skip fun _ _ =>
        (Makes.expect _ _).skip fun method _ => ?_)
      exact leaf _ (hsuper (Option.some.inj hk)) trivial rfl
    · rename_i hk
      exact advance_bind hr hs (leaf _ (hname (Option.some.inj hk)) trivial rfl)
    · refine advance_bind hr hs ((h _).bind fun n₁ inner hle hinner => ?_)
      refine (Makes.expect _ _).skip fun _ _ => ?_
      exact node_of (.grouping · inner)
        ⟨hinner.proper, ⟨hinner.numbered.below, hinner.rising⟩, hinner.numbered.cons hle⟩
    · exact Makes.fail s rfl hs

/-- All expressions are made. -/
theorem expressions (limit : Limit) (rounds : Nat) :
    (∀ n, Makes n (expression limit rounds) (Expr.Made n))
      ∧ (∀ n, Makes n (unary limit rounds) (Expr.Made n))
      ∧ ∀ n, Makes n (call limit rounds) (Expr.Made n) := by
  induction rounds with
  | zero => exact ⟨fun _ => .outOfRounds, fun _ => .outOfRounds, fun _ => .outOfRounds⟩
  | succ rounds ih =>
    obtain ⟨hexpression, hunary, hcall⟩ := ih
    refine ⟨?_, ?_, ?_⟩
    · intro n
      refine (Makes.operation hunary rounds (fun _ => joins_of_mem_levels) n).bind
        fun n₁ target hle htarget => ?_
      refine (Makes.accept _).skip fun t? _ => ?_
      cases t? with
      | none => exact .pure htarget
      | some equals =>
        exact (hexpression n₁).bind fun n₂ value hle' hvalue =>
          Makes.assignTo equals htarget hvalue hle hle'
    · intro n
      refine (Makes.takeIf _).skip fun t? _ => ?_
      cases t? with
      | none => exact hcall n
      | some operator =>
        refine (hunary n).bind fun n₁ right hle hright => ?_
        exact node_of (.unary · operator right)
          ⟨hright.proper, ⟨hright.numbered.below, hright.rising⟩, hright.numbered.cons hle⟩
    · intro n
      refine (Makes.primary hexpression n).bind fun n₁ left hle hleft => ?_
      exact Makes.accesses hexpression rounds hleft hle

/-! ### Statements -/

theorem option {expression : Reading Expr} (h : ∀ n, Makes n expression (Expr.Made n)) (k : Kind)
    (n : Nat) : Makes n (unlessNext k expression) (Expr.MadeOption n) := by
  refine (Makes.unlessNext (h n)).conseq fun n' e? _ hpost => ?_
  rcases hpost with ⟨rfl, rfl⟩ | ⟨e, rfl, he⟩
  · exact ⟨trivial, trivial, .nil _ _⟩
  · exact ⟨he.proper, he.rising, he.numbered⟩

theorem some_made {n : Nat} {p : Reading Stmt} (hp : Makes n p (Stmt.Made n)) :
    Makes n (some <$> p) (Stmt.MadeOption n) := by
  refine map (hp.conseq fun n' s _ hs => ⟨?_, ⟨hs.rising, trivial⟩, ?_⟩)
  · rintro _ ⟨⟩
    exact hs.proper
  · simpa [Stmt.idsEach] using hs.numbered

/-- Declarations one after the other, without those that could not be read. -/
theorem declarations {declaration : Reading (Option Stmt)}
    (h : ∀ n, Makes n declaration fun n' s? => ∀ s, s? = some s → s.Made n n')
    (closes : Kind → Bool) (rounds n : Nat) :
    Makes n (upTo closes declaration rounds) fun n' body =>
      Stmt.MadeEach n n' body.reduceOption := by
  refine @Makes.upTo _ _ _ (fun n n' body => Stmt.MadeEach n n' body.reduceOption) closes h
    (fun n => ⟨trivial, trivial, .nil n n⟩) (fun {n n₁ n' s? body} hle hle' hs hbody => ?_) rounds n
  cases s? with
  | none => exact ⟨hbody.proper, hbody.rising, hbody.numbered.mono hle (Nat.le_refl _)⟩
  | some s =>
    have hs := hs s rfl
    exact ⟨⟨hs.proper, hbody.proper⟩, ⟨hs.rising, hbody.rising⟩,
      hs.numbered.append hbody.numbered hle hle'⟩

protected theorem block {declaration : Reading (Option Stmt)}
    (h : ∀ n, Makes n declaration fun n' s? => ∀ s, s? = some s → s.Made n n') (rounds n : Nat) :
    Makes n (block declaration rounds) (Stmt.MadeEach n) := by
  refine (declarations h _ rounds n).bind fun n₁ body _ hbody => ?_
  exact (Makes.expect _ _).skip fun _ _ => .pure hbody

protected theorem routine {block : Reading (List Stmt)} (h : ∀ n, Makes n block (Stmt.MadeEach n))
    (limit : Limit) (rounds : Nat) (kind : RoutineKind) (n : Nat) :
    Makes n (routine limit block rounds kind) (Routine.Made n) := by
  refine (Makes.expect_name _).skip fun name hname => (Makes.expect _ _).skip fun _ _ => ?_
  have hparams : Makes n (listedOrNone limit .parameters (expect .identifier .parameterName) rounds)
      fun n' ts => n' = n ∧ ∀ t ∈ ts, t.IsName :=
    @Makes.listedOrNone _ _ (fun n n' (t : Token) => n' = n ∧ t.IsName)
      (fun n n' ts => n' = n ∧ ∀ t ∈ ts, t.IsName) limit .parameters
      (fun _ => Makes.expect_name .parameterName) (fun _ => ⟨rfl, by simp⟩) (fun _ _ ht hts =>
        ⟨hts.1.trans ht.1, List.forall_mem_cons.2 ⟨ht.2, hts.2⟩⟩) rounds n
  refine hparams.skip fun params hparams => ?_
  refine (Makes.expect _ _).skip fun _ _ => (Makes.expect _ _).skip fun _ _ => ?_
  refine (h n).bind fun n₁ body _ hbody => ?_
  exact .pure ⟨⟨hname, hparams, hbody.proper⟩, hbody.rising, hbody.numbered⟩

protected theorem classDecl {method : Reading Routine} (h : ∀ n, Makes n method (Routine.Made n))
    (rounds n : Nat) : Makes n (classDecl method rounds) (Stmt.Made n) := by
  refine (Makes.expect_name _).skip fun name hname => ?_
  have hrest : ∀ {n₁ : Nat} {superclass : Option Expr}, n ≤ n₁ →
      Expr.ProperSuperclass superclass → Expr.RisingOption superclass →
      Numbered n n₁ (Expr.idsOption superclass) →
      Makes n₁ (do
        let _ ← expect .leftBrace .classBodyStart
        let methods ← upTo (· = .rightBrace) method rounds
        let _ ← expect .rightBrace .classBodyEnd
        return .classDecl name superclass methods) (Stmt.Made n) := by
    intro n₁ superclass hle hproper hrising hnumbered
    refine (Makes.expect _ _).skip fun _ _ => ?_
    have hmethods : Makes n₁ (upTo (· = .rightBrace) method rounds) (Routine.MadeEach n₁) :=
      Makes.upTo (· = .rightBrace) h (fun n => ⟨trivial, trivial, .nil n n⟩) (fun hle hle' hr hrs =>
        ⟨⟨hr.proper, hrs.proper⟩, ⟨hr.rising, hrs.rising⟩,
          hr.numbered.append hrs.numbered hle hle'⟩) rounds n₁
    refine hmethods.bind fun n₂ methods hle' hmethods => (Makes.expect _ _).skip fun _ _ => ?_
    exact .pure ⟨⟨hname, hproper, hmethods.proper⟩, ⟨hrising, hmethods.rising⟩,
      hnumbered.append hmethods.numbered hle hle'⟩
  refine (Makes.accept _).skip fun t? _ => ?_
  split
  · refine (Makes.expect_name _).skip fun ancestor hancestor => ?_
    have hnode : Makes n (some <$> node (.var · ancestor)) fun n' e? =>
        n' = n + 1 ∧ e? = some (.var n ancestor) :=
      map ((Makes.node _).conseq fun _ _ _ he => ⟨he.1, congrArg some he.2⟩)
    refine hnode.bind fun n₁ superclass hle he => ?_
    obtain ⟨rfl, rfl⟩ := he
    exact hrest hle ⟨n, ancestor, rfl, hancestor⟩ trivial (.single n)
  · refine (Makes.pure ⟨rfl, rfl⟩).skip fun _ he => ?_
    subst he
    exact hrest (Nat.le_refl n) trivial trivial (.nil n n)

/-- The clauses of a `for` have their numbers in the order in which they are read, except for a
condition that is missing. -/
theorem forLoop_made {initializer : Option Stmt} {e : Expr} {increment : Option Expr} {body : Stmt}
    (hi : ∀ s, initializer = some s → s.Proper) (he : e.Proper)
    (hincrement : Expr.ProperOption increment) (hbody : body.Proper ∧ body.declares = false)
    (hrising : Stmt.RisingEach initializer.toList ∧ e.Rising ∧ Expr.RisingOption increment
      ∧ body.Rising)
    (hnumbered : Numbered n n₁ (Stmt.idsEach initializer.toList
      ++ (e.ids ++ (Expr.idsOption increment ++ body.ids)))) :
    (forLoop initializer e increment body).MadeInner n n₁ := by
  have hids : (Stmt.idsEach initializer.toList
      ++ (e.ids ++ (Expr.idsOption increment ++ body.ids))).Perm
        (forLoop initializer e increment body).ids := by
    have hround : ((forLoop initializer e increment body).ids)
        = Stmt.idsEach initializer.toList ++ (e.ids ++ (body.ids ++ Expr.idsOption increment)) := by
      cases initializer <;> cases increment <;>
        simp [forLoop, Stmt.ids, Stmt.idsEach, Expr.idsOption]
    rw [hround]
    exact (List.perm_append_comm.append_left _).append_left _
  have hproper : (forLoop initializer e increment body).Proper := by
    cases initializer <;> cases increment <;>
      simp_all [forLoop, Stmt.Proper, Stmt.ProperEach, Expr.ProperOption, Stmt.declares]
  have hrising : (forLoop initializer e increment body).Rising := by
    cases initializer <;> cases increment <;>
      simp_all [forLoop, Stmt.Rising, Stmt.RisingEach, Expr.RisingOption]
  refine ⟨⟨hproper, hrising, hnumbered.perm hids⟩, ?_⟩
  cases initializer <;> cases increment <;> rfl

section

variable {expression : Reading Expr} (h : ∀ n, Makes n expression (Expr.Made n)) (n : Nat)

include h

protected theorem varDecl : Makes n (varDecl expression) (Stmt.Made n) := by
  refine (Makes.expect_name _).skip fun name hname => (Makes.accept _).skip fun t? _ => ?_
  have hrest : ∀ {n₁ : Nat} {initializer : Option Expr}, Expr.MadeOption n n₁ initializer → Makes n₁ (do
      let _ ← expect .semicolon .variableEnd
      return .varDecl name initializer) (Stmt.Made n) := by
    intro n₁ initializer hi
    exact (Makes.expect _ _).skip fun _ _ => .pure ⟨⟨hname, hi.proper⟩, hi.rising, hi.numbered⟩
  split
  · have hsome : Makes n (some <$> expression) (Expr.MadeOption n) :=
      map ((h n).conseq fun _ _ _ he => ⟨he.proper, he.rising, he.numbered⟩)
    exact hsome.bind fun _ _ _ hi => hrest hi
  · have hnone : Makes n (pure none) (Expr.MadeOption n) := .pure ⟨trivial, trivial, .nil _ _⟩
    exact hnone.bind fun _ _ _ hi => hrest hi

protected theorem expressionStatement :
    Makes n (expressionStatement expression) (Stmt.MadeInner n) := by
  refine (h n).bind fun n₁ value _ hvalue => (Makes.expect _ _).skip fun _ _ => ?_
  exact .pure ⟨⟨hvalue.proper, hvalue.rising, hvalue.numbered⟩, rfl⟩

protected theorem condition (start : Expectation) :
    Makes n (condition start expression) (Expr.Made n) := by
  refine (Makes.expect _ _).skip fun _ _ => (h n).bind fun n₁ condition _ hcondition => ?_
  exact (Makes.expect _ _).skip fun _ _ => .pure hcondition

protected theorem returnStatement (keyword : Token) :
    Makes n (returnStatement keyword expression) (Stmt.MadeInner n) := by
  refine (option h _ n).bind fun n₁ value _ hvalue => (Makes.expect _ _).skip fun _ _ => ?_
  exact .pure ⟨⟨hvalue.proper, hvalue.rising, hvalue.numbered⟩, rfl⟩

protected theorem forInitializer : Makes n (forInitializer expression) (Stmt.MadeOption n) := by
  refine (Makes.accept _).skip fun t? _ => ?_
  split
  · exact .pure ⟨by simp, trivial, .nil _ _⟩
  refine (Makes.accept _).skip fun t? _ => ?_
  split
  · exact some_made (Makes.varDecl h n)
  · exact some_made ((Makes.expressionStatement h n).conseq fun _ _ _ hs => hs.toMade)

variable {statement : Reading Stmt} (hstatement : ∀ n, Makes n statement (Stmt.MadeInner n))

include hstatement

protected theorem ifStatement : Makes n (ifStatement expression statement) (Stmt.MadeInner n) := by
  refine (Makes.condition h n _).bind fun n₁ condition hle hcondition => ?_
  refine (hstatement n₁).bind fun n₂ thenBranch hle' hthen => (Makes.accept _).skip fun t? _ => ?_
  have hnumbered := hcondition.numbered.append hthen.numbered hle hle'
  split
  · refine (hstatement n₂).bind fun n₃ elseBranch hle'' helse => .pure ?_
    refine ⟨⟨⟨hcondition.proper, ⟨hthen.proper, hthen.declares⟩, helse.proper, helse.declares⟩,
      ⟨hcondition.rising, hthen.rising, helse.rising⟩, ?_⟩, rfl⟩
    rw [Stmt.ids, ← List.append_assoc]
    exact hnumbered.append helse.numbered (Nat.le_trans hle hle') hle''
  · exact .pure ⟨⟨⟨hcondition.proper, hthen.proper, hthen.declares⟩,
      ⟨hcondition.rising, hthen.rising⟩, hnumbered⟩, rfl⟩

protected theorem whileStatement :
    Makes n (whileStatement expression statement) (Stmt.MadeInner n) := by
  refine (Makes.condition h n _).bind fun n₁ condition hle hcondition => ?_
  refine (hstatement n₁).bind fun n₂ body hle' hbody => .pure ?_
  exact ⟨⟨⟨hcondition.proper, hbody.proper, hbody.declares⟩, ⟨hcondition.rising, hbody.rising⟩,
    hcondition.numbered.append hbody.numbered hle hle'⟩, rfl⟩

protected theorem forStatement : Makes n (forStatement expression statement) (Stmt.MadeInner n) := by
  refine (Makes.expect _ _).skip fun _ _ => ?_
  refine (Makes.forInitializer h n).bind fun n₁ initializer hle hi => ?_
  refine (option h _ n₁).bind fun n₂ condition hle₁ hcondition => (Makes.expect _ _).skip fun _ _ => ?_
  refine (option h _ n₂).bind fun n₃ increment hle₂ hincrement => (Makes.expect _ _).skip fun _ _ => ?_
  refine (hstatement n₃).bind fun n₄ body hle₃ hbody => ?_
  have hround := hincrement.numbered.append hbody.numbered hle₂ hle₃
  have hle₁₄ := Nat.le_trans hle₁ (Nat.le_trans hle₂ hle₃)
  cases condition with
  | some e =>
    refine (Makes.pure ⟨rfl, rfl⟩).skip fun _ he => ?_
    subst he
    exact .pure (forLoop_made hi.proper hcondition.proper hincrement.proper
      ⟨hbody.proper, hbody.declares⟩
      ⟨hi.rising, hcondition.rising, hincrement.rising, hbody.rising⟩ (hi.numbered.append
        (hcondition.numbered.append hround hle₁ (Nat.le_trans hle₂ hle₃)) hle hle₁₄))
  | none =>
    refine (Makes.node _).bind fun n₅ e hle₄ he => ?_
    obtain ⟨rfl, rfl⟩ := he
    refine .pure (forLoop_made hi.proper trivial hincrement.proper ⟨hbody.proper, hbody.declares⟩
      ⟨hi.rising, trivial, hincrement.rising, hbody.rising⟩
      (hi.numbered.append ?_ hle (Nat.le_succ_of_le hle₁₄)))
    exact (hround.cons (Nat.le_trans hle₂ hle₃)).mono hle₁ (Nat.le_refl _)

end

/-- All declarations and statements are made. -/
theorem statements (limit : Limit) (rounds : Nat) :
    (∀ n, Makes n (declaration limit rounds) fun n' s? => ∀ s, s? = some s → s.Made n n')
      ∧ ∀ n, Makes n (statement limit rounds) (Stmt.MadeInner n) := by
  induction rounds with
  | zero => exact ⟨fun _ => .outOfRounds, fun _ => .outOfRounds⟩
  | succ rounds ih =>
    obtain ⟨hdeclaration, hstatement⟩ := ih
    have hexpression := (expressions limit rounds).1
    have hblock := Makes.block hdeclaration rounds
    refine ⟨fun n => Makes.recovering ?_, ?_⟩
    · refine (Makes.accept _).skip fun t? _ => ?_
      split
      · exact Makes.classDecl (Makes.routine hblock limit rounds .method) rounds n
      refine (Makes.accept _).skip fun t? _ => ?_
      split
      · refine map ((Makes.routine hblock limit rounds .function n).conseq fun _ r _ hr => ?_)
        exact ⟨hr.proper, hr.rising, hr.numbered⟩
      refine (Makes.accept _).skip fun t? _ => ?_
      split
      · exact Makes.varDecl hexpression n
      · exact (hstatement n).conseq fun _ _ _ hs => hs.toMade
    · intro n
      refine (Makes.accept _).skip fun t? _ => ?_
      split
      · exact Makes.forStatement hexpression n hstatement
      refine (Makes.accept _).skip fun t? _ => ?_
      split
      · exact Makes.ifStatement hexpression n hstatement
      refine (Makes.accept _).skip fun t? _ => ?_
      split
      · exact Makes.whileStatement hexpression n hstatement
      refine (Makes.accept _).skip fun t? _ => ?_
      cases t? with
      | some keyword => exact Makes.returnStatement hexpression n keyword
      | none =>
        refine (Makes.accept _).skip fun t? _ => ?_
        split
        · exact map ((hblock n).conseq fun _ body _ hb =>
            ⟨⟨hb.proper, hb.rising, hb.numbered⟩, rfl⟩)
        · exact Makes.expressionStatement hexpression n

protected theorem program (limit : Limit) (rounds n : Nat) :
    Makes n (program limit rounds) (Stmt.MadeEach n) :=
  (declarations (statements limit rounds).1 _ rounds n).bind fun _ _ _ h => .pure h

end Makes

end Parser

end Lox
