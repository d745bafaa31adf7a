import Lox.Proofs.Parsing.Relabeled
import Lox.Proofs.Parsing.Settles
import Lox.Proofs.Parsing.Tolerates

/-!
The limit on lists is about what is reported, not about what is read. With a strict and with a lenient
limit the same trees are read and the same numbers given (`Tolerates.expressions`,
`Tolerates.statements`); a strict limit reports one more fault for each entry beyond it and no other,
and of a lenient one it does not matter how great it is (`limit_only_reports`).
-/

namespace Lox

namespace Parser

namespace Tolerates

variable {max m : Nat} {what : Listing} {rounds : Nat}

/-! ### Expressions -/

section

variable {expression expression' : Reading Expr}

protected theorem operations {level : Level} (hlevel : level ∈ levels)
    (h : Adds max what Expr.listings expression expression') (before : Nat) (left : Expr) :
    Tolerates max what (before + excess max what left.listings)
      (fun e => before + excess max what e.listings)
      (operations level expression left rounds) (operations level expression' left rounds) := by
  have hmake (n : Nat) (left : Expr) (operator : Token) (right : Expr) :
      (level.make n left operator right).listings = left.listings ++ right.listings := by
    simp only [levels, List.mem_cons, List.not_mem_nil, or_false] at hlevel
    rcases hlevel with rfl | rfl | rfl | rfl | rfl | rfl <;> rfl
  induction rounds generalizing left with
  | zero => exact .outOfRounds
  | succ rounds ih =>
    refine (Tolerates.takeIf _).bind fun operator? => ?_
    cases operator? with
    | none => exact .pure rfl
    | some operator =>
      refine (h _).bind fun right => (Tolerates.node fun n => ?_).bind fun joined => ih joined
      rw [hmake, excess_append, Nat.add_assoc]

protected theorem operation {tightness : List Level} (hlevels : ∀ level ∈ tightness, level ∈ levels)
    (h : Adds max what Expr.listings expression expression') :
    Adds max what Expr.listings (operation expression rounds tightness)
      (operation expression' rounds tightness) := by
  induction tightness with
  | nil => exact h
  | cons level tighter ih =>
    have htighter := ih fun level' hl => hlevels level' (List.mem_cons_of_mem _ hl)
    intro before
    exact (htighter before).bind fun left =>
      .operations (hlevels level List.mem_cons_self) htighter before left

protected theorem accesses (h : Adds max what Expr.listings expression expression') (before : Nat)
    (left : Expr) :
    Tolerates max what (before + excess max what left.listings)
      (fun e => before + excess max what e.listings)
      (accesses ⟨max, true⟩ expression left rounds)
      (accesses ⟨m, false⟩ expression' left rounds) := by
  induction rounds generalizing left with
  | zero => exact .outOfRounds
  | succ rounds ih =>
    refine accept_ite ?_ (accept_ite ?_ (.pure rfl))
    · refine (Tolerates.listedOrNone h rounds _).bind fun args => (Tolerates.expect _ _).bind
        fun paren => (Tolerates.node fun n => ?_).bind fun call => ih call
      rw [Expr.listings, List.append_assoc, Expr.listingsEach_eq_flatMap, excess_append _ _ left.listings,
        Nat.add_assoc]
    · refine (Tolerates.expect _ _).bind fun name => (Tolerates.node fun n => ?_).bind
        fun property => ih property
      rfl

protected theorem assignTo (before : Nat) (target : Expr) (equals : Token) (value : Expr) :
    Tolerates max what
      (before + excess max what target.listings + excess max what value.listings)
      (fun e => before + excess max what e.listings)
      (assignTo target equals value) (assignTo target equals value) := by
  cases target with
  | var _ name =>
    show Tolerates max what _ _ (node (.assign · name value)) (node (.assign · name value))
    exact .node fun n => by simp [Expr.listings]
  | get _ object name =>
    show Tolerates max what _ _ (node (.set · object name value)) (node (.set · object name value))
    exact .node fun n => by simp [Expr.listings, Nat.add_assoc]
  -- the value is dropped, which is a fault of its own
  | _ => exact (Tolerates.report equals rfl).bind fun _ => .pure rfl

protected theorem primaryFrom (h : Adds max what Expr.listings expression expression') (t : Token) :
    Adds max what Expr.listings (primaryFrom expression t) (primaryFrom expression' t) := by
  intro before
  unfold Parser.primaryFrom
  split
  case h_7 =>
    exact (Tolerates.expect _ _).bind fun _ => (Tolerates.expect _ _).bind fun _ => .node fun n => rfl
  case h_9 =>
    exact (h before).bind fun inner => (Tolerates.expect _ _).bind fun _ => .node fun n => rfl
  case h_10 => exact .fail _
  all_goals exact .node fun n => rfl

protected theorem primary (h : Adds max what Expr.listings expression expression') :
    Adds max what Expr.listings (primary expression) (primary expression') := by
  intro before
  rw [primary_eq, primary_eq]
  refine (Tolerates.takeIf _).bind fun t? => ?_
  cases t? with
  | none => exact .fail _
  | some t => exact .primaryFrom h t before

end

/-- All expressions are read with both limits. -/
theorem expressions (max m : Nat) (what : Listing) (rounds : Nat) :
    Adds max what Expr.listings (expression ⟨max, true⟩ rounds) (expression ⟨m, false⟩ rounds)
      ∧ Adds max what Expr.listings (unary ⟨max, true⟩ rounds) (unary ⟨m, false⟩ rounds)
      ∧ Adds max what Expr.listings (call ⟨max, true⟩ rounds) (call ⟨m, false⟩ rounds) := by
  induction rounds with
  | zero => exact ⟨fun _ => .outOfRounds, fun _ => .outOfRounds, fun _ => .outOfRounds⟩
  | succ rounds ih =>
    obtain ⟨hexpression, hunary, hcall⟩ := ih
    refine ⟨fun before => ?_, fun before => ?_, fun before => ?_⟩
    · refine (Tolerates.operation (fun _ hl => hl) hunary before).bind fun target => ?_
      refine (Tolerates.accept .equal).bind fun equals? => ?_
      cases equals? with
      | none => exact .pure rfl
      | some equals =>
        exact (hexpression _).bind fun value => .assignTo before target equals value
    · refine (Tolerates.takeIf _).bind fun operator? => ?_
      cases operator? with
      | none => exact hcall before
      | some operator => exact (hunary before).bind fun right => .node fun n => rfl
    · exact (Tolerates.primary hexpression before).bind fun left =>
        .accesses hexpression before left

/-! ### Statements -/

section

variable {expression expression' : Reading Expr} {statement statement' : Reading Stmt}

protected theorem block {declaration declaration' : Reading (Option Stmt)}
    (h : Adds max what Stmt.listingsOption declaration declaration') :
    Adds max what Stmt.listingsEach (block declaration rounds) (block declaration' rounds) := by
  intro before
  refine (Tolerates.upTo h rounds before).bind fun body => (Tolerates.expect _ _).bind fun _ =>
    .pure ?_
  rw [Stmt.flatMap_listingsOption]

protected theorem routine {block block' : Reading (List Stmt)}
    (h : Adds max what Stmt.listingsEach block block') (kind : RoutineKind) :
    Adds max what Routine.listings (routine ⟨max, true⟩ block rounds kind)
      (routine ⟨m, false⟩ block' rounds kind) := by
  intro before
  have hparameter : Adds max what (fun _ => []) (expect .identifier .parameterName)
    (expect .identifier .parameterName) := fun _ => .expect _ _
  refine (Tolerates.expect _ _).bind fun name => (Tolerates.expect _ _).bind fun _ =>
    (Tolerates.listedOrNone hparameter rounds _).bind fun params => (Tolerates.expect _ _).bind
      fun _ => (Tolerates.expect _ _).bind fun _ => (h _).bind fun body => .pure ?_
  have hnone : params.flatMap (fun _ => ([] : List (Listing × Nat))) = [] :=
    List.flatMap_eq_nil_iff.2 fun _ _ => rfl
  simp [hnone, Routine.listings, Nat.add_assoc]

protected theorem classDecl {method method' : Reading Routine}
    (h : Adds max what Routine.listings method method') :
    Adds max what Stmt.listings (classDecl method rounds) (classDecl method' rounds) := by
  intro before
  refine (Tolerates.expect _ _).bind fun name => ?_
  have hbody (superclass : Option Expr) :
      Tolerates max what (before + excess max what (Expr.listingsOption superclass))
        (fun s => before + excess max what s.listings)
        (do
          let _ ← expect .leftBrace .classBodyStart
          let methods ← upTo (· = .rightBrace) method rounds
          let _ ← expect .rightBrace .classBodyEnd
          return Stmt.classDecl name superclass methods)
        (do
          let _ ← expect .leftBrace .classBodyStart
          let methods ← upTo (· = .rightBrace) method' rounds
          let _ ← expect .rightBrace .classBodyEnd
          return Stmt.classDecl name superclass methods) := by
    refine (Tolerates.expect _ _).bind fun _ => (Tolerates.upTo h rounds _).bind fun methods =>
      (Tolerates.expect _ _).bind fun _ => .pure ?_
    rw [Stmt.listings, Routine.listingsEach_eq_flatMap, excess_append, Nat.add_assoc]
  refine accept_ite ((Tolerates.expect _ _).bind fun ancestor => ?_) (hbody none)
  have hnode : Tolerates max what before (fun e => before + excess max what e.listings)
      (node (.var · ancestor)) (node (.var · ancestor)) := .node fun n => rfl
  have hsuperclass : Tolerates max what before
      (fun e? => before + excess max what (Expr.listingsOption e?))
      (some <$> node (.var · ancestor)) (some <$> node (.var · ancestor)) := hnode.map fun e => rfl
  exact hsuperclass.bind hbody

protected theorem varDecl (h : Adds max what Expr.listings expression expression') :
    Adds max what Stmt.listings (varDecl expression) (varDecl expression') := by
  intro before
  refine (Tolerates.expect _ _).bind fun name => ?_
  have hend (initializer : Option Expr) :
      Tolerates max what (before + excess max what (Expr.listingsOption initializer))
        (fun s => before + excess max what s.listings)
        (expect .semicolon .variableEnd >>= fun _ => pure (Stmt.varDecl name initializer))
        (expect .semicolon .variableEnd >>= fun _ => pure (Stmt.varDecl name initializer)) :=
    (Tolerates.expect _ _).bind fun _ => .pure rfl
  have hvalue : Tolerates max what before
      (fun e? => before + excess max what (Expr.listingsOption e?))
      (some <$> expression) (some <$> expression') := (h before).map fun e => rfl
  exact accept_ite (hvalue.bind hend) (hend none)

protected theorem expressionStatement (h : Adds max what Expr.listings expression expression') :
    Adds max what Stmt.listings (expressionStatement expression)
      (expressionStatement expression') := fun before =>
  (h before).bind fun _ => (Tolerates.expect _ _).bind fun _ => .pure rfl

protected theorem condition (start : Expectation)
    (h : Adds max what Expr.listings expression expression') :
    Adds max what Expr.listings (condition start expression) (condition start expression') :=
  fun before => (Tolerates.expect _ _).bind fun _ => (h before).bind fun _ =>
    (Tolerates.expect _ _).bind fun _ => .pure rfl

protected theorem ifStatement (h : Adds max what Expr.listings expression expression')
    (hstatement : Adds max what Stmt.listings statement statement') :
    Adds max what Stmt.listings (ifStatement expression statement)
      (ifStatement expression' statement') := by
  intro before
  refine (Tolerates.condition _ h before).bind fun condition => (hstatement _).bind
    fun thenBranch => accept_ite ((hstatement _).bind fun elseBranch => .pure ?_) (.pure ?_)
  · have hlists : (Stmt.ifElse condition thenBranch elseBranch).listings
        = condition.listings ++ thenBranch.listings ++ elseBranch.listings := rfl
    rw [hlists, excess_append, excess_append]
    omega
  · have hlists : (Stmt.ifThen condition thenBranch).listings
        = condition.listings ++ thenBranch.listings := rfl
    rw [hlists, excess_append]
    omega

protected theorem whileStatement (h : Adds max what Expr.listings expression expression')
    (hstatement : Adds max what Stmt.listings statement statement') :
    Adds max what Stmt.listings (whileStatement expression statement)
      (whileStatement expression' statement') := by
  intro before
  refine (Tolerates.condition _ h before).bind fun condition => (hstatement _).bind
    fun body => .pure ?_
  have hlists : (Stmt.whileLoop condition body).listings = condition.listings ++ body.listings := rfl
  rw [hlists, excess_append]
  omega

/-- A clause that may be missing. -/
theorem clause {k : Kind} (h : Adds max what Expr.listings expression expression') :
    Adds max what Expr.listingsOption (unlessNext k expression) (unlessNext k expression') :=
  fun before => .unlessNext (h before) rfl fun _ => rfl

protected theorem returnStatement (keyword : Token)
    (h : Adds max what Expr.listings expression expression') :
    Adds max what Stmt.listings (returnStatement keyword expression)
      (returnStatement keyword expression') := fun before =>
  (clause h before).bind fun _ => (Tolerates.expect _ _).bind fun _ => .pure rfl

protected theorem forInitializer (h : Adds max what Expr.listings expression expression') :
    Adds max what Stmt.listingsOption (forInitializer expression) (forInitializer expression') := by
  intro before
  refine accept_ite (.pure rfl) (accept_ite ((Tolerates.varDecl h before).map fun s => ?_)
    ((Tolerates.expressionStatement h before).map fun s => ?_))
  all_goals simp [Stmt.listingsOption, Stmt.listingsEach]

theorem excess_forLoop (initializer : Option Stmt) (condition : Expr) (increment : Option Expr)
    (body : Stmt) :
    excess max what (forLoop initializer condition increment body).listings
      = excess max what (Stmt.listingsOption initializer) + excess max what condition.listings
        + excess max what (Expr.listingsOption increment) + excess max what body.listings := by
  cases initializer <;> cases increment <;>
    simp [forLoop, Stmt.listings, Stmt.listingsEach, Stmt.listingsOption, Expr.listingsOption] <;>
    omega

protected theorem forStatement (h : Adds max what Expr.listings expression expression')
    (hstatement : Adds max what Stmt.listings statement statement') :
    Adds max what Stmt.listings (forStatement expression statement)
      (forStatement expression' statement') := by
  intro before
  refine (Tolerates.expect _ _).bind fun _ => (Tolerates.forInitializer h before).bind
    fun initializer => (clause h _).bind fun condition => (Tolerates.expect _ _).bind fun _ =>
      (clause h _).bind fun increment => (Tolerates.expect _ _).bind fun _ =>
        (hstatement _).bind fun body => ?_
  cases condition with
  | some e =>
    refine .pure ?_
    rw [excess_forLoop, Expr.listingsOption]
    omega
  | none =>
    have hnode (before : Nat) : Tolerates max what before
        (fun e => before + excess max what e.listings) (node (.literal · (.boolean true)))
        (node (.literal · (.boolean true))) := .node fun n => rfl
    refine (hnode _).bind fun condition => .pure ?_
    rw [excess_forLoop, Expr.listingsOption, excess_nil]
    omega

end

/-- All statements and declarations are read with both limits. -/
theorem statements (max m : Nat) (what : Listing) (rounds : Nat) :
    Adds max what Stmt.listingsOption (declaration ⟨max, true⟩ rounds)
        (declaration ⟨m, false⟩ rounds)
      ∧ Adds max what Stmt.listings (statement ⟨max, true⟩ rounds)
        (statement ⟨m, false⟩ rounds) := by
  induction rounds with
  | zero => exact ⟨fun _ => .outOfRounds, fun _ => .outOfRounds⟩
  | succ rounds ih =>
    obtain ⟨hdeclaration, hstatement⟩ := ih
    obtain ⟨hexpression, -, -⟩ := expressions max m what rounds
    have hblock : Adds max what Stmt.listingsEach (block (declaration ⟨max, true⟩ rounds) rounds)
        (block (declaration ⟨m, false⟩ rounds) rounds) := .block hdeclaration
    refine ⟨fun before => ?_, fun before => ?_⟩
    · have hfunction : Tolerates max what before (fun s : Stmt => before + excess max what s.listings)
          (Stmt.funDecl <$> routine ⟨max, true⟩ (block (declaration ⟨max, true⟩ rounds) rounds) rounds
            .function)
          (Stmt.funDecl <$> routine ⟨m, false⟩ (block (declaration ⟨m, false⟩ rounds) rounds) rounds
            .function) := (Tolerates.routine hblock .function before).map fun r => rfl
      exact Tolerates.recovering
        (accept_ite (.classDecl (.routine hblock .method) before) (accept_ite hfunction
          (accept_ite (.varDecl hexpression before) (hstatement before))))
        fun s => by simp [Stmt.listingsOption, Stmt.listingsEach]
    · refine accept_ite (.forStatement hexpression hstatement before) (accept_ite
        (.ifStatement hexpression hstatement before) (accept_ite
          (.whileStatement hexpression hstatement before)
          ((Tolerates.accept .kwReturn).bind fun keyword? => ?_)))
      cases keyword? with
      | some keyword => exact .returnStatement keyword hexpression before
      | none =>
        exact accept_ite ((hblock before).map fun body => rfl)
          (.expressionStatement hexpression before)

/-! ### Whole programs -/

theorem program (max m : Nat) (what : Listing) (rounds : Nat) :
    Adds max what Stmt.listingsEach (program ⟨max, true⟩ rounds) (program ⟨m, false⟩ rounds) := by
  intro before
  refine (Tolerates.upTo (statements max m what rounds).1 rounds before).bind fun body => .pure ?_
  rw [Stmt.flatMap_listingsOption]

theorem loneExpression (max m : Nat) (what : Listing) (rounds : Nat) :
    Adds max what Expr.listings (loneExpression ⟨max, true⟩ rounds)
      (loneExpression ⟨m, false⟩ rounds) := by
  intro before
  refine ((expressions max m what rounds).1 before).bind fun e => Tolerates.peek?.bind fun t? => ?_
  cases t? with
  | none => exact .pure rfl
  | some t => exact (Tolerates.report t rfl).bind fun _ => .pure rfl

end Tolerates

/-! ### What is reported -/

/-- The faults that were met. -/
def Parsed.faults {α : Type} (parsed : Parsed α) : List Diagnostic :=
  match parsed.result with
  | .ok _ => []
  | .error faults => faults

/-- What is read with a strict limit of `max` entries, and what is read with lenient limits. -/
structure LimitOnlyReports {α : Type} (max : Nat) (lists : α → List (Listing × Nat))
    (read : Limit → Parsed α) : Prop where
  /-- The same numbers are given. -/
  nextId_eq : ∀ m, (read ⟨m, false⟩).nextId = (read ⟨max, true⟩).nextId
  /-- A lenient limit reports the other faults, if there are any. -/
  error_iff : ∀ m faults, (read ⟨m, false⟩).result = .error faults
    ↔ faults ≠ [] ∧ faults = (read ⟨max, true⟩).faults.filter (·.listing? max = none)
  /-- It does not matter which lenient limit it is. -/
  lenient_eq : ∀ m m', read ⟨m, false⟩ = read ⟨m', false⟩
  /-- If no list is too long, a strict limit makes no difference. -/
  strict_ok : ∀ m a, (read ⟨m, false⟩).result = .ok a → (∀ list ∈ lists a, list.2 ≤ max) →
    (read ⟨max, true⟩).result = .ok a
  /-- If a list is too long, there is one fault for each entry beyond the strict limit, and no
  other. -/
  strict_error : ∀ m a, (read ⟨m, false⟩).result = .ok a → (¬ ∀ list ∈ lists a, list.2 ≤ max) →
    ∃ faults, (read ⟨max, true⟩).result = .error faults
      ∧ (∀ d ∈ faults, ∃ t what, d = .grammar t (.overLimit max what))
      ∧ ∀ what, faults.countP (·.listing? max = some what) = excess max what (lists a)

section

variable {α : Type} {max : Nat} {lists : α → List (Listing × Nat)} {p : Limit → Reading α}
  {s s' : Cursor} {a : α}

/-- If all faults are about lists that are too long, then for each kind of list there are as many of
them as there are entries beyond the limit. -/
theorem counts_of_all (hs : s.faults = [])
    (h : ∀ m what, Adds max what lists (p ⟨max, true⟩) (p ⟨m, false⟩))
    (hr : p ⟨max, true⟩ s = .ok a s') (hall : ∀ d ∈ s'.faults, ¬ IsOther max d) (what : Listing) :
    s'.faults.countP (·.listing? max = some what) = excess max what (lists a) := by
  obtain ⟨new, hnew, hweight⟩ := (h max what 0).weight hr
  rw [hs, List.nil_append] at hnew
  subst hnew
  simpa using hweight hall

/-- There is a fault if and only if a list is too long. -/
theorem faults_eq_nil_iff (hall : ∀ d ∈ s'.faults, ¬ IsOther max d)
    (hcounts : ∀ what, s'.faults.countP (·.listing? max = some what) = excess max what (lists a)) :
    s'.faults = [] ↔ ∀ list ∈ lists a, list.2 ≤ max := by
  constructor
  · intro hnil list hlist
    have hzero : excess max list.1 (lists a) = 0 := by rw [← hcounts, hnil, List.countP_nil]
    exact (excess_eq_zero_iff max list.1 (lists a)).1 hzero list hlist rfl
  · intro hle
    by_contra hne
    obtain ⟨d, hd⟩ := List.exists_mem_of_ne_nil _ hne
    obtain ⟨what, hwhat⟩ := Option.ne_none_iff_exists'.1 (hall d hd)
    have hzero := hcounts what
    rw [(excess_eq_zero_iff max what (lists a)).2 fun list hlist _ => hle list hlist,
      List.countP_eq_zero] at hzero
    exact hzero d hd (decide_eq_true hwhat)

/-- With a lenient limit the reading ends where it does with a strict one, and leaves out the faults of
lists that are too long. -/
theorem lenient_read (hs : s.faults = [])
    (h : ∀ m what, Adds max what lists (p ⟨max, true⟩) (p ⟨m, false⟩)) (m : Nat) :
    p ⟨m, false⟩ s = lenientEnd max (p ⟨max, true⟩ s) := by
  have hstart : s.lenient max = s := by
    rw [Cursor.lenient, hs, List.filter_nil, ← hs]
  rw [← (h m .arguments 0).lenient s, hstart]

theorem limitOnlyReports_of_ok (hs : s.faults = [])
    (h : ∀ m what, Adds max what lists (p ⟨max, true⟩) (p ⟨m, false⟩))
    (hr : p ⟨max, true⟩ s = .ok a s') :
    LimitOnlyReports max lists fun limit => s.parse (p limit) := by
  let others := s'.faults.filter (IsOther max ·)
  have hstrict : s.parse (p ⟨max, true⟩)
      = ⟨if s'.faults = [] then .ok a else .error s'.faults, s'.nextId⟩ := by
    rw [Cursor.parse, hr]
  have hlenient (m : Nat) : s.parse (p ⟨m, false⟩)
      = ⟨if others = [] then .ok a else .error others, s'.nextId⟩ := by
    rw [Cursor.parse, lenient_read hs h, hr]
    rfl
  have hfaults : (s.parse (p ⟨max, true⟩)).faults = s'.faults := by
    rw [hstrict, Parsed.faults]
    by_cases hnil : s'.faults = []
    · rw [if_pos hnil, hnil]
    · rw [if_neg hnil]
  have haccepted {m : Nat} {a' : α} (ha : (s.parse (p ⟨m, false⟩)).result = .ok a') :
      a' = a ∧ ∀ d ∈ s'.faults, ¬ IsOther max d := by
    rw [hlenient] at ha
    by_cases hnil : others = []
    · rw [if_pos hnil] at ha
      cases ha
      refine ⟨rfl, fun d hd hother => ?_⟩
      exact List.filter_eq_nil_iff.1 hnil d hd (decide_eq_true hother)
    · rw [if_neg hnil] at ha
      cases ha
  refine ⟨fun m => by rw [hlenient, hstrict], fun m faults => ?_, fun m m' => by
    rw [hlenient, hlenient], fun m a' ha hle => ?_, fun m a' ha hgt => ?_⟩
  · rw [hlenient, hfaults]
    by_cases hnil : others = []
    · rw [if_pos hnil]
      exact ⟨fun h => by simp at h, fun h => absurd (h.2.trans hnil) h.1⟩
    · rw [if_neg hnil]
      exact ⟨fun h => by cases h; exact ⟨hnil, rfl⟩, fun h => by rw [h.2]⟩
  · obtain ⟨rfl, hall⟩ := haccepted ha
    rw [hstrict, if_pos ((faults_eq_nil_iff hall (counts_of_all hs h hr hall)).2 hle)]
  · obtain ⟨rfl, hall⟩ := haccepted ha
    have hcounts := counts_of_all hs h hr hall
    refine ⟨s'.faults, ?_, fun d hd => ?_, hcounts⟩
    · rw [hstrict, if_neg (mt (faults_eq_nil_iff hall hcounts).1 hgt)]
    · obtain ⟨what, hwhat⟩ := Option.ne_none_iff_exists'.1 (hall d hd)
      obtain ⟨t, ht⟩ := Diagnostic.listing?_eq_some_iff.1 hwhat
      exact ⟨t, what, ht⟩

/-- A fault that ends the reading is none about a list, so that no lenient limit leaves it out. -/
theorem limitOnlyReports_of_fault {d : Diagnostic} (hs : s.faults = [])
    (h : ∀ m what, Adds max what lists (p ⟨max, true⟩) (p ⟨m, false⟩))
    (hr : p ⟨max, true⟩ s = .error (.fault d) s') :
    LimitOnlyReports max lists fun limit => s.parse (p limit) := by
  have hother : IsOther max d := (h max .arguments 0).thrown hr
  have hstrict : s.parse (p ⟨max, true⟩) = ⟨.error (s'.faults ++ [d]), s'.nextId⟩ := by
    rw [Cursor.parse, hr]
  have hlenient (m : Nat) : s.parse (p ⟨m, false⟩)
      = ⟨.error ((s'.faults ++ [d]).filter (IsOther max ·)), s'.nextId⟩ := by
    rw [Cursor.parse, lenient_read hs h, hr]
    have hrecord := congrArg Cursor.faults (lenient_record hother s')
    exact congrArg (fun faults => (⟨.error faults, s'.nextId⟩ : Parsed α)) hrecord.symm
  have hne : (s'.faults ++ [d]).filter (IsOther max ·) ≠ [] := by
    rw [List.filter_append, List.filter_cons_of_pos (by simpa using hother)]
    exact List.append_ne_nil_of_right_ne_nil _ (List.cons_ne_nil _ _)
  refine ⟨fun m => by rw [hlenient, hstrict], fun m faults => ?_, fun m m' => by
    rw [hlenient, hlenient], fun m a' ha => ?_, fun m a' ha => ?_⟩
  · rw [hlenient, hstrict]
    exact ⟨fun h => by cases h; exact ⟨hne, rfl⟩, fun h => by rw [h.2]; rfl⟩
  · rw [hlenient] at ha
    cases ha
  · rw [hlenient] at ha
    cases ha

theorem limitOnlyReports (hs : s.faults = [])
    (h : ∀ m what, Adds max what lists (p ⟨max, true⟩) (p ⟨m, false⟩))
    (hsettles : SettlesAt 0 (p ⟨max, true⟩) s) :
    LimitOnlyReports max lists fun limit => s.parse (p limit) := by
  cases hr : p ⟨max, true⟩ s with
  | ok a s' => exact limitOnlyReports_of_ok hs h hr
  | error e s' =>
    cases e with
    | outOfRounds => exact absurd hr (hsettles.ne_outOfRounds s')
    | fault d => exact limitOnlyReports_of_fault hs h hr

end

end Parser

open Lox.Parser

/-- Whether the limit on lists is strict makes a difference to the faults that are reported and to
nothing else, for programs and for lone expressions. -/
theorem limit_only_reports (max firstId : Nat) (tokens : List Token) :
    LimitOnlyReports max Stmt.listingsEach (fun limit => parseProgram limit firstId tokens)
      ∧ LimitOnlyReports max Expr.listings (fun limit => parseExpression limit firstId tokens) := by
  have hlength : (Cursor.start firstId tokens).rest.length ≤ tokens.length :=
    (List.takeWhile_sublist _).length_le
  have hrounds : 4 * tokens.length + 6 ≤ roundsFor tokens := by
    unfold roundsFor
    omega
  constructor
  · exact limitOnlyReports rfl (fun m what => Tolerates.program max m what _)
      (Settles.program ⟨max, true⟩ hrounds _ hlength)
  · exact limitOnlyReports rfl (fun m what => Tolerates.loneExpression max m what _)
      (Settles.loneExpression ⟨max, true⟩ hrounds _ hlength)

/-- A call of what a call gives, with two and with three arguments: for a limit of one these are three
too many. -/
theorem limit_only_reports_calling :
    let name : Token := ⟨.identifier, "f", 1⟩
    let comma : Token := ⟨.comma, ",", 1⟩
    let opening : Token := ⟨.leftParen, "(", 1⟩
    let closing : Token := ⟨.rightParen, ")", 1⟩
    let tokens := [name, opening, name, comma, name, closing, opening, name, comma, name, comma, name,
      closing, ⟨.semicolon, ";", 1⟩]
    (∃ p, (parseProgram ⟨0, false⟩ 0 tokens).result = .ok p
        ∧ Stmt.listingsEach p = [(.arguments, 2), (.arguments, 3)])
      ∧ ∃ faults, (parseProgram ⟨1, true⟩ 0 tokens).result = .error faults
        ∧ faults.countP (·.listing? 1 = some .arguments) = 3 := by
  intro name comma opening closing tokens
  have hread : (parseProgram ⟨0, false⟩ 0 tokens).result.toOption.map Stmt.listingsEach
      = some [(.arguments, 2), (.arguments, 3)] := by decide +kernel
  obtain ⟨p, hp, hlists⟩ := Option.map_eq_some_iff.1 hread
  have hp : (parseProgram ⟨0, false⟩ 0 tokens).result = .ok p := by
    cases hresult : (parseProgram ⟨0, false⟩ 0 tokens).result with
    | ok q =>
      rw [hresult] at hp
      cases hp
      rfl
    | error faults =>
      rw [hresult] at hp
      cases hp
  have hlong : ¬ ∀ list ∈ Stmt.listingsEach p, list.2 ≤ 1 := by
    rw [hlists]
    decide
  obtain ⟨faults, hfaults, -, hcounts⟩ := (limit_only_reports 1 0 tokens).1.strict_error 0 p hp hlong
  refine ⟨⟨p, hp, hlists⟩, faults, hfaults, ?_⟩
  rw [hcounts, hlists]
  rfl

end Lox
