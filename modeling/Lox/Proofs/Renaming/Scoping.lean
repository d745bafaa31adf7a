import Lox.Proofs.Renaming.Names
import Lox.Proofs.Scopes.World
import Lox.Proofs.Scoping.Tables

/-!
What the resolver finds in a program with another name for local variables: the same distances for the
same expressions, and no faults either (`Program.distances_rename`). The scopes around a part of the
program declare the names that they declared, where they are chosen with the new name for the old one,
so that the nearest scope that declares a name is the one that it was.
-/

namespace Lox

/-- The scopes as the resolver sees them with the new name, given their marks. The new name was not in
them. -/
inductive Renaming.Scoped (R : Renaming) :
    List Bool → List (Bindings Bool) → List (Bindings Bool) → Prop where
  | nil : R.Scoped [] [] []
  | cons {marked : Bool} {marks : List Bool} {scope scope' : Bindings Bool}
      {outer outer' : List (Bindings Bool)} (head : scope.Renamed (R.name marked) Eq scope')
      (fresh : R.new ∉ scope.names) (tail : R.Scoped marks outer outer') :
      R.Scoped (marked :: marks) (scope :: outer) (scope' :: outer')

/-- What surrounds a part of the program with the new name. -/
structure Site.Renamed (R : Renaming) (marks : List Bool) (site site' : Site) : Prop where
  scopes : R.Scoped marks site.scopes site'.scopes
  body : site'.body = site.body
  classBody : site'.classBody = site.classBody

/-! ### Names in scopes -/

namespace Renaming

variable {R : Renaming} {marked : Bool} {marks : List Bool} {scope scope' : Bindings Bool} {n : String}

theorem get?_renamed (h : scope.Renamed (R.name marked) Eq scope') (hf : R.new ∉ scope.names)
    (hn : n ≠ R.new) : scope'.get? (R.name marked n) = scope.get? n := by
  have hget := h.get? (n := n) fun k hk => R.name_inj (fun hnew => hf (hnew ▸ hk)) hn
  rcases eq_none_or_eq_some_of_rel hget with ⟨hb, hc⟩ | ⟨x, y, hb, hc, rfl⟩ <;> rw [hb, hc]

/-- A name that the scope did not bind is not bound in it now, whatever it becomes elsewhere. -/
theorem get?_renamed_eq_none (h : scope.Renamed (R.name marked) Eq scope')
    (hf : R.new ∉ scope.names) (hn : n ≠ R.new) (hb : scope.get? n = none) (marked' : Bool) :
    scope'.get? (R.name marked' n) = none := by
  by_contra hbound
  have hmem : R.name marked' n ∈ scope'.names :=
    Scopes.mem_names.2 (Option.isSome_iff_ne_none.2 hbound)
  rw [h.names] at hmem
  obtain ⟨k, hk, he⟩ := List.mem_map.1 hmem
  obtain rfl : k = n := R.name_inj (fun hnew => hf (hnew ▸ hk)) hn he
  have hbinds := Scopes.mem_names.1 hk
  rw [Bindings.binds, hb] at hbinds
  cases hbinds

theorem markAt_zero (marked : Bool) (marks : List Bool) :
    markAt (marked :: marks) (some 0) = marked := rfl

theorem markAt_succ (marked : Bool) (marks : List Bool) (distance : Option Nat) :
    markAt (marked :: marks) (distance.map (· + 1)) = markAt marks distance := by
  cases distance <;> rfl

/-- The scopes that a name is looked for in, when it becomes what it is in the scope that declares
it. -/
theorem Scoped.findIdx?_eq {scopes scopes' : List (Bindings Bool)} (h : R.Scoped marks scopes scopes')
    (hn : n ≠ R.new) :
    scopes'.findIdx? (·.binds (R.name (markAt marks (scopes.findIdx? (·.binds n))) n))
      = scopes.findIdx? (·.binds n) := by
  induction h with
  | nil => rfl
  | @cons marked marks scope scope' outer outer' head fresh tail ih =>
    rw [List.findIdx?_cons, List.findIdx?_cons]
    cases hget : scope.get? n with
    | some flag =>
      have hb : scope.binds n = true := by rw [Bindings.binds, hget]; rfl
      have hb' : scope'.binds (R.name marked n) = true := by
        rw [Bindings.binds, get?_renamed head fresh hn, hget]; rfl
      simp only [hb, markAt_zero, hb', if_true]
    | none =>
      have hb : scope.binds n = false := by rw [Bindings.binds, hget]; rfl
      have hb' (marked' : Bool) : scope'.binds (R.name marked' n) = false := by
        rw [Bindings.binds, get?_renamed_eq_none head fresh hn hget]; rfl
      simp only [hb, markAt_succ, hb', Bool.false_eq_true, if_false, ih]

end Renaming

namespace Site.Renamed

variable {R : Renaming} {marks : List Bool} {site site' : Site} {id : Nat} {name : Token}

/-- An occurrence that the distances tie to a scope is tied to the same one. -/
theorem occurrence (h : site.Renamed R marks site') (hn : name.lexeme ≠ R.new)
    (hd : R.distances[id]? = site.distanceOf? name.lexeme) :
    site'.occurrence id (R.token (R.ties marks id) name) = site.occurrence id name := by
  have hdistance := h.scopes.findIdx?_eq hn
  unfold Site.occurrence Site.distance?
  rw [Renaming.token_lexeme, Renaming.ties, hd]
  exact congrArg (fun d => ({ distances := (d.map (id, ·)).toList } : Findings)) hdistance

/-- A word that is not renamed is found where it was. -/
theorem occurrence_keyword (h : site.Renamed R marks site') (hold : name.lexeme ≠ R.old)
    (hn : name.lexeme ≠ R.new) : site'.occurrence id name = site.occurrence id name := by
  have hdistance := h.scopes.findIdx?_eq hn
  rw [R.name_of_ne hold] at hdistance
  exact congrArg (fun d => ({ distances := (d.map (id, ·)).toList } : Findings)) hdistance

/-- Where a name may be read, it may still be read. -/
theorem isUnreadable (h : site.Renamed R marks site') (hn : name.lexeme ≠ R.new)
    (hd : R.distances[id]? = site.distanceOf? name.lexeme) :
    site'.isUnreadable (R.token (R.ties marks id) name) = site.isUnreadable name := by
  unfold Site.isUnreadable
  rw [Renaming.token_lexeme, Renaming.ties, hd]
  unfold Site.distanceOf?
  have hscopes := h.scopes
  generalize site.scopes = scopes, site'.scopes = scopes' at hscopes
  cases hscopes with
  | nil => rfl
  | @cons marked marks scope scope' outer outer' head fresh tail =>
    rw [List.findIdx?_cons, List.head?_cons, List.head?_cons, Option.any_some, Option.any_some]
    cases hget : scope.get? name.lexeme with
    | some flag =>
      have hb : scope.binds name.lexeme = true := by rw [Bindings.binds, hget]; rfl
      simp only [hb, if_true, Renaming.markAt_zero, Renaming.get?_renamed head fresh hn, hget]
    | none =>
      rw [Renaming.get?_renamed_eq_none head fresh hn hget]

/-! ### Declarations -/

theorem enter (h : site.Renamed R marks site') {marked : Bool} {scope scope' : Bindings Bool}
    (hs : scope.Renamed (R.name marked) Eq scope') (hf : R.new ∉ scope.names) :
    (site.enter scope).Renamed R (marked :: marks) (site'.enter scope') :=
  ⟨.cons hs hf h.scopes, h.body, h.classBody⟩

theorem inClass (h : site.Renamed R marks site') (kind : ClassKind) :
    Site.Renamed R marks { site with classBody := some kind }
      { site' with classBody := some kind } :=
  ⟨h.scopes, h.body, rfl⟩

/-- The scope of `this`, and that of `super`. -/
theorem enter_keyword (h : site.Renamed R marks site') {word : String} (hold : word ≠ R.old)
    (hn : word ≠ R.new) :
    (site.enter [(word, true)]).Renamed R (false :: marks) (site'.enter [(word, true)]) := by
  refine h.enter (.cons ⟨(R.name_of_ne hold).symm, rfl⟩ .nil) fun hm => ?_
  exact hn (List.mem_singleton.1 hm).symm

theorem bind (h : site.Renamed R marks site') (hn : name.lexeme ≠ R.new) (readable : Bool) :
    (site.bind name readable).Renamed R marks
      (site'.bind (R.token (marks.headD false) name) readable) := by
  obtain ⟨hscopes, hbody, hclass⟩ := h
  unfold Site.bind
  obtain ⟨scopes, body, classBody⟩ := site
  obtain ⟨scopes', body', classBody'⟩ := site'
  cases hscopes with
  | nil => exact ⟨.nil, hbody, hclass⟩
  | cons head fresh tail =>
    refine ⟨.cons (head.set (fun k hk => ?_) rfl) ?_ tail, hbody, hclass⟩
    · exact R.name_inj (fun hnew => fresh (hnew ▸ hk)) hn
    · rw [Scopes.names_set, Scopes.mem_addName, not_or]
      exact ⟨fresh, Ne.symm hn⟩

theorem bindsHere (h : site.Renamed R marks site') (hn : name.lexeme ≠ R.new) :
    site'.bindsHere (R.token (marks.headD false) name) = site.bindsHere name := by
  have hscopes := h.scopes
  unfold Site.bindsHere
  generalize site.scopes = scopes, site'.scopes = scopes' at hscopes
  cases hscopes with
  | nil => rfl
  | cons head fresh tail =>
    simp only [List.head?_cons, Option.any_some, Bindings.binds, Renaming.token_lexeme,
      List.headD_cons, Renaming.get?_renamed head fresh hn]

/-- A name that is declared without a fault is declared without one. -/
theorem declare (h : site.Renamed R marks site') (hn : name.lexeme ≠ R.new)
    (hf : (site.declare name).2.faults = []) :
    (site.declare name).1.Renamed R marks (site'.declare (R.token (marks.headD false) name)).1
      ∧ (site'.declare (R.token (marks.headD false) name)).2 = (site.declare name).2 := by
  unfold Site.declare at hf ⊢
  rw [h.bindsHere hn]
  split
  · rename_i hb
    rw [if_pos hb] at hf
    cases hf
  · exact ⟨h.bind hn false, rfl⟩

theorem declareReadable (h : site.Renamed R marks site') (hn : name.lexeme ≠ R.new)
    (hf : (site.declareReadable name).2.faults = []) :
    (site.declareReadable name).1.Renamed R marks
        (site'.declareReadable (R.token (marks.headD false) name)).1
      ∧ (site'.declareReadable (R.token (marks.headD false) name)).2
        = (site.declareReadable name).2 := by
  obtain ⟨hsite, hfound⟩ := h.declare hn hf
  exact ⟨hsite.bind hn true, hfound⟩

theorem declareEach (h : site.Renamed R marks site') {names : List Token}
    (hn : ∀ name ∈ names, name.lexeme ≠ R.new) (hf : (site.declareEach names).2.faults = []) :
    (site.declareEach names).1.Renamed R marks
        (site'.declareEach (names.map (R.token (marks.headD false)))).1
      ∧ (site'.declareEach (names.map (R.token (marks.headD false)))).2
        = (site.declareEach names).2 := by
  induction names generalizing site site' with
  | nil => exact ⟨h, rfl⟩
  | cons name rest ih =>
    obtain ⟨hfirst, hrest⟩ := List.append_eq_nil_iff.1 hf
    obtain ⟨hsite, hfound⟩ := h.declareReadable (hn name List.mem_cons_self) hfirst
    obtain ⟨hlast, hmore⟩ := ih hsite (fun n hm => hn n (List.mem_cons_of_mem _ hm)) hrest
    exact ⟨hlast, congrArg₂ (· ++ ·) hfound hmore⟩

end Site.Renamed

/-! ### Expressions -/

section

variable {R : Renaming} {t : Table} {marks : List Bool} {site site' : Site}

/-- The table says what the distances of the renaming are. -/
def Renaming.Knows (R : Renaming) (t : Table) : Prop :=
  ∀ id distance, t.Gives id distance → R.distances[id]? = distance

mutual

/-- In an expression with the new name the resolver finds what it found. -/
theorem Expr.findings_rename (ht : R.Knows t) (hs : site.Renamed R marks site') : ∀ {e : Expr},
    e.Linked t site → R.new ∉ e.mentions →
      (e.rename R (R.ties marks)).findings site' = e.findings site
  | .literal _ _, _, _ => rfl
  | .unary _ _ right, hl, hm => by
    rw [Expr.Linked] at hl
    rw [Expr.mentions] at hm
    rw [Expr.rename, Expr.findings, Expr.findings, Expr.findings_rename ht hs hl hm]
  | .grouping _ inner, hl, hm => by
    rw [Expr.Linked] at hl
    rw [Expr.mentions] at hm
    rw [Expr.rename, Expr.findings, Expr.findings, Expr.findings_rename ht hs hl hm]
  | .get _ object _, hl, hm => by
    rw [Expr.Linked] at hl
    rw [Expr.mentions] at hm
    rw [Expr.rename, Expr.findings, Expr.findings, Expr.findings_rename ht hs hl hm]
  | .binary _ left _ right, hl, hm | .logical _ left _ right, hl, hm => by
    rw [Expr.Linked] at hl
    rw [Expr.mentions, List.mem_append, not_or] at hm
    rw [Expr.rename, Expr.findings, Expr.findings, Expr.findings_rename ht hs hl.1 hm.1,
      Expr.findings_rename ht hs hl.2 hm.2]
  | .set _ object _ value, hl, hm => by
    rw [Expr.Linked] at hl
    rw [Expr.mentions, List.mem_append, not_or] at hm
    rw [Expr.rename, Expr.findings, Expr.findings, Expr.findings_rename ht hs hl.1 hm.1,
      Expr.findings_rename ht hs hl.2 hm.2]
  | .call _ callee _ arguments, hl, hm => by
    rw [Expr.Linked] at hl
    rw [Expr.mentions, List.mem_append, not_or] at hm
    rw [Expr.rename, Expr.findings, Expr.findings, Expr.findings_rename ht hs hl.1 hm.1,
      Expr.findingsEach_rename ht hs hl.2 hm.2]
  | .var id name, hl, hm => by
    rw [Expr.Linked] at hl
    rw [Expr.mentions, List.mem_singleton] at hm
    obtain ⟨-, hg, hread⟩ := hl
    have hd := ht id _ hg
    have hreadable : site.isUnreadable name = false := by
      rw [Bool.eq_false_iff]
      intro hunreadable
      obtain ⟨scope, hscope, hfalse⟩ := (Option.any_eq_true _ _).1 hunreadable
      obtain ⟨outer, hscopes⟩ := List.head?_eq_some_iff.1 hscope
      rw [Site.MayRead, hscopes, List.findSome?_cons, of_decide_eq_true hfalse] at hread
      exact hread rfl
    rw [Expr.rename, Expr.findings, Expr.findings, hs.isUnreadable (Ne.symm hm) hd,
      hs.occurrence (Ne.symm hm) hd, hreadable]
    rfl
  | .assign id name value, hl, hm => by
    rw [Expr.Linked] at hl
    rw [Expr.mentions, List.mem_cons, not_or] at hm
    obtain ⟨-, hvalue, hg⟩ := hl
    rw [Expr.rename, Expr.findings, Expr.findings, Expr.findings_rename ht hs hvalue hm.2,
      hs.occurrence (Ne.symm hm.1) (ht id _ hg)]
  | .this id keyword, hl, _ => by
    rw [Expr.Linked] at hl
    rw [Expr.rename, Expr.findings, Expr.findings, hs.classBody,
      hs.occurrence_keyword (hl.1 ▸ R.this_ne.1) (hl.1 ▸ R.this_ne.2)]
  | .super id keyword _, hl, _ => by
    rw [Expr.Linked] at hl
    rw [Expr.rename, Expr.findings, Expr.findings, hs.classBody,
      hs.occurrence_keyword (hl.1 ▸ R.super_ne.1) (hl.1 ▸ R.super_ne.2)]

theorem Expr.findingsEach_rename (ht : R.Knows t) (hs : site.Renamed R marks site') :
    ∀ {es : List Expr}, Expr.LinkedEach t site es → R.new ∉ Expr.mentionsEach es →
      Expr.findingsEach site' (Expr.renameEach R (R.ties marks) es) = Expr.findingsEach site es
  | [], _, _ => rfl
  | e :: rest, hl, hm => by
    rw [Expr.mentionsEach, List.mem_append, not_or] at hm
    rw [Expr.renameEach, Expr.findingsEach, Expr.findingsEach,
      Expr.findings_rename ht hs hl.1 hm.1, Expr.findingsEach_rename ht hs hl.2 hm.2]

end

theorem Expr.findingsOption_rename (ht : R.Knows t) (hs : site.Renamed R marks site')
    {e? : Option Expr} (hl : Expr.LinkedOption t site e?) (hm : R.new ∉ Expr.mentionsOption e?) :
    Expr.findingsOption site' (e?.map (Expr.rename R (R.ties marks)))
      = Expr.findingsOption site e? := by
  cases e? with
  | none => rfl
  | some e => exact e.findings_rename ht hs hl hm

/-! ### Statements -/

theorem Routine.methodKind_rename (place : ScopePlace) (r : Routine) :
    (r.rename R place marks).methodKind = r.methodKind := by
  rw [methodKind, methodKind, isInitializer_rename]

theorem Stmt.mentionsOption_of_suits {value? : Option Expr} (hu : ∀ e ∈ value?, e.Suits R) :
    R.new ∉ Expr.mentionsOption value? := by
  cases value? with
  | none => exact List.not_mem_nil
  | some e => exact (hu e rfl).2

/-- A superclass with another name than its class still has another name. -/
theorem Expr.selfInheritance_rename {id : Nat} {name ancestor : Token} (hn : name.lexeme ≠ R.new)
    (hne : ancestor.lexeme ≠ name.lexeme) :
    ((Expr.var id ancestor).rename R (R.ties marks)).selfInheritance name
      = (Expr.var id ancestor).selfInheritance name := by
  have hne' : R.name (R.ties marks id) ancestor.lexeme ≠ name.lexeme := by
    unfold Renaming.name
    split
    · exact Ne.symm hn
    · exact hne
  rw [Expr.rename, Expr.selfInheritance, Expr.selfInheritance, Renaming.token_lexeme,
    decide_eq_false hne', decide_eq_false hne]
  rfl

/-- A superclass is linked behind the declaration of its class as it is before it. -/
theorem Expr.linked_behind {id : Nat} {name ancestor : Token} (hne : ancestor.lexeme ≠ name.lexeme)
    (kind : ClassKind) (hl : (Expr.var id ancestor).Linked t site) :
    (Expr.var id ancestor).Linked t
      { (site.declareReadable name).1 with classBody := some kind } := by
  rw [Expr.Linked, Site.declareReadable_fst] at *
  obtain ⟨hname, hg, hread⟩ := hl
  have hd : (site.bind name true).distanceOf? ancestor.lexeme = site.distanceOf? ancestor.lexeme :=
    Site.distanceOf?_bind (Ne.symm hne) true
  have hscopes : (site.bind name true).scopes.findSome? (·.get? ancestor.lexeme)
      = site.scopes.findSome? (·.get? ancestor.lexeme) := by
    rw [Site.bind_scopes]
    cases site.scopes with
    | nil => rfl
    | cons scope outer =>
      simp only [List.findSome?_cons, Bindings.get?_set, if_neg (Ne.symm hne)]
  refine ⟨hname, ?_, ?_⟩
  · rw [← hd] at hg
    exact hg
  · unfold Site.MayRead at hread ⊢
    rwa [hscopes]

mutual

/-- In a statement with the new name the resolver finds what it found. -/
theorem Stmt.findings_rename (ht : R.Knows t) {place : ScopePlace} {marks : List Bool}
    {site site' : Site} (hs : site.Renamed R marks site') : ∀ {s : Stmt}, s.Linked t site →
    s.Suits R place (marks.headD false) → (s.findings site).2.faults = [] →
    (s.findings site).1.Renamed R marks ((s.rename R place marks).findings site').1
      ∧ ((s.rename R place marks).findings site').2 = (s.findings site).2
  | .expression value, hl, hu, _ => ⟨hs, value.findings_rename ht hs hl hu.expression.2⟩
  | .varDecl name initializer, hl, hu, hf => by
    rw [Stmt.Linked] at hl
    obtain ⟨hn, hi⟩ := hu.varDecl
    obtain ⟨hdeclared, hfound⟩ := hs.declare hn (List.append_eq_nil_iff.1 hf).1
    have hvalue := Expr.findingsOption_rename ht hdeclared hl.2 (Stmt.mentionsOption_of_suits hi)
    exact ⟨hdeclared.bind hn true, congrArg₂ (· ++ ·) hfound hvalue⟩
  | .block body, hl, hu, hf => by
    rw [Stmt.Linked] at hl
    exact ⟨hs, Stmt.findingsEach_rename ht (hs.enter .nil List.not_mem_nil) hl hu.block hf⟩
  | .ifThen condition thenBranch, hl, hu, hf => by
    rw [Stmt.Linked] at hl
    obtain ⟨-, hf⟩ := List.append_eq_nil_iff.1 hf
    obtain ⟨hafter, hfound⟩ := Stmt.findings_rename ht hs hl.2.1 hu.ifThen.2 hf
    exact ⟨hafter, congrArg₂ (· ++ ·)
      (condition.findings_rename ht hs hl.1 hu.ifThen.1.2) hfound⟩
  | .whileLoop condition body, hl, hu, hf => by
    rw [Stmt.Linked] at hl
    obtain ⟨-, hf⟩ := List.append_eq_nil_iff.1 hf
    obtain ⟨hafter, hfound⟩ := Stmt.findings_rename ht hs hl.2.1 hu.whileLoop.2 hf
    exact ⟨hafter, congrArg₂ (· ++ ·)
      (condition.findings_rename ht hs hl.1 hu.whileLoop.1.2) hfound⟩
  | .ifElse condition thenBranch elseBranch, hl, hu, hf => by
    rw [Stmt.Linked] at hl
    have hbetween : (thenBranch.findings site).1 = site :=
      (Stmt.findings_fst site hu.ifElse.2.1.1).trans (Stmt.after_eq hl.2.1.2)
    obtain ⟨hf, hf'⟩ := List.append_eq_nil_iff.1 hf
    obtain ⟨-, hf⟩ := List.append_eq_nil_iff.1 hf
    obtain ⟨hafter, hfound⟩ := Stmt.findings_rename ht hs hl.2.1.1 hu.ifElse.2.1 hf
    obtain ⟨hafter', hfound'⟩ :=
      Stmt.findings_rename ht hafter (by rw [hbetween]; exact hl.2.2.1) hu.ifElse.2.2 hf'
    exact ⟨hafter', congrArg₂ (· ++ ·) (congrArg₂ (· ++ ·)
      (condition.findings_rename ht hs hl.1 hu.ifElse.1.2) hfound) hfound'⟩
  | .funDecl routine, hl, hu, hf => by
    rw [Stmt.Linked] at hl
    obtain ⟨hn, hkept, hu⟩ := hu.funDecl
    obtain ⟨hf, hf'⟩ := List.append_eq_nil_iff.1 hf
    obtain ⟨hdeclared, hfound⟩ := hs.declareReadable hn hf
    rw [hkept] at hdeclared hfound
    have hbody := Routine.findings_rename ht hdeclared hl.2 hu hf'
    simp only [Stmt.rename, Stmt.findings, Routine.name_rename]
    exact ⟨hdeclared, congrArg₂ (· ++ ·) hfound hbody⟩
  | .returnValue keyword value, hl, hu, _ => by
    rw [Stmt.Linked] at hl
    have hvalue :=
      Expr.findingsOption_rename ht hs hl (Stmt.mentionsOption_of_suits hu.returnValue)
    simp only [Stmt.rename, Stmt.findings, hs.body, Option.isSome_map, hvalue]
    exact ⟨hs, trivial⟩
  | .classDecl name none methods, hl, hu, hf => by
    rw [Stmt.Linked] at hl
    obtain ⟨hn, hkept, -, hu⟩ := hu.classDecl
    obtain ⟨hf, hf'⟩ := List.append_eq_nil_iff.1 hf
    obtain ⟨hdeclared, hfound⟩ := hs.declareReadable hn hf
    rw [hkept] at hdeclared hfound
    have hmethods := Routine.findingsEach_rename ht
      ((hdeclared.inClass .base).enter_keyword R.this_ne.1 R.this_ne.2) hl.2 hu hf'
    exact ⟨hdeclared, congrArg₂ (· ++ ·) hfound hmethods⟩
  | .classDecl name (some ancestor) methods, hl, hu, hf => by
    obtain ⟨id, token, rfl, -⟩ := hu.1.2.1
    rw [Stmt.Linked] at hl
    obtain ⟨hn, hkept, ha, hu⟩ := hu.classDecl
    obtain ⟨hf, hf'⟩ := List.append_eq_nil_iff.1 hf
    obtain ⟨hf, -⟩ := List.append_eq_nil_iff.1 hf
    obtain ⟨hf, hself⟩ := List.append_eq_nil_iff.1 hf
    have hne : token.lexeme ≠ name.lexeme := by
      simpa using Findings.eq_false_of_faultIf hself
    obtain ⟨hdeclared, hfound⟩ := hs.declareReadable hn hf
    rw [hkept] at hdeclared hfound
    have hinside := hdeclared.inClass .derived
    have hself' : ((Expr.var id token).rename R (R.ties marks)).selfInheritance name
        = (Expr.var id token).selfInheritance name := Expr.selfInheritance_rename hn hne
    have hancestor := Expr.findings_rename ht hinside (Expr.linked_behind hne .derived hl.2.1)
      (ha _ rfl).2
    have hmethods := Routine.findingsEach_rename ht
      ((hinside.enter_keyword R.super_ne.1 R.super_ne.2).enter_keyword R.this_ne.1 R.this_ne.2)
      hl.2.2 hu hf'
    exact ⟨hdeclared, congrArg₂ (· ++ ·) (congrArg₂ (· ++ ·) (congrArg₂ (· ++ ·) hfound hself')
      hancestor) hmethods⟩

/-- In statements with the new name the resolver finds what it found. -/
theorem Stmt.findingsEach_rename (ht : R.Knows t) {place : ScopePlace} {marks : List Bool}
    {site site' : Site} (hs : site.Renamed R marks site') : ∀ {i : Nat} {body : List Stmt},
    Stmt.LinkedEach t site body → Stmt.SuitsEach R place (marks.headD false) i body →
    (Stmt.findingsEach site body).faults = [] →
    Stmt.findingsEach site' (Stmt.renameEach R place marks i body) = Stmt.findingsEach site body
  | _, [], _, _, _ => rfl
  | i, s :: rest, hl, hu, hf => by
    rw [Stmt.LinkedEach, ← Stmt.findings_fst site hu.cons.1.1] at hl
    obtain ⟨hf, hf'⟩ := List.append_eq_nil_iff.1 hf
    obtain ⟨hafter, hfound⟩ := Stmt.findings_rename ht hs hl.1 hu.cons.1 hf
    exact congrArg₂ (· ++ ·) hfound (Stmt.findingsEach_rename ht hafter hl.2 hu.cons.2 hf')

/-- In a function or method with the new name the resolver finds what it found. -/
theorem Routine.findings_rename (ht : R.Knows t) {place : ScopePlace} {marks : List Bool}
    {site site' : Site} (hs : site.Renamed R marks site') {kind : BodyKind} : ∀ {r : Routine},
    r.Linked t site kind → r.Suits R place → (r.findings site kind).faults = [] →
    (r.rename R place marks).findings site' kind = r.findings site kind
  | .mk name params body, hl, hu, hf => by
    rw [Routine.Linked] at hl
    obtain ⟨hparams, hbody⟩ := hu.parts
    obtain ⟨hf, hf'⟩ := List.append_eq_nil_iff.1 hf
    have hinside : Site.Renamed R (R.chosen place :: marks)
        ({ site with body := some kind }.enter []) ({ site' with body := some kind }.enter []) :=
      ⟨.cons .nil List.not_mem_nil hs.scopes, rfl, hs.classBody⟩
    obtain ⟨hdeclared, hfound⟩ := hinside.declareEach hparams hf
    exact congrArg₂ (· ++ ·) hfound (Stmt.findingsEach_rename ht hdeclared hl.2.2 hbody hf')

/-- In methods with the new name the resolver finds what it found. -/
theorem Routine.findingsEach_rename (ht : R.Knows t) {place : ScopePlace} {marks : List Bool}
    {site site' : Site} (hs : site.Renamed R marks site') : ∀ {i : Nat} {rs : List Routine},
    Routine.LinkedEach t site rs → Routine.SuitsEach R place i rs →
    (Routine.findingsEach site rs).faults = [] →
    Routine.findingsEach site' (Routine.renameEach R place marks i rs) = Routine.findingsEach site rs
  | _, [], _, _, _ => rfl
  | i, r :: rest, hl, hu, hf => by
    obtain ⟨hf, hf'⟩ := List.append_eq_nil_iff.1 hf
    rw [Routine.renameEach, Routine.findingsEach, Routine.findingsEach, Routine.methodKind_rename,
      Routine.findings_rename ht hs hl.1 hu.cons.1 hf,
      Routine.findingsEach_rename ht hs hl.2 hu.cons.2 hf']

end

/-- The resolver accepts the program with the new name, and finds the same distances. -/
theorem Program.distances_rename {p : Program} {d : Distances} (ht : R.Knows t)
    (hl : Stmt.LinkedEach t {} p) (hu : Stmt.SuitsEach R [] false 0 p)
    (hd : p.distances = .ok d) : (p.rename R).distances = .ok d := by
  have hfaults := (Program.distances_eq_ok hd).1
  have hsite : Site.Renamed R [] {} {} := ⟨.nil, rfl, rfl⟩
  have hsame := Stmt.findingsEach_rename ht hsite hl hu hfaults
  rw [← hd]
  unfold Program.distances Program.rename
  rw [hsame]

end

end Lox
