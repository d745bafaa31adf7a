import Lox.Proofs.Scoping.Linked

/-!
The numbers that findings are about. What is found in a tree is about the numbers of its expressions
alone (`Stmt.findings_within`), so that the findings of a whole program say about a part of it, whose
numbers are its own, what the findings of the part say (`Recorded.append`).
-/

namespace Lox

theorem Findings.append_assoc (a b c : Findings) : a ++ b ++ c = a ++ (b ++ c) := by
  show Findings.mk (a.faults ++ b.faults ++ c.faults) (a.distances ++ b.distances ++ c.distances)
    = _
  rw [List.append_assoc, List.append_assoc]
  rfl

theorem Findings.append_none (found : Findings) : found ++ .none = found := by
  show Findings.mk (found.faults ++ []) (found.distances ++ []) = found
  rw [List.append_nil, List.append_nil]

/-- The distances found are those of expressions with these numbers, and the faults found are those of
scoping. -/
structure Findings.Within (found : Findings) (ids : List Nat) : Prop where
  keys : ∀ p ∈ found.distances, p.1 ∈ ids
  faults : ∀ d ∈ found.faults, d.stage = .scoping

namespace Findings.Within

variable {a b : Findings} {ids ids' : List Nat}

theorem none (ids : List Nat) : Findings.none.Within ids :=
  ⟨by simp [Findings.none], by simp [Findings.none]⟩

theorem fault (token : Token) (cause : StaticFault) (ids : List Nat) :
    (Findings.fault token cause).Within ids :=
  ⟨by simp [Findings.fault], by simp [Findings.fault, Diagnostic.stage]⟩

theorem faultIf (condition : Bool) (token : Token) (cause : StaticFault) (ids : List Nat) :
    (Findings.faultIf condition token cause).Within ids := by
  cases condition
  · exact .none ids
  · exact .fault token cause ids

theorem mono (h : a.Within ids) (hsub : ids ⊆ ids') : a.Within ids' :=
  ⟨fun p hp => hsub (h.keys p hp), h.faults⟩

theorem append (ha : a.Within ids) (hb : b.Within ids) : (a ++ b).Within ids := by
  constructor
  · intro p hp
    exact (List.mem_append.1 hp).elim (ha.keys p) (hb.keys p)
  · intro d hd
    exact (List.mem_append.1 hd).elim (ha.faults d) (hb.faults d)

theorem occurrence (site : Site) (id : Nat) (name : Token) :
    (site.occurrence id name).Within [id] := by
  refine ⟨?_, by simp [Site.occurrence]⟩
  intro p hp
  obtain ⟨d, -, rfl⟩ : ∃ d, site.distance? name = some d ∧ (id, d) = p := by
    simpa [Site.occurrence] using hp
  exact List.mem_singleton.2 rfl

/-- Two parts one after the other. -/
theorem parts (ha : a.Within ids) (hb : b.Within ids') : (a ++ b).Within (ids ++ ids') :=
  (ha.mono (List.subset_append_left _ _)).append (hb.mono (List.subset_append_right _ _))

theorem cons (id : Nat) (h : a.Within ids) : a.Within (id :: ids) :=
  h.mono (List.subset_cons_self id ids)

end Findings.Within

/-! ### The findings of trees -/

mutual

theorem Expr.findings_within (site : Site) : ∀ e : Expr, (e.findings site).Within e.ids
  | .literal _ _ => .none _
  | .unary id _ right | .grouping id right | .get id right _ =>
    (Expr.findings_within site right).cons id
  | .binary id left _ right | .logical id left _ right =>
    ((Expr.findings_within site left).parts (Expr.findings_within site right)).cons id
  | .var id name => (Findings.Within.faultIf _ name _ _).append (.occurrence site id name)
  | .assign id name value =>
    ((Expr.findings_within site value).cons id).append
      ((Findings.Within.occurrence site id name).mono (by simp))
  | .call id callee _ arguments =>
    ((Expr.findings_within site callee).parts (Expr.findingsEach_within site arguments)).cons id
  | .set id object _ value =>
    (((Expr.findings_within site value).mono (List.subset_append_right _ _)).append
      ((Expr.findings_within site object).mono (List.subset_append_left _ _))).cons id
  | .this id keyword => by
    unfold Expr.findings
    split
    · exact .fault keyword _ _
    · exact .occurrence site id keyword
  | .super id keyword _ => by
    unfold Expr.findings
    split
    · exact .fault keyword _ _
    · exact .fault keyword _ _
    · exact .occurrence site id keyword

theorem Expr.findingsEach_within (site : Site) :
    ∀ es : List Expr, (Expr.findingsEach site es).Within (Expr.idsEach es)
  | [] => .none _
  | e :: rest => (Expr.findings_within site e).parts (Expr.findingsEach_within site rest)

end

theorem Expr.findingsOption_within (site : Site) :
    ∀ e : Option Expr, (Expr.findingsOption site e).Within (Expr.idsOption e)
  | none => .none _
  | some e => e.findings_within site

theorem Site.declare_within (site : Site) (name : Token) (ids : List Nat) :
    (site.declare name).2.Within ids := by
  unfold Site.declare
  split
  · exact .fault name _ ids
  · exact .none ids

theorem Site.declareEach_within (site : Site) (names : List Token) (ids : List Nat) :
    (site.declareEach names).2.Within ids := by
  induction names generalizing site with
  | nil => exact .none ids
  | cons name rest ih => exact (site.declare_within name ids).append (ih _)

mutual

theorem Stmt.findings_within (site : Site) : ∀ s : Stmt, (s.findings site).2.Within s.ids
  | .expression value => value.findings_within site
  | .varDecl name initializer =>
    (site.declare_within name _).append (Expr.findingsOption_within _ initializer)
  | .block body => Stmt.findingsEach_within _ body
  | .ifThen condition thenBranch | .whileLoop condition thenBranch =>
    (condition.findings_within site).parts (Stmt.findings_within site thenBranch)
  | .ifElse condition thenBranch elseBranch => by
    rw [Stmt.ids, ← List.append_assoc]
    exact ((condition.findings_within site).parts (Stmt.findings_within site thenBranch)).parts
      (Stmt.findings_within _ elseBranch)
  | .funDecl routine =>
    (site.declare_within routine.name _).append (Routine.findings_within _ .function routine)
  | .returnValue keyword value =>
    ((Findings.Within.faultIf _ keyword _ _).append (.faultIf _ keyword _ _)).append
      (Expr.findingsOption_within site value)
  | .classDecl name none methods =>
    (site.declare_within name _).append (Routine.findingsEach_within _ methods)
  | .classDecl name (some ancestor) methods =>
    ((((site.declare_within name _).append (by
      unfold Expr.selfInheritance
      split
      · exact .faultIf _ _ _ _
      · exact .none _)).append (ancestor.findings_within _)).parts
      (Routine.findingsEach_within _ methods))

theorem Stmt.findingsEach_within (site : Site) :
    ∀ body : List Stmt, (Stmt.findingsEach site body).Within (Stmt.idsEach body)
  | [] => .none _
  | s :: rest => (Stmt.findings_within site s).parts (Stmt.findingsEach_within _ rest)

theorem Routine.findings_within (site : Site) (kind : BodyKind) :
    ∀ r : Routine, (r.findings site kind).Within r.ids
  | .mk _ params body =>
    (Site.declareEach_within _ params _).append (Stmt.findingsEach_within _ body)

theorem Routine.findingsEach_within (site : Site) :
    ∀ rs : List Routine, (Routine.findingsEach site rs).Within (Routine.idsEach rs)
  | [] => .none _
  | r :: rest => (Routine.findings_within site _ r).parts (Routine.findingsEach_within site rest)

end

/-! ### Recorded findings -/

/-- The table records what is found in a part of a program, whose expressions have these numbers, and
no fault is among it. -/
structure Recorded (t : Table) (ids : List Nat) (found : Findings) : Prop where
  faults : found.faults = []
  nodup : ids.Nodup
  records : t.Records ids found.distances

namespace Recorded

variable {t : Table} {ids ids' : List Nat} {a b : Findings} {site : Site} {id : Nat} {name : Token}

theorem perm (h : Recorded t ids a) (hids : ids.Perm ids') : Recorded t ids' a :=
  ⟨h.faults, hids.nodup_iff.1 h.nodup, fun id hid => h.records id (hids.mem_iff.2 hid)⟩

theorem lookup_eq_none {found : List (Nat × Nat)} (h : ∀ p ∈ found, p.1 ≠ id) :
    found.lookup id = none := by
  rw [List.lookup_eq_none_iff]
  intro p hp
  simpa using (h p hp).symm

/-- Of two parts the table records each. -/
theorem append (h : Recorded t (ids ++ ids') (a ++ b)) (ha : a.Within ids) (hb : b.Within ids') :
    Recorded t ids a ∧ Recorded t ids' b := by
  obtain ⟨hfaults, hnodup, hrecords⟩ := h
  obtain ⟨hfa, hfb⟩ := List.append_eq_nil_iff.1 hfaults
  obtain ⟨hna, hnb, hdisjoint⟩ := List.nodup_append.1 hnodup
  refine ⟨⟨hfa, hna, ?_⟩, hfb, hnb, ?_⟩
  · intro id hid
    have hg := hrecords id (List.mem_append_left _ hid)
    have hnone : b.distances.reverse.lookup id = none :=
      lookup_eq_none fun p hp he => hdisjoint id hid p.1 (hb.keys p (List.mem_reverse.1 hp)) he.symm
    rwa [Findings.distances_append, List.reverse_append, List.lookup_append, hnone,
      Option.none_or] at hg
  · intro id hid
    have hg := hrecords id (List.mem_append_right _ hid)
    have hnone : a.distances.reverse.lookup id = none :=
      lookup_eq_none fun p hp he => hdisjoint p.1 (ha.keys p (List.mem_reverse.1 hp)) id hid he
    rwa [Findings.distances_append, List.reverse_append, List.lookup_append, hnone,
      Option.or_none] at hg

/-- Of two parts of which the first, as a declaration, is about no expression, the table records the
second. -/
theorem drop (h : Recorded t ids (a ++ b)) (ha : a.Within []) (hb : b.Within ids) :
    a.faults = [] ∧ Recorded t ids b :=
  have ⟨h₁, h₂⟩ := append h ha hb
  ⟨h₁.faults, h₂⟩

theorem cons (h : Recorded t (id :: ids) a) : Recorded t ids a :=
  ⟨h.faults, h.nodup.of_cons, fun i hi => h.records i (List.mem_cons_of_mem _ hi)⟩

/-- The table says of an occurrence of a name what the scopes say. -/
theorem occurrence (h : Recorded t [id] (site.occurrence id name)) :
    t.Gives id (site.distanceOf? name.lexeme) := by
  have hg := h.records id (List.mem_singleton.2 rfl)
  have hlookup : (site.occurrence id name).distances.reverse.lookup id
      = site.distanceOf? name.lexeme := by
    unfold Site.occurrence Site.distance? Site.distanceOf?
    cases site.scopes.findIdx? (·.binds name.lexeme) <;> simp
  rwa [hlookup] at hg

end Recorded

end Lox
