import Lox.Proofs.Tree.Relabel
import Mathlib.Logic.Equiv.Fintype

/-!
Trees that are the same but for their numbers. Such trees have numbers at the same places
(`Stmt.eq_of_alikeEach`), so that one is the other with other numbers: if no number occurs twice, there
is a way to write them that leaves apart what is apart (`Stmt.exists_renumbering`).
-/

namespace Lox

/-! ### The numbers of a tree with other numbers -/

section

variable (g : Relabel)

mutual

theorem Expr.ids_relabel : ∀ e : Expr, (e.relabel g).ids = e.ids.map g.number
  | .literal _ _ | .var _ _ | .this _ _ | .super _ _ _ => rfl
  | .unary _ _ inner | .grouping _ inner | .assign _ _ inner | .get _ inner _ => by
    rw [Expr.relabel, Expr.ids, inner.ids_relabel]
    rfl
  | .binary _ left _ right | .logical _ left _ right | .set _ left _ right => by
    rw [Expr.relabel, Expr.ids, left.ids_relabel, right.ids_relabel, ← List.map_append]
    rfl
  | .call _ callee _ arguments => by
    rw [Expr.relabel, Expr.ids, callee.ids_relabel, Expr.idsEach_relabelEach arguments,
      ← List.map_append]
    rfl

theorem Expr.idsEach_relabelEach :
    ∀ es : List Expr, Expr.idsEach (Expr.relabelEach g es) = (Expr.idsEach es).map g.number
  | [] => rfl
  | e :: rest => by
    rw [Expr.relabelEach, Expr.idsEach, e.ids_relabel, Expr.idsEach_relabelEach rest,
      ← List.map_append]
    rfl

end

theorem Expr.idsOption_relabel (e? : Option Expr) :
    Expr.idsOption (e?.map (Expr.relabel g)) = (Expr.idsOption e?).map g.number := by
  cases e? with
  | none => rfl
  | some e => exact e.ids_relabel g

mutual

theorem Stmt.ids_relabel : ∀ s : Stmt, (s.relabel g).ids = s.ids.map g.number
  | .expression value => value.ids_relabel g
  | .varDecl _ initializer => Expr.idsOption_relabel g initializer
  | .block body => Stmt.idsEach_relabelEach body
  | .ifThen condition thenBranch => by
    rw [Stmt.relabel, Stmt.ids, condition.ids_relabel, thenBranch.ids_relabel, ← List.map_append]
    rfl
  | .ifElse condition thenBranch elseBranch => by
    rw [Stmt.relabel, Stmt.ids, condition.ids_relabel, thenBranch.ids_relabel,
      elseBranch.ids_relabel, ← List.map_append, ← List.map_append]
    rfl
  | .whileLoop condition body => by
    rw [Stmt.relabel, Stmt.ids, condition.ids_relabel, body.ids_relabel, ← List.map_append]
    rfl
  | .funDecl routine => routine.ids_relabel
  | .returnValue _ value => Expr.idsOption_relabel g value
  | .classDecl _ superclass methods => by
    rw [Stmt.relabel, Stmt.ids, Expr.idsOption_relabel, Routine.idsEach_relabelEach methods,
      ← List.map_append]
    rfl

theorem Stmt.idsEach_relabelEach :
    ∀ body : List Stmt, Stmt.idsEach (Stmt.relabelEach g body) = (Stmt.idsEach body).map g.number
  | [] => rfl
  | s :: rest => by
    rw [Stmt.relabelEach, Stmt.idsEach, s.ids_relabel, Stmt.idsEach_relabelEach rest,
      ← List.map_append]
    rfl

theorem Routine.ids_relabel : ∀ r : Routine, (r.relabel g).ids = r.ids.map g.number
  | .mk _ _ body => Stmt.idsEach_relabelEach body

theorem Routine.idsEach_relabelEach :
    ∀ rs : List Routine,
      Routine.idsEach (Routine.relabelEach g rs) = (Routine.idsEach rs).map g.number
  | [] => rfl
  | r :: rest => by
    rw [Routine.relabelEach, Routine.idsEach, r.ids_relabel, Routine.idsEach_relabelEach rest,
      ← List.map_append]
    rfl

end

end

/-! ### Numbers written into a tree -/

mutual

/-- The expression with these numbers, in the order of `Expr.ids`. -/
def Expr.fill : Expr → List Nat → Expr
  | .literal _ value, ids => .literal (ids.headD 0) value
  | .var _ name, ids => .var (ids.headD 0) name
  | .this _ keyword, ids => .this (ids.headD 0) keyword
  | .super _ keyword method, ids => .super (ids.headD 0) keyword method
  | .unary _ operator right, ids => .unary (ids.headD 0) operator (right.fill ids.tail)
  | .grouping _ inner, ids => .grouping (ids.headD 0) (inner.fill ids.tail)
  | .assign _ name value, ids => .assign (ids.headD 0) name (value.fill ids.tail)
  | .get _ object name, ids => .get (ids.headD 0) (object.fill ids.tail) name
  | .binary _ left operator right, ids =>
    .binary (ids.headD 0) (left.fill ids.tail) operator (right.fill (ids.tail.drop left.ids.length))
  | .logical _ left operator right, ids =>
    .logical (ids.headD 0) (left.fill ids.tail) operator (right.fill (ids.tail.drop left.ids.length))
  | .set _ object name value, ids =>
    .set (ids.headD 0) (object.fill ids.tail) name (value.fill (ids.tail.drop object.ids.length))
  | .call _ callee paren arguments, ids =>
    .call (ids.headD 0) (callee.fill ids.tail) paren
      (Expr.fillEach arguments (ids.tail.drop callee.ids.length))

/-- Expressions with these numbers. -/
def Expr.fillEach : List Expr → List Nat → List Expr
  | [], _ => []
  | e :: rest, ids => e.fill ids :: Expr.fillEach rest (ids.drop e.ids.length)

end

mutual

/-- The statement with these numbers, in the order of `Stmt.ids`. -/
def Stmt.fill : Stmt → List Nat → Stmt
  | .expression value, ids => .expression (value.fill ids)
  | .varDecl name initializer, ids => .varDecl name (initializer.map (·.fill ids))
  | .block body, ids => .block (Stmt.fillEach body ids)
  | .ifThen condition thenBranch, ids =>
    .ifThen (condition.fill ids) (thenBranch.fill (ids.drop condition.ids.length))
  | .ifElse condition thenBranch elseBranch, ids =>
    .ifElse (condition.fill ids) (thenBranch.fill (ids.drop condition.ids.length))
      (elseBranch.fill ((ids.drop condition.ids.length).drop thenBranch.ids.length))
  | .whileLoop condition body, ids =>
    .whileLoop (condition.fill ids) (body.fill (ids.drop condition.ids.length))
  | .funDecl routine, ids => .funDecl (routine.fill ids)
  | .returnValue keyword value, ids => .returnValue keyword (value.map (·.fill ids))
  | .classDecl name superclass methods, ids =>
    .classDecl name (superclass.map (·.fill ids))
      (Routine.fillEach methods (ids.drop (Expr.idsOption superclass).length))

/-- Statements with these numbers. -/
def Stmt.fillEach : List Stmt → List Nat → List Stmt
  | [], _ => []
  | s :: rest, ids => s.fill ids :: Stmt.fillEach rest (ids.drop s.ids.length)

/-- The function or method with these numbers. -/
def Routine.fill : Routine → List Nat → Routine
  | .mk name params body, ids => .mk name params (Stmt.fillEach body ids)

/-- Methods with these numbers. -/
def Routine.fillEach : List Routine → List Nat → List Routine
  | [], _ => []
  | r :: rest, ids => r.fill ids :: Routine.fillEach rest (ids.drop r.ids.length)

end

section

variable (f : Nat → Nat)

/-- The numbers of a tree come before the others, whatever has been written for them. -/
theorem drop_ids_relabel (ids rest : List Nat) :
    (ids ++ rest).drop (ids.map (Relabel.numbers f).number).length = rest := by
  rw [List.length_map, List.drop_left]

mutual

/-- A tree gets back the numbers for which others were written. -/
theorem Expr.fill_relabel :
    ∀ (e : Expr) (rest : List Nat), (e.relabel (.numbers f)).fill (e.ids ++ rest) = e
  | .literal _ _, _ | .var _ _, _ | .this _ _, _ | .super _ _ _, _ => rfl
  | .unary _ _ inner, rest => congrArg (Expr.unary _ _) (inner.fill_relabel rest)
  | .grouping _ inner, rest => congrArg (Expr.grouping _) (inner.fill_relabel rest)
  | .assign _ _ inner, rest => congrArg (Expr.assign _ _) (inner.fill_relabel rest)
  | .get _ inner _, rest => congrArg (Expr.get _ · _) (inner.fill_relabel rest)
  | .binary _ left _ right, rest | .logical _ left _ right, rest | .set _ left _ right, rest => by
    simp only [Expr.relabel, Expr.fill, Expr.ids, List.cons_append, List.tail_cons,
      List.append_assoc, Expr.ids_relabel, drop_ids_relabel, left.fill_relabel, right.fill_relabel]
    rfl
  | .call _ callee _ arguments, rest => by
    simp only [Expr.relabel, Expr.fill, Expr.ids, List.cons_append, List.tail_cons,
      List.append_assoc, Expr.ids_relabel, drop_ids_relabel, callee.fill_relabel,
      Expr.fillEach_relabel arguments]
    rfl

theorem Expr.fillEach_relabel :
    ∀ (es : List Expr) (rest : List Nat),
      Expr.fillEach (Expr.relabelEach (.numbers f) es) (Expr.idsEach es ++ rest) = es
  | [], _ => rfl
  | e :: es, rest => by
    simp only [Expr.relabelEach, Expr.fillEach, Expr.idsEach, List.append_assoc, Expr.ids_relabel,
      drop_ids_relabel, e.fill_relabel, Expr.fillEach_relabel es]

end

theorem Expr.fillOption_relabel (e? : Option Expr) (rest : List Nat) :
    (e?.map (Expr.relabel (.numbers f))).map (·.fill (Expr.idsOption e? ++ rest)) = e? := by
  cases e? with
  | none => rfl
  | some e => exact congrArg some (e.fill_relabel f rest)

mutual

theorem Stmt.fill_relabel :
    ∀ (s : Stmt) (rest : List Nat), (s.relabel (.numbers f)).fill (s.ids ++ rest) = s
  | .expression value, rest => congrArg Stmt.expression (value.fill_relabel f rest)
  | .varDecl _ initializer, rest =>
    congrArg (Stmt.varDecl _) (Expr.fillOption_relabel f initializer rest)
  | .block body, rest => congrArg Stmt.block (Stmt.fillEach_relabel body rest)
  | .ifThen condition thenBranch, rest => by
    simp only [Stmt.relabel, Stmt.fill, Stmt.ids, List.append_assoc, Expr.ids_relabel,
      drop_ids_relabel, Expr.fill_relabel, thenBranch.fill_relabel]
  | .ifElse condition thenBranch elseBranch, rest => by
    simp only [Stmt.relabel, Stmt.fill, Stmt.ids, List.append_assoc, Expr.ids_relabel,
      Stmt.ids_relabel, drop_ids_relabel, Expr.fill_relabel, thenBranch.fill_relabel,
      elseBranch.fill_relabel]
  | .whileLoop condition body, rest => by
    simp only [Stmt.relabel, Stmt.fill, Stmt.ids, List.append_assoc, Expr.ids_relabel,
      drop_ids_relabel, Expr.fill_relabel, body.fill_relabel]
  | .funDecl routine, rest => congrArg Stmt.funDecl (routine.fill_relabel rest)
  | .returnValue _ value, rest =>
    congrArg (Stmt.returnValue _) (Expr.fillOption_relabel f value rest)
  | .classDecl _ superclass methods, rest => by
    simp only [Stmt.relabel, Stmt.fill, Stmt.ids, List.append_assoc, Expr.idsOption_relabel,
      drop_ids_relabel, Expr.fillOption_relabel, Routine.fillEach_relabel methods]
    rfl

theorem Stmt.fillEach_relabel :
    ∀ (body : List Stmt) (rest : List Nat),
      Stmt.fillEach (Stmt.relabelEach (.numbers f) body) (Stmt.idsEach body ++ rest) = body
  | [], _ => rfl
  | s :: body, rest => by
    simp only [Stmt.relabelEach, Stmt.fillEach, Stmt.idsEach, List.append_assoc, Stmt.ids_relabel,
      drop_ids_relabel, s.fill_relabel, Stmt.fillEach_relabel body]

theorem Routine.fill_relabel :
    ∀ (r : Routine) (rest : List Nat), (r.relabel (.numbers f)).fill (r.ids ++ rest) = r
  | .mk name params body, rest => by
    have hparams : params.map (Token.relabel (.numbers f)) = params := List.map_id params
    simp only [Routine.relabel, Routine.fill, Routine.ids, hparams, Stmt.fillEach_relabel body]
    rfl

theorem Routine.fillEach_relabel :
    ∀ (rs : List Routine) (rest : List Nat),
      Routine.fillEach (Routine.relabelEach (.numbers f) rs) (Routine.idsEach rs ++ rest) = rs
  | [], _ => rfl
  | r :: rs, rest => by
    simp only [Routine.relabelEach, Routine.fillEach, Routine.idsEach, List.append_assoc,
      Routine.ids_relabel, drop_ids_relabel, r.fill_relabel, Routine.fillEach_relabel rs]

end

end

/-! ### Trees that are alike -/

section

variable {body body' : List Stmt}

/-- Statements that are the same but for the numbers are the same if the numbers are. -/
theorem Stmt.eq_of_alikeEach (h : Stmt.AlikeEach body body')
    (hids : Stmt.idsEach body = Stmt.idsEach body') : body = body' := by
  rw [← Stmt.fillEach_relabel (fun _ => 0) body [], ← Stmt.fillEach_relabel (fun _ => 0) body' [],
    hids]
  exact congrArg (Stmt.fillEach · _) h

theorem Stmt.AlikeEach.length_ids (h : Stmt.AlikeEach body body') :
    (Stmt.idsEach body).length = (Stmt.idsEach body').length := by
  have hlength := congrArg (List.length ∘ Stmt.idsEach) h
  simpa [Stmt.idsEach_relabelEach] using hlength

/-- Numbers for which others may be written one by one, with none of the others left to two. -/
theorem exists_perm_map {ids ids' : List Nat} (h : ids.Nodup) (h' : ids'.Nodup)
    (hlength : ids.length = ids'.length) : ∃ σ : Equiv.Perm Nat, ids.map σ = ids' := by
  obtain ⟨σ, hσ⟩ := Equiv.Perm.exists_extending_pair ids.get (fun i => ids'.get (i.cast hlength))
    (List.nodup_iff_injective_get.1 h)
    ((List.nodup_iff_injective_get.1 h').comp (Fin.cast_injective hlength))
  refine ⟨σ, List.ext_get (by simpa using hlength) fun i hi hi' => ?_⟩
  rw [List.get_eq_getElem, List.getElem_map]
  exact hσ ⟨i, _⟩

/-- Of two programs that are the same but for the numbers, one is the other with other numbers. The
numbers below those of both may be kept. -/
theorem Stmt.exists_renumbering (h : Stmt.AlikeEach body body') {bound : Nat}
    (hbody : (Stmt.idsEach body).Nodup) (hbody' : (Stmt.idsEach body').Nodup)
    (hbound : ∀ i ∈ Stmt.idsEach body, bound ≤ i) (hbound' : ∀ i ∈ Stmt.idsEach body', bound ≤ i) :
    ∃ σ : Equiv.Perm Nat, (∀ i < bound, σ i = i) ∧ Stmt.relabelEach (.numbers σ) body = body' := by
  have hnodup {ids : List Nat} (hids : ids.Nodup) (hbound : ∀ i ∈ ids, bound ≤ i) :
      (List.range bound ++ ids).Nodup :=
    List.nodup_append'.2 ⟨List.nodup_range, hids, fun i hi hi' =>
      Nat.not_lt.2 (hbound i hi') (List.mem_range.1 hi)⟩
  obtain ⟨σ, hσ⟩ := exists_perm_map (hnodup hbody hbound) (hnodup hbody' hbound')
    (by rw [List.length_append, List.length_append, h.length_ids])
  rw [List.map_append] at hσ
  obtain ⟨hbelow, hids⟩ := List.append_inj hσ (List.length_map _)
  refine ⟨σ, fun i hi => ?_, Stmt.eq_of_alikeEach ?_ ?_⟩
  · exact List.map_eq_map_iff.1 (hbelow.trans (List.map_id _).symm) i (List.mem_range.2 hi)
  · rw [Stmt.AlikeEach, Stmt.relabelEach_relabelEach]
    exact h
  · rw [Stmt.idsEach_relabelEach]
    exact hids

end

end Lox
