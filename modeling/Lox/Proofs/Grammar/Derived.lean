import Lox.Proofs.Grammar.Written

/-!
From trees to derivations: what is written is derived from the grammar. Each way to write a phrase
(`Phrase.Written.derived`) or a part of a program (`Part.Written.derived`) is a case of a rule.
-/

namespace Lox

namespace Grammar

open Lox.Parser

variable {limit : Limit}

/-! ### The levels -/

/-- The nonterminal for the operations of `levels.drop i`. -/
def operationRule : Nat → Nonterminal
  | 0 => .logicOr
  | 1 => .logicAnd
  | 2 => .equality
  | 3 => .comparison
  | 4 => .term
  | 5 => .factor
  | _ => .unary

/-- The rule for the operations of one level. -/
theorem production_operationRule {i : Nat} {level : Level} (hlevel : levels[i]? = some level) :
    ∃ operator, production (operationRule i) = .joined (operationRule (i + 1)) operator
      ∧ ∀ limit P ts, operator.Holds limit P ts ↔ ∃ t, t.kind ∈ level.operators ∧ ts = [t] := by
  obtain rfl | rfl | rfl | rfl | rfl | rfl := level_cases hlevel
  all_goals
    cases hlevel
    refine ⟨_, rfl, fun limit P ts => ?_⟩
    simp [Form.Holds, Form.oneOf, or_and_right, exists_or]

/-! ### From trees to derivations -/

namespace Derives

variable {f g : Form} {k : Kind} {t : Token} {ts us : List Token}

theorem word_seq (ht : t.kind = k) (hg : Derives limit g us) :
    Derives limit (.seq (.word k) g) (t :: us) :=
  .seq (.word ht) hg

theorem skip : Derives limit (.opt f) [] := .right .empty

theorem opt (hf : Derives limit f ts) : Derives limit (.opt f) ts := .left hf

theorem skip_seq (hg : Derives limit g us) : Derives limit (.seq (.opt f) g) us :=
  .seq skip hg

theorem star_nil : Derives limit (.star f) [] :=
  @Derives.star limit f [] fun _ h => nomatch h

theorem star_cons (hf : Derives limit f ts) (hg : Derives limit (.star f) us) :
    Derives limit (.star f) (ts ++ us) := by
  cases hg with
  | star hparts => exact .star (List.forall_mem_cons.2 ⟨hf, hparts⟩)

/-- One more at the end. -/
theorem seq_star_concat (hf : Derives limit (.seq f (.star g)) ts) (hg : Derives limit g us) :
    Derives limit (.seq f (.star g)) (ts ++ us) := by
  cases hf with
  | seq hf hstar =>
    cases hstar with
    | @star _ parts hparts =>
      have hmore : Derives limit (.star g) (parts ++ [us]).flatten :=
        .star (List.forall_mem_append.2 ⟨hparts, fun _ h => List.mem_singleton.1 h ▸ hg⟩)
      rw [List.append_assoc]
      simpa using hf.seq hmore

theorem production_of_rule {n : Nonterminal} (h : Derives limit (.rule n) ts) :
    Derives limit (production n) ts := by
  cases h with
  | rule h => exact h

theorem call_of_primary (h : Derives limit (.rule .primary) ts) :
    Derives limit (.rule .call) ts := by
  rw [← List.append_nil ts]
  exact .rule (.seq h star_nil)

/-- A phrase of one token. -/
theorem call_of_token (h : (literal? t.kind).isSome ∨ t.kind = .kwThis ∨ t.kind = .identifier) :
    Derives limit (.rule .call) [t] := by
  refine call_of_primary (.rule (Form.Holds.derives ?_))
  simp only [production, Form.oneOf, Form.Holds]
  cases hk : t.kind <;> simp [hk, literal?] at h ⊢

end Derives

/-- What is written as a phrase may be derived. -/
def Phrase.Derived (limit : Limit) : Phrase → List Token → Prop
  | .expression _, ts => Derives limit (.rule .expression) ts
  | .operation i _, ts => Derives limit (.rule (operationRule i)) ts
  | .call _, ts => Derives limit (.rule .call) ts
  | .entries es, ts =>
    ∃ parts, (∀ us ∈ parts, Derives limit (.rule .expression) us) ∧ Separated parts ts
      ∧ parts.length = es.length
  | .arguments _, ts => Derives limit (.opt (.rule .arguments)) ts

theorem Phrase.Written.derived {ph : Phrase} {ts : List Token} (h : ph.Written limit ts) :
    ph.Derived limit ts := by
  induction h with
  | literal id hvalue => exact .call_of_token (.inl (by simp [hvalue]))
  | var id hname => exact .call_of_token (.inr (.inr hname))
  | this id hkeyword => exact .call_of_token (.inr (.inl hkeyword))
  | super id hkeyword hdot hmethod =>
    refine .call_of_primary (.rule ?_)
    exact .right (.right (.right (.right (.right (.right (.right (.right
      (.word_seq hkeyword (.word_seq hdot (.word hmethod))))))))))
  | grouping id hleft _ hright ih =>
    refine .call_of_primary (.rule ?_)
    exact .right (.right (.right (.right (.right (.right (.right (.left
      (.word_seq hleft (.seq ih (.word hright))))))))))
  | call id _ hleft _ hparen ihcallee ihargs =>
    refine .rule (ihcallee.production_of_rule.seq_star_concat (.left ?_))
    exact .word_seq hleft (.seq ihargs (.word hparen))
  | get id _ hdot hname ih =>
    refine .rule (ih.production_of_rule.seq_star_concat (.right ?_))
    exact .word_seq hdot (.word hname)
  | tightest _ ih => exact .rule (.right ih)
  | unary id hsign _ ih =>
    have hsign : Derives limit (.either (.word .bang) (.word .minus)) [_] :=
      hsign.elim (fun h => .left (.word h)) fun h => .right (.word h)
    exact .rule (.left (hsign.seq ih))
  | @tighter i _ ts hi _ ih =>
    obtain ⟨level, hlevel⟩ : ∃ level, levels[i]? = some level := ⟨_, List.getElem?_eq_getElem hi⟩
    obtain ⟨operator, hrule, -⟩ := production_operationRule hlevel
    refine .rule ?_
    rw [hrule, ← List.append_nil ts]
    exact .seq ih .star_nil
  | joined id hlevel _ hoperator _ ihleft ihright =>
    obtain ⟨operator, hrule, hiff⟩ := production_operationRule hlevel
    have hleft := ihleft.production_of_rule
    refine .rule ?_
    rw [hrule] at hleft ⊢
    have hoperator := ((hiff limit _ _).2 ⟨_, hoperator, rfl⟩).derives
    exact hleft.seq_star_concat (hoperator.seq ihright)
  | loosest _ ih => exact .rule (.rule (.right ih))
  | assign id hname hequals _ ih =>
    exact .rule (.rule (.left (.skip_seq
      (.word_seq hname (.word_seq hequals ih.production_of_rule)))))
  | set id _ hdot hname hequals _ ihobject ihvalue =>
    have hobject := Derives.opt (ihobject.seq (.word hdot))
    have hvalue := Derives.word_seq hname (.word_seq hequals ihvalue.production_of_rule)
    rw [List.append_cons]
    exact .rule (.rule (.left (hobject.seq hvalue)))
  | @entry _ ts _ ih =>
    exact ⟨[ts], fun us hus => List.mem_singleton.1 hus ▸ ih, .one ts, rfl⟩
  | entries _ hcomma _ ih ihs =>
    obtain ⟨parts, hparts, hseparated, hlength⟩ := ihs
    exact ⟨_ :: parts, List.forall_mem_cons.2 ⟨ih, hparts⟩, .more hcomma hseparated,
      by simp [hlength]⟩
  | noArguments => exact .skip
  | arguments _ hcount ih =>
    obtain ⟨parts, hparts, hseparated, hlength⟩ := ih
    exact .opt (.rule (.list hparts hseparated (hlength ▸ hcount)))

section

variable {ts : List Token}

theorem derives_of_expression {e : Expr} (h : (Phrase.expression e).Written limit ts) :
    Derives limit (.rule .expression) ts :=
  h.derived

theorem Optional.derived {e? : Option Expr} (h : Optional limit e? ts) :
    Derives limit (.opt (.rule .expression)) ts := by
  cases h with
  | none => exact .skip
  | some h => exact .opt h.derived

theorem Variable.derived {s : Stmt} {var : Token} (hvar : var.kind = .kwVar)
    (h : Variable limit s ts) : Derives limit (.rule .varDecl) (var :: ts) := by
  refine .rule ?_
  cases h with
  | plain hname hsemicolon =>
    exact .word_seq hvar (.word_seq hname (.skip_seq (.word hsemicolon)))
  | initialized hname hequals h hsemicolon =>
    have hvalue := Derives.opt (.word_seq hequals (derives_of_expression h))
    exact .word_seq hvar (.word_seq hname (hvalue.seq (.word hsemicolon)))

theorem derives_exprStmt {e : Expr} {semicolon : Token}
    (h : (Phrase.expression e).Written limit ts) (hsemicolon : semicolon.kind = .semicolon) :
    Derives limit (.rule .exprStmt) (ts ++ [semicolon]) :=
  .rule ((derives_of_expression h).seq (.word hsemicolon))

theorem Initializer.derived {s? : Option Stmt} (h : Initializer limit s? ts) :
    Derives limit (.oneOf (.rule .varDecl) (.rule .exprStmt) [.word .semicolon]) ts := by
  cases h with
  | none hsemicolon => exact .right (.right (.word hsemicolon))
  | declaring hvar h => exact .left (h.derived hvar)
  | evaluating h hsemicolon => exact .right (.left (derives_exprStmt h hsemicolon))

theorem Parameters.derived {params : List Token} (h : Parameters limit params ts) :
    Derives limit (.opt (.rule .parameters)) ts := by
  cases h with
  | none => exact .skip
  | some hnames hseparated hcount =>
    rw [← List.length_map (fun p => [p])] at hcount
    refine .opt (.rule (.list (fun us hus => ?_) hseparated hcount))
    obtain ⟨p, hp, rfl⟩ := List.mem_map.1 hus
    exact .word (hnames p hp)

/-- What is written as a part may be derived. -/
def Part.Derived (limit : Limit) : Part → List Token → Prop
  | .statement _ _, ts => Derives limit (.rule .statement) ts
  | .declaration _, ts => Derives limit (.rule .declaration) ts
  | .declarations _, ts => Derives limit (.star (.rule .declaration)) ts
  | .routine _, ts => Derives limit (.rule .function) ts
  | .routines _, ts => Derives limit (.star (.rule .function)) ts

theorem Part.Written.derived {part : Part} (h : part.Written limit ts) : part.Derived limit ts := by
  induction h with
  | expression h hsemicolon => exact .rule (.left (derives_exprStmt h hsemicolon))
  | block hleft _ hright ih =>
    refine .rule (.right (.right (.right (.right (.right (.rule ?_))))))
    exact .word_seq hleft (.seq ih (.word hright))
  | ifThen hkeyword hleft h hright _ ih =>
    refine .rule (.right (.right (.left (.rule ?_))))
    have hbranches := Derives.seq ih (.skip (f := .inOrder [.word .kwElse, .rule .statement]))
    rw [List.append_nil] at hbranches
    exact .word_seq hkeyword (.word_seq hleft (h.derived.seq (.word_seq hright hbranches)))
  | ifElse hkeyword hleft h hright _ hother _ ih ih' =>
    refine .rule (.right (.right (.left (.rule ?_))))
    have helse := Derives.opt (.word_seq hother ih')
    exact .word_seq hkeyword (.word_seq hleft (.seq h.derived (.word_seq hright (.seq ih helse))))
  | whileLoop hkeyword hleft h hright _ ih =>
    refine .rule (.right (.right (.right (.right (.left (.rule ?_))))))
    exact .word_seq hkeyword (.word_seq hleft (.seq h.derived (.word_seq hright ih)))
  | forLoop id hkeyword hleft hinit hcondition hsemicolon hincrement hright _ ih =>
    refine .rule (.right (.left (.rule ?_)))
    have hlast := hincrement.derived.seq (.word_seq hright ih)
    exact .word_seq hkeyword (.word_seq hleft (hinit.derived.seq
      (hcondition.derived.seq (.word_seq hsemicolon hlast))))
  | returnValue hkeyword h hsemicolon =>
    refine .rule (.right (.right (.right (.left (.rule ?_)))))
    exact .word_seq hkeyword (h.derived.seq (.word hsemicolon))
  | statement _ ih => exact .rule (.right (.right (.right ih)))
  | varDecl hvar h => exact .rule (.right (.right (.left (h.derived hvar))))
  | funDecl hkeyword _ ih => exact .rule (.right (.left (.rule (.word_seq hkeyword ih))))
  | classDecl hkeyword hname hancestor hleft _ hright ih =>
    refine .rule (.left (.rule ?_))
    have hbody := Derives.word_seq hleft (.seq ih (.word hright))
    cases hancestor with
    | none => exact .word_seq hkeyword (.word_seq hname (.skip_seq hbody))
    | some id hcolon hancestor =>
      exact .word_seq hkeyword (.word_seq hname
        (.seq (.opt (.word_seq hcolon (.word hancestor))) hbody))
  | noDeclarations => exact .star_nil
  | declarations _ _ ih ih' => exact .star_cons ih ih'
  | routine hname hleft hparams hright hopening _ hclosing ih =>
    have hblock : Derives limit (.rule .block) _ :=
      .rule (.word_seq hopening (.seq ih (.word hclosing)))
    have hrest := Derives.word_seq hright hblock
    exact .rule (.word_seq hname (.word_seq hleft (hparams.derived.seq hrest)))
  | noRoutines => exact .star_nil
  | routines _ _ ih ih' => exact .star_cons ih ih'

end

end Grammar

end Lox
