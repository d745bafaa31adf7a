import Lox.Proofs.Loops.Longhand

/-!
A `for` replaced by its longhand. Wherever the word `for` is in a program that is read, it begins a
`for` with all its clauses (`isFor_of_parseProgram`), and the same program is written with the longhand
in its place (`written_replaced`). The word begins nothing but a statement, so the rules by which the
program is written lead down to that statement, and by these rules the program is put together again.
-/

namespace Lox

open Lox.Parser Lox.Grammar

/-- None of the tokens is a `for`. -/
def WithoutFor (ts : List Token) : Prop :=
  ∀ t ∈ ts, t.kind ≠ .kwFor

namespace WithoutFor

variable {limit : Limit} {ts us : List Token}

theorem nil : WithoutFor [] :=
  List.forall_mem_nil _

theorem cons {t : Token} {k : Kind} (ht : t.kind = k) (hk : k ≠ .kwFor) (h : WithoutFor ts) :
    WithoutFor (t :: ts) :=
  List.forall_mem_cons.2 ⟨ht ▸ hk, h⟩

theorem append (h : WithoutFor ts) (h' : WithoutFor us) : WithoutFor (ts ++ us) :=
  List.forall_mem_append.2 ⟨h, h'⟩

theorem single {t : Token} {k : Kind} (ht : t.kind = k) (hk : k ≠ .kwFor) : WithoutFor [t] :=
  .cons ht hk .nil

theorem phrase {ph : Phrase} (h : ph.Written limit ts) : WithoutFor ts := by
  induction h with
  | @literal _ t _ hvalue =>
    refine .single rfl fun ht => ?_
    rw [ht] at hvalue
    cases hvalue
  | var _ hname => exact .single hname (by decide)
  | this _ hkeyword => exact .single hkeyword (by decide)
  | super _ hkeyword hdot hmethod =>
    exact .cons hkeyword (by decide) (.cons hdot (by decide) (.single hmethod (by decide)))
  | grouping _ hleft _ hright ih => exact .cons hleft (by decide) (ih.append (.single hright (by decide)))
  | call _ _ hleft _ hparen ih ih' =>
    exact ih.append (.cons hleft (by decide) (ih'.append (.single hparen (by decide))))
  | get _ _ hdot hname ih => exact ih.append (.cons hdot (by decide) (.single hname (by decide)))
  | tightest _ ih => exact ih
  | unary _ hsign _ ih =>
    rcases hsign with hsign | hsign
    · exact .cons hsign (by decide) ih
    · exact .cons hsign (by decide) ih
  | tighter _ _ ih => exact ih
  | joined _ hlevel _ hoperator _ ih ih' =>
    refine ih.append (.cons rfl (fun hfor => ?_) ih')
    have hbinding := (mem_operators_iff hlevel).1 hoperator
    rw [hfor] at hbinding
    exact absurd hbinding (Nat.succ_ne_zero _).symm
  | loosest _ ih => exact ih
  | assign _ hname hequals _ ih => exact .cons hname (by decide) (.cons hequals (by decide) ih)
  | set _ _ hdot hname hequals _ ih ih' =>
    exact ih.append (.cons hdot (by decide) (.cons hname (by decide) (.cons hequals (by decide) ih')))
  | entry _ ih => exact ih
  | entries _ hcomma _ ih ih' => exact ih.append (.cons hcomma (by decide) ih')
  | noArguments => exact .nil
  | arguments _ _ ih => exact ih

theorem option {e? : Option Expr} (h : Optional limit e? ts) : WithoutFor ts := by
  cases h with
  | none => exact .nil
  | some h => exact phrase h

theorem varDecl {s : Stmt} (h : Variable limit s ts) : WithoutFor ts := by
  cases h with
  | plain hname hsemicolon => exact .cons hname (by decide) (.single hsemicolon (by decide))
  | initialized hname hequals h hsemicolon =>
    exact .cons hname (by decide) (.cons hequals (by decide)
      ((phrase h).append (.single hsemicolon (by decide))))

theorem initializer {s? : Option Stmt} (h : Initializer limit s? ts) : WithoutFor ts := by
  cases h with
  | none hsemicolon => exact .single hsemicolon (by decide)
  | declaring hvar h => exact .cons hvar (by decide) (.varDecl h)
  | evaluating h hsemicolon => exact (phrase h).append (.single hsemicolon (by decide))

theorem ancestor {e? : Option Expr} (h : Ancestor e? ts) : WithoutFor ts := by
  cases h with
  | none => exact .nil
  | some _ hcolon hname => exact .cons hcolon (by decide) (.single hname (by decide))

theorem names {params : List Token} (hnames : ∀ p ∈ params, p.kind = .identifier)
    (h : Separated (params.map fun p => [p]) ts) : WithoutFor ts := by
  induction params generalizing ts with
  | nil => cases h
  | cons p params ih =>
    obtain ⟨hp, hnames⟩ := List.forall_mem_cons.1 hnames
    rcases separated_cases h with ⟨-, rfl⟩ | ⟨comma, us, hcomma, hmore, rfl⟩
    · exact .single hp (by decide)
    · exact .cons hp (by decide) (.cons hcomma (by decide) (ih hnames hmore))

theorem parameters {params : List Token} (h : Parameters limit params ts) : WithoutFor ts := by
  cases h with
  | none => exact .nil
  | some hnames h _ => exact names hnames h

end WithoutFor

/-! ### Replacing inside of something -/

/-- Wherever there is the word `for` in `ts`, followed by `rest`, it begins a `for` in `ts`, and `post`
holds of `ts` with the longhand instead. -/
def Swaps (limit : Limit) (ts rest : List Token) (post : List Token → Prop) : Prop :=
  ∀ before keyword behind, ts ++ rest = before ++ keyword :: behind → keyword.kind = .kwFor →
    before.length < ts.length →
    ∃ (c : Clauses) (short inside : List Token), keyword :: behind = short ++ (inside ++ rest)
      ∧ c.IsFor limit short (inside ++ rest)
      ∧ ∀ long, c.Longhand long → post (before ++ (long ++ inside))

namespace Swaps

variable {limit : Limit} {ts us rest : List Token} {post : List Token → Prop}

/-- There is no `for` to replace. -/
theorem of_withoutFor (hts : WithoutFor ts) : Swaps limit ts rest post := by
  intro before keyword behind htokens hkeyword hlength
  have hmem : keyword ∈ ts := by
    have hget := congrArg (·[before.length]?) htokens
    simp only [List.getElem?_append_left hlength, List.getElem?_append_right (Nat.le_refl _),
      Nat.sub_self, List.getElem?_cons_zero] at hget
    exact List.mem_of_getElem? hget
  exact absurd hkeyword (hts keyword hmem)

theorem mono {post' : List Token → Prop} (h : Swaps limit ts rest post)
    (hpost : ∀ ts', post ts' → post' ts') : Swaps limit ts rest post' := by
  intro before keyword behind htokens hkeyword hlength
  obtain ⟨c, short, inside, hsplit, hfor, hlong⟩ := h before keyword behind htokens hkeyword hlength
  exact ⟨c, short, inside, hsplit, hfor, fun long hc => hpost _ (hlong long hc)⟩

protected theorem append (h : Swaps limit ts (us ++ rest) fun ts' => post (ts' ++ us))
    (h' : Swaps limit us rest fun us' => post (ts ++ us')) : Swaps limit (ts ++ us) rest post := by
  intro before keyword behind htokens hkeyword hlength
  rw [List.append_assoc] at htokens
  by_cases hts : before.length < ts.length
  · obtain ⟨c, short, inside, hsplit, hfor, hlong⟩ := h before keyword behind htokens hkeyword hts
    refine ⟨c, short, inside ++ us, ?_⟩
    rw [List.append_assoc]
    refine ⟨hsplit, hfor, fun long hc => ?_⟩
    have hpost : post (before ++ (long ++ inside) ++ us) := hlong long hc
    rwa [List.append_assoc, List.append_assoc] at hpost
  · obtain ⟨before', rfl⟩ := List.prefix_of_prefix_length_le ⟨us ++ rest, htokens⟩
      ⟨keyword :: behind, rfl⟩ (Nat.le_of_not_lt hts)
    rw [List.append_assoc, List.append_cancel_left_eq] at htokens
    rw [List.length_append, List.length_append] at hlength
    obtain ⟨c, short, inside, hsplit, hfor, hlong⟩ :=
      h' before' keyword behind htokens hkeyword (Nat.lt_of_add_lt_add_left hlength)
    refine ⟨c, short, inside, hsplit, hfor, fun long hc => ?_⟩
    rw [List.append_assoc]
    exact hlong long hc

/-- The first token begins a `for`, which takes all the tokens, or it is inside of it. -/
theorem here_or_later {t : Token} {c : Clauses} (hfor : c.IsFor limit (t :: us) rest)
    (hlong : ∀ long, c.Longhand long → post long)
    (h : Swaps limit us rest fun us' => post (t :: us')) : Swaps limit (t :: us) rest post := by
  intro before keyword behind htokens hkeyword hlength
  cases before with
  | nil =>
    refine ⟨c, t :: us, [], htokens.symm, hfor, fun long hc => ?_⟩
    rw [List.append_nil]
    exact hlong long hc
  | cons t' before =>
    obtain ⟨rfl, hbehind⟩ := List.cons.inj htokens
    exact h before keyword behind hbehind hkeyword (Nat.lt_of_succ_lt_succ hlength)

/-- There is none in front. -/
theorem behind (hts : WithoutFor ts) (h : Swaps limit us rest fun us' => post (ts ++ us')) :
    Swaps limit (ts ++ us) rest post :=
  .append (.of_withoutFor hts) h

theorem cons {t : Token} {k : Kind} (ht : t.kind = k) (hk : k ≠ .kwFor)
    (h : Swaps limit us rest fun us' => post (t :: us')) : Swaps limit (t :: us) rest post :=
  .behind (.single ht hk) h

/-- A keyword with a condition between parentheses stands in front. -/
theorem conditional {e : Expr} {keyword left right : Token} {k : Kind} (hkeyword : keyword.kind = k)
    (hk : k ≠ .kwFor) (hleft : left.kind = .leftParen)
    (hcondition : (Phrase.expression e).Written limit ts) (hright : right.kind = .rightParen)
    (h : Swaps limit us rest fun us' => post (keyword :: left :: (ts ++ right :: us'))) :
    Swaps limit (keyword :: left :: (ts ++ right :: us)) rest post :=
  .cons hkeyword hk (.cons hleft (by decide) (.behind (.phrase hcondition)
    (.cons hright (by decide) h)))

/-- Braces stand around. -/
theorem enclosed {left right : Token} (hleft : left.kind = .leftBrace)
    (hright : right.kind = .rightBrace)
    (h : Swaps limit ts (right :: rest) fun ts' => post (left :: (ts' ++ [right]))) :
    Swaps limit (left :: (ts ++ [right])) rest post :=
  .cons hleft (by decide) (.append h (.of_withoutFor (.single hright (by decide))))

end Swaps

/-! ### Replacing inside of a part -/

/-- A part is written with the longhand where a `for` begins in it, with no `else` behind the part that
it would take. -/
def PartSwaps (limit : Limit) : Part → List Token → Prop
  | .statement o s, ts => ∀ rest, (o = true → NoElse rest) →
    Swaps limit ts rest fun ts' =>
      ∃ o', (o' = true → o = true) ∧ (Part.statement o' s).Written limit ts'
  | .declaration s, ts => ∀ rest, NoElse rest →
    Swaps limit ts rest ((Part.declaration s).Written limit)
  | .declarations body, ts => ∀ rest, NoElse rest →
    Swaps limit ts rest ((Part.declarations body).Written limit)
  | .routine r, ts => ∀ rest, Swaps limit ts rest ((Part.routine r).Written limit)
  | .routines rs, ts => ∀ rest, Swaps limit ts rest ((Part.routines rs).Written limit)

section

variable {limit : Limit} {c : Clauses} {short long after before : List Token} {p : Program}

/-- Whatever a `for` stands in is written with the longhand in its place, as the same tree. -/
theorem swaps_of_written {part : Part} {ts : List Token} (h : part.Written limit ts) :
    PartSwaps limit part ts := by
  induction h with
  | expression h hsemicolon =>
    exact fun rest _ => .of_withoutFor
      ((WithoutFor.phrase h).append (.single hsemicolon (by decide)))
  | block hleft _ hright ih =>
    intro rest _
    refine .enclosed hleft hright ?_
    exact (ih _ (noElse_cons hright (by decide) rest)).mono fun ts' h =>
      ⟨false, id, .block hleft h hright⟩
  | ifThen hkeyword hleft hcondition hright _ ih =>
    intro rest hrest
    refine .conditional hkeyword (by decide) hleft hcondition hright ?_
    exact (ih rest fun _ => hrest rfl).mono fun ts' ⟨o', _, h⟩ =>
      ⟨true, id, .ifThen hkeyword hleft hcondition hright h⟩
  | ifElse hkeyword hleft hcondition hright h hother h' ih ih' =>
    intro rest hrest
    refine .conditional hkeyword (by decide) hleft hcondition hright
      (.append ?_ (.cons hother (by decide) ?_))
    -- what stands before the `else` takes none, and so does the longhand in it
    · refine (ih _ fun h => absurd h Bool.false_ne_true).mono fun ts' ⟨o', ho, hthen⟩ => ?_
      obtain rfl : o' = false := Bool.eq_false_iff.2 fun h => Bool.false_ne_true (ho h)
      exact ⟨_, id, .ifElse hkeyword hleft hcondition hright hthen hother h'⟩
    · exact (ih' rest hrest).mono fun ts' ⟨o', ho, hother'⟩ =>
        ⟨o', ho, .ifElse hkeyword hleft hcondition hright h hother hother'⟩
  | whileLoop hkeyword hleft hcondition hright _ ih =>
    intro rest hrest
    refine .conditional hkeyword (by decide) hleft hcondition hright ?_
    exact (ih rest hrest).mono fun ts' ⟨o', ho, h⟩ =>
      ⟨o', ho, .whileLoop hkeyword hleft hcondition hright h⟩
  | forLoop id hkeyword hleft hinit hcondition hsemicolon hincrement hright hbody ih =>
    intro rest hrest
    obtain ⟨c, hc, hshort⟩ := Clauses.exists_shorthand hkeyword hleft hinit hcondition hsemicolon
      hincrement hright hbody
    refine .here_or_later ⟨hshort, _, _, _, _, _, hc, hrest⟩ (fun long hlong => hc.longhand hlong id)
      (.cons hleft (by decide) (.behind (.initializer hinit) (.behind (.option hcondition)
        (.cons hsemicolon (by decide) (.behind (.option hincrement)
          (.cons hright (by decide) ?_))))))
    exact (ih rest hrest).mono fun ts' ⟨o', ho, h⟩ => ⟨o', ho,
      .forLoop id hkeyword hleft hinit hcondition hsemicolon hincrement hright h⟩
  | returnValue hkeyword hvalue hsemicolon =>
    exact fun rest _ => .of_withoutFor (.cons hkeyword (by decide)
      ((WithoutFor.option hvalue).append (.single hsemicolon (by decide))))
  | statement _ ih =>
    exact fun rest hrest => (ih rest fun _ => hrest).mono fun ts' ⟨o', _, h⟩ => .statement h
  | varDecl hvar h => exact fun rest _ => .of_withoutFor (.cons hvar (by decide) (.varDecl h))
  | funDecl hkeyword _ ih =>
    exact fun rest _ => .cons hkeyword (by decide) ((ih rest).mono fun ts' h =>
      .funDecl hkeyword h)
  | classDecl hkeyword hname hancestor hleft _ hright ih =>
    intro rest _
    refine .cons hkeyword (by decide) (.cons hname (by decide)
      (.behind (.ancestor hancestor) (.enclosed hleft hright ?_)))
    exact (ih _).mono fun ts' h => .classDecl hkeyword hname hancestor hleft h hright
  | noDeclarations => exact fun rest _ => .of_withoutFor .nil
  | declarations hs hbody ih ih' =>
    intro rest hrest
    exact .append ((ih _ (noElse_declarations hbody hrest)).mono fun ts' h => .declarations h hbody)
      ((ih' rest hrest).mono fun us' h => .declarations hs h)
  | routine hname hleft hparams hright hopening _ hclosing ih =>
    intro rest
    refine .cons hname (by decide) (.cons hleft (by decide)
      (.behind (.parameters hparams) (.cons hright (by decide)
        (.enclosed hopening hclosing ?_))))
    exact (ih _ (noElse_cons hclosing (by decide) rest)).mono fun us' h =>
      .routine hname hleft hparams hright hopening h hclosing
  | noRoutines => exact fun rest => .of_withoutFor .nil
  | routines hr hrs ih ih' =>
    intro rest
    exact .append ((ih _).mono fun ts' h => .routines h hrs) ((ih' rest).mono fun us' h =>
      .routines hr h)

/-! ### Replacing in a program -/

/-- Where the word `for` is in a program, there is a `for`, and the program is written with the longhand
in its place. -/
theorem exists_isFor {keyword : Token} {behind : List Token}
    (h : (Part.declarations p).Written limit (before ++ keyword :: behind))
    (hkeyword : keyword.kind = .kwFor) :
    ∃ (c : Clauses) (short after : List Token), keyword :: behind = short ++ after
      ∧ c.IsFor limit short after
      ∧ ∀ long, c.Longhand long → (Part.declarations p).Written limit (before ++ (long ++ after)) := by
  have hswaps : PartSwaps limit (.declarations p) _ := swaps_of_written h
  have hlength : before.length < (before ++ keyword :: behind).length := by simp
  simpa using hswaps [] noElse_nil before keyword behind (List.append_nil _) hkeyword hlength

/-- A program in which a `for` stands is written with the longhand in its place. -/
theorem written_replaced (hfor : c.IsFor limit short after) (hlong : c.Longhand long)
    (h : (Part.declarations p).Written limit (before ++ (short ++ after))) :
    (Part.declarations p).Written limit (before ++ (long ++ after)) := by
  obtain ⟨keyword, us, rfl, hkeyword⟩ := hfor.shorthand.exists_cons
  obtain ⟨c', short', after', hsplit, hfor', hreplaced⟩ := exists_isFor h hkeyword
  obtain ⟨rfl, rfl⟩ := hfor.unique hfor' hsplit
  exact hreplaced long hlong

variable {n : Nat} {us us' : List Token}

/-- The word `for` in a program that can be read begins a `for`. -/
theorem isFor_of_parseProgram {keyword : Token} {behind : List Token}
    (hus : upToEof us = before ++ keyword :: behind) (hkeyword : keyword.kind = .kwFor)
    (hp : (parseProgram limit n us).result = .ok p) :
    ∃ (c : Clauses) (short after : List Token), keyword :: behind = short ++ after
      ∧ c.IsFor limit short after := by
  have hwritten := written_of_parseProgram hp
  rw [hus] at hwritten
  obtain ⟨c, short, after, hsplit, hfor, -⟩ := exists_isFor hwritten hkeyword
  exact ⟨c, short, after, hsplit, hfor⟩

/-- It is read with the longhand, and the tree is the same but for the numbers. -/
theorem parseProgram_replaced (hfor : c.IsFor limit short after) (hlong : c.Longhand long)
    (hus : upToEof us = before ++ (short ++ after)) (hus' : upToEof us' = before ++ (long ++ after))
    (hp : (parseProgram limit n us).result = .ok p) (n' : Nat) :
    ∃ p', (parseProgram limit n' us').result = .ok p' ∧ Stmt.AlikeEach p' p := by
  have hwritten := written_of_parseProgram hp
  rw [hus] at hwritten
  have hreplaced := written_replaced hfor hlong hwritten
  rw [← hus'] at hreplaced
  exact parseProgram_of_written hreplaced

end

end Lox
