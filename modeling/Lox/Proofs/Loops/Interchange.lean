import Lox.Proofs.Loops.Replaced
import Lox.Proofs.Session.Alike
import Mathlib.Data.List.TakeWhile

/-!
A `for` is another way to write a `while`. In a program that is accepted, wherever the word is, there
is a `for` with its clauses (`isFor_of_parseProgram`), and its longhand may stand instead
(`for_interchangeable`): the tree that is read is the same but for the numbers, the program is still
accepted, and it prints the same and gives the same answer but for lines.
-/

namespace Lox

open Lox.Parser Lox.Grammar

section

variable {limit : Limit} {c : Clauses} {short long before after : List Token}

/-- There is no end of program among tokens that are the same as some before the end. -/
theorem upToEof_of_sameTokens {ts us : List Token} (h : SameTokens ts (upToEof us)) :
    upToEof ts = ts := by
  refine upToEof_eq_self fun t ht => ?_
  have hmem : t.relabel .oneLine ∈ (upToEof us).map (Token.relabel .oneLine) :=
    h ▸ List.mem_map_of_mem ht
  obtain ⟨u, hu, hut⟩ := List.mem_map.1 hmem
  have hkind := congrArg Token.kind hut
  rw [Token.relabel_kind, Token.relabel_kind] at hkind
  have hne := List.mem_takeWhile_imp hu
  rw [← hkind]
  exact of_decide_eq_true hne

/-- The longhand is read as the same program, on whatever lines it is written. -/
theorem readsAlike_replaced (hfor : c.IsFor limit short after) (hlong : c.Longhand long)
    {source source' : String} {us us' : List Token} (hus : tokens source = .ok us)
    (hsplit : upToEof us = before ++ (short ++ after)) (hus' : tokens source' = .ok us')
    (hsame : SameTokens (before ++ (long ++ after)) (upToEof us')) :
    limit.ReadsAlike source source' := by
  refine ⟨us', hus', fun ts n p hts hp => ?_⟩
  obtain rfl : us = ts := Except.ok.inj (hus.symm.trans hts)
  have hlonghand := upToEof_of_sameTokens hsame
  obtain ⟨q, hq, halike⟩ := parseProgram_replaced hfor hlong hsplit hlonghand hp n
  rw [← hlonghand] at hsame
  obtain ⟨p', hp', htext⟩ := parseProgram_sameTokens hsame hq n
  exact ⟨p', hp', (Program.SameText.of_alikeEach halike).symm.trans htext⟩

/-- A `for` and its longhand are interchangeable. With the one for the other the same tokens are read as
the same tree but for the numbers. Of two sources that differ in this, and in the lines on which their
tokens are, the second one is accepted if the first one is, and then they use the host in the same way
in every run, and give the same answer but for lines. -/
theorem for_interchangeable (before : List Token) (hfor : c.IsFor limit short after)
    (hlong : c.Longhand long) :
    (∀ us us' n n' p, upToEof us = before ++ (short ++ after) →
        upToEof us' = before ++ (long ++ after) → (parseProgram limit n us).result = .ok p →
        ∃ p', (parseProgram limit n' us').result = .ok p' ∧ Stmt.AlikeEach p' p)
      ∧ ∀ source source' us us', tokens source = .ok us → upToEof us = before ++ (short ++ after) →
        tokens source' = .ok us' → SameTokens (before ++ (long ++ after)) (upToEof us') →
        limit.Accepts source →
        limit.Accepts source' ∧ ∀ s : Session, s.Reachable → s.limit = limit → ∀ fuel,
          (s.run fuel source).1.SameText (s.run fuel source').1
            ∧ (s.run fuel source').2.machine.toHost = (s.run fuel source).2.machine.toHost := by
  constructor
  · intro us us' n n' p hus hus' hp
    exact parseProgram_replaced hfor hlong hus hus' hp n'
  · intro source source' us us' hus hsplit hus' hsame haccepts
    have halike := readsAlike_replaced hfor hlong hus hsplit hus' hsame
    refine ⟨haccepts.alike halike, ?_⟩
    rintro s hs rfl fuel
    exact hs.run_alike haccepts halike fuel

end

/-- A loop that runs once. Its body would take an `else`. -/
def runningOnce : String :=
  "for (var i = true; i; i = false) if (i) println(i);"

/-- Its longhand, on lines of its own. -/
def runningOnceLonghand : String :=
  "\x7b var i = true;\n while (i) \x7b\n if (i) println(i);\n i = false; \x7d \x7d"

/-- Both are accepted and print the same. -/
theorem for_interchangeable_runningOnce :
    let s : Session := { machine := .fresh {} fun _ => 0 }
    (s.limit.Accepts runningOnce ∧ s.limit.Accepts runningOnceLonghand)
      ∧ (s.run 20 runningOnceLonghand).2.machine.console.output.written.data = "true\n".toUTF8.data
      ∧ ∀ fuel, (s.run fuel runningOnce).1.SameText (s.run fuel runningOnceLonghand).1
        ∧ (s.run fuel runningOnceLonghand).2.machine.toHost
          = (s.run fuel runningOnce).2.machine.toHost := by
  intro s
  let t (kind : Kind) (lexeme : String) : Token := ⟨kind, lexeme, 1⟩
  let initializer : List Token := [t .kwVar "var", t .identifier "i", t .equal "=",
    t .kwTrue "true", t .semicolon ";"]
  let condition : List Token := [t .identifier "i"]
  let increment : List Token := [t .identifier "i", t .equal "=", t .kwFalse "false"]
  let body : List Token := [t .kwIf "if", t .leftParen "(", t .identifier "i", t .rightParen ")",
    t .identifier "println", t .leftParen "(", t .identifier "i", t .rightParen ")",
    t .semicolon ";"]
  let c : Clauses := ⟨some initializer, some condition, some increment, body⟩
  let short : List Token := t .kwFor "for" :: t .leftParen "(" :: (initializer ++ (condition ++
    t .semicolon ";" :: (increment ++ t .rightParen ")" :: body)))
  let round : List Token := t .leftBrace "\x7b" :: (body ++ (increment ++
    [t .semicolon ";", t .rightBrace "\x7d"]))
  let loop : List Token := t .kwWhile "while" :: t .leftParen "(" :: (condition ++
    t .rightParen ")" :: round)
  let long : List Token := t .leftBrace "\x7b" :: (initializer ++ (loop ++
    [t .rightBrace "\x7d"]))
  have hblank : (t .semicolon ";").kind = .semicolon := rfl
  have hshort : c.Shorthand short := .mk rfl rfl hblank rfl rfl
  have hlong : c.Longhand long :=
    .starting rfl rfl (.mk rfl rfl (.given rfl) rfl (.counting rfl rfl rfl rfl)) rfl
  have hcallee {e : Expr} {ts : List Token} (h : (Phrase.call e).Written {} ts) :
      (Phrase.expression e).Written {} ts := .loosest (.operation_of_call h (Nat.zero_le _))
  have hi : (Phrase.expression (.var 0 (t .identifier "i"))).Written {} [t .identifier "i"] :=
    hcallee (.var 0 rfl)
  have hcall : (Phrase.expression (.call 0 (.var 0 (t .identifier "println")) (t .rightParen ")")
      [.var 0 (t .identifier "i")])).Written {} ([t .identifier "println"] ++ t .leftParen "(" ::
        ([t .identifier "i"] ++ [t .rightParen ")"])) :=
    hcallee (.call 0 (.var 0 rfl) rfl (.arguments (.entry hi) fun _ => by decide) rfl)
  have hc : c.Written {} _ _ _ true _ :=
    ⟨.some (.declaring rfl (.initialized rfl rfl (hcallee (.literal 0 rfl)) rfl)), .some hi,
      .some (.assign 0 rfl rfl (hcallee (.literal 0 rfl))),
      .ifThen rfl rfl hi rfl (.expression hcall rfl)⟩
  have hfor : c.IsFor s.limit short [] := ⟨hshort, _, _, _, _, _, hc, fun _ => noElse_nil⟩
  have hus : tokens runningOnce = .ok (short ++ [t .eof ""]) := by decide +kernel
  have hsame : (tokens runningOnceLonghand).map (fun us => (upToEof us).map (Token.relabel .oneLine))
      = .ok (long.map (Token.relabel .oneLine)) := by decide +kernel
  have haccepts : s.limit.Accepts runningOnce := by decide +kernel
  cases hus' : tokens runningOnceLonghand with
  | error faults =>
    rw [hus'] at hsame
    cases hsame
  | ok us' =>
    rw [hus'] at hsame
    have hlonghand : SameTokens ([] ++ (long ++ [])) (upToEof us') := (Except.ok.inj hsame).symm
    obtain ⟨-, hrun⟩ := for_interchangeable [] hfor hlong
    obtain ⟨haccepts', hsession⟩ := hrun runningOnce runningOnceLonghand _ us' hus rfl hus' hlonghand
      haccepts
    exact ⟨⟨haccepts, haccepts'⟩, by decide +kernel, hsession s (.fresh {} {} fun _ => 0) rfl⟩

end Lox
