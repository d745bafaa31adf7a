import Lox.Proofs.Indexed.Bounds
import Lox.Proofs.Parsing.Joined

/-!
A program that can be read does not influence what follows it. The tokens after it are read as if they
stood alone, with the numbers that follow, whether they can be read or not (`parseProgram_append`).
The two readings are given different numbers of rounds, which makes no difference because both give
what reading by places gives with more fuel than either.
-/

namespace Lox

namespace Parser

open Lox.Indexed (Follows)

variable {α β : Type}

theorem parse_congr {s s' : Cursor} {p p' : Reading α} (h : p s = p' s') : s.parse p = s'.parse p' := by
  unfold Cursor.parse
  rw [h]

theorem parse_map (k : α → β) (p : Reading α) (s : Cursor) :
    s.parse (k <$> p) = ⟨(s.parse p).result.map k, (s.parse p).nextId⟩ := by
  unfold Cursor.parse
  cases hp : p s with
  | ok a s' =>
    have hk : (k <$> p) s = .ok (k a) s' := by
      rw [map_eq_pure_bind, reading_bind_ok hp]
      rfl
    rw [hk]
    by_cases hfaults : s'.faults = []
    · simp only [hfaults, ↓reduceIte]
      rfl
    · simp only [hfaults, ↓reduceIte]
      rfl
  | error e s' =>
    have hk : (k <$> p) s = .error e s' := by
      rw [map_eq_pure_bind, reading_bind_error hp]
    rw [hk]
    cases e <;> rfl

/-- How many rounds there are for a program makes no difference, if they are enough. -/
theorem parse_allDeclarations (limit : Limit) (n m : Nat) (us : List Token) {rounds : Nat}
    (hrounds : roundsFor us ≤ rounds) (hm : us.length < m) :
    (Cursor.start n us).parse (List.reduceOption <$> upToEnd (declaration limit rounds) m)
      = parseProgram limit n us := by
  have hlength := Indexed.length_start_le n us
  have hdeclaration := (Settles.statements limit rounds us.length).1 (by unfold roundsFor at hrounds; omega)
  have hsettles := (Settles.upTo (fun _ => false) hdeclaration hm).map (f := List.reduceOption)
  have hfuel : rounds ≤ max rounds m := Nat.le_max_left _ _
  exact Indexed.parse_eq_parse n us (.allDeclarations limit hfuel (Nat.le_max_right _ _))
    (.program limit (Nat.le_trans hrounds hfuel)) (hsettles _ hlength)
    (Indexed.program_settles limit hlength)

theorem head?_upToEof {us : List Token} {t : Token} (ht : t ∈ (upToEof us).head?) :
    t ∈ us.head? := by
  cases us with
  | nil => cases ht
  | cons u us =>
    by_cases hu : u.kind = .eof
    · simp [upToEof, hu] at ht
    · simpa [upToEof, hu] using ht

/-- At the end of the first list begins the second one. -/
theorem across_end {s : Cursor} (hrest : s.rest = []) (hfaults : s.faults = []) {ts us : List Token}
    (hts : ∀ t ∈ ts, t.kind ≠ .eof) (hus : us ≠ []) (n : Nat) :
    s.across (.goingOn (upToEof us) (Cursor.start n (ts ++ us)).stop) = Cursor.start s.nextId us := by
  have hstop : (Cursor.start n (ts ++ us)).stop = (Cursor.start s.nextId us).stop := by
    have hnone : ts.find? (·.kind = .eof) = none := by simpa using hts
    simp only [Cursor.start, List.find?_append, hnone, Option.none_or,
      List.getLast?_append_of_ne_nil ts hus]
  rw [Cursor.across, hrest, hfaults, Setting.goingOn, hstop]
  rfl

end Parser

open Lox.Parser

/-- Where the numbering starts makes no difference to the faults. -/
theorem parseProgram_error_iff (limit : Limit) (n m : Nat) (us : List Token)
    (faults : List Diagnostic) :
    (parseProgram limit n us).result = .error faults
      ↔ (parseProgram limit m us).result = .error faults := by
  have hzero (k : Nat) : (parseProgram limit k us).result = .error faults
      ↔ (parseProgram limit 0 us).result = .error faults := by
    rw [← Nat.zero_add k, parseProgram_add]
    cases (parseProgram limit 0 us).result with
    | ok p => simp [Except.map]
    | error faults' => simp [Except.map]
  rw [hzero n, hzero m]

/-- What follows a program that can be read is read as if it stood alone, with the numbers that
follow. -/
theorem parseProgram_append {limit : Limit} {n n' : Nat} {ts us : List Token} {p : Program}
    (hts : ∀ t ∈ ts, t.kind ≠ .eof) (hp : parseProgram limit n ts = ⟨.ok p, n'⟩)
    (hus : ∀ t ∈ us.head?, t.kind ≠ .kwElse) :
    parseProgram limit n (ts ++ us)
        = ⟨(parseProgram limit n' us).result.map (p ++ ·), (parseProgram limit n' us).nextId⟩
      ∧ ∀ m faults, (parseProgram limit n (ts ++ us)).result = .error faults
        ↔ (parseProgram limit m us).result = .error faults := by
  have happend : parseProgram limit n (ts ++ us)
      = ⟨(parseProgram limit n' us).result.map (p ++ ·), (parseProgram limit n' us).nextId⟩ := by
    rcases eq_or_ne us [] with rfl | hne
    · have hnone : parseProgram limit n' [] = ⟨.ok [], n'⟩ := rfl
      rw [List.append_nil, hp, hnone]
      simp [Except.map]
    rw [parseProgram_eq_ok_iff] at hp
    obtain ⟨as, s, has, hs, rfl, rfl⟩ := hp
    let rounds := roundsFor (ts ++ us)
    have hlength : rounds = 4 * (ts.length + us.length) + 8 := by
      simp only [rounds, roundsFor, List.length_append]
    let S := Setting.goingOn (upToEof us) (Cursor.start n (ts ++ us)).stop
    have hclosed : S.Closed True := fun _ t ht => hus t (head?_upToEof ht)
    have hrounds : roundsFor ts ≤ rounds := by
      unfold roundsFor
      omega
    have hfirst := (Parallel.statements limit (roundsFor ts) hclosed ⟨hrounds, False.elim⟩).1
    obtain ⟨-, hend, hcount, -⟩ := hfirst.upToEnd_spec has hs
    have hcount : as.length ≤ ts.length := Nat.le_trans hcount (Indexed.length_start_le n ts)
    obtain ⟨m, hm⟩ : ∃ m, rounds = as.length + m := Nat.exists_eq_add_of_le (by omega)
    have hall := hfirst.upToEnd_eq m has hs
    rw [← hm, ← start_append hts (upToEof_eq_self hts), across_end hend hs hts hne] at hall
    -- the first list has been read, and the rounds that are left are enough for the second one
    have henough : roundsFor us ≤ rounds := by
      unfold roundsFor
      omega
    have hrest := parse_allDeclarations limit s.nextId m us henough (by omega)
    have hkept : (fun bs : List (Option Stmt) =>
          (as.map (Option.map (Stmt.relabel S.relabel)) ++ bs).reduceOption)
        = fun bs => as.reduceOption ++ bs.reduceOption := by
      funext bs
      rw [List.reduceOption_append, reduceOption_relabel]
      exact congrArg (· ++ bs.reduceOption) (Stmt.relabelEach_refl _)
    rw [← hrest, ← parse_map, Functor.map_map, ← hkept, ← Functor.map_map, parseProgram]
    refine parse_congr ?_
    rw [program, ← map_eq_pure_bind]
    exact reading_map_congr List.reduceOption hall
  refine ⟨happend, fun m faults => ?_⟩
  rw [happend, parseProgram_error_iff limit m n']
  cases (parseProgram limit n' us).result with
  | ok q => simp [Except.map]
  | error faults' => simp [Except.map]

/-- A choice that might have taken an `else`, and after it a declaration without a name. -/
theorem parseProgram_append_unnamed :
    let ts : List Token := [⟨.kwIf, "if", 1⟩, ⟨.leftParen, "(", 1⟩, ⟨.identifier, "a", 1⟩,
      ⟨.rightParen, ")", 1⟩, ⟨.identifier, "b", 1⟩, ⟨.semicolon, ";", 1⟩]
    let us : List Token := [⟨.kwVar, "var", 2⟩, ⟨.semicolon, ";", 2⟩, ⟨.identifier, "c", 2⟩]
    let p : Program := [.ifThen (.var 0 ⟨.identifier, "a", 1⟩)
      (.expression (.var 1 ⟨.identifier, "b", 1⟩))]
    (∀ t ∈ ts, t.kind ≠ .eof) ∧ parseProgram {} 0 ts = ⟨.ok p, 2⟩
      ∧ (∀ t ∈ us.head?, t.kind ≠ .kwElse)
      ∧ (parseProgram {} 0 (ts ++ us)).result
        = .error [.grammar ⟨.semicolon, ";", 2⟩ (.expected .variableName),
          .grammar ⟨.eof, "", 2⟩ (.expected .statementEnd)]
      ∧ (parseProgram {} 0 (ts ++ us)).nextId = 3 := by
  intro ts us p
  have hts : ∀ t ∈ ts, t.kind ≠ .eof := by decide
  have hp : parseProgram {} 0 ts = ⟨.ok p, 2⟩ := rfl
  have hus : ∀ t ∈ us.head?, t.kind ≠ .kwElse := by decide
  obtain ⟨happend, hfaults⟩ := parseProgram_append hts hp hus
  refine ⟨hts, hp, hus, (hfaults 7 _).2 rfl, ?_⟩
  rw [happend]
  rfl

end Lox
