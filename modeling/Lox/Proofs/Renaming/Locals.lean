import Lox.Proofs.Renaming.Declarations
import Lox.Proofs.Renaming.Execution
import Lox.Proofs.Renaming.Parsing
import Lox.Proofs.Renaming.Respelling
import Lox.Proofs.Renaming.Scoping
import Lox.Proofs.Session.Joined
import Mathlib.Data.List.Nodup

/-!
The names of local variables do not matter. From a text that all stages accept, and a renaming of local
variables, there is a text that they accept too, with the new name in some places, the same numbers and
the same distances (`Limit.Reads.respelled`), and a fresh session runs it as it does the first one
(`Limit.Reads.run_renamed`). What there is to say about a single variable or parameter follows
(`rename_local`), as its scope declares no other name that is the same.
-/

namespace Lox

section

variable {limit : Limit} {firstId nextId : Nat} {source : String} {p : Program} {d : Distances}

/-! ### Renamings of texts -/

namespace Limit.Reads

/-- The table of a text says what the distances of a renaming of it say. -/
theorem knows (h : limit.Reads firstId source p d nextId) {R : Renaming} (hd : R.distances = d) :
    R.Knows (h.table (.empty firstId) rfl) := by
  rintro id distance ⟨-, hg⟩
  rw [hd, ← hg]
  exact (Distances.getElem?_insertMany_empty d id).symm

/-- A text of the program with the new name, which is accepted with the same distances. -/
theorem respelled (h : limit.Reads firstId source p d nextId) {R : Renaming}
    (hd : R.distances = d) (hu : Stmt.SuitsEach R [] false 0 p)
    (hn : Lexer.Lexeme R.new.toList .identifier) :
    ∃ source', Lexer.Respelled R.old.toList R.new.toList source.toList source'.toList
      ∧ limit.Reads firstId source' (p.rename R) d nextId := by
  obtain ⟨ts, hts, hp⟩ := h.parsed
  obtain ⟨us, hus, hp'⟩ := Renaming.parseProgram_rename (R := R) hp
  obtain ⟨source', htext, hus'⟩ := tokens_respelled hts hn hus
  exact ⟨source', htext, ⟨us, hus', hp'⟩,
    Program.distances_rename (h.knows hd) (h.linked (.empty firstId) rfl) hu h.distances⟩

/-- Fresh sessions run the two texts alike. -/
theorem run_renamed (h : limit.Reads firstId source p d nextId) {R : Renaming}
    (hd : R.distances = d) (hu : Stmt.SuitsEach R [] false 0 p) {source' : String}
    (h' : limit.Reads firstId source' (p.rename R) d nextId) (fuel : Nat) (console : Console)
    (clock : Nat → Float) :
    let s : Session := { limit, nextId := firstId, machine := .fresh console clock }
    (s.run fuel source').1 = (s.run fuel source).1
      ∧ (s.run fuel source').2.machine.toHost = (s.run fuel source).2.machine.toHost := by
  subst hd
  intro s
  have hrun : s.run fuel source = _ := s.run_of_reads h fuel
  have hrun' : s.run fuel source' = _ := s.run_of_reads h' fuel
  rw [hrun, hrun']
  exact Renaming.interpret_rename h hu fuel console clock

/-! ### A single variable or parameter -/

variable {scope : LocalScope} {old new : String}

theorem scope_sound (h : limit.Reads firstId source p d nextId) (hs : scope ∈ p.localScopes) :
    scope.Sound :=
  Stmt.localScopesEach_sound (h.linked (.empty firstId) rfl) scope hs

/-- Another name for a variable or parameter of this scope. -/
def renamingOf (h : limit.Reads firstId source p d nextId) (hs : scope ∈ p.localScopes)
    (ho : old ∈ scope.variableNames) (hn : Lexer.Lexeme new.toList .identifier) : Renaming where
  distances := d
  old := old
  new := new
  chosen place := place = scope.place
  old_ne := (h.scope_sound hs).isName old (scope.variableNames_subset ho)
  new_ne := Lexer.ne_of_identifier hn

theorem suits (h : limit.Reads firstId source p d nextId) (hs : scope ∈ p.localScopes)
    (ho : old ∈ scope.variableNames) (hn : Lexer.Lexeme new.toList .identifier)
    (hf : new ∉ Stmt.namesEach p) :
    Stmt.SuitsEach (h.renamingOf hs ho hn) [] false 0 p := by
  refine ⟨h.made.2.proper, hf, Stmt.sparedEach_of_spares h.made.2.proper nofun ?_⟩
  intro other hother hchosen
  -- The chosen scope is the only one at its place.
  have hsame : other = scope := by
    refine List.inj_on_of_nodup_map (Stmt.localScopesEach_apart [] 0 p).nodup hother hs ?_
    exact of_decide_eq_true hchosen
  rw [hsame]
  exact (h.scope_sound hs).isVariable ho

end Limit.Reads

end

/-- Local names do not matter. If a variable or parameter of a scope gets another name, which does not
occur in the program, in its declaration and where the distances tie an occurrence to that scope, then
all stages accept the text that this gives, with the same numbers and distances; that scope declares
the new name for the old one, and all other declarations stay; and a fresh session gives the same
answer to both texts and uses its console in the same way. -/
theorem rename_local {limit : Limit} {firstId nextId : Nat} {source : String} {p : Program}
    {d : Distances} (h : limit.Reads firstId source p d nextId) {scope : LocalScope}
    (hs : scope ∈ p.localScopes) {old new : String} (ho : old ∈ scope.variableNames)
    (hn : Lexer.Lexeme new.toList .identifier) (hf : new ∉ Stmt.namesEach p) :
    ∃ source', Lexer.Respelled old.toList new.toList source.toList source'.toList
      ∧ limit.Reads firstId source' (p.rename (h.renamingOf hs ho hn)) d nextId
      ∧ List.Forall₂ (LocalScope.Renamed (h.renamingOf hs ho hn)) p.localScopes
        (p.rename (h.renamingOf hs ho hn)).localScopes
      ∧ ∀ (fuel : Nat) (console : Console) (clock : Nat → Float),
        let s : Session := { limit, nextId := firstId, machine := .fresh console clock }
        (s.run fuel source').1 = (s.run fuel source).1
          ∧ (s.run fuel source').2.machine.toHost = (s.run fuel source).2.machine.toHost := by
  have hu := h.suits hs ho hn hf
  obtain ⟨source', htext, h'⟩ := h.respelled rfl hu hn
  exact ⟨source', htext, h', Stmt.localScopesEach_rename hu, h.run_renamed rfl hu h'⟩

/-- The text `fun f(a) ( var b = a; ( var a = b + 1; fun g() ( a = a + b; return a; ) print(g()); )
return a; ) print(f(1));`, with braces for the parentheses around statements. -/
def shadowing : String :=
  "fun f(a) \x7b var b = a; \x7b var a = b + 1; " ++
    "fun g() \x7b a = a + b; return a; \x7d print(g()); \x7d " ++
    "return a; \x7d print(f(1));"

/-- The parameter of a function gets another name, and the variable of that name in a block inside the
function keeps its name. -/
theorem rename_local_shadowing :
    ∃ p d n, ∃ (h : ({} : Limit).Reads 0 shadowing p d n) (scope : LocalScope)
      (hs : scope ∈ p.localScopes) (ho : "a" ∈ scope.variableNames)
      (hn : Lexer.Lexeme "z".toList .identifier),
      scope.place = [0] ∧ "z" ∉ Stmt.namesEach p
        ∧ Stmt.namesEach (p.rename (h.renamingOf hs ho hn))
          = ["f", "z", "b", "z", "a", "b", "g", "a", "a", "b", "a", "print", "g", "z", "print", "f"]
        ∧ (∃ source', Lexer.Respelled ['a'] ['z'] shadowing.toList source'.toList
          ∧ ({} : Limit).Reads 0 source' (p.rename (h.renamingOf hs ho hn)) d n
          ∧ List.Forall₂ (LocalScope.Renamed (h.renamingOf hs ho hn)) p.localScopes
            (p.rename (h.renamingOf hs ho hn)).localScopes
          ∧ ∀ (fuel : Nat) (console : Console) (clock : Nat → Float),
            let s : Session := { machine := .fresh console clock }
            (s.run fuel source').1 = (s.run fuel shadowing).1
              ∧ (s.run fuel source').2.machine.toHost = (s.run fuel shadowing).2.machine.toHost)
        ∧ (((Machine.fresh {} fun _ => 0).addDistances d).interpret 12 p).2.console.output.written.data
          = "31".toUTF8.data := by
  have hrun : ((({} : Limit).read? 0 shadowing).map fun (p, d, _) =>
      (p.localScopes.any fun scope => scope.place = [0] ∧ "a" ∈ scope.variableNames,
      (Stmt.namesEach p).contains "z",
      Stmt.namesEach (p.rename ⟨d, "a", "z", fun place => place = [0], by decide, by decide⟩),
      (((Machine.fresh {} fun _ => 0).addDistances d).interpret 12 p).2.console.output.written.data))
      = some (true, false,
        ["f", "z", "b", "z", "a", "b", "g", "a", "a", "b", "a", "print", "g", "z", "print", "f"],
        "31".toUTF8.data) := by decide +kernel
  obtain ⟨⟨p, d, n⟩, hread, hout⟩ := Option.map_eq_some_iff.1 hrun
  simp only [Prod.mk.injEq, List.any_eq_true, decide_eq_true_eq] at hout
  obtain ⟨⟨⟨place, params, body⟩, hs, rfl, ho⟩, hfresh, hnames, hout⟩ := hout
  have h := Limit.read?_eq_some_iff.1 hread
  have hn : Lexer.Lexeme "z".toList .identifier := .identifier (by decide) nofun (by decide)
  have hf : "z" ∉ Stmt.namesEach p := by simpa using hfresh
  exact ⟨p, d, n, h, ⟨[0], params, body⟩, hs, ho, hn, rfl, hf, hnames,
    rename_local h hs ho hn hf, hout⟩

end Lox
