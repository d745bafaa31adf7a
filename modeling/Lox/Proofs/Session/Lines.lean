import Lox.Proofs.Lexing.Scanner
import Lox.Proofs.Parsing.Joined
import Lox.Proofs.Scoping.Relabeled
import Lox.Proofs.Session.Numbering
import Lox.Proofs.Session.Relabeled

/-!
The lines that faults point at. Every token of a text is on one of its lines (`Lexer.items_lines`).
No stage after that makes up a line: what it does is the same on other lines, and so it gives nothing
that would change with a line that its input does not have. The lines in the input are given by a set,
and a relabelling that keeps those changes neither the diagnostics of a run (`Session.run_kept`) nor
what the run leaves in the store. So each line in a diagnostic is one of the sources run so far
(`Session.lines_within_sources`).
-/

namespace Lox

/-- A line that the text has, the first one being 1. -/
def IsLineOf (source : String) (line : Nat) : Prop :=
  1 ≤ line ∧ line ≤ 1 + source.toList.count '\n'

theorem isLineOf_one (source : String) : IsLineOf source 1 :=
  ⟨Nat.le_refl 1, Nat.le_add_right 1 _⟩

/-! ### Lines of tokens -/

namespace Lexer

/-- A piece is on the line of its last character. -/
theorem Piece.line_of_mem {piece : Piece} {taken : List Char} {line : Nat} {item : Item}
    (h : item ∈ piece.item? taken line) : item.line = line := by
  cases piece <;> cases h <;> rfl

/-- Pieces are on lines between that of the start and that of the end of the text. -/
theorem itemsFrom_lines (line : Nat) (cs : List Char) :
    ∀ item ∈ itemsFrom line cs, line ≤ item.line ∧ item.line ≤ line + cs.count '\n' := by
  induction line, cs using itemsFrom.induct with
  | case1 line =>
    intro item hitem
    rw [itemsFrom, List.mem_singleton] at hitem
    subst hitem
    exact ⟨Nat.le_refl _, Nat.le_add_right _ _⟩
  | case2 line c cs taken last ih =>
    have hcount : taken.count '\n' + (cs.drop (front c cs).2).count '\n'
        = (c :: cs).count '\n' := by
      rw [← List.count_append, List.cons_append, List.take_append_drop]
    have hlast : last = line + taken.count '\n' := rfl
    intro item hitem
    rw [itemsFrom] at hitem
    rcases List.mem_append.1 hitem with hitem | hitem
    · have hline := Piece.line_of_mem (Option.mem_toList.1 hitem)
      change item.line = last at hline
      omega
    · have hrest := ih item hitem
      omega

theorem items_lines (source : String) : ∀ item ∈ items source, IsLineOf source item.line :=
  itemsFrom_lines 1 source.toList

end Lexer

/-! ### Relabellings that keep some lines -/

/-- The relabelling changes no line of the set, and no number. -/
structure Relabel.KeepsLines (g : Relabel) (lines : Nat → Prop) : Prop where
  line : ∀ l, lines l → g.line l = l
  number : g.number = id

section

variable {g : Relabel} {lines : Nat → Prop}

theorem Relabel.KeepsLines.mono {more : Nat → Prop} (h : g.KeepsLines more)
    (hmore : ∀ l, lines l → more l) : g.KeepsLines lines :=
  ⟨fun l hl => h.line l (hmore l hl), h.number⟩

theorem Diagnostic.relabel_line? (d : Diagnostic) : (d.relabel g).line? = d.line?.map g.line := by
  cases d <;> rfl

/-- A line that is changed by no relabelling that keeps the lines of the set is one of them. -/
theorem Diagnostic.line_mem_of_kept {faults : List Diagnostic}
    (h : ∀ g : Relabel, g.KeepsLines lines → faults.map (Diagnostic.relabel g) = faults)
    {d : Diagnostic} (hd : d ∈ faults) {line : Nat} (hline : d.line? = some line) : lines line := by
  by_contra hout
  -- the relabelling that moves this one line
  let g : Relabel := .lines fun l => if l = line then l + 1 else l
  have hg : g.KeepsLines lines := by
    refine ⟨fun l hl => if_neg ?_, rfl⟩
    rintro rfl
    exact hout hl
  have hkept : d.relabel g = d := by
    have hmap : faults.map (Diagnostic.relabel g) = faults.map id := by rw [h g hg, List.map_id]
    exact List.map_inj_left.1 hmap d hd
  have hmoved := d.relabel_line? (g := g)
  rw [hkept, hline, Option.map_some] at hmoved
  have hsame : line = if line = line then line + 1 else line := Option.some.inj hmoved
  rw [if_pos rfl] at hsame
  omega

theorem Token.map_relabel_kept (hg : g.KeepsLines lines) {ts : List Token}
    (hts : ∀ t ∈ ts, lines t.line) : ts.map (Token.relabel g) = ts := by
  have hmap : ts.map (Token.relabel g) = ts.map id := by
    refine List.map_congr_left fun t ht => ?_
    rw [Token.relabel, hg.line t.line (hts t ht)]
    rfl
  rw [hmap, List.map_id]

theorem Diagnostic.map_relabel_kept (hg : g.KeepsLines lines) {faults : List Diagnostic}
    (hfaults : ∀ d ∈ faults, ∀ line, d.line? = some line → lines line) :
    faults.map (Diagnostic.relabel g) = faults := by
  have hmap : faults.map (Diagnostic.relabel g) = faults.map id := by
    refine List.map_congr_left fun d hd => ?_
    have hline := hfaults d hd
    cases d with
    | lexical line _ | runtime line _ => rw [Diagnostic.relabel, hg.line line (hline line rfl)]; rfl
    | grammar t _ | static t _ =>
      rw [Diagnostic.relabel, Token.relabel, hg.line t.line (hline t.line rfl)]
      rfl
    | output _ => rfl
  rw [hmap, List.map_id]

/-! ### The stages -/

theorem tokens_lines {source : String} {ts : List Token} (h : tokens source = .ok ts) :
    ∀ t ∈ ts, IsLineOf source t.line := by
  obtain ⟨-, rfl⟩ := tokens_eq_ok_iff.1 h
  intro t ht
  obtain ⟨item, hitem, hi⟩ := List.mem_filterMap.1 ht
  have hline := Lexer.items_lines source item hitem
  cases item <;> cases hi
  exact hline

theorem tokens_error_lines {source : String} {faults : List Diagnostic}
    (h : tokens source = .error faults) :
    ∀ d ∈ faults, ∀ line, d.line? = some line → IsLineOf source line := by
  simp only [tokens] at h
  split at h
  · cases h
  · cases h
    intro d hd line hl
    obtain ⟨item, hitem, hi⟩ := List.mem_filterMap.1 hd
    have hline := Lexer.items_lines source item hitem
    cases item <;> cases hi
    cases hl
    exact hline

/-- A program that is read from tokens on lines of the set has no other lines, nor have the faults. -/
theorem parseProgram_kept (hg : g.KeepsLines lines) (hone : lines 1) (limit : Limit) (n : Nat)
    {ts : List Token} (hts : ∀ t ∈ ts, lines t.line) :
    (parseProgram limit n ts).relabel g = parseProgram limit n ts := by
  have hnumber : ∀ n, g.number (n + 1) = g.number n + 1 := by simp [hg.number]
  have h := parseProgram_relabel limit n ts hnumber (hg.line 1 hone)
  rw [Token.map_relabel_kept hg hts, hg.number] at h
  exact h.symm

/-- The faults that are found in such a program have no other lines either. -/
theorem Program.distances_kept (hg : g.KeepsLines lines) {p : Program}
    (hp : Stmt.relabelEach g p = p) {faults : List Diagnostic} (h : p.distances = .error faults) :
    faults.map (Diagnostic.relabel g) = faults := by
  have hinjective : Function.Injective g.number := hg.number ▸ Function.injective_id
  have hrelabeled := p.distances_relabel g hinjective
  rw [hp, h] at hrelabeled
  exact Eq.symm hrelabeled

/-- All lines in the store are in the set: those where functions are declared, and those in their
bodies. -/
def Machine.OnLines (m : Machine) (lines : Nat → Prop) : Prop :=
  ∀ g : Relabel, g.KeepsLines lines → m.store.relabel g = m.store

theorem Machine.OnLines.relabeled {m : Machine} (h : m.OnLines lines) (hg : g.KeepsLines lines) :
    m.Relabeled g m where
  host := rfl
  store := (h g hg).symm
  environment := rfl
  distances := fun id => by
    show m.distances[g.number id]? = m.distances[id]?
    rw [hg.number, id_eq]
  nextIdentity := rfl

theorem Machine.fresh_onLines (console : Console) (clock : Nat → Float) :
    (Machine.fresh console clock).OnLines lines := by
  intro g _
  show Store.relabel g { scopes := #[Machine.initialGlobals] } = _
  simp [Store.recode, Bindings.mapValues, Machine.initialGlobals, Value.recode, Machine.fresh]

end

/-! ### Runs -/

namespace Session

variable {s : Session} {source : String} {lines : Nat → Prop}

/-- A run of a source on lines of the set changes with no other line: neither does its answer, nor
what it leaves in the store. -/
theorem run_kept (hs : s.machine.OnLines lines) (hsource : ∀ l, IsLineOf source l → lines l)
    (fuel : Nat) {g : Relabel} (hg : g.KeepsLines lines) :
    (s.run fuel source).1.relabel g = (s.run fuel source).1
      ∧ (s.run fuel source).2.machine.store.relabel g = (s.run fuel source).2.machine.store := by
  unfold Session.run runBy Session.parse
  cases hts : tokens source with
  | error faults =>
    have hfaults := Diagnostic.map_relabel_kept hg fun d hd l hl =>
      hsource l (tokens_error_lines hts d hd l hl)
    exact ⟨congrArg Answer.failure hfaults, hs g hg⟩
  | ok ts =>
    have hparsed := parseProgram_kept hg (hsource 1 (isLineOf_one source)) s.limit s.nextId
      fun t ht => hsource _ (tokens_lines hts t ht)
    have hresult := congrArg Parser.Parsed.result hparsed
    unfold Parser.Parsed.relabel at hresult
    dsimp only at hresult ⊢
    generalize (parseProgram s.limit s.nextId ts).result = result at hresult
    generalize (parseProgram s.limit s.nextId ts).nextId = n
    cases result with
    | error faults =>
      injection hresult with hfaults
      exact ⟨congrArg Answer.failure hfaults, hs g hg⟩
    | ok p =>
      injection hresult with hp
      dsimp only [runProgramBy]
      cases hd : p.distances with
      | error faults =>
        exact ⟨congrArg Answer.failure (p.distances_kept hg hp hd), hs g hg⟩
      | ok d =>
        have hs' : (s.machine.addDistances d).OnLines lines := hs
        obtain ⟨hanswer, hmachine⟩ :=
          (hs'.relabeled hg).interpret (.refl True fuel) p (.inl trivial)
        rw [hp] at hanswer hmachine
        exact ⟨hanswer.symm, hmachine.store.symm⟩

/-- The lines of all sources. -/
def LineOfAny (sources : List String) (line : Nat) : Prop :=
  ∃ source ∈ sources, IsLineOf source line

/-- After any runs, the lines in the store are those of their sources. -/
theorem after_onLines (hs : s.machine.OnLines lines) (runs : List (Nat × String))
    (hruns : ∀ entry ∈ runs, ∀ l, IsLineOf entry.2 l → lines l) :
    (s.after runs).machine.OnLines lines := by
  induction runs generalizing s with
  | nil => exact hs
  | cons entry rest ih =>
    have hsource := hruns entry List.mem_cons_self
    exact ih (fun g hg => (run_kept hs hsource entry.1 hg).2)
      fun later hlater => hruns later (List.mem_cons_of_mem _ hlater)

/-- Every line in a diagnostic of a run is one of a source run so far, however the runs before it ended;
in a fresh session it is one of the source itself. -/
theorem lines_within_sources (limit : Limit) (console : Console) (clock : Nat → Float)
    (runs : List (Nat × String)) (fuel : Nat) (source : String) {faults : List Diagnostic}
    (h : ((({ limit, machine := .fresh console clock } : Session).after runs).run fuel source).1
      = .failure faults) :
    ∀ d ∈ faults, ∀ line, d.line? = some line →
      (∃ source' ∈ source :: runs.map Prod.snd, IsLineOf source' line)
        ∧ (runs = [] → IsLineOf source line) := by
  let fresh : Session := { limit, machine := .fresh console clock }
  have hstore : (fresh.after runs).machine.OnLines (LineOfAny (source :: runs.map Prod.snd)) :=
    after_onLines (Machine.fresh_onLines console clock) runs fun entry hentry l hl =>
      ⟨entry.2, List.mem_cons_of_mem _ (List.mem_map_of_mem hentry), hl⟩
  have hkept : ∀ g : Relabel, g.KeepsLines (LineOfAny (source :: runs.map Prod.snd)) →
      faults.map (Diagnostic.relabel g) = faults := by
    intro g hg
    have hanswer := (run_kept hstore (fun l hl => ⟨source, List.mem_cons_self, hl⟩) fuel hg).1
    rw [h] at hanswer
    injection hanswer
  intro d hd line hline
  have hline := Diagnostic.line_mem_of_kept hkept hd hline
  refine ⟨hline, ?_⟩
  rintro rfl
  obtain ⟨source', hsource', hl⟩ := hline
  rw [List.map_nil, List.mem_singleton] at hsource'
  exact hsource' ▸ hl

/-- A function of the first run fails in the second one, on a line that only the first source has. -/
theorem lines_within_sources_calling :
    ((({ limit := {}, machine := .fresh {} fun _ => 0 } : Session).after
        [(20, "fun negate(x) \x7b\n\n  return -x;\n\x7d")]).run 20 "negate(nil);").1
      = .failure [.runtime 3 .operandNotNumber]
    ∧ ¬ IsLineOf "negate(nil);" 3
    ∧ ∃ source' ∈ ["negate(nil);", "fun negate(x) \x7b\n\n  return -x;\n\x7d"], IsLineOf source' 3 := by
  have hrun : ((({ limit := {}, machine := .fresh {} fun _ => 0 } : Session).after
      [(20, "fun negate(x) \x7b\n\n  return -x;\n\x7d")]).run 20 "negate(nil);").1
      = .failure [.runtime 3 .operandNotNumber] := by
    decide +kernel
  refine ⟨hrun, fun h => ?_, ?_⟩
  · exact absurd h.2 (by decide)
  · exact (lines_within_sources {} {} (fun _ => 0) _ 20 _ hrun _ List.mem_cons_self 3 rfl).1

end Session

end Lox
