/-
  Two sources, one after the other.

  The tokens of `a`, a line break and `b` are those of `a`, then those of `b`, moved back
  (`tokenize_append_line`). A program is read before what is behind it, so the statements are
  those of `a`, then those of `b` (`ofTokens_append_line`), and the walk over them does what the
  walk over `a` does first. `compile_append_line` puts the three together.
-/
import ArchScript.Proofs.Concatenation.Lexemes
import ArchScript.Proofs.Concatenation.Scopes
import ArchScript.Proofs.Layout.Readers

namespace ArchScript

/-! ## Spans that stay where they are -/

theorem map_moved_id {α : Type} (xs : List (Spanned α)) : xs.map (Spanned.moved id) = xs :=
  List.map_id xs

theorem StepDecl.moved_id (x : StepDecl) : x.moved id = x := by
  cases x with
  | request kind source target message => cases message <;> rfl
  | response requester responder message => cases message <;> rfl
  | transfer kind left right message => rfl

theorem Statement.IsFlat.moved_id {x : Statement} (h : x.IsFlat) : x.moved id = x := by
  cases x with
  | actor d =>
    simp only [Statement.moved, ActorDecl.moved, map_moved_id]
    rfl
  | note d => rfl
  | assignment d =>
    simp only [Statement.moved, Assignment.moved, map_moved_id]
    rfl
  | call d =>
    obtain ⟨kind, source, target, text⟩ := d
    cases text <;> rfl
  | flow d => rfl
  | «annotation» d =>
    have hproperties : d.properties.map (PropertyDecl.moved id) = d.properties := List.map_id _
    simp only [Statement.moved, AnnotationDef.moved, hproperties]
    rfl
  | scenario d =>
    have hsteps : d.steps.map (movedStep id) = d.steps :=
      List.map_id'' (fun x => by rw [movedStep, x.value.moved_id]; rfl) _
    simp only [Statement.moved, ScenarioDef.moved, hsteps]
    rfl
  | container head inner => exact h.elim

theorem Program.moved_id (p : Program) : p.moved id = p := by
  unfold moved
  induction p using Program.induction with
  | nil => rfl
  | flat x span xs hx ih =>
    rw [movedAll, hx.moved_id, ih]
    rfl
  | container head inner span xs ih₁ ih₂ =>
    rw [movedAll, Statement.moved, ih₁, ih₂]
    rfl

/-! ## Programs -/

/-- Tokens that stay where they are, with others behind them. -/
def Embedding.before (us : Tokens) : Embedding where
  place := id
  place_union _ _ := rfl
  behind := us

/-- Tokens that are moved back by `n` bytes, with none behind them. -/
def Embedding.shifted (n : Nat) : Embedding where
  place := .shift n
  place_union := Span.shift_union n
  behind := []

theorem Program.ofTokens_shifted {ts : Tokens} {p : Program} (h : Program.ofTokens ts = .ok p)
    (n : Nat) :
    Program.ofTokens (ts.map (Spanned.moved (Span.shift n))) = .ok (p.moved (Span.shift n)) := by
  unfold ofTokens at h
  have hread := Embedding.readProgram_tokens (e := .shifted n) rfl ts
  rw [h, Embedding.tokens_of_behind rfl] at hread
  exact hread

/-- The tokens of two programs are the statements of the first, then those of the second. -/
theorem Program.ofTokens_append {ts us : Tokens} {p q : Program} (hp : Program.ofTokens ts = .ok p)
    (hq : Program.ofTokens us = .ok q) : Program.ofTokens (ts ++ us) = .ok (p ++ q) := by
  have hread := Embedding.readProgram_append (e := .before us) hp
  have htokens : (Embedding.before us).tokens ts = ts ++ us := congrArg (· ++ us) (map_moved_id ts)
  have hbehind : Reader.readProgram (Embedding.before us).behind = .ok q := hq
  have hplace : p.moved (Embedding.before us).place = p := p.moved_id
  rw [htokens, hbehind, hplace] at hread
  exact hread

/-! ## Sources -/

/-- The statements of two sources with a line break between them. -/
theorem ofTokens_append_line {a b : String} {la lb : List (Spanned Lexeme)} {p q : Program}
    (ha : tokenize a = .ok la) (hp : Program.ofTokens (meaningful la) = .ok p)
    (hb : tokenize b = .ok lb) (hq : Program.ofTokens (meaningful lb) = .ok q) :
    ∃ lexemes, tokenize (a ++ "\n" ++ b) = .ok lexemes ∧
      Program.ofTokens (meaningful lexemes) =
        .ok (p ++ q.moved (Span.shift (a.utf8ByteSize + 1))) := by
  refine ⟨_, tokenize_append_line ha hb, ?_⟩
  rw [meaningful_append_line]
  exact Program.ofTokens_append hp (Program.ofTokens_shifted hq _)

/-- Of two sources that are both cut into lexemes and read as programs, one after the other on a
line of its own, the statements are those of the first and then those of the second, moved back.
So what is wrong with the first is what is wrong with both, and if both together have a model, the
first has one whose ids and scenarios come first in it. -/
theorem compile_append_line {a b : String} {la lb : List (Spanned Lexeme)} {p q : Program}
    (ha : tokenize a = .ok la) (hp : Program.ofTokens (meaningful la) = .ok p)
    (hb : tokenize b = .ok lb) (hq : Program.ofTokens (meaningful lb) = .ok q) :
    (∃ lexemes, tokenize (a ++ "\n" ++ b) = .ok lexemes ∧
      Program.ofTokens (meaningful lexemes) =
        .ok (p ++ q.moved (Span.shift (a.utf8ByteSize + 1)))) ∧
    (∀ options ds, compile options a = .error ds → compile options (a ++ "\n" ++ b) = .error ds) ∧
    ∀ options n, compile options (a ++ "\n" ++ b) = .ok n →
      ∃ m, compile options a = .ok m ∧ m.Begins n := by
  obtain ⟨lexemes, hlexemes, hread⟩ := ofTokens_append_line ha hp hb hq
  refine ⟨⟨lexemes, hlexemes, hread⟩, fun options ds h => ?_, fun options n h => ?_⟩
  · -- letters and grammar are right, so the diagnostic is that of a violation
    rw [compile_of_program ha hp] at h
    rw [compile_of_program hlexemes hread]
    cases hw : p.elaborate options with
    | ok m =>
      rw [hw] at h
      cases h
    | error w =>
      rw [hw] at h
      rw [Program.elaborate_append_of_error hw]
      exact h
  · obtain ⟨_, _, hl, hr, hn⟩ := compile_eq_ok_iff.1 h
    obtain rfl := Except.ok.inj (hlexemes.symm.trans hl)
    obtain rfl := Except.ok.inj (hread.symm.trans hr)
    obtain ⟨m, hm, hbegins⟩ := Program.elaborate_append hn
    exact ⟨m, compile_eq_ok_iff.2 ⟨la, p, ha, hp, hm⟩, hbegins⟩

/-- Two actors and a channel, with a comment at the end. -/
def opening : String := "user 'U' as u; agent 'A' as a; u -('x')-> a; // and"

/-- A note on an actor that nobody declares before it, with a comment at the end. -/
def astray : String := "note for b: 'n'; // below"

/-- A container with a new actor, and with one of the opening's again. -/
def sequel : String :=
  "container 'C' as c \x7b agent 'B' as b agent 'A' as a b -('y')-> a \x7d;"

/-- What the opening declares stays first, the actor that moves into the container included. The
note stays wrong, though its actor is declared below it. -/
theorem compile_append_line_sequel :
    (∃ m n, compile .default opening = .ok m ∧
      compile .default (opening ++ "\n" ++ sequel) = .ok n ∧ m.Begins n ∧
      m.actors.map (fun x => (x.id, x.container)) = [("u", none), ("a", none)] ∧
      n.actors.map (fun x => (x.id, x.container)) =
        [("u", none), ("a", some "c"), ("b", some "c")]) ∧
    ∃ d, compile .default astray = .error [d] ∧
      compile .default (astray ++ "\n" ++ sequel) = .error [d] := by
  obtain ⟨_, _, ha, hp⟩ := exists_program opening (by decide +kernel)
  obtain ⟨_, _, ha', hp'⟩ := exists_program astray (by decide +kernel)
  obtain ⟨_, _, hb, hq⟩ := exists_program sequel (by decide +kernel)
  obtain ⟨_, _, hbegins⟩ := compile_append_line ha hp hb hq
  obtain ⟨_, hfails, _⟩ := compile_append_line ha' hp' hb hq
  obtain ⟨n, hn, hactors⟩ := exists_ok_of_toOption
    (r := compile .default (opening ++ "\n" ++ sequel))
    (f := fun n => n.actors.map fun x => (x.id, x.container))
    (b := [("u", none), ("a", some "c"), ("b", some "c")]) (by decide +kernel)
  obtain ⟨m, hm, hmn⟩ := hbegins .default n hn
  obtain ⟨m', hm', hactors'⟩ := exists_ok_of_toOption (r := compile .default opening)
    (f := fun m => m.actors.map fun x => (x.id, x.container))
    (b := [("u", none), ("a", none)]) (by decide +kernel)
  obtain rfl := Except.ok.inj (hm.symm.trans hm')
  obtain ⟨ds, hds, hone⟩ := exists_error_of_seen (r := compile .default astray)
    (f := List.length) (b := 1) (by decide +kernel)
  obtain ⟨d, rfl⟩ := List.length_eq_one_iff.1 hone
  exact ⟨⟨m, n, hm, hn, hmn, hactors', hactors⟩, d, hds, hfails .default [d] hds⟩

end ArchScript
