/-
  The phases of a compilation: a model comes from lexemes, their program and its
  elaboration, and from nothing else; diagnostics come from the first phase that fails.
-/
import ArchScript.Compile
import ArchScript.Proofs.Parser.Programs

namespace ArchScript

/-- A result is found through what is seen of it. -/
theorem exists_ok_of_toOption {ε α β : Type} {r : Except ε α} {f : α → β} {b : β}
    (h : r.toOption.map f = some b) : ∃ a, r = .ok a ∧ f a = b := by
  obtain ⟨a, ha, hb⟩ := Option.map_eq_some_iff.1 h
  cases r with
  | error e => cases ha
  | ok a' =>
    cases ha
    exact ⟨a, rfl, hb⟩

/-- A failure is found through what is seen of it. -/
theorem exists_error_of_seen {ε α β : Type} {r : Except ε α} {f : ε → β} {b : β}
    (h : (match r with | .ok _ => none | .error e => some (f e)) = some b) :
    ∃ e, r = .error e ∧ f e = b := by
  cases r with
  | error e => exact ⟨e, rfl, Option.some.inj h⟩
  | ok a => cases h

/-- A compilation reads the tokens of its source: layout takes no part in it. -/
theorem compile_eq (options : ElaborationOptions) (source : String) : compile options source =
    match tokenize source with
    | .error faults => .error (faults.map LexicalFault.diagnostic)
    | .ok lexemes =>
      match Program.ofTokens (meaningful lexemes) with
      | .error fault => .error [fault.diagnostic (meaningful lexemes)]
      | .ok program =>
        match program.elaborate options with
        | .error violation => .error [violation.diagnostic]
        | .ok model => .ok model := by
  unfold compile
  cases tokenize source with
  | error faults => rfl
  | ok lexemes =>
    dsimp only
    rw [Program.parse_eq]
    cases Program.ofTokens (meaningful lexemes) <;> rfl

/-- A source with a program is found by what is seen of its phases. -/
theorem exists_program (source : String)
    (h : (tokenize source).toOption.map (fun l =>
      (Program.ofTokens (meaningful l)).toOption.map fun _ => ()) = some (some ())) :
    ∃ lexemes p, tokenize source = .ok lexemes ∧
      Program.ofTokens (meaningful lexemes) = .ok p := by
  obtain ⟨lexemes, hlexemes, hseen⟩ := exists_ok_of_toOption h
  obtain ⟨p, hp, _⟩ := exists_ok_of_toOption hseen
  exact ⟨lexemes, p, hlexemes, hp⟩

/-- A source whose letters and grammar are right is the elaboration of its program. -/
theorem compile_of_program {options : ElaborationOptions} {source : String}
    {lexemes : List (Spanned Lexeme)} {p : Program} (h : tokenize source = .ok lexemes)
    (hp : Program.ofTokens (meaningful lexemes) = .ok p) :
    compile options source = (p.elaborate options).mapError fun w => [w.diagnostic] := by
  rw [compile_eq]
  simp only [h, hp]
  cases p.elaborate options <;> rfl

/-- A source has a model when it is cut into lexemes, read as a program and elaborated. -/
theorem compile_eq_ok_iff {options : ElaborationOptions} {source : String} {m : SystemModel} :
    compile options source = .ok m ↔ ∃ lexemes p, tokenize source = .ok lexemes ∧
      Program.ofTokens (meaningful lexemes) = .ok p ∧ p.elaborate options = .ok m := by
  rw [compile_eq]
  constructor
  · intro h
    split at h
    · cases h
    · next lexemes ht =>
      split at h
      · cases h
      · next p hp =>
        split at h
        · cases h
        · next m' hm =>
          cases h
          exact ⟨lexemes, p, ht, hp, hm⟩
  · rintro ⟨lexemes, p, ht, hp, hm⟩
    simp only [ht, hp, hm]

/-- A source has diagnostics for its lexical faults, for a syntax fault or for a violation. -/
theorem compile_eq_error_iff {options : ElaborationOptions} {source : String}
    {ds : List Diagnostic} : compile options source = .error ds ↔
      (∃ fs, tokenize source = .error fs ∧ ds = fs.map LexicalFault.diagnostic) ∨
      (∃ lexemes f, tokenize source = .ok lexemes ∧
        Program.ofTokens (meaningful lexemes) = .error f ∧
        ds = [f.diagnostic (meaningful lexemes)]) ∨
      ∃ lexemes p w, tokenize source = .ok lexemes ∧
        Program.ofTokens (meaningful lexemes) = .ok p ∧ p.elaborate options = .error w ∧
        ds = [w.diagnostic] := by
  rw [compile_eq]
  constructor
  · intro h
    split at h
    · next fs ht =>
      cases h
      exact Or.inl ⟨fs, ht, rfl⟩
    · next lexemes ht =>
      split at h
      · next f hf =>
        cases h
        exact Or.inr (Or.inl ⟨lexemes, f, ht, hf, rfl⟩)
      · next p hp =>
        split at h
        · next w hw =>
          cases h
          exact Or.inr (Or.inr ⟨lexemes, p, w, ht, hp, hw, rfl⟩)
        · cases h
  · rintro (⟨fs, ht, rfl⟩ | ⟨lexemes, f, ht, hf, rfl⟩ | ⟨lexemes, p, w, ht, hp, hw, rfl⟩)
    · simp only [ht]
    · simp only [ht, hf]
    · simp only [ht, hp, hw]

end ArchScript
