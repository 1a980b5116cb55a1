/-
  The readers of blocks, statements and programs as equations.

  A block of properties, of steps or of statements is read by one loop (`blockFrom`). The
  readers of statements and bodies carry proofs that they end; `statementOf` and `bodyOf` are
  the same readers without them, and `statementOf_container`, `bodyOf_eq` and
  `readProgram_eq` say what they read. A later proof opens these equations and not the
  recursion.
-/
import ArchScript.Program.Reader

namespace ArchScript

namespace Reader

variable {α : Type}

/-! ## Blocks -/

/-- What is read of a block at `ts` when an item reader gives `r` there: nothing where no item
begins, or the item and what `more` reads after it. -/
def blockFrom (ts : Tokens) (r : Read (Option (α × Tokens)))
    (more : Tokens → Read (List α × Tokens)) : Read (List α × Tokens) :=
  match r with
  | .error x => .error x
  | .ok none => .ok ([], ts)
  | .ok (some p) => more (skipSemicolon p.2) >>= fun q => .ok (p.1 :: q.1, q.2)

theorem readProperties_eq (ts : Tokens) :
    readProperties ts = blockFrom ts (readProperty ts) readProperties := by
  rw [readProperties]
  split
  · next x h => rw [h, blockFrom]
  · next h => rw [h, blockFrom]
  · next p rest h =>
    rw [h]
    rfl

theorem readSteps_eq (ts : Tokens) : readSteps ts = blockFrom ts (readStep ts) readSteps := by
  rw [readSteps]
  split
  · next x h => rw [h, blockFrom]
  · next h => rw [h, blockFrom]
  · next p rest h =>
    rw [h]
    rfl

/-! ## Statements -/

/-- What `readStatement` reads, without the proof that it leaves less. -/
def statementOf (ts : Tokens) : Read (Option (Spanned Statement × Tokens)) :=
  (readStatement ts).map (Option.map Subtype.val)

/-- What `readBody` reads, without the proof that it leaves no more. -/
def bodyOf (ts : Tokens) : Read (List (Spanned Statement) × Tokens) :=
  (readBody ts).map Subtype.val

theorem statementOf_length {ts : Tokens} {p : Spanned Statement × Tokens}
    (h : statementOf ts = .ok (some p)) : p.2.length < ts.length := by
  unfold statementOf at h
  cases hread : readStatement ts with
  | error x =>
    rw [hread] at h
    cases h
  | ok o =>
    rw [hread] at h
    cases o with
    | none => cases h
    | some q =>
      cases h
      exact q.2

theorem bodyOf_eq (ts : Tokens) : bodyOf ts = blockFrom ts (statementOf ts) bodyOf := by
  rw [bodyOf, statementOf, readBody]
  cases hread : readStatement ts with
  | error x => rfl
  | ok o =>
    cases o with
    | none => rfl
    | some p =>
      obtain ⟨⟨s, rest⟩, hlen⟩ := p
      simp only [Except.map, Option.map, blockFrom, bodyOf]
      cases readBody (skipSemicolon rest) <;> rfl

theorem statementOf_container (word : Span) (rest : Tokens) :
    statementOf (⟨.keyword .container, word⟩ :: rest) = some <$> do
      let (head, inner) ← readContainerHead (⟨.keyword .container, word⟩ :: rest) rest
      let (body, tail) ← bodyOf inner
      let (close, after) ← readBlockEnd .statement (⟨.keyword .container, word⟩ :: rest) tail
      return (⟨.container head body, word.union close.span⟩, after) := by
  have hbody : ∀ {ts p hp}, readBody ts = .ok ⟨p, hp⟩ → bodyOf ts = .ok p := by
    intro ts p hp h
    rw [bodyOf, h]
    rfl
  have hfault : ∀ {ts x}, readBody ts = .error x → bodyOf ts = .error x := by
    intro ts x h
    rw [bodyOf, h]
    rfl
  rw [statementOf, readStatement]
  dsimp only
  split
  · next x hhead =>
    simp only [hhead]
    rfl
  · next head inner hhead =>
    split
    · next x hb =>
      simp only [hhead, bind, Except.bind, hfault hb]
      rfl
    · next body tail ht hb =>
      simp only [hhead, bind, Except.bind, hbody hb]
      split
      · next x hc =>
        rw [hc]
        rfl
      · next close after hc =>
        simp only [hc]
        rfl

theorem statementOf_simple {ts : Tokens}
    (h : ∀ word rest, ts ≠ ⟨.keyword .container, word⟩ :: rest) :
    statementOf ts = readSimple ts := by
  rw [statementOf, readStatement]
  · split
    · next x hr => exact hr.symm
    · next hr => exact hr.symm
    · next p hr => exact hr.symm
  · exact h

/-! ## Programs -/

/-- A program goes on after the semicolon of its first statement. -/
theorem readProgram_eq (ts : Tokens) :
    readProgram ts = statementOf ts >>= fun o =>
      match o with
      | none => if ts = [] then .ok [] else .error (.stoppedAt .statement ts ts)
      | some p => readSign .semicolon p.2 p.2 >>= fun q => (p.1 :: ·) <$> readProgram q.2 := by
  rw [readProgram.eq_def, statementOf]
  cases hread : readStatement ts with
  | error x => rfl
  | ok o =>
    cases o with
    | none =>
      cases ts with
      | nil => rfl
      | cons t rest => rfl
    | some p =>
      obtain ⟨⟨s, rest⟩, hlen⟩ := p
      simp only [Except.map, Option.map, bind, Except.bind]
      split
      · next x hsemicolon => rw [hsemicolon]
      · next semicolon next hsemicolon =>
        simp only [hsemicolon]
        cases readProgram next <;> rfl

end Reader

end ArchScript
