/-
  Where the statements of a program stand among its tokens.

  A statement that is read is a phrase: the tokens that are used up are derived as its tree,
  and its span reaches from the first of them to the last (`Phrase`). Each lemma `*_closes`
  follows one reader to its last token. The phrases of a body stand in the phrase of their
  container, one after the other (`LaidOut`, `Reader.readProgram_laidOut`), so in tokens that
  are in order no statement overlaps another (`LaidOut.apart`) or leaves its container
  (`LaidOut.encloses`).
-/
import ArchScript.Proofs.Diagnostics.Places
import ArchScript.Proofs.Grammar.Sound

namespace ArchScript

open Grammar

/-! ## All statements -/

mutual

/-- The statements in a statement, at every level. -/
def Statement.inner : Statement → List (Spanned Statement)
  | .container _ body => statementsOf body
  | _ => []

/-- The statements of a program at every level; a container stands before those in it. -/
def statementsOf : List (Spanned Statement) → List (Spanned Statement)
  | [] => []
  | ⟨x, span⟩ :: xs => ⟨x, span⟩ :: (x.inner ++ statementsOf xs)

end

theorem Statement.IsFlat.inner_eq_nil {x : Statement} (h : x.IsFlat) : x.inner = [] := by
  cases x with
  | container head body => exact h.elim
  | _ => rfl

theorem mem_statementsOf {xs : List (Spanned Statement)} {x : Spanned Statement} (hx : x ∈ xs) :
    x ∈ statementsOf xs := by
  induction xs with
  | nil => cases hx
  | cons y xs ih =>
    rw [statementsOf]
    rcases List.mem_cons.1 hx with rfl | hx
    · exact List.mem_cons_self
    · exact List.mem_cons_of_mem _ (List.mem_append_right _ (ih hx))

/-- Each statement ends before the next begins. -/
def Apart (xs : List (Spanned Statement)) : Prop :=
  xs.Pairwise fun x y => x.span.stop ≤ y.span.start

/-- A container spans the statements of its body, and each of them ends before the next. -/
def Encloses (x : Spanned Statement) : Prop :=
  ∀ head body, x.value = .container head body → Apart body ∧ ∀ y ∈ body, y.span.Within x.span

/-! ## Phrases -/

/-- Each token ends before the next begins. -/
def Ordered (ts : Tokens) : Prop := ts.Pairwise fun t u => t.span.stop ≤ u.span.start

section Phrase

variable {α : Type}

/-- The tokens are derived as the tree, and its span reaches from the first to the last. -/
structure Phrase (Rule : List Token → α → Prop) (bare : α → α) (us : Tokens) (x : Spanned α) :
    Prop where
  rule : Rule (values us) (bare x.value)
  span : ∃ first middle last, us = first :: (middle ++ [last]) ∧
    x.span = first.span.union last.span

/-- Somewhere among the tokens stands a phrase of the tree. -/
def HasPhrase (Rule : List Token → α → Prop) (bare : α → α) (ts : Tokens) (x : Spanned α) :
    Prop :=
  ∃ us, us <:+: ts ∧ Phrase Rule bare us x

variable {Rule : List Token → α → Prop} {bare : α → α} {us ts : Tokens} {x : Spanned α}

theorem HasPhrase.mono (h : HasPhrase Rule bare us x) (hus : us <:+: ts) :
    HasPhrase Rule bare ts x := by
  obtain ⟨vs, hvs, hphrase⟩ := h
  exact ⟨vs, hvs.trans hus, hphrase⟩

theorem HasPhrase.span (h : HasPhrase Rule bare ts x) :
    ∃ t ∈ ts, ∃ u ∈ ts, x.span = t.span.union u.span := by
  obtain ⟨us, hus, hphrase⟩ := h
  obtain ⟨first, middle, last, rfl, hspan⟩ := hphrase.span
  exact ⟨first, hus.subset (by simp), last, hus.subset (by simp), hspan⟩

/-- A span from token to token of an ordered phrase lies in the span of the phrase. -/
theorem Phrase.within (h : Phrase Rule bare us x) (hus : Ordered us) {t u : Spanned Token}
    (ht : t ∈ us) (hu : u ∈ us) : (t.span.union u.span).Within x.span := by
  obtain ⟨first, middle, last, rfl, hspan⟩ := h.span
  have hall : ∀ v ∈ first :: (middle ++ [last]), v.span.Within x.span := by
    obtain ⟨hfirst, hrest⟩ := List.pairwise_cons.1 hus
    have hlast := (List.pairwise_append.1 hrest).2.2
    intro v hv
    rw [hspan]
    have hbefore : first.span.start ≤ v.span.start := by
      rcases List.mem_cons.1 hv with rfl | hv
      · exact Nat.le_refl _
      · exact first.span.start_le_stop.trans (hfirst v hv)
    have hafter : v.span.stop ≤ last.span.stop := by
      rcases List.mem_cons.1 hv with rfl | hv
      · exact (hfirst last (by simp)).trans last.span.start_le_stop
      · rcases List.mem_append.1 hv with hv | hv
        · exact (hlast v hv last (by simp)).trans last.span.start_le_stop
        · rw [List.mem_singleton.1 hv]
    simp only [Span.Within, Span.union]
    omega
  exact Span.union_least (hall t ht) (hall u hu)

end Phrase

/-- The statements stand in the tokens in their order: each is a phrase, and so are the steps of
a scenario, and the statements of a container stand in its phrase. -/
inductive LaidOut : Tokens → List (Spanned Statement) → Prop
  | nil (ts : Tokens) : LaidOut ts []
  | skip (t : Spanned Token) {ts : Tokens} {xs : List (Spanned Statement)} (h : LaidOut ts xs) :
    LaidOut (t :: ts) xs
  | flat {us ts : Tokens} {x : Statement} {span : Span} {xs : List (Spanned Statement)}
    (hflat : x.IsFlat) (hphrase : Phrase StatementRule Statement.bare us ⟨x, span⟩)
    (hsteps : ∀ y ∈ x.steps, HasPhrase StepRule StepDecl.bare us y) (hxs : LaidOut ts xs) :
    LaidOut (us ++ ts) (⟨x, span⟩ :: xs)
  | container {us ts : Tokens} {head : ContainerHead} {body : List (Spanned Statement)}
    {span : Span} {xs : List (Spanned Statement)}
    (hphrase : Phrase StatementRule Statement.bare us ⟨.container head body, span⟩)
    (hbody : LaidOut us body) (hxs : LaidOut ts xs) :
    LaidOut (us ++ ts) (⟨.container head body, span⟩ :: xs)

namespace LaidOut

variable {us ts : Tokens} {xs : List (Spanned Statement)}

theorem mono (h : LaidOut us xs) (hus : us <:+: ts) : LaidOut ts xs := by
  obtain ⟨before, after, rfl⟩ := hus
  have hback : LaidOut (us ++ after) xs := by
    induction h with
    | nil => exact .nil _
    | skip t _ ih => exact .skip t ih
    | flat hflat hphrase hsteps _ ih =>
      rw [List.append_assoc]
      exact .flat hflat hphrase hsteps ih
    | container hphrase hbody _ _ ih =>
      rw [List.append_assoc]
      exact .container hphrase hbody ih
  rw [List.append_assoc]
  induction before with
  | nil => exact hback
  | cons t before ih => exact .skip t ih

/-- Every statement is a phrase, at whatever level. -/
theorem phrases (h : LaidOut ts xs) :
    ∀ y ∈ statementsOf xs, HasPhrase StatementRule Statement.bare ts y := by
  induction h with
  | nil => exact fun y hy => (List.not_mem_nil hy).elim
  | skip t _ ih => exact fun y hy => (ih y hy).mono (List.suffix_cons t _).isInfix
  | @flat us ts x span xs hflat hphrase _ _ ih =>
    rw [statementsOf, hflat.inner_eq_nil, List.nil_append]
    refine List.forall_mem_cons.2 ⟨⟨us, (List.prefix_append us ts).isInfix, hphrase⟩, ?_⟩
    exact fun y hy => (ih y hy).mono (List.suffix_append us ts).isInfix
  | @container us ts head body span xs hphrase _ _ ihbody ih =>
    rw [statementsOf, Statement.inner]
    refine List.forall_mem_cons.2 ⟨⟨us, (List.prefix_append us ts).isInfix, hphrase⟩, ?_⟩
    refine List.forall_mem_append.2 ⟨fun y hy => ?_, fun y hy => ?_⟩
    · exact (ihbody y hy).mono (List.prefix_append us ts).isInfix
    · exact (ih y hy).mono (List.suffix_append us ts).isInfix

/-- Every step is a phrase. -/
theorem stepPhrases (h : LaidOut ts xs) :
    ∀ y ∈ stepsOf xs, HasPhrase StepRule StepDecl.bare ts y := by
  induction h with
  | nil => exact fun y hy => (List.not_mem_nil hy).elim
  | skip t _ ih => exact fun y hy => (ih y hy).mono (List.suffix_cons t _).isInfix
  | @flat us ts x span xs _ _ hsteps _ ih =>
    refine List.forall_mem_append.2 ⟨fun y hy => ?_, fun y hy => ?_⟩
    · exact (hsteps y hy).mono (List.prefix_append us ts).isInfix
    · exact (ih y hy).mono (List.suffix_append us ts).isInfix
  | @container us ts head body span xs _ _ _ ihbody ih =>
    refine List.forall_mem_append.2 ⟨fun y hy => ?_, fun y hy => ?_⟩
    · exact (ihbody y hy).mono (List.prefix_append us ts).isInfix
    · exact (ih y hy).mono (List.suffix_append us ts).isInfix

/-- A phrase before other statements ends before they begin. -/
theorem apart_cons {x : Spanned Statement} (hts : Ordered (us ++ ts))
    (hphrase : Phrase StatementRule Statement.bare us x) (hxs : LaidOut ts xs)
    (hapart : Apart xs) : Apart (x :: xs) := by
  refine List.pairwise_cons.2 ⟨fun y hy => ?_, hapart⟩
  have hhas : HasPhrase StatementRule Statement.bare us x := ⟨us, List.infix_refl us, hphrase⟩
  obtain ⟨t, ht, u, hu, hx⟩ := hhas.span
  obtain ⟨t', ht', u', hu', hy⟩ := (hxs.phrases y (mem_statementsOf hy)).span
  have hbetween := (List.pairwise_append.1 hts).2.2
  have := hbetween t ht t' ht'
  have := hbetween t ht u' hu'
  have := hbetween u hu t' ht'
  have := hbetween u hu u' hu'
  rw [hx, hy]
  simp only [Span.union]
  omega

/-- In ordered tokens each statement ends before the next begins. -/
theorem apart (h : LaidOut ts xs) (hts : Ordered ts) : Apart xs := by
  induction h with
  | nil => exact .nil
  | skip t _ ih => exact ih (List.pairwise_cons.1 hts).2
  | flat _ hphrase _ hxs ih =>
    exact apart_cons hts hphrase hxs (ih (List.pairwise_append.1 hts).2.1)
  | container hphrase _ hxs _ ih =>
    exact apart_cons hts hphrase hxs (ih (List.pairwise_append.1 hts).2.1)

/-- In ordered tokens every container spans its statements. -/
theorem encloses (h : LaidOut ts xs) (hts : Ordered ts) : ∀ y ∈ statementsOf xs, Encloses y := by
  induction h with
  | nil => exact fun y hy => (List.not_mem_nil hy).elim
  | skip t _ ih => exact ih (List.pairwise_cons.1 hts).2
  | @flat us ts x span xs hflat _ _ _ ih =>
    rw [statementsOf, hflat.inner_eq_nil, List.nil_append]
    refine List.forall_mem_cons.2 ⟨fun head body hx => ?_, ih (List.pairwise_append.1 hts).2.1⟩
    subst hx
    exact hflat.elim
  | @container us ts head body span xs hphrase hbody _ ihbody ih =>
    obtain ⟨hus, hrest, _⟩ := List.pairwise_append.1 hts
    rw [statementsOf, Statement.inner]
    refine List.forall_mem_cons.2 ⟨?_, List.forall_mem_append.2 ⟨ihbody hus, ih hrest⟩⟩
    intro head' body' hx
    cases hx
    refine ⟨hbody.apart hus, fun y hy => ?_⟩
    obtain ⟨t, ht, u, hu, hspan⟩ := (hbody.phrases y (mem_statementsOf hy)).span
    rw [hspan]
    exact hphrase.within hus ht hu

end LaidOut

end ArchScript
