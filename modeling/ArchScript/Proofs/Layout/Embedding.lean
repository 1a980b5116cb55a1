/-
  Readers in another source.

  An `Embedding` tells how the tokens of one source stand in another: where their spans go, and
  which tokens come behind them. `Carries` says that a reader does there what it does in the
  source itself. What is behind could matter to a reader that looks past the last token of the
  source; a semicolon keeps every reader from looking past it (`Settles`). Each lemma
  `*_carries` follows one reader, and `readProgram_tokens` and `readProgram_append` are their sum.
-/
import ArchScript.Program.Reader
import ArchScript.Proofs.Grammar.Rules
import ArchScript.Proofs.Layout.Moved

namespace ArchScript

open Reader

/-- How the tokens of a source stand in another one. -/
structure Embedding where
  /-- where a span goes -/
  place : Span → Span
  place_union (s t : Span) : place (s.union t) = (place s).union (place t)
  /-- the tokens that follow -/
  behind : Tokens

namespace Embedding

variable {α β : Type} (e : Embedding) {g : α → α} {h : β → β} {start ts rest : Tokens}

/-- Tokens up to the end of the source, where they stand in the other one. -/
def tokens (ts : Tokens) : Tokens := ts.map (Spanned.moved e.place) ++ e.behind

/-- Nothing is behind these tokens, or a semicolon stands before it. -/
def Settles (ts : Tokens) : Prop := e.behind = [] ∨ .sign .semicolon ∈ values ts

theorem tokens_cons (t : Spanned Token) (ts : Tokens) :
    e.tokens (t :: ts) = t.moved e.place :: e.tokens ts := rfl

variable {e}

theorem tokens_of_behind (hb : e.behind = []) (ts : Tokens) :
    e.tokens ts = ts.map (Spanned.moved e.place) := by rw [tokens, hb, List.append_nil]

theorem Settles.mono (hs : e.Settles rest) (hrest : rest <:+ ts) : e.Settles ts := by
  obtain ⟨front, rfl⟩ := hrest
  refine hs.imp_right fun hmem => ?_
  rw [values, List.map_append]
  exact List.mem_append_right _ hmem

/-- Where no semicolon is left, only a source with nothing behind is settled. -/
theorem Settles.behind (hs : e.Settles ts) (hts : .sign .semicolon ∉ values ts) : e.behind = [] :=
  hs.resolve_right hts

variable (e)

/-! ## Results -/

/-- A reader with the result `r` on the tokens `ts` has the result `r'` on the embedded tokens.
A fault may have another outcome when something is behind. -/
def Carries (g : α → α) (ts : Tokens) (r r' : Read (α × Tokens)) : Prop :=
  match r with
  | .ok p => p.2 <:+ ts ∧ (e.Settles p.2 → r' = .ok (g p.1, e.tokens p.2))
  | .error x => e.behind = [] → r' = .error (x.moved e.place)

/-- The same for a reader that may find that the tokens do not begin an item. -/
def CarriesItem (g : α → α) (ts : Tokens) (r r' : Read (Option (α × Tokens))) : Prop :=
  match r with
  | .ok (some p) => p.2 <:+ ts ∧ (e.Settles p.2 → r' = .ok (some (g p.1, e.tokens p.2)))
  | .ok none => e.Settles ts → r' = .ok none
  | .error x => e.behind = [] → r' = .error (x.moved e.place)

variable {e}

theorem carries_ok {a b : α} (hab : b = g a) :
    e.Carries g ts (.ok (a, ts)) (.ok (b, e.tokens ts)) :=
  ⟨List.suffix_refl ts, fun _ => by rw [hab]⟩

theorem Carries.skip {t : Spanned Token} {r r' : Read (α × Tokens)} (hr : e.Carries g ts r r') :
    e.Carries g (t :: ts) r r' := by
  cases r with
  | error x => exact hr
  | ok p => exact ⟨hr.1.trans (List.suffix_cons t ts), hr.2⟩

/-- A reader after a reader, on the tokens that the first one leaves. -/
theorem Carries.seq {r r' : Read (α × Tokens)} {k k' : α × Tokens → Read (β × Tokens)}
    (h₁ : e.Carries g ts r r')
    (h₂ : ∀ a us, us <:+ ts → e.Carries h us (k (a, us)) (k' (g a, e.tokens us))) :
    e.Carries h ts (r >>= k) (r' >>= k') := by
  cases r with
  | error x =>
    intro hb
    rw [h₁ hb]
    rfl
  | ok p =>
    obtain ⟨hsuffix, hr⟩ := h₁
    have hk := h₂ p.1 p.2 hsuffix
    change e.Carries h ts (k p) (r' >>= k')
    cases hkp : k p with
    | error x =>
      intro hb
      rw [hkp] at hk
      rw [hr (Or.inl hb)]
      exact hk hb
    | ok q =>
      rw [hkp] at hk
      refine ⟨hk.1.trans hsuffix, fun hs => ?_⟩
      rw [hr (hs.mono hk.1)]
      exact hk.2 hs

theorem Carries.bind {r r' : Read (α × Tokens)} {k k' : α × Tokens → Read (β × Tokens)}
    (h₁ : e.Carries g ts r r')
    (h₂ : ∀ a us, e.Carries h us (k (a, us)) (k' (g a, e.tokens us))) :
    e.Carries h ts (r >>= k) (r' >>= k') :=
  h₁.seq fun a us _ => h₂ a us

/-- A reader after one that always succeeds. -/
theorem Carries.after {k k' : α × Tokens → Read (β × Tokens)}
    (hk : ∀ a us, e.Carries h us (k (a, us)) (k' (g a, e.tokens us))) (p p' : α × Tokens)
    (hp : e.Carries g ts (.ok p) (.ok p')) : e.Carries h ts (k p) (k' p') :=
  Carries.bind hp hk

theorem Carries.item {r r' : Read (α × Tokens)} (hr : e.Carries g ts r r') :
    e.CarriesItem g ts (some <$> r) (some <$> r') := by
  cases r with
  | error x =>
    intro hb
    rw [hr hb]
    rfl
  | ok p =>
    refine ⟨hr.1, fun hs => ?_⟩
    rw [hr.2 hs]
    rfl

/-! ## Single tokens -/

theorem stoppedAt_moved (hb : e.behind = []) (expected : Expected) (start rest : Tokens) :
    SyntaxFault.stoppedAt expected (e.tokens start) (e.tokens rest) =
      (SyntaxFault.stoppedAt expected start rest).moved e.place := by
  simp only [SyntaxFault.stoppedAt, SyntaxFault.moved, tokens_of_behind hb, List.length_map,
    List.map_take]

variable (e) in
theorem accept_carries (pick : Token → Option α) (expected : Expected) (start ts : Tokens) :
    e.Carries (Spanned.moved e.place) ts (accept pick expected start ts)
      (accept pick expected (e.tokens start) (e.tokens ts)) := by
  cases ts with
  | nil =>
    intro hb
    rw [← stoppedAt_moved hb, tokens_of_behind hb []]
    rfl
  | cons t ts =>
    rw [tokens_cons, accept, accept, show (t.moved e.place).value = t.value from rfl]
    cases pick t.value with
    | none =>
      intro hb
      rw [← stoppedAt_moved hb, tokens_cons]
    | some a => exact ⟨List.suffix_cons t ts, fun _ => rfl⟩

/-- Settled tokens that begin with a token there begin with it here. -/
theorem exists_of_tokens_eq_cons (hs : e.Settles ts) {t : Spanned Token} {us : Tokens}
    (ht : t.value ≠ .sign .semicolon) (hts : e.tokens ts = t :: us) :
    ∃ span rest, ts = ⟨t.value, span⟩ :: rest ∧ e.tokens rest = us ∧ e.Settles rest := by
  cases ts with
  | nil =>
    rw [tokens_of_behind (hs.behind List.not_mem_nil)] at hts
    cases hts
  | cons t₀ rest =>
    obtain ⟨rfl, hrest⟩ := List.cons.inj hts
    refine ⟨t₀.span, rest, rfl, hrest, hs.imp_right fun hmem => ?_⟩
    exact (List.mem_cons.1 hmem).resolve_left fun heq => ht heq.symm

/-- The same for two tokens. -/
theorem exists_of_tokens_eq_cons₂ (hs : e.Settles ts) {t t' : Spanned Token} {us : Tokens}
    (ht : t.value ≠ .sign .semicolon) (ht' : t'.value ≠ .sign .semicolon)
    (hts : e.tokens ts = t :: t' :: us) :
    ∃ span span' rest, ts = ⟨t.value, span⟩ :: ⟨t'.value, span'⟩ :: rest ∧ e.tokens rest = us ∧
      e.Settles rest := by
  obtain ⟨span, _, rfl, hmore, hs⟩ := exists_of_tokens_eq_cons hs ht hts
  obtain ⟨span', rest, rfl, hrest, hs⟩ := exists_of_tokens_eq_cons hs ht' hmore
  exact ⟨span, span', rest, rfl, hrest, hs⟩

/-- The same for three tokens. -/
theorem exists_of_tokens_eq_cons₃ (hs : e.Settles ts) {t t' t'' : Spanned Token} {us : Tokens}
    (ht : t.value ≠ .sign .semicolon) (ht' : t'.value ≠ .sign .semicolon)
    (ht'' : t''.value ≠ .sign .semicolon) (hts : e.tokens ts = t :: t' :: t'' :: us) :
    ∃ span span' span'' rest,
      ts = ⟨t.value, span⟩ :: ⟨t'.value, span'⟩ :: ⟨t''.value, span''⟩ :: rest := by
  obtain ⟨span, span', _, rfl, hmore, hs⟩ := exists_of_tokens_eq_cons₂ hs ht ht' hts
  obtain ⟨span'', rest, rfl, _⟩ := exists_of_tokens_eq_cons hs ht'' hmore
  exact ⟨span, span', span'', rest, rfl⟩

/-! ## Clauses -/

variable (e)

theorem optionalText_carries (ts : Tokens) :
    e.Carries (Option.map (Spanned.moved e.place)) ts (.ok (optionalText ts))
      (.ok (optionalText (e.tokens ts))) := by
  unfold optionalText
  split
  · exact ⟨List.suffix_cons _ _, fun _ => rfl⟩
  · next hnone =>
    refine ⟨List.suffix_refl ts, fun hs => ?_⟩
    -- a text in the other source stands before the semicolon, so it is here too
    split
    · next value span us hts =>
      obtain ⟨_, _, rfl, _⟩ := exists_of_tokens_eq_cons hs (by simp) hts
      exact (hnone _ _ _ rfl).elim
    · rfl

theorem skipSemicolon_carries (ts : Tokens) :
    e.Carries id ts (.ok ((), skipSemicolon ts)) (.ok ((), skipSemicolon (e.tokens ts))) := by
  unfold skipSemicolon
  split
  · exact ⟨List.suffix_cons _ _, fun _ => rfl⟩
  · next hnone =>
    refine ⟨List.suffix_refl ts, fun hs => ?_⟩
    cases ts with
    | nil =>
      rw [tokens_of_behind (hs.behind List.not_mem_nil)]
      rfl
    | cons t ts =>
      rw [tokens_cons]
      split
      · next span us hts =>
        obtain ⟨t, span'⟩ := t
        cases hts
        exact (hnone _ _ rfl).elim
      · rfl

theorem readReference_carries (start ts : Tokens) :
    e.Carries (Spanned.moved e.place) ts (readReference start ts)
      (readReference (e.tokens start) (e.tokens ts)) :=
  (e.accept_carries _ _ start ts).bind fun _ us => e.accept_carries _ _ start us

theorem moreReferences_carries (ts : Tokens) :
    e.Carries (List.map (Spanned.moved e.place)) ts (.ok (moreReferences ts))
      (.ok (moreReferences (e.tokens ts))) := by
  fun_induction moreReferences ts with
  | case1 comma at_ name span ts refs rest h ih =>
    rw [h] at ih
    refine ⟨ih.1.trans ⟨[_, _, _], rfl⟩, fun hs => ?_⟩
    have hmore := Except.ok.inj (ih.2 hs)
    simp only [tokens_cons, Spanned.moved, moreReferences, hmore]
    rfl
  | case2 ts hnone =>
    refine ⟨List.suffix_refl ts, fun hs => ?_⟩
    unfold moreReferences
    split
    · next comma at_ name span us hts =>
      obtain ⟨_, _, _, _, rfl⟩ :=
        exists_of_tokens_eq_cons₃ hs (by simp) (by simp) (by simp) hts
      exact (hnone _ _ _ _ _ rfl).elim
    · rfl

theorem readReferences_carries (start ts : Tokens) :
    e.Carries (List.map (Spanned.moved e.place)) ts (readReferences start ts)
      (readReferences (e.tokens start) (e.tokens ts)) := by
  refine (e.readReference_carries start ts).bind fun ref us => ?_
  have hmore := e.moreReferences_carries us
  dsimp only
  generalize moreReferences us = p at hmore ⊢
  generalize moreReferences (e.tokens us) = p' at hmore ⊢
  revert p p'
  exact Carries.after fun refs us => carries_ok rfl

theorem optionalReferences_carries (ts : Tokens) :
    e.Carries (List.map (Spanned.moved e.place)) ts (optionalReferences ts)
      (optionalReferences (e.tokens ts)) := by
  unfold optionalReferences
  split
  · next span rest => exact (e.readReferences_carries (⟨.keyword .is, span⟩ :: rest) rest).skip
  · next hnone =>
    refine ⟨List.suffix_refl ts, fun hs => ?_⟩
    split
    · next span us hts =>
      obtain ⟨_, _, rfl, _⟩ := exists_of_tokens_eq_cons hs (by simp) hts
      exact (hnone _ _ rfl).elim
    · rfl

theorem place_spanTo (first last : Span) (refs : List (Spanned Ident)) :
    spanTo (e.place first) (e.place last) (refs.map (Spanned.moved e.place)) =
      e.place (spanTo first last refs) := by
  unfold spanTo
  rw [List.getLast?_map]
  cases refs.getLast? with
  | none => exact (e.place_union first last).symm
  | some r => exact (e.place_union first r.span).symm

/-! ## Statements without braces -/

theorem readActor_carries (kind : Spanned ActorKind) (start ts : Tokens) :
    e.Carries (movedStatement e.place) ts (readActor kind start ts)
      (readActor (kind.moved e.place) (e.tokens start) (e.tokens ts)) := by
  refine (e.accept_carries _ _ start ts).bind fun caption us => ?_
  refine (e.accept_carries _ _ start us).bind fun _ us => ?_
  refine (e.accept_carries _ _ start us).bind fun id us => ?_
  refine (e.optionalReferences_carries us).bind fun refs us => carries_ok ?_
  exact congrArg (Spanned.mk _) (e.place_spanTo kind.span id.span refs)

theorem readNote_carries (word : Span) (start ts : Tokens) :
    e.Carries (movedStatement e.place) ts (readNote word start ts)
      (readNote (e.place word) (e.tokens start) (e.tokens ts)) := by
  refine (e.accept_carries _ _ start ts).bind fun _ us => ?_
  refine (e.accept_carries _ _ start us).bind fun target us => ?_
  refine (e.accept_carries _ _ start us).bind fun _ us => ?_
  refine (e.accept_carries _ _ start us).bind fun text us => carries_ok ?_
  exact congrArg (Spanned.mk _) (e.place_union word text.span).symm

theorem readAssignment_carries (target : Spanned Ident) (start ts : Tokens) :
    e.Carries (movedStatement e.place) ts (readAssignment target start ts)
      (readAssignment (target.moved e.place) (e.tokens start) (e.tokens ts)) := by
  refine (e.readReferences_carries start ts).bind fun refs us => carries_ok ?_
  exact congrArg (Spanned.mk _) (e.place_spanTo target.span target.span refs)

theorem readCall_carries (source : Spanned Ident) (start ts : Tokens) :
    e.Carries (movedStatement e.place) ts (readCall source start ts)
      (readCall (source.moved e.place) (e.tokens start) (e.tokens ts)) := by
  have htext := e.optionalText_carries ts
  unfold readCall
  generalize optionalText ts = p at htext ⊢
  generalize optionalText (e.tokens ts) = p' at htext ⊢
  revert p p'
  refine Carries.after fun text us => ?_
  refine (e.accept_carries _ _ start us).bind fun _ us => ?_
  refine (e.accept_carries _ _ start us).bind fun kind us => ?_
  refine (e.accept_carries _ _ start us).bind fun target us => carries_ok ?_
  exact congrArg (Spanned.mk _) (e.place_union source.span target.span).symm

theorem readFlow_carries (kind : FlowKind) (left : Spanned Ident) (start ts : Tokens) :
    e.Carries (movedStatement e.place) ts (readFlow kind left start ts)
      (readFlow kind (left.moved e.place) (e.tokens start) (e.tokens ts)) := by
  refine (e.accept_carries _ _ start ts).bind fun right us => carries_ok ?_
  exact congrArg (Spanned.mk _) (e.place_union left.span right.span).symm

/-! ## Steps -/

theorem readRequestStep_carries (source : Spanned Ident) (start ts : Tokens) :
    e.Carries (movedStep e.place) ts (readRequestStep source start ts)
      (readRequestStep (source.moved e.place) (e.tokens start) (e.tokens ts)) := by
  have htext := e.optionalText_carries ts
  unfold readRequestStep
  generalize optionalText ts = p at htext ⊢
  generalize optionalText (e.tokens ts) = p' at htext ⊢
  revert p p'
  refine Carries.after fun message us => ?_
  refine (e.accept_carries _ _ start us).bind fun _ us => ?_
  refine (e.accept_carries _ _ start us).bind fun kind us => ?_
  refine (e.accept_carries _ _ start us).bind fun target us => carries_ok ?_
  exact congrArg (Spanned.mk _) (e.place_union source.span target.span).symm

theorem readWriteStep_carries (left : Spanned Ident) (message : Spanned String)
    (start ts : Tokens) :
    e.Carries (movedStep e.place) ts (readWriteStep left message start ts)
      (readWriteStep (left.moved e.place) (message.moved e.place) (e.tokens start)
        (e.tokens ts)) := by
  refine (e.accept_carries _ _ start ts).bind fun _ us => ?_
  refine (e.accept_carries _ _ start us).bind fun right us => carries_ok ?_
  exact congrArg (Spanned.mk _) (e.place_union left.span right.span).symm

theorem readResponseStep_carries (requester : Spanned Ident) (start ts : Tokens) :
    e.Carries (movedStep e.place) ts (readResponseStep requester start ts)
      (readResponseStep (requester.moved e.place) (e.tokens start) (e.tokens ts)) := by
  refine (e.accept_carries _ _ start ts).bind fun _ us => ?_
  have htext := e.optionalText_carries us
  dsimp only
  generalize optionalText us = p at htext ⊢
  generalize optionalText (e.tokens us) = p' at htext ⊢
  revert p p'
  refine Carries.after fun message us => ?_
  refine (e.accept_carries _ _ start us).bind fun _ us => ?_
  refine (e.accept_carries _ _ start us).bind fun _ us => ?_
  refine (e.accept_carries _ _ start us).bind fun responder us => carries_ok ?_
  exact congrArg (Spanned.mk _) (e.place_union requester.span responder.span).symm

theorem readReadStep_carries (left : Spanned Ident) (start ts : Tokens) :
    e.Carries (movedStep e.place) ts (readReadStep left start ts)
      (readReadStep (left.moved e.place) (e.tokens start) (e.tokens ts)) := by
  refine (e.accept_carries _ _ start ts).bind fun message us => ?_
  refine (e.accept_carries _ _ start us).bind fun _ us => ?_
  refine (e.accept_carries _ _ start us).bind fun right us => carries_ok ?_
  exact congrArg (Spanned.mk _) (e.place_union left.span right.span).symm

end Embedding

end ArchScript
