/-
  Whole programs in another source.

  Blocks, containers and programs are read as their items are. With nothing behind a source,
  its program or its fault moves along with its tokens (`readProgram_tokens`); a source that is
  a program is read before what is behind it, and then that is read (`readProgram_append`).
-/
import ArchScript.Proofs.Grammar.Equations
import ArchScript.Proofs.Layout.Embedding

namespace ArchScript.Embedding

open Reader

variable {α : Type} {e : Embedding} {g : α → α} {ts : Tokens}

/-! ## Blocks -/

/-- A block goes on where its items and the rest of the block do. -/
theorem CarriesItem.block {r r' : Read (Option (α × Tokens))}
    {more : Tokens → Read (List α × Tokens)} (hr : e.CarriesItem g ts r r')
    (hlength : ∀ p, r = .ok (some p) → p.2.length < ts.length)
    (hmore : ∀ us, us.length < ts.length →
      e.Carries (List.map g) us (more us) (more (e.tokens us))) :
    e.Carries (List.map g) ts (blockFrom ts r more) (blockFrom (e.tokens ts) r' more) := by
  cases r with
  | error x =>
    intro hb
    rw [hr hb]
    rfl
  | ok o =>
    cases o with
    | none =>
      refine ⟨List.suffix_refl ts, fun hs => ?_⟩
      rw [hr hs]
      rfl
    | some p =>
      obtain ⟨hsuffix, hr⟩ := hr
      obtain ⟨hskip, hskipped⟩ := e.skipSemicolon_carries p.2
      have hshort := Nat.lt_of_le_of_lt (skipSemicolon_length p.2) (hlength p rfl)
      have hrest := hmore (skipSemicolon p.2) hshort
      have hnext : e.Settles (skipSemicolon p.2) →
          blockFrom (e.tokens ts) r' more =
            more (e.tokens (skipSemicolon p.2)) >>= fun q => .ok (g p.1 :: q.1, q.2) := by
        intro hs
        rw [hr (hs.mono hskip), blockFrom, (Prod.mk.inj (Except.ok.inj (hskipped hs))).2]
      rw [blockFrom]
      cases hq : more (skipSemicolon p.2) with
      | error x =>
        rw [hq] at hrest
        intro hb
        rw [hnext (Or.inl hb), hrest hb]
        rfl
      | ok q =>
        rw [hq] at hrest
        refine ⟨hrest.1.trans (hskip.trans hsuffix), fun hs => ?_⟩
        rw [hnext (hs.mono hrest.1), hrest.2 hs]
        rfl

variable (e)

theorem readProperty_carries (ts : Tokens) :
    e.CarriesItem (PropertyDecl.moved e.place) ts (readProperty ts)
      (readProperty (e.tokens ts)) := by
  cases ts with
  | nil =>
    intro hs
    rw [tokens_of_behind (hs.behind List.not_mem_nil)]
    rfl
  | cons t ts =>
    rw [tokens_cons, readProperty, readProperty, show (t.moved e.place).value = t.value from rfl]
    cases (name? t.value).bind PropertyKey.ofText? with
    | none => exact fun _ => rfl
    | some key =>
      have hvalue : e.Carries (PropertyDecl.moved e.place) (t :: ts)
          (readSign .colon (t :: ts) ts >>= fun p =>
            readTextLiteral .propertyValue (t :: ts) p.2 >>= fun q =>
              pure ((⟨⟨key, t.span⟩, q.1⟩ : PropertyDecl), q.2))
          (readSign .colon (e.tokens (t :: ts)) (e.tokens ts) >>= fun p =>
            readTextLiteral .propertyValue (e.tokens (t :: ts)) p.2 >>= fun q =>
              pure ((⟨⟨key, e.place t.span⟩, q.1⟩ : PropertyDecl), q.2)) := by
        refine Carries.skip ((e.accept_carries _ _ (t :: ts) ts).bind fun _ us => ?_)
        exact (e.accept_carries _ _ (t :: ts) us).bind fun value us => carries_ok rfl
      have hitem := hvalue.item
      simp only [map_bind, map_pure] at hitem
      exact hitem

theorem readProperties_carries (ts : Tokens) :
    e.Carries (List.map (PropertyDecl.moved e.place)) ts (readProperties ts)
      (readProperties (e.tokens ts)) := by
  rw [readProperties_eq, readProperties_eq (e.tokens ts)]
  exact (e.readProperty_carries ts).block (fun p hp => readProperty_length hp)
    fun us _ => readProperties_carries us
termination_by ts.length

theorem readAnnotationDef_carries (at_ : Span) (start ts : Tokens) :
    e.Carries (movedStatement e.place) ts (readAnnotationDef at_ start ts)
      (readAnnotationDef (e.place at_) (e.tokens start) (e.tokens ts)) := by
  refine (e.accept_carries _ _ start ts).bind fun id us => ?_
  refine (e.accept_carries _ _ start us).bind fun _ us => ?_
  refine (e.readProperties_carries us).bind fun properties us => ?_
  refine (e.accept_carries _ _ start us).bind fun close us => carries_ok ?_
  exact congrArg (Spanned.mk _) (e.place_union at_ close.span).symm

theorem readStep_carries (ts : Tokens) :
    e.CarriesItem (movedStep e.place) ts (readStep ts) (readStep (e.tokens ts)) := by
  unfold readStep
  split
  · next name span _ _ rest =>
    exact (e.readRequestStep_carries ⟨name, span⟩ _ rest).skip.skip.skip.item
  · next name span _ value at_ rest =>
    exact (e.readWriteStep_carries ⟨name, span⟩ ⟨value, at_⟩ _ rest).skip.skip.skip.item
  · next name span _ rest =>
    exact (e.readResponseStep_carries ⟨name, span⟩ _ rest).skip.skip.item
  · next name span _ rest =>
    exact (e.readReadStep_carries ⟨name, span⟩ _ rest).skip.skip.item
  · next hrequest hwrite hresponse hread =>
    -- what begins a step in the other source begins it before the first semicolon
    intro hs
    split
    · next hts =>
      obtain ⟨_, _, _, _, rfl⟩ :=
        exists_of_tokens_eq_cons₃ hs (by simp) (by simp) (by simp) hts
      exact (hrequest _ _ _ _ _ rfl).elim
    · next hts =>
      obtain ⟨_, _, _, _, rfl⟩ :=
        exists_of_tokens_eq_cons₃ hs (by simp) (by simp) (by simp) hts
      exact (hwrite _ _ _ _ _ _ rfl).elim
    · next hts =>
      obtain ⟨_, _, _, rfl, _⟩ := exists_of_tokens_eq_cons₂ hs (by simp) (by simp) hts
      exact (hresponse _ _ _ _ rfl).elim
    · next hts =>
      obtain ⟨_, _, _, rfl, _⟩ := exists_of_tokens_eq_cons₂ hs (by simp) (by simp) hts
      exact (hread _ _ _ _ rfl).elim
    · rfl

theorem readSteps_carries (ts : Tokens) :
    e.Carries (List.map (movedStep e.place)) ts (readSteps ts) (readSteps (e.tokens ts)) := by
  rw [readSteps_eq, readSteps_eq (e.tokens ts)]
  exact (e.readStep_carries ts).block (fun p hp => readStep_length hp)
    fun us _ => readSteps_carries us
termination_by ts.length

theorem readScenario_carries (name : Spanned String) (start ts : Tokens) :
    e.Carries (movedStatement e.place) ts (readScenario name start ts)
      (readScenario (name.moved e.place) (e.tokens start) (e.tokens ts)) := by
  refine (e.accept_carries _ _ start ts).bind fun _ us => ?_
  refine (e.readSteps_carries us).bind fun steps us => ?_
  refine (e.accept_carries _ _ start us).bind fun close us => carries_ok ?_
  exact congrArg (Spanned.mk _) (e.place_union name.span close.span).symm

/-! ## Statements -/

theorem readSimple_carries (ts : Tokens) :
    e.CarriesItem (movedStatement e.place) ts (readSimple ts) (readSimple (e.tokens ts)) := by
  unfold readSimple
  split
  · next span rest => exact (e.readActor_carries ⟨.agent, span⟩ _ rest).skip.item
  · next span rest => exact (e.readActor_carries ⟨.store, span⟩ _ rest).skip.item
  · next span rest => exact (e.readActor_carries ⟨.user, span⟩ _ rest).skip.item
  · next span rest => exact (e.readNote_carries span _ rest).skip.item
  · next span rest => exact (e.readAnnotationDef_carries span _ rest).skip.item
  · next name span rest => exact (e.readScenario_carries ⟨name, span⟩ _ rest).skip.item
  · next name span word rest =>
    exact (e.readAssignment_carries ⟨name, span⟩ (⟨.keyword .is, word⟩ :: rest) rest).skip.skip.item
  · next name span _ _ rest =>
    exact (e.readCall_carries ⟨name, span⟩ _ rest).skip.skip.skip.item
  · next name span _ rest =>
    exact (e.readFlow_carries .write ⟨name, span⟩ _ rest).skip.skip.item
  · next name span _ rest =>
    exact (e.readFlow_carries .read ⟨name, span⟩ _ rest).skip.skip.item
  · next hagent hstore huser hnote hat htext his hcall hwrite hread =>
    -- as for a step: no statement begins with a semicolon or goes over one
    intro hs
    split
    · next hts =>
      obtain ⟨_, _, rfl, _⟩ := exists_of_tokens_eq_cons hs (by simp) hts
      exact (hagent _ _ rfl).elim
    · next hts =>
      obtain ⟨_, _, rfl, _⟩ := exists_of_tokens_eq_cons hs (by simp) hts
      exact (hstore _ _ rfl).elim
    · next hts =>
      obtain ⟨_, _, rfl, _⟩ := exists_of_tokens_eq_cons hs (by simp) hts
      exact (huser _ _ rfl).elim
    · next hts =>
      obtain ⟨_, _, rfl, _⟩ := exists_of_tokens_eq_cons hs (by simp) hts
      exact (hnote _ _ rfl).elim
    · next hts =>
      obtain ⟨_, _, rfl, _⟩ := exists_of_tokens_eq_cons hs (by simp) hts
      exact (hat _ _ rfl).elim
    · next hts =>
      obtain ⟨_, _, rfl, _⟩ := exists_of_tokens_eq_cons hs (by simp) hts
      exact (htext _ _ _ rfl).elim
    · next hts =>
      obtain ⟨_, _, _, rfl, _⟩ := exists_of_tokens_eq_cons₂ hs (by simp) (by simp) hts
      exact (his _ _ _ _ rfl).elim
    · next hts =>
      obtain ⟨_, _, _, _, rfl⟩ :=
        exists_of_tokens_eq_cons₃ hs (by simp) (by simp) (by simp) hts
      exact (hcall _ _ _ _ _ rfl).elim
    · next hts =>
      obtain ⟨_, _, _, rfl, _⟩ := exists_of_tokens_eq_cons₂ hs (by simp) (by simp) hts
      exact (hwrite _ _ _ _ rfl).elim
    · next hts =>
      obtain ⟨_, _, _, rfl, _⟩ := exists_of_tokens_eq_cons₂ hs (by simp) (by simp) hts
      exact (hread _ _ _ _ rfl).elim
    · rfl

theorem readContainerHead_carries (start ts : Tokens) :
    e.Carries (ContainerHead.moved e.place) ts (readContainerHead start ts)
      (readContainerHead (e.tokens start) (e.tokens ts)) := by
  refine (e.accept_carries _ _ start ts).bind fun name us => ?_
  refine (e.accept_carries _ _ start us).bind fun _ us => ?_
  refine (e.accept_carries _ _ start us).bind fun id us => ?_
  exact (e.accept_carries _ _ start us).bind fun _ us => carries_ok rfl

/-- A statement is read as it is; the body of a container is fewer tokens. -/
theorem statementOf_carries_of_body (ts : Tokens)
    (hbody : ∀ us, us.length < ts.length →
      e.Carries (List.map (movedStatement e.place)) us (bodyOf us) (bodyOf (e.tokens us))) :
    e.CarriesItem (movedStatement e.place) ts (statementOf ts) (statementOf (e.tokens ts)) := by
  by_cases hcontainer : ∃ word rest, ts = ⟨.keyword .container, word⟩ :: rest
  · obtain ⟨word, rest, rfl⟩ := hcontainer
    rw [tokens_cons, show Spanned.moved e.place ⟨Token.keyword .container, word⟩ =
      ⟨.keyword .container, e.place word⟩ from rfl, statementOf_container, statementOf_container]
    refine Carries.item (Carries.skip ?_)
    refine (e.readContainerHead_carries _ rest).seq fun head us hus => ?_
    refine (hbody us (Nat.lt_succ_of_le hus.length_le)).bind fun body us => ?_
    refine (e.accept_carries _ _ _ us).bind fun close us => carries_ok ?_
    simp only [movedStatement, Statement.moved, movedAll_eq_map, e.place_union]
    rfl
  · have hsimple : ∀ word rest, ts ≠ ⟨.keyword .container, word⟩ :: rest :=
      fun word rest hts => hcontainer ⟨word, rest, hts⟩
    have hitem := e.readSimple_carries ts
    rw [statementOf_simple hsimple]
    by_cases hs : e.Settles ts
    · rwa [statementOf_simple fun word rest hts => ?_]
      obtain ⟨_, _, rfl, _⟩ := exists_of_tokens_eq_cons hs (by simp) hts
      exact hsimple _ _ rfl
    · -- nothing is said of tokens that are not settled, and what is left of them is not either
      cases hr : readSimple ts with
      | error x => exact fun hb => (hs (Or.inl hb)).elim
      | ok o =>
        rw [hr] at hitem
        cases o with
        | none => exact fun hs' => (hs hs').elim
        | some p => exact ⟨hitem.1, fun hs' => (hs (hs'.mono hitem.1)).elim⟩

theorem bodyOf_carries (ts : Tokens) :
    e.Carries (List.map (movedStatement e.place)) ts (bodyOf ts) (bodyOf (e.tokens ts)) := by
  rw [bodyOf_eq, bodyOf_eq (e.tokens ts)]
  exact (e.statementOf_carries_of_body ts fun us _ => bodyOf_carries us).block
    (fun p hp => statementOf_length hp) fun us _ => bodyOf_carries us
termination_by ts.length

theorem statementOf_carries (ts : Tokens) :
    e.CarriesItem (movedStatement e.place) ts (statementOf ts) (statementOf (e.tokens ts)) :=
  e.statementOf_carries_of_body ts fun us _ => e.bodyOf_carries us

/-! ## Programs -/

variable {e}

/-- With nothing behind, a program or a fault moves along with the tokens. -/
theorem readProgram_tokens (hb : e.behind = []) (ts : Tokens) :
    readProgram (e.tokens ts) =
      ((readProgram ts).map (Program.moved e.place)).mapError (SyntaxFault.moved e.place) := by
  have hitem := e.statementOf_carries ts
  rw [readProgram_eq, readProgram_eq ts]
  cases hstatement : statementOf ts with
  | error x =>
    rw [hstatement] at hitem
    rw [hitem hb]
    rfl
  | ok o =>
    rw [hstatement] at hitem
    cases o with
    | none =>
      rw [hitem (Or.inl hb)]
      cases ts with
      | nil =>
        rw [tokens_of_behind hb]
        rfl
      | cons t ts => exact congrArg Except.error (stoppedAt_moved hb .statement (t :: ts) (t :: ts))
    | some p =>
      rw [hitem.2 (Or.inl hb)]
      have hsemicolon : e.Carries (Spanned.moved e.place) p.2 (readSign .semicolon p.2 p.2)
          (readSign .semicolon (e.tokens p.2) (e.tokens p.2)) := e.accept_carries _ _ p.2 p.2
      simp only [bind, Except.bind]
      cases hnext : readSign .semicolon p.2 p.2 with
      | error x =>
        rw [hnext] at hsemicolon
        rw [hsemicolon hb]
        rfl
      | ok q =>
        rw [hnext] at hsemicolon
        have hshort := statementOf_length hstatement
        have hlength : p.2.length = q.2.length + 1 := accept_length hnext
        rw [hsemicolon.2 (Or.inl hb)]
        dsimp only
        rw [readProgram_tokens hb q.2]
        cases readProgram q.2 <;> rfl
termination_by ts.length

/-- A semicolon that is read is the first token. -/
theorem eq_cons_of_readSign {start rest : Tokens} {u : Spanned Unit}
    (h : readSign .semicolon start ts = .ok (u, rest)) :
    ts = ⟨.sign .semicolon, u.span⟩ :: rest := by
  cases ts with
  | nil => cases h
  | cons t ts =>
    obtain ⟨t, span⟩ := t
    rw [readSign, accept] at h
    by_cases ht : t = .sign .semicolon
    · subst ht
      cases h
      rfl
    · rw [if_neg ht] at h
      cases h

/-- A program is read before what is behind it. -/
theorem readProgram_append {ts : Tokens} {p : Program} (hp : readProgram ts = .ok p) :
    readProgram (e.tokens ts) = (readProgram e.behind).map (p.moved e.place ++ ·) := by
  have hitem := e.statementOf_carries ts
  rw [readProgram_eq] at hp
  cases hstatement : statementOf ts with
  | error x =>
    rw [hstatement] at hp
    cases hp
  | ok o =>
    rw [hstatement] at hp hitem
    cases o with
    | none =>
      dsimp only [bind, Except.bind] at hp
      split at hp
      · next hts =>
        subst hts
        cases hp
        rw [tokens, List.map_nil, List.nil_append]
        cases readProgram e.behind <;> rfl
      · cases hp
    | some q =>
      change (readSign .semicolon q.2 q.2 >>= fun r => (q.1 :: ·) <$> readProgram r.2) = .ok p at hp
      obtain ⟨⟨u, rest⟩, hsemicolon, hmore⟩ := bind_eq_ok.1 hp
      have hrest := eq_cons_of_readSign hsemicolon
      have hshort : rest.length < ts.length := by
        have hlength := statementOf_length hstatement
        rw [hrest, List.length_cons] at hlength
        omega
      rw [readProgram_eq, hitem.2 (Or.inr (by rw [hrest]; exact List.mem_cons_self)), hrest,
        tokens_cons]
      cases hread : readProgram rest with
      | error x =>
        rw [hread] at hmore
        cases hmore
      | ok more =>
        rw [hread] at hmore
        cases hmore
        change ((movedStatement e.place q.1 :: ·) <$> readProgram (e.tokens rest)) = _
        rw [readProgram_append hread]
        cases readProgram e.behind <;> rfl
termination_by ts.length

end ArchScript.Embedding
