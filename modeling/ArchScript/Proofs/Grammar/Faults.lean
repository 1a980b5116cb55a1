/-
  The faults of programs.

  The readers of statements, bodies and programs keep to the agenda: `readProgram_ok` and
  `readProgram_error` say where a program ends or halts. A container holds statements again,
  so `readStatement_tracks` and `readBody_tracks` call each other as the readers do.
-/
import ArchScript.Proofs.Grammar.Tracks

namespace ArchScript.Reader

open Agenda

variable {α β : Type} {all start ts rest : Tokens} {L L₁ L₂ R R₁ R₂ : Agenda}

/-! ## Statements -/

/-- Tokens that do not begin a form of statement. -/
theorem stops_statement
    (hbegins : ∀ t, (values ts).head? = some t → (∀ x, t ≠ .identifier x) →
      Slot.begins .statement t = none)
    (his : ∀ x a d rest, ts ≠ ⟨.identifier x, a⟩ :: ⟨.keyword .is, d⟩ :: rest)
    (hcall : ∀ x a d p rest, ts ≠
      ⟨.identifier x, a⟩ :: ⟨.sign .dash, d⟩ :: ⟨.sign .leftParen, p⟩ :: rest)
    (hwrite : ∀ x a d rest, ts ≠ ⟨.identifier x, a⟩ :: ⟨.sign .writeArrow, d⟩ :: rest)
    (hread : ∀ x a d rest, ts ≠ ⟨.identifier x, a⟩ :: ⟨.sign .readArrow, d⟩ :: rest) :
    Stops [.item .statement] (values ts) (values ts) := by
  refine stops_named .namedStatement .dashedStatement (fun _ => rfl) rfl ⟨rfl, rfl⟩ ⟨rfl, rfl⟩
    ?_ ?_ ?_
  · rintro t rest rfl hne
    exact hbegins t.value rfl hne
  · rintro x a ⟨u, span⟩ rest rfl hne
    simp only [Slot.take?]
    split
    · exact absurd rfl (his x a span rest)
    · exact absurd rfl hne
    · exact absurd rfl (hwrite x a span rest)
    · exact absurd rfl (hread x a span rest)
    · rfl
  · rintro x a d ⟨u, span⟩ rest rfl
    simp only [Slot.take?]
    split
    · exact absurd rfl (hcall x a d span rest)
    · rfl

theorem readSimple_tracks (hts : ts <:+ all)
    (hcontainer : ∀ word rest, ts ≠ ⟨.keyword .container, word⟩ :: rest) :
    TracksItem all .statement ts (readSimple ts) := by
  unfold readSimple
  split
  · next span rest =>
    exact (readActor_tracks ⟨[_], rfl⟩ hts ⟨.agent, span⟩).item [_]
      (List.cons_ne_nil _ _) rfl (List.Subset.refl _)
  · next span rest =>
    exact (readActor_tracks ⟨[_], rfl⟩ hts ⟨.store, span⟩).item [_]
      (List.cons_ne_nil _ _) rfl (List.Subset.refl _)
  · next span rest =>
    exact (readActor_tracks ⟨[_], rfl⟩ hts ⟨.user, span⟩).item [_]
      (List.cons_ne_nil _ _) rfl (List.Subset.refl _)
  · next span rest =>
    exact (readNote_tracks ⟨[_], rfl⟩ hts span).item [_]
      (List.cons_ne_nil _ _) rfl (List.nil_subset _)
  · next span rest =>
    exact (readAnnotationDef_tracks ⟨[_], rfl⟩ hts span).item [_]
      (List.cons_ne_nil _ _) rfl (List.nil_subset _)
  · next name span rest =>
    exact (readScenario_tracks ⟨[_], rfl⟩ hts ⟨name, span⟩).item [_]
      (List.cons_ne_nil _ _) rfl (List.nil_subset _)
  · next name span word rest =>
    exact (readAssignment_tracks ⟨[_], rfl⟩ ((List.suffix_cons _ _).trans hts) ⟨name, span⟩).item
      [_, _] (List.cons_ne_nil _ _) rfl (by simp)
  · next name span _ _ rest =>
    exact (readCall_tracks ⟨[_, _, _], rfl⟩ hts ⟨name, span⟩).item [_, _, _]
      (List.cons_ne_nil _ _) rfl (List.nil_subset _)
  · next name span _ rest =>
    exact (readFlow_tracks ⟨[_, _], rfl⟩ hts .write ⟨name, span⟩).item [_, _]
      (List.cons_ne_nil _ _) rfl (List.nil_subset _)
  · next name span _ rest =>
    exact (readFlow_tracks ⟨[_, _], rfl⟩ hts .read ⟨name, span⟩).item [_, _]
      (List.cons_ne_nil _ _) rfl (List.nil_subset _)
  · next hagent hstore huser hnote hat htext his hcall hwrite hread =>
    refine stops_statement ?_ his hcall hwrite hread
    intro t ht hname
    cases ts with
    | nil => cases ht
    | cons u rest =>
      obtain ⟨u, span⟩ := u
      cases ht
      change Slot.begins .statement u = none
      cases u with
      | keyword k =>
        cases k with
        | agent => exact (hagent span rest rfl).elim
        | store => exact (hstore span rest rfl).elim
        | user => exact (huser span rest rfl).elim
        | note => exact (hnote span rest rfl).elim
        | container => exact (hcontainer span rest rfl).elim
        | _ => rfl
      | sign s =>
        cases s with
        | «at» => exact (hat span rest rfl).elim
        | _ => rfl
      | text text => exact (htext text span rest rfl).elim
      | identifier x => exact (hname x rfl).elim

mutual

theorem readStatement_tracks (ts : Tokens) (hts : ts <:+ all) :
    TracksItem all .statement ts ((readStatement ts).map (Option.map Subtype.val)) := by
  unfold readStatement
  split
  · next word rest =>
    have hrest : rest <:+ ⟨.keyword .container, word⟩ :: rest := List.suffix_cons _ _
    have hhead := readContainerHead_tracks hrest hts
    have hitem : ∀ r : Read (Spanned Statement × Tokens),
        Tracks all [.literal, .token (.keyword .as), .name, .token (.sign .leftBrace),
          .block .statement, .token (.sign .rightBrace)] [] rest r →
        TracksItem all .statement (⟨.keyword .container, word⟩ :: rest) (some <$> r) :=
      fun r h => h.item [_] (List.cons_ne_nil _ _) rfl (List.nil_subset _)
    dsimp only
    split
    · next e he =>
      rw [he] at hhead
      exact hitem (.error e) (hhead.fault _ _)
    · next head inner he =>
      rw [he] at hhead
      have hlen := readContainerHead_length he
      have hinner : inner <:+ all := hhead.1.trans (hrest.trans hts)
      have hbody := readBody_tracks inner hinner
      split
      · next e he =>
        rw [he] at hbody
        exact hitem (.error e) (hhead.after (hbody.fault _ _) (apart_nil _)
          (Or.inl (List.nil_subset _)))
      · next body tail _ he =>
        rw [he] at hbody
        have hclose := readBlockEnd_tracks (hbody.1.trans (hhead.1.trans hrest)) hts .statement
        have hbraces {r : Read (Spanned Statement × Tokens)}
            (h : Tracks all [.token (.sign .rightBrace)] [] tail r) :=
          hhead.after (hbody.after h (apart_rightBrace .statement [])
            (Or.inr ⟨_, List.mem_cons_self, rfl⟩)) (apart_nil _) (Or.inl (List.nil_subset _))
        split
        · next e he =>
          rw [he] at hclose
          exact hitem (.error e) (hbraces hclose)
        · next close after he =>
          rw [he] at hclose
          exact hitem (.ok (⟨.container head body, word.union close.span⟩, after)) (hbraces hclose)
  · next ts hcontainer =>
    have hsimple := readSimple_tracks hts hcontainer
    split
    · next e he =>
      rw [he] at hsimple
      exact hsimple
    · next he =>
      rw [he] at hsimple
      exact hsimple
    · next p he =>
      rw [he] at hsimple
      exact hsimple
termination_by 2 * ts.length
decreasing_by
  subst_vars
  simp only [List.length_cons]
  omega

theorem readBody_tracks (ts : Tokens) (hts : ts <:+ all) :
    Tracks all [.block .statement] (ends .statement) ts ((readBody ts).map Subtype.val) := by
  have hitem := readStatement_tracks ts hts
  unfold readBody
  split
  · next e he =>
    rw [he] at hitem
    exact hitem.block_error
  · next he =>
    rw [he] at hitem
    exact tracks_empty (by simp [ends]) hitem.block_none
  · next s rest hr he =>
    rw [he] at hitem
    have hlt : rest.length < ts.length := hr
    have hlen := skipSemicolon_length rest
    have hmore := readBody_tracks (skipSemicolon rest) (skipSemicolon_suffix (hitem.1.trans hts))
    have hblock := TracksItem.block_some hitem hmore
    dsimp only
    split
    · next e he =>
      rw [he] at hblock
      exact hblock
    · next more tail ht he =>
      rw [he] at hblock
      exact hblock
termination_by 2 * ts.length + 1
decreasing_by all_goals omega

end

/-! ## Programs -/

/-- A statement and its semicolon lead from a program to a program. -/
theorem run_statement {s : Spanned Statement} {hr} {semicolon : Spanned Unit} {next : Tokens}
    (hs : readStatement ts = .ok (some ⟨(s, rest), hr⟩))
    (hsemicolon : readSign .semicolon rest rest = .ok (semicolon, next)) :
    next <:+ ts ∧ ∃ ws, values ts = ws ++ values next ∧ run [.program] ws = some [.program] := by
  have hitem := readStatement_tracks ts (List.suffix_refl ts)
  rw [hs] at hitem
  have hsign := accept_token_tracks (List.suffix_refl rest) hitem.1 (.sign .semicolon)
    (.sign .semicolon)
  rw [show accept _ _ rest rest = _ from hsemicolon] at hsign
  have happart : Apart [.optionalClause, .moreReferences] [.token (.sign .semicolon)] :=
    apart_token (by decide) []
  obtain ⟨ws, N, hws, hrun, hN⟩ := hitem.2.seq hsign.2 happart (Or.inr ⟨_, List.mem_cons_self, rfl⟩)
  refine ⟨hsign.1.trans hitem.1, ws, hws, ?_⟩
  obtain rfl : N = [] := List.eq_nil_iff_forall_not_mem.2 fun s hs => List.not_mem_nil (hN s hs).1
  have hbelow := run_below hrun [.program]
  cases ws with
  | nil => cases hrun
  | cons t ws => exact run_many (fun _ => rfl) hbelow

/-- The tokens of a program leave nothing to be filled. -/
theorem readProgram_ok {p : Program} (h : readProgram ts = .ok p) :
    ∃ d, run [.program] (values ts) = some d ∧ Done d := by
  fun_induction readProgram ts generalizing p with
  | case1 => cases h
  | case2 => exact ⟨[.program], rfl, by simp [Done, Slot.optional]⟩
  | case3 => cases h
  | case4 => cases h
  | case5 ts s rest _ hs _ next hsemicolon ih =>
    obtain ⟨more, hmore, _⟩ := bind_eq_ok.1 h
    obtain ⟨_, ws, hws, hrun⟩ := run_statement hs hsemicolon
    obtain ⟨d, hd, hdone⟩ := ih hmore
    refine ⟨d, ?_, hdone⟩
    rw [hws, run_append_of_eq hrun]
    exact hd

/-- A program that is not read halts where the fault says, and the tokens of the fault are
the last ones from where its construct began. -/
theorem readProgram_error (hts : ts <:+ all) {f : SyntaxFault} (h : readProgram ts = .error f) :
    f.construct ++ f.rest <:+ all ∧ Halts [.program] (values ts) (values f.rest) := by
  fun_induction readProgram ts with
  | case1 ts e he =>
    cases h
    have hitem := readStatement_tracks ts hts
    rw [he] at hitem
    obtain ⟨hfault, hstops, hne⟩ := hitem
    refine ⟨hfault, ?_⟩
    rcases (hstops.below [.token (.sign .semicolon), .program]).many (s := .program) (fun _ => rfl)
      with ⟨_, heq⟩ | hprogram
    · exact absurd heq hne
    · exact hprogram.halts
  | case2 => cases h
  | case3 t ts hnone =>
    cases h
    have hitem := readStatement_tracks (t :: ts) hts
    rw [hnone] at hitem
    refine ⟨?_, ?_⟩
    · rw [construct_append_rest .statement (List.suffix_refl _)]
      exact hts
    · rcases (Stops.below hitem [.token (.sign .semicolon), .program]).many (s := .program)
        (fun _ => rfl) with ⟨hhead, _⟩ | hprogram
      · refine ⟨[], [], values (t :: ts), [.program], rfl, rfl, rfl, rfl, nofun, fun u hu => ?_⟩
        rw [step_skip rfl (hhead u hu)]
        rfl
      · exact hprogram.halts
  | case4 ts s rest hr hs e he =>
    cases h
    have hitem := readStatement_tracks ts hts
    rw [hs] at hitem
    have hsign := accept_token_tracks (List.suffix_refl rest) (hitem.1.trans hts) (.sign .semicolon)
      (.sign .semicolon)
    rw [show accept _ _ rest rest = _ from he] at hsign
    refine ⟨hsign.1, ?_⟩
    have hstops := hitem.2.stops hsign.2 (apart_token (by decide) [])
    rcases (hstops.below [.program]).many (s := .program) (fun _ => rfl) with ⟨_, heq⟩ | hprogram
    · have hlen := hsign.2.length_le
      have hlt := hitem.2.length_lt rfl
      rw [heq] at hlen
      simp only at hlt hlen
      omega
    · exact hprogram.halts
  | case5 ts s rest _ hs _ next hsemicolon ih =>
    obtain ⟨hnext, ws, hws, hrun⟩ := run_statement hs hsemicolon
    have hmore : readProgram next = .error f := by
      cases hread : readProgram next with
      | error e =>
        rw [hread] at h
        cases h
        rfl
      | ok p =>
        rw [hread] at h
        cases h
    obtain ⟨hfault, hhalts⟩ := ih (hnext.trans hts) hmore
    refine ⟨hfault, ?_⟩
    rw [hws]
    exact hhalts.after hrun

end ArchScript.Reader