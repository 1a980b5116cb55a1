/-
  The readers give each statement the span of its tokens.

  Every production puts its span together from parts of its own: a word, an operand, the last
  reference, a closing brace. Each lemma `*_closes` follows one reader and finds that the last
  part is the last token that is used up; the first is the token that told the form. So what is
  read is a phrase (`readSimple_phrase`, `readStep_phrase`), and the statements of a program are
  laid out in its tokens (`readProgram_laidOut`).
-/
import ArchScript.Proofs.Spans.Phrases

namespace ArchScript

namespace Reader

open Grammar

variable {start ts mid rest : Tokens} {first span : Span}

/-- The tokens before `rest` are used up, and `span` reaches from `first` to the last of them. -/
def Closes (first : Span) (ts rest : Tokens) (span : Span) : Prop :=
  ∃ middle last, ts = middle ++ last :: rest ∧ span = first.union last.span

theorem Closes.after {xs : List (Spanned Ident)} (h : Closes first mid rest span)
    (hmid : Taken xs ts mid) : Closes first ts rest span := by
  obtain ⟨front, rfl, _⟩ := hmid
  obtain ⟨middle, last, rfl, hspan⟩ := h
  exact ⟨front ++ middle, last, (List.append_assoc _ _ _).symm, hspan⟩

/-- What a reader takes after a first token is a phrase with it. -/
theorem phrase_of_closes {α : Type} {Rule : List Token → α → Prop} {bare : α → α}
    {t : Spanned Token} {x : Spanned α} (hclose : Closes t.span ts rest x.span)
    (hrule : ∃ us, values (t :: ts) = us ++ values rest ∧ Rule us (bare x.value)) :
    ∃ us, t :: ts = us ++ rest ∧ Phrase Rule bare us x := by
  obtain ⟨middle, last, rfl, hspan⟩ := hclose
  obtain ⟨us, hus, hrule⟩ := hrule
  have hall : t :: (middle ++ last :: rest) = t :: (middle ++ [last]) ++ rest := by simp
  refine ⟨t :: (middle ++ [last]), hall, ?_, t, middle, last, rfl, hspan⟩
  rw [hall, values, List.map_append] at hus
  rwa [values, List.append_cancel_right hus]

/-! ## Single tokens and references -/

theorem accept_closes {α : Type} {pick : Token → Option α} {expected : Expected} {a : Spanned α}
    (h : accept pick expected start ts = .ok (a, rest)) (first : Span) :
    Closes first ts rest (first.union a.span) := by
  cases ts with
  | nil => cases h
  | cons t ts =>
    rw [accept] at h
    split at h
    · cases h
      exact ⟨[], t, rfl, rfl⟩
    · cases h

/-- The span to the last of several references ends where they end. -/
theorem moreReferences_closes {ref : Spanned Ident}
    (h : Closes first ts mid (first.union ref.span)) (other : Span) :
    Closes first ts (moreReferences mid).2
      (spanTo first other (ref :: (moreReferences mid).1)) := by
  fun_induction moreReferences mid generalizing ref with
  | case1 comma at_ name span tail refs rest hmore ih =>
    obtain ⟨middle, last, rfl, _⟩ := h
    have hname : Closes first (middle ++ last :: ⟨.sign .comma, comma⟩ :: ⟨.sign .at, at_⟩ ::
        ⟨.identifier name, span⟩ :: tail) tail (first.union span) :=
      ⟨middle ++ [last, ⟨.sign .comma, comma⟩, ⟨.sign .at, at_⟩], ⟨.identifier name, span⟩,
        by simp, rfl⟩
    have hlast := @ih ⟨name, span⟩ hname
    rw [hmore] at hlast
    rw [spanTo, List.getLast?_cons_cons]
    exact hlast
  | case2 mid => exact h

theorem readReferences_closes {refs : List (Spanned Ident)}
    (h : readReferences start ts = .ok (refs, rest)) (first other : Span) :
    Closes first ts rest (spanTo first other refs) := by
  simp only [readReferences, readReference, bind_eq_ok, Prod.exists] at h
  obtain ⟨r, mid, ⟨_, _, h₁, h₂⟩, h₃⟩ := h
  cases h₃
  exact moreReferences_closes ((accept_closes h₂ first).after (accept_taken h₁)) other

/-! ## Statements without braces -/

variable {s : Spanned Statement}

/-- An actor ends with its last reference or, without any, with its id. -/
theorem readActor_closes {kind : Spanned ActorKind}
    (h : readActor kind start ts = .ok (s, rest)) : Closes kind.span ts rest s.span := by
  simp only [readActor, bind_eq_ok, Prod.exists] at h
  obtain ⟨_, _, h₁, _, _, h₂, id, mid, h₃, refs, _, h₄, h₅⟩ := h
  cases h₅
  have hid : Closes kind.span ts mid (kind.span.union id.span) :=
    (accept_closes h₃ kind.span).after ((accept_taken h₁).trans (accept_taken h₂))
  unfold optionalReferences at h₄
  split at h₄
  · next is_ tail =>
    obtain ⟨middle, last, rfl, hspan⟩ := readReferences_closes h₄ kind.span id.span
    obtain ⟨front, name, rfl, _⟩ := hid
    exact ⟨front ++ name :: ⟨.keyword .is, is_⟩ :: middle, last, by simp, hspan⟩
  · cases h₄
    exact hid

theorem readNote_closes {word : Span} (h : readNote word start ts = .ok (s, rest)) :
    Closes word ts rest s.span := by
  simp only [readNote, bind_eq_ok, Prod.exists] at h
  obtain ⟨_, _, h₁, _, _, h₂, _, _, h₃, _, _, h₄, h₅⟩ := h
  cases h₅
  exact (accept_closes h₄ word).after
    ((accept_taken h₁).trans ((accept_taken h₂).trans (accept_taken h₃)))

theorem readAssignment_closes {target : Spanned Ident}
    (h : readAssignment target start ts = .ok (s, rest)) : Closes target.span ts rest s.span := by
  simp only [readAssignment, bind_eq_ok, Prod.exists] at h
  obtain ⟨_, _, h₁, h₂⟩ := h
  cases h₂
  exact readReferences_closes h₁ target.span target.span

theorem readCall_closes {source : Spanned Ident} (h : readCall source start ts = .ok (s, rest)) :
    Closes source.span ts rest s.span := by
  simp only [readCall, bind_eq_ok, Prod.exists] at h
  obtain ⟨_, _, h₁, _, _, h₂, _, _, h₃, h₄⟩ := h
  cases h₄
  exact (accept_closes h₃ source.span).after
    ((optionalText_taken ts).trans ((accept_taken h₁).trans (accept_taken h₂)))

theorem readFlow_closes {kind : FlowKind} {left : Spanned Ident}
    (h : readFlow kind left start ts = .ok (s, rest)) : Closes left.span ts rest s.span := by
  simp only [readFlow, bind_eq_ok, Prod.exists] at h
  obtain ⟨_, _, h₁, h₂⟩ := h
  cases h₂
  exact accept_closes h₁ left.span

/-! ## Statements with braces -/

theorem readAnnotationDef_closes {at_ : Span}
    (h : readAnnotationDef at_ start ts = .ok (s, rest)) : Closes at_ ts rest s.span := by
  simp only [readAnnotationDef, bind_eq_ok, Prod.exists] at h
  obtain ⟨_, _, h₁, _, _, h₂, _, _, h₃, _, _, h₄, h₅⟩ := h
  cases h₅
  exact (accept_closes h₄ at_).after
    ((accept_taken h₁).trans ((accept_taken h₂).trans (readProperties_taken h₃)))

theorem readScenario_closes {name : Spanned String}
    (h : readScenario name start ts = .ok (s, rest)) : Closes name.span ts rest s.span := by
  simp only [readScenario, bind_eq_ok, Prod.exists] at h
  obtain ⟨_, _, h₁, _, _, h₂, _, _, h₃, h₄⟩ := h
  cases h₄
  exact (accept_closes h₃ name.span).after ((accept_taken h₁).trans (readSteps_taken h₂))

theorem readSimple_phrase (h : readSimple ts = .ok (some (s, rest))) :
    ∃ us, ts = us ++ rest ∧ Phrase StatementRule Statement.bare us s := by
  have hrule := readSimple_sound h
  unfold readSimple at h
  split at h
  · exact phrase_of_closes (readActor_closes (map_some_eq_ok.1 h)) hrule
  · exact phrase_of_closes (readActor_closes (map_some_eq_ok.1 h)) hrule
  · exact phrase_of_closes (readActor_closes (map_some_eq_ok.1 h)) hrule
  · exact phrase_of_closes (readNote_closes (map_some_eq_ok.1 h)) hrule
  · exact phrase_of_closes (readAnnotationDef_closes (map_some_eq_ok.1 h)) hrule
  · exact phrase_of_closes (readScenario_closes (map_some_eq_ok.1 h)) hrule
  · exact phrase_of_closes
      ((readAssignment_closes (map_some_eq_ok.1 h)).after (.skip _ _)) hrule
  · exact phrase_of_closes ((readCall_closes (map_some_eq_ok.1 h)).after
      ((Taken.skip _ _).trans (.skip _ _))) hrule
  · exact phrase_of_closes ((readFlow_closes (map_some_eq_ok.1 h)).after (.skip _ _)) hrule
  · exact phrase_of_closes ((readFlow_closes (map_some_eq_ok.1 h)).after (.skip _ _)) hrule
  · cases h

/-! ## Steps -/

variable {x : Spanned StepDecl} {left : Spanned Ident}

theorem readRequestStep_closes (h : readRequestStep left start ts = .ok (x, rest)) :
    Closes left.span ts rest x.span := by
  simp only [readRequestStep, bind_eq_ok, Prod.exists] at h
  obtain ⟨_, _, h₁, _, _, h₂, _, _, h₃, h₄⟩ := h
  cases h₄
  exact (accept_closes h₃ left.span).after
    ((optionalText_taken ts).trans ((accept_taken h₁).trans (accept_taken h₂)))

theorem readWriteStep_closes {message : Spanned String}
    (h : readWriteStep left message start ts = .ok (x, rest)) :
    Closes left.span ts rest x.span := by
  simp only [readWriteStep, bind_eq_ok, Prod.exists] at h
  obtain ⟨_, _, h₁, _, _, h₂, h₃⟩ := h
  cases h₃
  exact (accept_closes h₂ left.span).after (accept_taken h₁)

theorem readResponseStep_closes (h : readResponseStep left start ts = .ok (x, rest)) :
    Closes left.span ts rest x.span := by
  simp only [readResponseStep, bind_eq_ok, Prod.exists] at h
  obtain ⟨_, mid, h₁, _, _, h₂, _, _, h₃, _, _, h₄, h₅⟩ := h
  cases h₅
  exact (accept_closes h₄ left.span).after ((accept_taken h₁).trans
    ((optionalText_taken mid).trans ((accept_taken h₂).trans (accept_taken h₃))))

theorem readReadStep_closes (h : readReadStep left start ts = .ok (x, rest)) :
    Closes left.span ts rest x.span := by
  simp only [readReadStep, bind_eq_ok, Prod.exists] at h
  obtain ⟨_, _, h₁, _, _, h₂, _, _, h₃, h₄⟩ := h
  cases h₄
  exact (accept_closes h₃ left.span).after ((accept_taken h₁).trans (accept_taken h₂))

theorem readStep_phrase (h : readStep ts = .ok (some (x, rest))) :
    ∃ us, ts = us ++ rest ∧ Phrase StepRule StepDecl.bare us x := by
  have hrule := readStep_sound h
  unfold readStep at h
  split at h
  · exact phrase_of_closes ((readRequestStep_closes (map_some_eq_ok.1 h)).after
      ((Taken.skip _ _).trans (.skip _ _))) hrule
  · exact phrase_of_closes ((readWriteStep_closes (map_some_eq_ok.1 h)).after
      ((Taken.skip _ _).trans (.skip _ _))) hrule
  · exact phrase_of_closes ((readResponseStep_closes (map_some_eq_ok.1 h)).after (.skip _ _)) hrule
  · exact phrase_of_closes ((readReadStep_closes (map_some_eq_ok.1 h)).after (.skip _ _)) hrule
  · cases h

theorem readSteps_phrases {xs : List (Spanned StepDecl)} (h : readSteps ts = .ok (xs, rest)) :
    ∃ us, ts = us ++ rest ∧ ∀ x ∈ xs, HasPhrase StepRule StepDecl.bare us x := by
  fun_induction readSteps ts generalizing xs rest with
  | case1 => cases h
  | case2 =>
    cases h
    exact ⟨[], rfl, fun x hx => (List.not_mem_nil hx).elim⟩
  | case3 ts x next hx ih =>
    simp only [bind_eq_ok, Prod.exists] at h
    obtain ⟨_, _, h₁, h₂⟩ := h
    obtain ⟨us, rfl, hphrase⟩ := readStep_phrase hx
    obtain ⟨separator, hnext, _⟩ := skipSemicolon_taken next
    obtain ⟨vs, hvs, hphrases⟩ := ih h₁
    cases h₂
    refine ⟨us ++ separator ++ vs, ?_, List.forall_mem_cons.2 ⟨?_, fun y hy => ?_⟩⟩
    · rw [hnext, hvs]
      simp only [List.append_assoc]
    · refine ⟨us, ?_, hphrase⟩
      rw [List.append_assoc]
      exact (List.prefix_append us _).isInfix
    · exact (hphrases y hy).mono (List.suffix_append _ vs).isInfix

/-- The steps of a scenario are phrases among the tokens that it uses up. -/
theorem readScenario_phrases {name : Spanned String}
    (h : readScenario name start ts = .ok (s, rest)) : s.value.IsFlat ∧
      ∃ us, ts = us ++ rest ∧ ∀ x ∈ s.value.steps, HasPhrase StepRule StepDecl.bare us x := by
  simp only [readScenario, bind_eq_ok, Prod.exists] at h
  obtain ⟨_, _, h₁, _, _, h₂, _, _, h₃, h₄⟩ := h
  cases h₄
  obtain ⟨front, rfl, _⟩ := accept_taken h₁
  obtain ⟨us, rfl, hphrases⟩ := readSteps_phrases h₂
  obtain ⟨back, rfl, _⟩ := accept_taken h₃
  refine ⟨trivial, front ++ us ++ back, by simp only [List.append_assoc], fun x hx => ?_⟩
  exact (hphrases x hx).mono ⟨front, back, rfl⟩

/-! ## Programs -/

/-- A statement without statements in it is laid out before what follows it. -/
theorem readSimple_laidOut (h : readSimple ts = .ok (some (s, rest))) :
    ∃ us, ts = us ++ rest ∧ ∀ {vs xs}, LaidOut vs xs → LaidOut (us ++ vs) (s :: xs) := by
  obtain ⟨us, hus, hphrase⟩ := readSimple_phrase h
  rcases readSimple_isPlain_or_scenario h with hplain | ⟨name, span, tail, rfl, hscenario⟩
  · refine ⟨us, hus, .flat hplain.isFlat hphrase ?_⟩
    rw [hplain.steps_eq_nil]
    exact fun x hx => (List.not_mem_nil hx).elim
  · obtain ⟨hflat, vs, rfl, hphrases⟩ := readScenario_phrases hscenario
    obtain rfl : ⟨.text name, span⟩ :: vs = us := (List.append_left_inj rest).1 hus
    exact ⟨_, hus, .flat hflat hphrase fun x hx =>
      (hphrases x hx).mono (List.suffix_cons _ vs).isInfix⟩

mutual

theorem readStatement_laidOut {ts rest : Tokens} {s : Spanned Statement} {hr}
    (h : readStatement ts = .ok (some ⟨(s, rest), hr⟩)) :
    ∃ us, ts = us ++ rest ∧ ∀ {vs xs}, LaidOut vs xs → LaidOut (us ++ vs) (s :: xs) := by
  have hrule := readStatement_sound h
  unfold readStatement at h
  split at h
  · next word rest' =>
    dsimp only at h
    split at h
    · cases h
    · next head inner hhead =>
      split at h
      · cases h
      · next body tail ht hbody =>
        split at h
        · cases h
        · next close after hclose =>
          cases h
          -- the body has fewer tokens than the container, which ends the recursion
          have hlen := readContainerHead_length hhead
          have hinner := (Taken.skip ⟨.keyword .container, word⟩ rest').trans
            (readContainerHead_taken hhead)
          obtain ⟨us, hus, hphrase⟩ := phrase_of_closes ((accept_closes hclose word).after
            ((readContainerHead_taken hhead).trans (readBody_taken hbody))) hrule
          obtain ⟨vs, rfl, hlaid⟩ := readBody_laidOut hbody
          obtain ⟨front, hfront, _⟩ := hinner
          obtain ⟨back, rfl, _⟩ := accept_taken hclose
          have hparts : front ++ vs ++ back = us := by
            refine (List.append_left_inj rest).1 ?_
            rw [← hus, hfront]
            simp only [List.append_assoc]
          exact ⟨us, hus, .container hphrase (hlaid.mono ⟨front, back, hparts⟩)⟩
  · split at h
    · cases h
    · cases h
    · next p hp =>
      cases h
      exact readSimple_laidOut hp
termination_by 2 * ts.length
decreasing_by
  subst_vars
  simp only [List.length_cons]
  omega

theorem readBody_laidOut {ts rest : Tokens} {xs : List (Spanned Statement)} {hr}
    (h : readBody ts = .ok ⟨(xs, rest), hr⟩) :
    ∃ us, ts = us ++ rest ∧ LaidOut us xs := by
  unfold readBody at h
  split at h
  · cases h
  · cases h
    exact ⟨[], rfl, .nil []⟩
  · next s next hnext hs =>
    dsimp only at h
    split at h
    · cases h
    · next more tail ht hmore =>
      cases h
      have hlen : next.length < ts.length := hnext
      have hskip := skipSemicolon_length next
      obtain ⟨us, rfl, hlaid⟩ := readStatement_laidOut hs
      obtain ⟨vs, hvs, hbody⟩ := readBody_laidOut hmore
      obtain ⟨separator, hnext, _⟩ := skipSemicolon_taken next
      refine ⟨us ++ (separator ++ vs), ?_, hlaid (hbody.mono ?_)⟩
      · rw [hnext, hvs]
        simp only [List.append_assoc]
      · exact (List.suffix_append separator vs).isInfix
termination_by 2 * ts.length + 1
decreasing_by all_goals omega

end

/-- The statements of a program that is read are laid out in its tokens. -/
theorem readProgram_laidOut {p : Program} (h : readProgram ts = .ok p) : LaidOut ts p := by
  fun_induction readProgram ts generalizing p with
  | case1 => cases h
  | case2 =>
    cases h
    exact .nil []
  | case3 => cases h
  | case4 => cases h
  | case5 ts s next _ hs _ rest hsemi ih =>
    obtain ⟨more, hmore, h⟩ := bind_eq_ok.1 h
    cases h
    have hrest := ih hmore
    obtain ⟨us, rfl, hlaid⟩ := readStatement_laidOut hs
    obtain ⟨semicolon, rfl, _⟩ := accept_taken hsemi
    exact hlaid (hrest.mono (List.suffix_append semicolon rest).isInfix)

end Reader

end ArchScript
