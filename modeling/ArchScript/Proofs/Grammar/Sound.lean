/-
  What the reader reads is derived by the grammar.

  Each lemma `*_sound` follows one reader, in the order of its tokens: when it succeeds, the
  tokens that it used up are a phrase of its rule, and the phrase has the tree that was read,
  up to spans. `ofTokens_sound` is their sum.
-/
import ArchScript.Program.Reader
import ArchScript.Proofs.Grammar.Rules

namespace ArchScript.Reader

open Grammar

variable {start ts rest : Tokens}

/-! ## Single tokens -/

theorem accept_sound {α : Type} {pick : Token → Option α} {expected : Expected} {a : Spanned α}
    (h : accept pick expected start ts = .ok (a, rest)) :
    ∃ t, values ts = t :: values rest ∧ pick t = some a.value := by
  cases ts with
  | nil => cases h
  | cons t ts =>
    rw [accept] at h
    split at h
    · next v hv =>
      cases h
      exact ⟨t.value, rfl, hv⟩
    · cases h

/-- A reader of one fixed token reads this token. -/
theorem accept_fixed_sound {t : Token} {expected : Expected} {a : Spanned Unit}
    (h : accept (fun u => if u = t then some () else none) expected start ts = .ok (a, rest)) :
    values ts = t :: values rest := by
  obtain ⟨u, hts, hu⟩ := accept_sound h
  rw [hts]
  by_cases hut : u = t
  · rw [hut]
  · rw [if_neg hut] at hu
    cases hu

theorem readName_sound {role : Option NameRole} {a : Spanned Ident}
    (h : readName role start ts = .ok (a, rest)) :
    values ts = .identifier a.value :: values rest := by
  obtain ⟨t, hts, ht⟩ := accept_sound h
  cases t with
  | identifier name =>
    cases ht
    exact hts
  | _ => cases ht

theorem readTextLiteral_sound {role : TextRole} {a : Spanned String}
    (h : readTextLiteral role start ts = .ok (a, rest)) :
    values ts = .text a.value :: values rest := by
  obtain ⟨t, hts, ht⟩ := accept_sound h
  cases t with
  | text value =>
    cases ht
    exact hts
  | _ => cases ht

theorem readChannelArrow_sound {a : Spanned ChannelKind}
    (h : readChannelArrow start ts = .ok (a, rest)) :
    values ts = .sign (channelArrow a.value) :: values rest := by
  obtain ⟨t, hts, ht⟩ := accept_sound h
  unfold channelKind? at ht
  split at ht
  · rw [← Option.some.inj ht]
    exact hts
  · rw [← Option.some.inj ht]
    exact hts
  · cases ht

theorem optionalText_sound (ts : Tokens) :
    ∃ us, values ts = us ++ values (optionalText ts).2 ∧
      OptionalText us ((optionalText ts).1.map Spanned.bare) := by
  unfold optionalText
  split
  · next value span ts => exact ⟨[.text value], rfl, .present value⟩
  · exact ⟨[], rfl, .absent⟩

/-! ## References -/

/-- The references after a comma, together with the one before it. -/
theorem moreReferences_sound (x : Ident) (ts : Tokens) :
    ∃ us, .sign .at :: .identifier x :: values ts = us ++ values (moreReferences ts).2 ∧
      References us (unplaced x :: (moreReferences ts).1.map Spanned.bare) := by
  fun_induction moreReferences ts generalizing x with
  | case1 _ _ name span ts refs rest h ih =>
    obtain ⟨us, hus, href⟩ := ih name
    rw [h] at hus href
    refine ⟨.sign .at :: .identifier x :: .sign .comma :: us, ?_, .more x href⟩
    simp only [values_cons, List.cons_append]
    rw [hus]
  | case2 ts => exact ⟨[.sign .at, .identifier x], rfl, .last x⟩

theorem readReferences_sound {refs : List (Spanned Ident)}
    (h : readReferences start ts = .ok (refs, rest)) :
    ∃ us, values ts = us ++ values rest ∧ References us (refs.map Spanned.bare) := by
  simp only [readReferences, readReference, bind_eq_ok, Prod.exists] at h
  obtain ⟨r, ts', ⟨_, _, h₁, h₂⟩, h₃⟩ := h
  obtain ⟨us, hus, href⟩ := moreReferences_sound r.value ts'
  cases h₃
  refine ⟨us, ?_, href⟩
  rw [accept_fixed_sound h₁, readName_sound h₂, hus]

theorem optionalReferences_sound {refs : List (Spanned Ident)}
    (h : optionalReferences ts = .ok (refs, rest)) :
    ∃ us, values ts = us ++ values rest ∧ OptionalClause us (refs.map Spanned.bare) := by
  unfold optionalReferences at h
  split at h
  · obtain ⟨us, hus, href⟩ := readReferences_sound h
    refine ⟨.keyword .is :: us, ?_, .present (.is href)⟩
    rw [values_cons, hus]
    rfl
  · cases h
    exact ⟨[], rfl, .absent⟩

/-! ## Statements without braces -/

variable {s : Spanned Statement}

theorem readActor_sound {kind : Spanned ActorKind} (h : readActor kind start ts = .ok (s, rest)) :
    ∃ us, values ts = us ++ values rest ∧
      StatementRule (.keyword (actorWord kind.value) :: us) s.value.bare := by
  simp only [readActor, bind_eq_ok, Prod.exists] at h
  obtain ⟨caption, _, h₁, _, _, h₂, id, _, h₃, refs, _, h₄, h₅⟩ := h
  obtain ⟨us, hus, hrefs⟩ := optionalReferences_sound h₄
  cases h₅
  refine ⟨.text caption.value :: .keyword .as :: .identifier id.value :: us, ?_,
    .actor kind.value caption.value id.value hrefs⟩
  rw [readTextLiteral_sound h₁, accept_fixed_sound h₂, readName_sound h₃, hus]
  rfl

theorem readNote_sound {word : Span} (h : readNote word start ts = .ok (s, rest)) :
    ∃ us, values ts = us ++ values rest ∧ StatementRule (.keyword .note :: us) s.value.bare := by
  simp only [readNote, bind_eq_ok, Prod.exists] at h
  obtain ⟨_, _, h₁, target, _, h₂, _, _, h₃, text, _, h₄, h₅⟩ := h
  cases h₅
  refine ⟨[.keyword .for, .identifier target.value, .sign .colon, .text text.value], ?_,
    .note target.value text.value⟩
  rw [accept_fixed_sound h₁, readName_sound h₂, accept_fixed_sound h₃, readTextLiteral_sound h₄]
  rfl

theorem readAssignment_sound {target : Spanned Ident}
    (h : readAssignment target start ts = .ok (s, rest)) :
    ∃ us, values ts = us ++ values rest ∧
      StatementRule (.identifier target.value :: .keyword .is :: us) s.value.bare := by
  simp only [readAssignment, bind_eq_ok, Prod.exists] at h
  obtain ⟨_, _, h₁, h₂⟩ := h
  obtain ⟨us, hus, hrefs⟩ := readReferences_sound h₁
  cases h₂
  exact ⟨us, hus, .assignment target.value (.is hrefs)⟩

theorem readCall_sound {source : Spanned Ident} (h : readCall source start ts = .ok (s, rest)) :
    ∃ us, values ts = us ++ values rest ∧
      StatementRule (.identifier source.value :: .sign .dash :: .sign .leftParen :: us)
        s.value.bare := by
  simp only [readCall, bind_eq_ok, Prod.exists] at h
  obtain ⟨_, _, h₁, kind, _, h₂, target, _, h₃, h₄⟩ := h
  obtain ⟨us, hus, htext⟩ := optionalText_sound ts
  cases h₄
  refine ⟨us ++ [.sign .rightParen, .sign (channelArrow kind.value), .identifier target.value],
    ?_, .call kind.value source.value target.value htext⟩
  rw [hus, accept_fixed_sound h₁, readChannelArrow_sound h₂, readName_sound h₃, List.append_assoc]
  rfl

theorem readFlow_sound {kind : FlowKind} {left : Spanned Ident}
    (h : readFlow kind left start ts = .ok (s, rest)) :
    ∃ us, values ts = us ++ values rest ∧
      StatementRule (.identifier left.value :: .sign (flowArrow kind) :: us) s.value.bare := by
  simp only [readFlow, bind_eq_ok, Prod.exists] at h
  obtain ⟨right, _, h₁, h₂⟩ := h
  cases h₂
  exact ⟨[.identifier right.value], readName_sound h₁, .flow kind left.value right.value⟩

/-! ## Blocks -/

/-- An item and the semicolon after it, if there is one, before the rest of a block. -/
theorem block_cons_skipSemicolon {α : Type} {Item : List Token → α → Prop} {us vs : List Token}
    {x : α} {xs : List α} {next : Tokens} (hx : Item us x) (hxs : Block Item vs xs)
    (hnext : values (skipSemicolon next) = vs ++ values rest) :
    ∃ ws, us ++ values next = ws ++ values rest ∧ Block Item ws (x :: xs) := by
  unfold skipSemicolon at hnext
  split at hnext
  · refine ⟨us ++ .sign .semicolon :: vs, ?_, .consSemicolon hx hxs⟩
    rw [values_cons, hnext, List.append_assoc]
    rfl
  · refine ⟨us ++ vs, ?_, .cons hx hxs⟩
    rw [hnext, List.append_assoc]

theorem ofText?_eq_some {name : String} {key : PropertyKey}
    (h : PropertyKey.ofText? name = some key) : name = key.text := by
  have hkey := List.find?_some h
  exact (eq_of_beq hkey).symm

theorem readProperty_sound {p : PropertyDecl} (h : readProperty ts = .ok (some (p, rest))) :
    ∃ us, values ts = us ++ values rest ∧ PropertyRule us p.bare := by
  unfold readProperty at h
  split at h
  · cases h
  · next t ts =>
    split at h
    · cases h
    · next key hkey =>
      simp only [bind_eq_ok, Prod.exists] at h
      obtain ⟨_, _, h₁, value, _, h₂, h₃⟩ := h
      obtain ⟨name, hname, hof⟩ := Option.bind_eq_some_iff.1 hkey
      cases h₃
      refine ⟨[.identifier key.text, .sign .colon, .text value.value], ?_,
        .property key value.value⟩
      have ht : t.value = .identifier key.text := by
        obtain ⟨token, span⟩ := t
        cases token with
        | identifier x => rw [← ofText?_eq_some hof, ← Option.some.inj hname]
        | _ => cases hname
      rw [values_cons, ht, accept_fixed_sound h₁, readTextLiteral_sound h₂]
      rfl

theorem readProperties_sound {ps : List PropertyDecl} (h : readProperties ts = .ok (ps, rest)) :
    ∃ us, values ts = us ++ values rest ∧ Block PropertyRule us (ps.map PropertyDecl.bare) := by
  fun_induction readProperties ts generalizing ps rest with
  | case1 => cases h
  | case2 =>
    cases h
    exact ⟨[], rfl, .nil⟩
  | case3 ts p next hp ih =>
    simp only [bind_eq_ok, Prod.exists] at h
    obtain ⟨_, _, h₁, h₂⟩ := h
    obtain ⟨us, hus, hrule⟩ := readProperty_sound hp
    obtain ⟨vs, hvs, hblock⟩ := ih h₁
    cases h₂
    rw [hus]
    exact block_cons_skipSemicolon hrule hblock hvs

theorem readAnnotationDef_sound {at_ : Span} (h : readAnnotationDef at_ start ts = .ok (s, rest)) :
    ∃ us, values ts = us ++ values rest ∧ StatementRule (.sign .at :: us) s.value.bare := by
  simp only [readAnnotationDef, bind_eq_ok, Prod.exists] at h
  obtain ⟨id, _, h₁, _, _, h₂, _, _, h₃, _, _, h₄, h₅⟩ := h
  obtain ⟨us, hus, hblock⟩ := readProperties_sound h₃
  cases h₅
  refine ⟨.identifier id.value :: .sign .leftBrace :: (us ++ [.sign .rightBrace]), ?_,
    StatementRule.annotation id.value hblock⟩
  rw [readName_sound h₁, accept_fixed_sound h₂, hus, accept_fixed_sound h₄]
  simp

/-! ## Scenarios -/

variable {x : Spanned StepDecl} {left : Spanned Ident}

theorem readRequestStep_sound (h : readRequestStep left start ts = .ok (x, rest)) :
    ∃ us, values ts = us ++ values rest ∧
      StepRule (.identifier left.value :: .sign .dash :: .sign .leftParen :: us)
        x.value.bare := by
  simp only [readRequestStep, bind_eq_ok, Prod.exists] at h
  obtain ⟨_, _, h₁, kind, _, h₂, target, _, h₃, h₄⟩ := h
  obtain ⟨us, hus, htext⟩ := optionalText_sound ts
  cases h₄
  refine ⟨us ++ [.sign .rightParen, .sign (channelArrow kind.value), .identifier target.value],
    ?_, .request kind.value left.value target.value htext⟩
  rw [hus, accept_fixed_sound h₁, readChannelArrow_sound h₂, readName_sound h₃, List.append_assoc]
  rfl

theorem readWriteStep_sound {message : Spanned String}
    (h : readWriteStep left message start ts = .ok (x, rest)) :
    ∃ us, values ts = us ++ values rest ∧
      StepRule (.identifier left.value :: .sign .dash :: .text message.value :: us)
        x.value.bare := by
  simp only [readWriteStep, bind_eq_ok, Prod.exists] at h
  obtain ⟨_, _, h₁, right, _, h₂, h₃⟩ := h
  cases h₃
  refine ⟨[.sign .arrow, .identifier right.value], ?_,
    .write left.value right.value message.value⟩
  rw [accept_fixed_sound h₁, readName_sound h₂]
  rfl

theorem readResponseStep_sound (h : readResponseStep left start ts = .ok (x, rest)) :
    ∃ us, values ts = us ++ values rest ∧
      StepRule (.identifier left.value :: .sign .doubleDash :: us) x.value.bare := by
  simp only [readResponseStep, bind_eq_ok, Prod.exists] at h
  obtain ⟨_, ts₁, h₁, _, _, h₂, _, _, h₃, right, _, h₄, h₅⟩ := h
  obtain ⟨us, hus, htext⟩ := optionalText_sound ts₁
  cases h₅
  refine ⟨.sign .leftParen ::
    (us ++ [.sign .rightParen, .sign .responseArrow, .identifier right.value]), ?_,
    .response left.value right.value htext⟩
  rw [accept_fixed_sound h₁, hus, accept_fixed_sound h₂, accept_fixed_sound h₃,
    readName_sound h₄]
  simp

theorem readReadStep_sound (h : readReadStep left start ts = .ok (x, rest)) :
    ∃ us, values ts = us ++ values rest ∧
      StepRule (.identifier left.value :: .sign .leftArrow :: us) x.value.bare := by
  simp only [readReadStep, bind_eq_ok, Prod.exists] at h
  obtain ⟨message, _, h₁, _, _, h₂, right, _, h₃, h₄⟩ := h
  cases h₄
  refine ⟨[.text message.value, .sign .dash, .identifier right.value], ?_,
    .read left.value right.value message.value⟩
  rw [readTextLiteral_sound h₁, accept_fixed_sound h₂, readName_sound h₃]
  rfl

/-- Tokens in front of what a reader used up. -/
theorem append_sound {α : Type} {Rule : List Token → α → Prop} {a : α} (before : List Token)
    {vs : List Token} (hvs : vs = before ++ values ts)
    (h : ∃ us, values ts = us ++ values rest ∧ Rule (before ++ us) a) :
    ∃ us, vs = us ++ values rest ∧ Rule us a := by
  obtain ⟨us, hus, hrule⟩ := h
  refine ⟨before ++ us, ?_, hrule⟩
  rw [hvs, hus, List.append_assoc]

theorem readStep_sound (h : readStep ts = .ok (some (x, rest))) :
    ∃ us, values ts = us ++ values rest ∧ StepRule us x.value.bare := by
  unfold readStep at h
  split at h
  · next name _ _ _ _ =>
    exact append_sound [.identifier name, .sign .dash, .sign .leftParen] rfl
      (readRequestStep_sound (map_some_eq_ok.1 h))
  · next name _ _ value _ _ =>
    exact append_sound [.identifier name, .sign .dash, .text value] rfl
      (readWriteStep_sound (map_some_eq_ok.1 h))
  · next name _ _ _ =>
    exact append_sound [.identifier name, .sign .doubleDash] rfl
      (readResponseStep_sound (map_some_eq_ok.1 h))
  · next name _ _ _ =>
    exact append_sound [.identifier name, .sign .leftArrow] rfl
      (readReadStep_sound (map_some_eq_ok.1 h))
  · cases h

theorem readSteps_sound {xs : List (Spanned StepDecl)} (h : readSteps ts = .ok (xs, rest)) :
    ∃ us, values ts = us ++ values rest ∧ Block StepRule us (xs.map fun x => x.value.bare) := by
  fun_induction readSteps ts generalizing xs rest with
  | case1 => cases h
  | case2 =>
    cases h
    exact ⟨[], rfl, .nil⟩
  | case3 ts x next hx ih =>
    simp only [bind_eq_ok, Prod.exists] at h
    obtain ⟨_, _, h₁, h₂⟩ := h
    obtain ⟨us, hus, hrule⟩ := readStep_sound hx
    obtain ⟨vs, hvs, hblock⟩ := ih h₁
    cases h₂
    rw [hus]
    exact block_cons_skipSemicolon hrule hblock hvs

theorem readScenario_sound {name : Spanned String}
    (h : readScenario name start ts = .ok (s, rest)) :
    ∃ us, values ts = us ++ values rest ∧
      StatementRule (.text name.value :: us) s.value.bare := by
  simp only [readScenario, bind_eq_ok, Prod.exists] at h
  obtain ⟨_, _, h₁, steps, _, h₂, _, _, h₃, h₄⟩ := h
  obtain ⟨us, hus, hblock⟩ := readSteps_sound h₂
  have hrule := StatementRule.scenario name.value hblock
  rw [List.map_map] at hrule
  cases h₄
  refine ⟨.sign .leftBrace :: (us ++ [.sign .rightBrace]), ?_, hrule⟩
  rw [accept_fixed_sound h₁, hus, accept_fixed_sound h₃]
  simp

/-! ## Programs -/

theorem readSimple_sound (h : readSimple ts = .ok (some (s, rest))) :
    ∃ us, values ts = us ++ values rest ∧ StatementRule us s.value.bare := by
  unfold readSimple at h
  split at h
  · exact append_sound [.keyword .agent] rfl (readActor_sound (map_some_eq_ok.1 h))
  · exact append_sound [.keyword .store] rfl (readActor_sound (map_some_eq_ok.1 h))
  · exact append_sound [.keyword .user] rfl (readActor_sound (map_some_eq_ok.1 h))
  · exact append_sound [.keyword .note] rfl (readNote_sound (map_some_eq_ok.1 h))
  · exact append_sound [.sign .at] rfl (readAnnotationDef_sound (map_some_eq_ok.1 h))
  · next name _ _ =>
    exact append_sound [.text name] rfl (readScenario_sound (map_some_eq_ok.1 h))
  · next name _ _ _ =>
    exact append_sound [.identifier name, .keyword .is] rfl
      (readAssignment_sound (map_some_eq_ok.1 h))
  · next name _ _ _ _ =>
    exact append_sound [.identifier name, .sign .dash, .sign .leftParen] rfl
      (readCall_sound (map_some_eq_ok.1 h))
  · next name _ _ _ =>
    exact append_sound [.identifier name, .sign .writeArrow] rfl
      (readFlow_sound (map_some_eq_ok.1 h))
  · next name _ _ _ =>
    exact append_sound [.identifier name, .sign .readArrow] rfl
      (readFlow_sound (map_some_eq_ok.1 h))
  · cases h

theorem readContainerHead_sound {head : ContainerHead}
    (h : readContainerHead start ts = .ok (head, rest)) :
    values ts = .text head.name.value :: .keyword .as :: .identifier head.id.value ::
      .sign .leftBrace :: values rest := by
  simp only [readContainerHead, bind_eq_ok, Prod.exists] at h
  obtain ⟨_, _, h₁, _, _, h₂, _, _, h₃, _, _, h₄, h₅⟩ := h
  rw [readTextLiteral_sound h₁, accept_fixed_sound h₂, readName_sound h₃, accept_fixed_sound h₄]
  cases h₅
  rfl

mutual

theorem readStatement_sound {ts rest : Tokens} {s : Spanned Statement} {hr}
    (h : readStatement ts = .ok (some ⟨(s, rest), hr⟩)) :
    ∃ us, values ts = us ++ values rest ∧ StatementRule us s.value.bare := by
  unfold readStatement at h
  split at h
  · next word rest' =>
    dsimp only at h
    split at h
    · cases h
    · next head inner hhead =>
      split at h
      · cases h
      · next body tail ht hbody =>
        split at h
        · cases h
        · next close after hclose =>
          cases h
          -- the body has fewer tokens than the container, which ends the recursion
          have hlen := readContainerHead_length hhead
          obtain ⟨us, hus, hblock⟩ := readBody_sound hbody
          have hrule := StatementRule.container head.name.value head.id.value hblock
          rw [← bareAll_eq_map] at hrule
          refine ⟨_, ?_, hrule⟩
          rw [values_cons, readContainerHead_sound hhead, hus, accept_fixed_sound hclose]
          simp
  · split at h
    · cases h
    · cases h
    · next p hp =>
      cases h
      exact readSimple_sound hp
termination_by 2 * ts.length
decreasing_by
  subst_vars
  simp only [List.length_cons]
  omega

theorem readBody_sound {ts rest : Tokens} {xs : List (Spanned Statement)} {hr}
    (h : readBody ts = .ok ⟨(xs, rest), hr⟩) :
    ∃ us, values ts = us ++ values rest ∧
      Block StatementRule us (xs.map fun x => x.value.bare) := by
  unfold readBody at h
  split at h
  · cases h
  · cases h
    exact ⟨[], rfl, .nil⟩
  · next s next hnext hs =>
    dsimp only at h
    split at h
    · cases h
    · next more tail ht hmore =>
      cases h
      have hlen : next.length < ts.length := hnext
      have hskip := skipSemicolon_length next
      obtain ⟨us, hus, hrule⟩ := readStatement_sound hs
      obtain ⟨vs, hvs, hblock⟩ := readBody_sound hmore
      rw [hus]
      exact block_cons_skipSemicolon hrule hblock hvs
termination_by 2 * ts.length + 1
decreasing_by all_goals omega

end

theorem readProgram_sound {p : Program} (h : readProgram ts = .ok p) :
    ProgramRule (values ts) p.bare := by
  fun_induction readProgram ts generalizing p with
  | case1 => cases h
  | case2 =>
    cases h
    exact .nil
  | case3 => cases h
  | case4 => cases h
  | case5 ts s next _ hs _ rest hsemi ih =>
    obtain ⟨more, hmore, h⟩ := bind_eq_ok.1 h
    cases h
    obtain ⟨us, hus, hrule⟩ := readStatement_sound hs
    rw [hus, accept_fixed_sound hsemi]
    exact .cons hrule (ih hmore)

end ArchScript.Reader
