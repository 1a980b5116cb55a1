/-
  The identifiers of a program stand in the order of its source.

  `identifiersOf` lists the identifiers of a program with their spans. Each lemma `*_taken`
  follows one reader: the identifiers of what it gives are among the identifier tokens that
  it uses up, in order. So the identifiers of a program are tokens of its source, in their
  order (`Reader.readProgram_taken`), and each begins after the one before it
  (`identifiers_ascending`).
-/
import ArchScript.Program.Reader
import ArchScript.Proofs.Lexing.Greedy

namespace ArchScript

/-! ## The identifiers of a program -/

/-- The identifiers of a step where they stand. -/
def StepDecl.identifiers : StepDecl → List (Spanned Ident)
  | request _ source target _ => [source, target]
  | response requester responder _ => [requester, responder]
  | transfer _ left right _ => [left, right]

mutual

/-- The identifiers of a statement where they stand, those of its body with it. -/
def Statement.identifiers : Statement → List (Spanned Ident)
  | .actor d => d.id :: d.annotations
  | .note d => [d.target]
  | .assignment d => d.target :: d.annotations
  | .call d => [d.source, d.target]
  | .flow d => [d.left, d.right]
  | Statement.annotation d => [d.id]
  | .container head body => head.id :: identifiersOf body
  | .scenario d => d.steps.flatMap fun x => x.value.identifiers

def identifiersOf : List (Spanned Statement) → List (Spanned Ident)
  | [] => []
  | ⟨x, _⟩ :: xs => x.identifiers ++ identifiersOf xs

end

/-! ## Tokens that a reader takes -/

/-- The identifiers among tokens. -/
def identifiersIn (ts : Tokens) : List (Spanned Ident) :=
  ts.filterMap fun t => (Reader.name? t.value).map fun x => ⟨x, t.span⟩

/-- The tokens before `rest` are taken, and the identifiers `xs` are among them, in order. -/
def Taken (xs : List (Spanned Ident)) (ts rest : Tokens) : Prop :=
  ∃ front, ts = front ++ rest ∧ xs.Sublist (identifiersIn front)

namespace Taken

variable {xs ys : List (Spanned Ident)} {ts mid rest : Tokens}

theorem refl (ts : Tokens) : Taken [] ts ts := ⟨[], rfl, .slnil⟩

theorem trans (h : Taken xs ts mid) (h' : Taken ys mid rest) : Taken (xs ++ ys) ts rest := by
  obtain ⟨front, rfl, hxs⟩ := h
  obtain ⟨front', rfl, hys⟩ := h'
  refine ⟨front ++ front', (List.append_assoc _ _ _).symm, ?_⟩
  unfold identifiersIn
  rw [List.filterMap_append]
  exact hxs.append hys

theorem suffix (h : Taken xs ts rest) : rest <:+ ts := by
  obtain ⟨front, rfl, _⟩ := h
  exact List.suffix_append front rest

theorem skip (t : Spanned Token) (ts : Tokens) : Taken [] (t :: ts) ts :=
  ⟨[t], rfl, List.nil_sublist _⟩

theorem name (x : Ident) (span : Span) (ts : Tokens) :
    Taken [⟨x, span⟩] (⟨.identifier x, span⟩ :: ts) ts :=
  ⟨[⟨.identifier x, span⟩], rfl, List.Sublist.refl _⟩

end Taken

/-! ## Clauses -/

namespace Reader

variable {start ts rest : Tokens}

theorem accept_taken {α : Type} {pick : Token → Option α} {expected : Expected} {a : Spanned α}
    (h : accept pick expected start ts = .ok (a, rest)) : Taken [] ts rest := by
  cases ts with
  | nil => simp [accept] at h
  | cons t ts =>
    simp only [accept] at h
    split at h
    · cases h
      exact .skip t _
    · cases h

theorem readName_taken {role : Option NameRole} {a : Spanned Ident}
    (h : readName role start ts = .ok (a, rest)) : Taken [a] ts rest := by
  cases ts with
  | nil => simp [readName, accept] at h
  | cons t ts =>
    obtain ⟨token, span⟩ := t
    cases token with
    | identifier name =>
      cases h
      exact .name name span _
    | _ => simp [readName, accept, name?] at h

theorem optionalText_taken (ts : Tokens) : Taken [] ts (optionalText ts).2 := by
  unfold optionalText
  split
  · exact .skip _ _
  · exact .refl _

theorem skipSemicolon_taken (ts : Tokens) : Taken [] ts (skipSemicolon ts) := by
  unfold skipSemicolon
  split
  · exact .skip _ _
  · exact .refl _

theorem moreReferences_taken (ts : Tokens) :
    Taken (moreReferences ts).1 ts (moreReferences ts).2 := by
  fun_induction moreReferences ts with
  | case1 comma at_ name span ts refs rest h ih =>
    rw [h] at ih
    exact (Taken.skip _ _).trans ((Taken.skip _ _).trans ((Taken.name name span ts).trans ih))
  | case2 ts => exact .refl ts

theorem readReferences_taken {rs : List (Spanned Ident)}
    (h : readReferences start ts = .ok (rs, rest)) : Taken rs ts rest := by
  simp only [readReferences, readReference, bind_eq_ok, Prod.exists] at h
  obtain ⟨r, ts', ⟨_, _, h₁, h₂⟩, h₃⟩ := h
  cases h₃
  exact (accept_taken h₁).trans ((readName_taken h₂).trans (moreReferences_taken ts'))

theorem optionalReferences_taken {rs : List (Spanned Ident)}
    (h : optionalReferences ts = .ok (rs, rest)) : Taken rs ts rest := by
  unfold optionalReferences at h
  split at h
  · exact (Taken.skip _ _).trans (readReferences_taken h)
  · cases h
    exact .refl _

/-! ## Statements and steps -/

variable {s : Spanned Statement}

theorem readActor_taken {kind : Spanned ActorKind}
    (h : readActor kind start ts = .ok (s, rest)) : Taken s.value.identifiers ts rest := by
  simp only [readActor, bind_eq_ok, Prod.exists] at h
  obtain ⟨_, _, h₁, _, _, h₂, _, _, h₃, _, _, h₄, h₅⟩ := h
  cases h₅
  exact (accept_taken h₁).trans ((accept_taken h₂).trans
    ((readName_taken h₃).trans (optionalReferences_taken h₄)))

theorem readNote_taken {word : Span} (h : readNote word start ts = .ok (s, rest)) :
    Taken s.value.identifiers ts rest := by
  simp only [readNote, bind_eq_ok, Prod.exists] at h
  obtain ⟨_, _, h₁, _, _, h₂, _, _, h₃, _, _, h₄, h₅⟩ := h
  cases h₅
  exact (accept_taken h₁).trans ((readName_taken h₂).trans
    ((accept_taken h₃).trans (accept_taken h₄)))

/-- The operand before the reader's tokens comes first. -/
theorem readAssignment_taken {target : Spanned Ident}
    (h : readAssignment target start ts = .ok (s, rest)) :
    ∃ xs, s.value.identifiers = target :: xs ∧ Taken xs ts rest := by
  simp only [readAssignment, bind_eq_ok, Prod.exists] at h
  obtain ⟨refs, _, h₁, h₂⟩ := h
  cases h₂
  exact ⟨refs, rfl, readReferences_taken h₁⟩

theorem readCall_taken {source : Spanned Ident}
    (h : readCall source start ts = .ok (s, rest)) :
    ∃ xs, s.value.identifiers = source :: xs ∧ Taken xs ts rest := by
  simp only [readCall, bind_eq_ok, Prod.exists] at h
  obtain ⟨_, _, h₁, _, _, h₂, target, _, h₃, h₄⟩ := h
  cases h₄
  exact ⟨[target], rfl, (optionalText_taken ts).trans ((accept_taken h₁).trans
    ((accept_taken h₂).trans (readName_taken h₃)))⟩

theorem readFlow_taken {kind : FlowKind} {left : Spanned Ident}
    (h : readFlow kind left start ts = .ok (s, rest)) :
    ∃ xs, s.value.identifiers = left :: xs ∧ Taken xs ts rest := by
  simp only [readFlow, bind_eq_ok, Prod.exists] at h
  obtain ⟨right, _, h₁, h₂⟩ := h
  cases h₂
  exact ⟨[right], rfl, readName_taken h₁⟩

theorem readProperty_taken {p : PropertyDecl} (h : readProperty ts = .ok (some (p, rest))) :
    Taken [] ts rest := by
  unfold readProperty at h
  split at h
  · cases h
  · split at h
    · cases h
    · simp only [bind_eq_ok, Prod.exists] at h
      obtain ⟨_, _, h₁, _, _, h₂, h₃⟩ := h
      cases h₃
      exact (Taken.skip _ _).trans ((accept_taken h₁).trans (accept_taken h₂))

theorem readProperties_taken {ps : List PropertyDecl}
    (h : readProperties ts = .ok (ps, rest)) : Taken [] ts rest := by
  fun_induction readProperties ts generalizing ps rest with
  | case1 => cases h
  | case2 ts =>
    cases h
    exact .refl ts
  | case3 ts p next hp ih =>
    simp only [bind_eq_ok, Prod.exists] at h
    obtain ⟨_, _, h₁, h₂⟩ := h
    cases h₂
    exact (readProperty_taken hp).trans ((skipSemicolon_taken next).trans (ih h₁))

theorem readAnnotationDef_taken {at_ : Span}
    (h : readAnnotationDef at_ start ts = .ok (s, rest)) : Taken s.value.identifiers ts rest := by
  simp only [readAnnotationDef, bind_eq_ok, Prod.exists] at h
  obtain ⟨_, _, h₁, _, _, h₂, _, _, h₃, _, _, h₄, h₅⟩ := h
  cases h₅
  exact (readName_taken h₁).trans ((accept_taken h₂).trans
    ((readProperties_taken h₃).trans (accept_taken h₄)))

/-! ## Scenarios -/

variable {x : Spanned StepDecl} {left : Spanned Ident}

theorem readRequestStep_taken (h : readRequestStep left start ts = .ok (x, rest)) :
    ∃ xs, x.value.identifiers = left :: xs ∧ Taken xs ts rest := by
  simp only [readRequestStep, bind_eq_ok, Prod.exists] at h
  obtain ⟨_, _, h₁, _, _, h₂, target, _, h₃, h₄⟩ := h
  cases h₄
  exact ⟨[target], rfl, (optionalText_taken ts).trans ((accept_taken h₁).trans
    ((accept_taken h₂).trans (readName_taken h₃)))⟩

theorem readWriteStep_taken {message : Spanned String}
    (h : readWriteStep left message start ts = .ok (x, rest)) :
    ∃ xs, x.value.identifiers = left :: xs ∧ Taken xs ts rest := by
  simp only [readWriteStep, bind_eq_ok, Prod.exists] at h
  obtain ⟨_, _, h₁, right, _, h₂, h₃⟩ := h
  cases h₃
  exact ⟨[right], rfl, (accept_taken h₁).trans (readName_taken h₂)⟩

theorem readResponseStep_taken (h : readResponseStep left start ts = .ok (x, rest)) :
    ∃ xs, x.value.identifiers = left :: xs ∧ Taken xs ts rest := by
  simp only [readResponseStep, bind_eq_ok, Prod.exists] at h
  obtain ⟨_, ts', h₁, _, _, h₂, _, _, h₃, responder, _, h₄, h₅⟩ := h
  cases h₅
  exact ⟨[responder], rfl, (accept_taken h₁).trans ((optionalText_taken ts').trans
    ((accept_taken h₂).trans ((accept_taken h₃).trans (readName_taken h₄))))⟩

theorem readReadStep_taken (h : readReadStep left start ts = .ok (x, rest)) :
    ∃ xs, x.value.identifiers = left :: xs ∧ Taken xs ts rest := by
  simp only [readReadStep, bind_eq_ok, Prod.exists] at h
  obtain ⟨_, _, h₁, _, _, h₂, right, _, h₃, h₄⟩ := h
  cases h₄
  exact ⟨[right], rfl, (accept_taken h₁).trans ((accept_taken h₂).trans (readName_taken h₃))⟩

theorem readStep_taken (h : readStep ts = .ok (some (x, rest))) :
    Taken x.value.identifiers ts rest := by
  unfold readStep at h
  split at h
  · obtain ⟨xs, hx, htaken⟩ := readRequestStep_taken (map_some_eq_ok.1 h)
    rw [hx]
    exact (Taken.name _ _ _).trans ((Taken.skip _ _).trans ((Taken.skip _ _).trans htaken))
  · obtain ⟨xs, hx, htaken⟩ := readWriteStep_taken (map_some_eq_ok.1 h)
    rw [hx]
    exact (Taken.name _ _ _).trans ((Taken.skip _ _).trans ((Taken.skip _ _).trans htaken))
  · obtain ⟨xs, hx, htaken⟩ := readResponseStep_taken (map_some_eq_ok.1 h)
    rw [hx]
    exact (Taken.name _ _ _).trans ((Taken.skip _ _).trans htaken)
  · obtain ⟨xs, hx, htaken⟩ := readReadStep_taken (map_some_eq_ok.1 h)
    rw [hx]
    exact (Taken.name _ _ _).trans ((Taken.skip _ _).trans htaken)
  · cases h

theorem readSteps_taken {xs : List (Spanned StepDecl)} (h : readSteps ts = .ok (xs, rest)) :
    Taken (xs.flatMap fun x => x.value.identifiers) ts rest := by
  fun_induction readSteps ts generalizing xs rest with
  | case1 => cases h
  | case2 ts =>
    cases h
    exact .refl ts
  | case3 ts x next hx ih =>
    simp only [bind_eq_ok, Prod.exists] at h
    obtain ⟨_, _, h₁, h₂⟩ := h
    cases h₂
    exact (readStep_taken hx).trans ((skipSemicolon_taken next).trans (ih h₁))

theorem readScenario_taken {name : Spanned String}
    (h : readScenario name start ts = .ok (s, rest)) : Taken s.value.identifiers ts rest := by
  simp only [readScenario, bind_eq_ok, Prod.exists] at h
  obtain ⟨_, _, h₁, _, _, h₂, _, _, h₃, h₄⟩ := h
  cases h₄
  have htaken := (accept_taken h₁).trans ((readSteps_taken h₂).trans (accept_taken h₃))
  rw [List.append_nil] at htaken
  exact htaken

/-! ## Programs -/

theorem readSimple_taken (h : readSimple ts = .ok (some (s, rest))) :
    Taken s.value.identifiers ts rest := by
  unfold readSimple at h
  split at h
  · exact (Taken.skip _ _).trans (readActor_taken (map_some_eq_ok.1 h))
  · exact (Taken.skip _ _).trans (readActor_taken (map_some_eq_ok.1 h))
  · exact (Taken.skip _ _).trans (readActor_taken (map_some_eq_ok.1 h))
  · exact (Taken.skip _ _).trans (readNote_taken (map_some_eq_ok.1 h))
  · exact (Taken.skip _ _).trans (readAnnotationDef_taken (map_some_eq_ok.1 h))
  · exact (Taken.skip _ _).trans (readScenario_taken (map_some_eq_ok.1 h))
  · obtain ⟨xs, hs, htaken⟩ := readAssignment_taken (map_some_eq_ok.1 h)
    rw [hs]
    exact (Taken.name _ _ _).trans ((Taken.skip _ _).trans htaken)
  · obtain ⟨xs, hs, htaken⟩ := readCall_taken (map_some_eq_ok.1 h)
    rw [hs]
    exact (Taken.name _ _ _).trans ((Taken.skip _ _).trans ((Taken.skip _ _).trans htaken))
  · obtain ⟨xs, hs, htaken⟩ := readFlow_taken (map_some_eq_ok.1 h)
    rw [hs]
    exact (Taken.name _ _ _).trans ((Taken.skip _ _).trans htaken)
  · obtain ⟨xs, hs, htaken⟩ := readFlow_taken (map_some_eq_ok.1 h)
    rw [hs]
    exact (Taken.name _ _ _).trans ((Taken.skip _ _).trans htaken)
  · cases h

theorem readContainerHead_taken {head : ContainerHead}
    (h : readContainerHead start ts = .ok (head, rest)) : Taken [head.id] ts rest := by
  simp only [readContainerHead, bind_eq_ok, Prod.exists] at h
  obtain ⟨_, _, h₁, _, _, h₂, _, _, h₃, _, _, h₄, h₅⟩ := h
  cases h₅
  exact (accept_taken h₁).trans ((accept_taken h₂).trans
    ((readName_taken h₃).trans (accept_taken h₄)))

mutual

theorem readStatement_taken {ts rest : Tokens} {s : Spanned Statement} {hr}
    (h : readStatement ts = .ok (some ⟨(s, rest), hr⟩)) : Taken s.value.identifiers ts rest := by
  unfold readStatement at h
  split at h
  · next word rest' =>
    dsimp only at h
    split at h
    · cases h
    · next head inner hhead =>
      split at h
      · cases h
      · next body tail ht hbody =>
        split at h
        · cases h
        · next close after hclose =>
          cases h
          -- the body has fewer tokens than the container, which ends the recursion
          have hlen := readContainerHead_length hhead
          have htaken := (Taken.skip ⟨.keyword .container, word⟩ rest').trans
            ((readContainerHead_taken hhead).trans
              ((readBody_taken hbody).trans (accept_taken hclose)))
          rw [List.append_nil] at htaken
          exact htaken
  · split at h
    · cases h
    · cases h
    · next p hp =>
      cases h
      exact readSimple_taken hp
termination_by 2 * ts.length
decreasing_by
  subst_vars
  simp only [List.length_cons]
  omega

theorem readBody_taken {ts rest : Tokens} {xs : List (Spanned Statement)} {hr}
    (h : readBody ts = .ok ⟨(xs, rest), hr⟩) : Taken (identifiersOf xs) ts rest := by
  unfold readBody at h
  split at h
  · cases h
  · cases h
    exact .refl _
  · next s next hnext hs =>
    dsimp only at h
    split at h
    · cases h
    · next more tail ht hmore =>
      cases h
      have hlen : next.length < ts.length := hnext
      have hskip := skipSemicolon_length next
      exact (readStatement_taken hs).trans
        ((skipSemicolon_taken next).trans (readBody_taken hmore))
termination_by 2 * ts.length + 1
decreasing_by all_goals omega

end

theorem readProgram_taken {p : Program} (h : readProgram ts = .ok p) :
    (identifiersOf p).Sublist (identifiersIn ts) := by
  fun_induction readProgram ts generalizing p with
  | case1 => cases h
  | case2 =>
    cases h
    exact .slnil
  | case3 => cases h
  | case4 => cases h
  | case5 ts s next _ hs _ rest hsemi ih =>
    obtain ⟨more, hmore, h⟩ := bind_eq_ok.1 h
    cases h
    have hmore : Taken (identifiersOf more) rest [] := ⟨rest, (List.append_nil _).symm, ih hmore⟩
    obtain ⟨front, hfront, hsub⟩ :=
      (readStatement_taken hs).trans ((accept_taken hsemi).trans hmore)
    rw [hfront, List.append_nil]
    exact hsub

end Reader

/-! ## Sources -/

/-- Each span of a source begins after the one before it. -/
theorem Covers.ascending {start stop : Nat} {spans : List Span} (h : Covers start stop spans) :
    spans.Pairwise (fun s t => s.start < t.start) ∧ ∀ s ∈ spans, start ≤ s.start := by
  induction spans generalizing start with
  | nil => exact ⟨.nil, nofun⟩
  | cons s spans ih =>
    obtain ⟨hstart, hsize, hspans⟩ := h
    obtain ⟨hpairs, hafter⟩ := ih hspans
    have hlt : ∀ t ∈ spans, s.start < t.start := fun t ht => hsize.trans_le (hafter t ht)
    refine ⟨List.pairwise_cons.2 ⟨hlt, hpairs⟩, List.forall_mem_cons.2 ⟨hstart.ge, fun t ht => ?_⟩⟩
    exact hstart ▸ (hlt t ht).le

/-- What is picked from a list and keeps what `h` tells of it, keeps its order. -/
theorem map_filterMap_sublist {α β γ : Type} {f : α → Option β} {g : β → γ} {h : α → γ}
    (hf : ∀ x y, f x = some y → g y = h x) (l : List α) :
    ((l.filterMap f).map g).Sublist (l.map h) := by
  induction l with
  | nil => exact .slnil
  | cons x l ih =>
    rw [List.map_cons]
    cases hx : f x with
    | none =>
      rw [List.filterMap_cons_none hx]
      exact ih.cons (h x)
    | some y =>
      rw [List.filterMap_cons_some hx, List.map_cons, hf x y hx]
      exact ih.cons_cons (h x)

/-- The tokens of a source stand where their lexemes do. -/
theorem spans_meaningful_sublist (lexemes : List (Spanned Lexeme)) :
    ((meaningful lexemes).map Spanned.span).Sublist (lexemes.map Spanned.span) := by
  refine map_filterMap_sublist (fun l t ht => ?_) _
  obtain ⟨_, _, rfl⟩ := Option.map_eq_some_iff.1 ht
  rfl

theorem spans_identifiersIn_sublist (lexemes : List (Spanned Lexeme)) :
    ((identifiersIn (meaningful lexemes)).map Spanned.span).Sublist
      (lexemes.map Spanned.span) := by
  have hidentifiers : ((identifiersIn (meaningful lexemes)).map Spanned.span).Sublist
      ((meaningful lexemes).map Spanned.span) := by
    refine map_filterMap_sublist (fun t x hx => ?_) _
    obtain ⟨_, _, rfl⟩ := Option.map_eq_some_iff.1 hx
    rfl
  exact hidentifiers.trans (spans_meaningful_sublist lexemes)

/-- Each identifier of the program of a source begins after the one before it. -/
theorem identifiers_ascending {source : String} {lexemes : List (Spanned Lexeme)} {p : Program}
    (ht : tokenize source = .ok lexemes) (hp : Program.ofTokens (meaningful lexemes) = .ok p) :
    ((identifiersOf p).map Spanned.span).Pairwise fun s t => s.start < t.start := by
  obtain ⟨ps, hps, _, rfl⟩ := tokenize_eq_ok_iff_greedy.1 ht
  exact ((hps.covers 0).ascending.1.sublist (spans_identifiersIn_sublist _)).sublist
    ((Reader.readProgram_taken hp).map Spanned.span)

end ArchScript
