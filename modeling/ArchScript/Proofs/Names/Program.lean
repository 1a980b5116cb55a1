/-
  The identifiers of a program are words of its source.

  The reader takes every identifier from a token. Each lemma `*_words` follows one reader:
  from tokens whose identifiers are words it gives names that are words, and leaves such
  tokens. `wellNamed_of_source` is their sum.
-/
import ArchScript.Program.Reader
import ArchScript.Proofs.Names.Words

namespace ArchScript

/-! ## The names of a program -/

/-- The identifiers of a step. -/
def StepDecl.names : StepDecl → List Ident
  | request _ source target _ => [source.value, target.value]
  | response requester responder _ => [requester.value, responder.value]
  | transfer _ left right _ => [left.value, right.value]

mutual

/-- The identifiers of a statement, those of its body with it. -/
def Statement.names : Statement → List Ident
  | .actor d => d.id.value :: d.annotations.map Spanned.value
  | .note d => [d.target.value]
  | .assignment d => d.target.value :: d.annotations.map Spanned.value
  | .call d => [d.source.value, d.target.value]
  | .flow d => [d.left.value, d.right.value]
  | Statement.annotation d => [d.id.value]
  | .container head body => head.id.value :: namesOf body
  | .scenario d => d.steps.flatMap fun x => x.value.names

def namesOf : List (Spanned Statement) → List Ident
  | [] => []
  | ⟨x, _⟩ :: xs => x.names ++ namesOf xs

end

/-- Every identifier of the program is a word. -/
def Program.WellNamed (p : Program) : Prop := ∀ x ∈ namesOf p, IsWord x

instance (p : Program) : Decidable p.WellNamed := List.decidableBAll IsWord (namesOf p)

/-! ## Clauses -/

namespace Reader

variable {start ts rest : Tokens}

theorem accept_words {α : Type} {pick : Token → Option α} {expected : Expected} {a : Spanned α}
    (h : accept pick expected start ts = .ok (a, rest)) (hw : Words ts) : Words rest := by
  cases ts with
  | nil => simp [accept] at h
  | cons t ts =>
    simp only [accept] at h
    split at h
    · cases h
      exact hw.tail
    · cases h

theorem readName_words {role : Option NameRole} {a : Spanned Ident}
    (h : readName role start ts = .ok (a, rest)) (hw : Words ts) :
    IsWord a.value ∧ Words rest := by
  refine ⟨?_, accept_words h hw⟩
  cases ts with
  | nil => simp [readName, accept] at h
  | cons t ts =>
    obtain ⟨token, span⟩ := t
    cases token with
    | identifier name =>
      cases h
      exact hw.head
    | _ => simp [readName, accept, name?] at h

theorem optionalText_words (hw : Words ts) : Words (optionalText ts).2 := by
  unfold optionalText
  split
  · exact hw.tail
  · exact hw

theorem skipSemicolon_words (hw : Words ts) : Words (skipSemicolon ts) := by
  unfold skipSemicolon
  split
  · exact hw.tail
  · exact hw

theorem moreReferences_words (hw : Words ts) :
    (∀ r ∈ (moreReferences ts).1, IsWord r.value) ∧ Words (moreReferences ts).2 := by
  fun_induction moreReferences ts with
  | case1 _ _ name span ts refs rest h ih =>
    have hname := hw.tail.tail
    have htail := ih hname.tail
    rw [h] at htail
    exact ⟨List.forall_mem_cons.2 ⟨hname.head, htail.1⟩, htail.2⟩
  | case2 ts => exact ⟨by simp, hw⟩

theorem readReferences_words {rs : List (Spanned Ident)}
    (h : readReferences start ts = .ok (rs, rest)) (hw : Words ts) :
    (∀ r ∈ rs, IsWord r.value) ∧ Words rest := by
  simp only [readReferences, readReference, bind_eq_ok, Prod.exists] at h
  obtain ⟨r, ts', ⟨_, _, h₁, h₂⟩, h₃⟩ := h
  have hw := accept_words h₁ hw
  obtain ⟨hr, hts⟩ := readName_words h₂ hw
  have hmore := moreReferences_words hts
  cases h₃
  exact ⟨List.forall_mem_cons.2 ⟨hr, hmore.1⟩, hmore.2⟩

theorem optionalReferences_words {rs : List (Spanned Ident)}
    (h : optionalReferences ts = .ok (rs, rest)) (hw : Words ts) :
    (∀ r ∈ rs, IsWord r.value) ∧ Words rest := by
  unfold optionalReferences at h
  split at h
  · exact readReferences_words h hw.tail
  · cases h
    exact ⟨by simp, hw⟩

/-! ## Statements and steps -/

variable {s : Spanned Statement}

theorem readActor_words {kind : Spanned ActorKind} (h : readActor kind start ts = .ok (s, rest))
    (hw : Words ts) : (∀ x ∈ s.value.names, IsWord x) ∧ Words rest := by
  simp only [readActor, bind_eq_ok, Prod.exists] at h
  obtain ⟨_, _, h₁, _, _, h₂, _, _, h₃, _, _, h₄, h₅⟩ := h
  have hw := accept_words h₁ hw
  have hw := accept_words h₂ hw
  obtain ⟨hid, hw⟩ := readName_words h₃ hw
  obtain ⟨hrefs, hw⟩ := optionalReferences_words h₄ hw
  cases h₅
  exact ⟨List.forall_mem_cons.2 ⟨hid, List.forall_mem_map.2 hrefs⟩, hw⟩

theorem readNote_words {word : Span} (h : readNote word start ts = .ok (s, rest))
    (hw : Words ts) : (∀ x ∈ s.value.names, IsWord x) ∧ Words rest := by
  simp only [readNote, bind_eq_ok, Prod.exists] at h
  obtain ⟨_, _, h₁, _, _, h₂, _, _, h₃, _, _, h₄, h₅⟩ := h
  have hw := accept_words h₁ hw
  obtain ⟨hid, hw⟩ := readName_words h₂ hw
  have hw := accept_words h₃ hw
  have hw := accept_words h₄ hw
  cases h₅
  exact ⟨List.forall_mem_singleton.2 hid, hw⟩

theorem readAssignment_words {target : Spanned Ident} (ht : IsWord target.value)
    (h : readAssignment target start ts = .ok (s, rest)) (hw : Words ts) :
    (∀ x ∈ s.value.names, IsWord x) ∧ Words rest := by
  simp only [readAssignment, bind_eq_ok, Prod.exists] at h
  obtain ⟨_, _, h₁, h₂⟩ := h
  obtain ⟨hrefs, hw⟩ := readReferences_words h₁ hw
  cases h₂
  exact ⟨List.forall_mem_cons.2 ⟨ht, List.forall_mem_map.2 hrefs⟩, hw⟩

/-- Both operands of a statement or step. -/
theorem forall_mem_pair {P : Ident → Prop} {a b : Ident} (ha : P a) (hb : P b) :
    ∀ x ∈ [a, b], P x := List.forall_mem_cons.2 ⟨ha, List.forall_mem_singleton.2 hb⟩

theorem readCall_words {source : Spanned Ident} (hs : IsWord source.value)
    (h : readCall source start ts = .ok (s, rest)) (hw : Words ts) :
    (∀ x ∈ s.value.names, IsWord x) ∧ Words rest := by
  simp only [readCall, bind_eq_ok, Prod.exists] at h
  obtain ⟨_, _, h₁, _, _, h₂, _, _, h₃, h₄⟩ := h
  have hw := optionalText_words hw
  have hw := accept_words h₁ hw
  have hw := accept_words h₂ hw
  obtain ⟨ht, hw⟩ := readName_words h₃ hw
  cases h₄
  exact ⟨forall_mem_pair hs ht, hw⟩

theorem readFlow_words {kind : FlowKind} {left : Spanned Ident} (hl : IsWord left.value)
    (h : readFlow kind left start ts = .ok (s, rest)) (hw : Words ts) :
    (∀ x ∈ s.value.names, IsWord x) ∧ Words rest := by
  simp only [readFlow, bind_eq_ok, Prod.exists] at h
  obtain ⟨_, _, h₁, h₂⟩ := h
  obtain ⟨hr, hw⟩ := readName_words h₁ hw
  cases h₂
  exact ⟨forall_mem_pair hl hr, hw⟩

theorem readProperty_words {p : PropertyDecl} (h : readProperty ts = .ok (some (p, rest)))
    (hw : Words ts) : Words rest := by
  unfold readProperty at h
  split at h
  · cases h
  · split at h
    · cases h
    · simp only [bind_eq_ok, Prod.exists] at h
      obtain ⟨_, _, h₁, _, _, h₂, h₃⟩ := h
      have hw := accept_words h₁ hw.tail
      have hw := accept_words h₂ hw
      cases h₃
      exact hw

theorem readProperties_words {ps : List PropertyDecl} (h : readProperties ts = .ok (ps, rest))
    (hw : Words ts) : Words rest := by
  fun_induction readProperties ts generalizing ps rest with
  | case1 => cases h
  | case2 =>
    cases h
    exact hw
  | case3 ts p next hp ih =>
    simp only [bind_eq_ok, Prod.exists] at h
    obtain ⟨_, _, h₁, h₂⟩ := h
    have hw := readProperty_words hp hw
    have hw := skipSemicolon_words hw
    have hw := ih h₁ hw
    cases h₂
    exact hw

theorem readAnnotationDef_words {at_ : Span} (h : readAnnotationDef at_ start ts = .ok (s, rest))
    (hw : Words ts) : (∀ x ∈ s.value.names, IsWord x) ∧ Words rest := by
  simp only [readAnnotationDef, bind_eq_ok, Prod.exists] at h
  obtain ⟨_, _, h₁, _, _, h₂, _, _, h₃, _, _, h₄, h₅⟩ := h
  obtain ⟨hid, hw⟩ := readName_words h₁ hw
  have hw := accept_words h₂ hw
  have hw := readProperties_words h₃ hw
  have hw := accept_words h₄ hw
  cases h₅
  exact ⟨List.forall_mem_singleton.2 hid, hw⟩

/-! ## Scenarios -/

variable {x : Spanned StepDecl} {left : Spanned Ident}

theorem readRequestStep_words (hl : IsWord left.value)
    (h : readRequestStep left start ts = .ok (x, rest)) (hw : Words ts) :
    (∀ y ∈ x.value.names, IsWord y) ∧ Words rest := by
  simp only [readRequestStep, bind_eq_ok, Prod.exists] at h
  obtain ⟨_, _, h₁, _, _, h₂, _, _, h₃, h₄⟩ := h
  have hw := optionalText_words hw
  have hw := accept_words h₁ hw
  have hw := accept_words h₂ hw
  obtain ⟨hr, hw⟩ := readName_words h₃ hw
  cases h₄
  exact ⟨forall_mem_pair hl hr, hw⟩

theorem readWriteStep_words {message : Spanned String} (hl : IsWord left.value)
    (h : readWriteStep left message start ts = .ok (x, rest)) (hw : Words ts) :
    (∀ y ∈ x.value.names, IsWord y) ∧ Words rest := by
  simp only [readWriteStep, bind_eq_ok, Prod.exists] at h
  obtain ⟨_, _, h₁, _, _, h₂, h₃⟩ := h
  have hw := accept_words h₁ hw
  obtain ⟨hr, hw⟩ := readName_words h₂ hw
  cases h₃
  exact ⟨forall_mem_pair hl hr, hw⟩

theorem readResponseStep_words (hl : IsWord left.value)
    (h : readResponseStep left start ts = .ok (x, rest)) (hw : Words ts) :
    (∀ y ∈ x.value.names, IsWord y) ∧ Words rest := by
  simp only [readResponseStep, bind_eq_ok, Prod.exists] at h
  obtain ⟨_, _, h₁, _, _, h₂, _, _, h₃, _, _, h₄, h₅⟩ := h
  have hw := accept_words h₁ hw
  have hw := optionalText_words hw
  have hw := accept_words h₂ hw
  have hw := accept_words h₃ hw
  obtain ⟨hr, hw⟩ := readName_words h₄ hw
  cases h₅
  exact ⟨forall_mem_pair hl hr, hw⟩

theorem readReadStep_words (hl : IsWord left.value)
    (h : readReadStep left start ts = .ok (x, rest)) (hw : Words ts) :
    (∀ y ∈ x.value.names, IsWord y) ∧ Words rest := by
  simp only [readReadStep, bind_eq_ok, Prod.exists] at h
  obtain ⟨_, _, h₁, _, _, h₂, _, _, h₃, h₄⟩ := h
  have hw := accept_words h₁ hw
  have hw := accept_words h₂ hw
  obtain ⟨hr, hw⟩ := readName_words h₃ hw
  cases h₄
  exact ⟨forall_mem_pair hl hr, hw⟩

theorem readStep_words (h : readStep ts = .ok (some (x, rest))) (hw : Words ts) :
    (∀ y ∈ x.value.names, IsWord y) ∧ Words rest := by
  unfold readStep at h
  split at h
  · exact readRequestStep_words hw.head (map_some_eq_ok.1 h) hw.tail.tail.tail
  · exact readWriteStep_words hw.head (map_some_eq_ok.1 h) hw.tail.tail.tail
  · exact readResponseStep_words hw.head (map_some_eq_ok.1 h) hw.tail.tail
  · exact readReadStep_words hw.head (map_some_eq_ok.1 h) hw.tail.tail
  · cases h

theorem readSteps_words {xs : List (Spanned StepDecl)} (h : readSteps ts = .ok (xs, rest))
    (hw : Words ts) : (∀ x ∈ xs, ∀ y ∈ x.value.names, IsWord y) ∧ Words rest := by
  fun_induction readSteps ts generalizing xs rest with
  | case1 => cases h
  | case2 =>
    cases h
    exact ⟨by simp, hw⟩
  | case3 ts x next hx ih =>
    simp only [bind_eq_ok, Prod.exists] at h
    obtain ⟨_, _, h₁, h₂⟩ := h
    obtain ⟨hnames, hw⟩ := readStep_words hx hw
    have hw := skipSemicolon_words hw
    obtain ⟨hmore, hw⟩ := ih h₁ hw
    cases h₂
    exact ⟨List.forall_mem_cons.2 ⟨hnames, hmore⟩, hw⟩

theorem readScenario_words {name : Spanned String}
    (h : readScenario name start ts = .ok (s, rest)) (hw : Words ts) :
    (∀ x ∈ s.value.names, IsWord x) ∧ Words rest := by
  simp only [readScenario, bind_eq_ok, Prod.exists] at h
  obtain ⟨_, _, h₁, _, _, h₂, _, _, h₃, h₄⟩ := h
  have hw := accept_words h₁ hw
  obtain ⟨hsteps, hw⟩ := readSteps_words h₂ hw
  have hw := accept_words h₃ hw
  cases h₄
  refine ⟨fun y hy => ?_, hw⟩
  obtain ⟨x, hx, hy⟩ := List.mem_flatMap.1 hy
  exact hsteps x hx y hy

/-! ## Programs -/

theorem readSimple_words (h : readSimple ts = .ok (some (s, rest))) (hw : Words ts) :
    (∀ x ∈ s.value.names, IsWord x) ∧ Words rest := by
  unfold readSimple at h
  split at h
  · exact readActor_words (map_some_eq_ok.1 h) hw.tail
  · exact readActor_words (map_some_eq_ok.1 h) hw.tail
  · exact readActor_words (map_some_eq_ok.1 h) hw.tail
  · exact readNote_words (map_some_eq_ok.1 h) hw.tail
  · exact readAnnotationDef_words (map_some_eq_ok.1 h) hw.tail
  · exact readScenario_words (map_some_eq_ok.1 h) hw.tail
  · exact readAssignment_words hw.head (map_some_eq_ok.1 h) hw.tail.tail
  · exact readCall_words hw.head (map_some_eq_ok.1 h) hw.tail.tail.tail
  · exact readFlow_words hw.head (map_some_eq_ok.1 h) hw.tail.tail
  · exact readFlow_words hw.head (map_some_eq_ok.1 h) hw.tail.tail
  · cases h

theorem readContainerHead_words {head : ContainerHead}
    (h : readContainerHead start ts = .ok (head, rest)) (hw : Words ts) :
    IsWord head.id.value ∧ Words rest := by
  simp only [readContainerHead, bind_eq_ok, Prod.exists] at h
  obtain ⟨_, _, h₁, _, _, h₂, _, _, h₃, _, _, h₄, h₅⟩ := h
  have hw := accept_words h₁ hw
  have hw := accept_words h₂ hw
  obtain ⟨hid, hw⟩ := readName_words h₃ hw
  have hw := accept_words h₄ hw
  cases h₅
  exact ⟨hid, hw⟩

mutual

theorem readStatement_words {ts rest : Tokens} {s : Spanned Statement} {hr}
    (h : readStatement ts = .ok (some ⟨(s, rest), hr⟩)) (hw : Words ts) :
    (∀ x ∈ s.value.names, IsWord x) ∧ Words rest := by
  unfold readStatement at h
  split at h
  · next word rest' =>
    dsimp only at h
    split at h
    · cases h
    · next head inner hhead =>
      split at h
      · cases h
      · next body tail ht hbody =>
        split at h
        · cases h
        · next close after hclose =>
          cases h
          -- the body has fewer tokens than the container, which ends the recursion
          have hlen := readContainerHead_length hhead
          obtain ⟨hid, hw⟩ := readContainerHead_words hhead hw.tail
          obtain ⟨hnames, hw⟩ := readBody_words hbody hw
          exact ⟨List.forall_mem_cons.2 ⟨hid, hnames⟩, accept_words hclose hw⟩
  · split at h
    · cases h
    · cases h
    · next p hp =>
      cases h
      exact readSimple_words hp hw
termination_by 2 * ts.length
decreasing_by
  subst_vars
  simp only [List.length_cons]
  omega

theorem readBody_words {ts rest : Tokens} {xs : List (Spanned Statement)} {hr}
    (h : readBody ts = .ok ⟨(xs, rest), hr⟩) (hw : Words ts) :
    (∀ x ∈ namesOf xs, IsWord x) ∧ Words rest := by
  unfold readBody at h
  split at h
  · cases h
  · cases h
    exact ⟨by simp [namesOf], hw⟩
  · next s next hnext hs =>
    dsimp only at h
    split at h
    · cases h
    · next more tail ht hmore =>
      cases h
      have hlen : next.length < ts.length := hnext
      have hskip := skipSemicolon_length next
      obtain ⟨hnames, hw⟩ := readStatement_words hs hw
      have hw := skipSemicolon_words hw
      obtain ⟨hrest, hw⟩ := readBody_words hmore hw
      exact ⟨List.forall_mem_append.2 ⟨hnames, hrest⟩, hw⟩
termination_by 2 * ts.length + 1
decreasing_by all_goals omega

end

theorem readProgram_words {p : Program} (h : readProgram ts = .ok p) (hw : Words ts) :
    p.WellNamed := by
  fun_induction readProgram ts generalizing p with
  | case1 => cases h
  | case2 =>
    cases h
    simp [Program.WellNamed, namesOf]
  | case3 => cases h
  | case4 => cases h
  | case5 ts s next _ hs _ rest hsemi ih =>
    obtain ⟨more, hmore, h⟩ := bind_eq_ok.1 h
    cases h
    obtain ⟨hnames, hw⟩ := readStatement_words hs hw
    exact List.forall_mem_append.2 ⟨hnames, ih hmore (accept_words hsemi hw)⟩

end Reader

/-- The programs of sources are well named. -/
theorem wellNamed_of_source {source : String} {lexemes : List (Spanned Lexeme)} {p : Program}
    (ht : tokenize source = .ok lexemes) (hp : Program.ofTokens (meaningful lexemes) = .ok p) :
    p.WellNamed :=
  Reader.readProgram_words hp (words_of_tokenize ht)

end ArchScript
