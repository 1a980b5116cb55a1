/-
  Where the violations of a program point.

  A violation points at identifiers and steps of its program, and so does the label at a
  first definition (`Program.elaborate_points`). In a program that is read from tokens, an
  identifier is a token and a step reaches from its first end to its second
  (`Reader.readProgram_spansEnds`), so each label begins and ends where tokens do.
-/
import ArchScript.Proofs.Declarations.Distinct

namespace ArchScript

/-! ## Steps -/

mutual

/-- The steps of a statement, those of its body with it. -/
def Statement.steps : Statement → List (Spanned StepDecl)
  | .scenario d => d.steps
  | .container _ body => stepsOf body
  | _ => []

/-- The steps of a program, in source order. -/
def stepsOf : List (Spanned Statement) → List (Spanned StepDecl)
  | [] => []
  | ⟨x, _⟩ :: xs => x.steps ++ stepsOf xs

end

theorem Statement.identifiers_sublist_of_mem_steps {s : Statement} (h : s.IsFlat)
    {x : Spanned StepDecl} (hx : x ∈ s.steps) : x.value.identifiers.Sublist s.identifiers := by
  cases s with
  | scenario d => exact List.sublist_flatten_of_mem (List.mem_map_of_mem hx)
  | container head body => exact h.elim
  | _ => cases hx

/-- The ends of a step are identifiers of its program, in order. -/
theorem identifiers_sublist_of_mem_stepsOf {xs : List (Spanned Statement)} {x : Spanned StepDecl}
    (hx : x ∈ stepsOf xs) : x.value.identifiers.Sublist (identifiersOf xs) := by
  induction xs using Program.induction with
  | nil => cases hx
  | flat s span xs hs ih =>
    rcases List.mem_append.1 hx with hx | hx
    · exact (Statement.identifiers_sublist_of_mem_steps hs hx).trans
        (List.sublist_append_left _ _)
    · exact (ih hx).trans (List.sublist_append_right _ _)
  | container head inner span xs ih₁ ih₂ =>
    rcases List.mem_append.1 hx with hx | hx
    · exact ((ih₁ hx).trans (List.sublist_cons_self _ _)).trans (List.sublist_append_left _ _)
    · exact (ih₂ hx).trans (List.sublist_append_right _ _)

/-- A statement that holds neither statements nor steps. -/
def Statement.IsPlain : Statement → Prop
  | container _ _ => False
  | scenario _ => False
  | _ => True

theorem Statement.IsPlain.isFlat {x : Statement} (h : x.IsPlain) : x.IsFlat := by
  cases x with
  | container head body => exact h
  | _ => trivial

theorem Statement.IsPlain.steps_eq_nil {x : Statement} (h : x.IsPlain) : x.steps = [] := by
  cases x with
  | container head body => exact h.elim
  | scenario d => exact h.elim
  | _ => rfl

/-- A step reaches from its first end to its second. -/
def SpansEnds (x : Spanned StepDecl) : Prop :=
  ∃ a b, x.value.identifiers = [a, b] ∧ x.span = a.span.union b.span

namespace Reader

variable {start ts rest : Tokens} {x : Spanned StepDecl} {s : Spanned Statement}
  {left : Spanned Ident}

theorem readRequestStep_spansEnds (h : readRequestStep left start ts = .ok (x, rest)) :
    SpansEnds x := by
  simp only [readRequestStep, bind_eq_ok, Prod.exists] at h
  obtain ⟨_, _, _, _, _, _, _, _, _, h⟩ := h
  cases h
  exact ⟨_, _, rfl, rfl⟩

theorem readWriteStep_spansEnds {message : Spanned String}
    (h : readWriteStep left message start ts = .ok (x, rest)) : SpansEnds x := by
  simp only [readWriteStep, bind_eq_ok, Prod.exists] at h
  obtain ⟨_, _, _, _, _, _, h⟩ := h
  cases h
  exact ⟨_, _, rfl, rfl⟩

theorem readResponseStep_spansEnds (h : readResponseStep left start ts = .ok (x, rest)) :
    SpansEnds x := by
  simp only [readResponseStep, bind_eq_ok, Prod.exists] at h
  obtain ⟨_, _, _, _, _, _, _, _, _, _, _, _, h⟩ := h
  cases h
  exact ⟨_, _, rfl, rfl⟩

theorem readReadStep_spansEnds (h : readReadStep left start ts = .ok (x, rest)) : SpansEnds x := by
  simp only [readReadStep, bind_eq_ok, Prod.exists] at h
  obtain ⟨_, _, _, _, _, _, _, _, _, h⟩ := h
  cases h
  exact ⟨_, _, rfl, rfl⟩

theorem readStep_spansEnds (h : readStep ts = .ok (some (x, rest))) : SpansEnds x := by
  unfold readStep at h
  split at h
  · exact readRequestStep_spansEnds (map_some_eq_ok.1 h)
  · exact readWriteStep_spansEnds (map_some_eq_ok.1 h)
  · exact readResponseStep_spansEnds (map_some_eq_ok.1 h)
  · exact readReadStep_spansEnds (map_some_eq_ok.1 h)
  · cases h

theorem readSteps_spansEnds {xs : List (Spanned StepDecl)} (h : readSteps ts = .ok (xs, rest)) :
    ∀ x ∈ xs, SpansEnds x := by
  fun_induction readSteps ts generalizing xs rest with
  | case1 => cases h
  | case2 ts =>
    cases h
    exact fun x hx => (List.not_mem_nil hx).elim
  | case3 ts x next hx ih =>
    simp only [bind_eq_ok, Prod.exists] at h
    obtain ⟨_, _, h₁, h₂⟩ := h
    cases h₂
    exact List.forall_mem_cons.2 ⟨readStep_spansEnds hx, ih h₁⟩

/-! ## Statements -/

theorem readActor_isPlain {kind : Spanned ActorKind}
    (h : readActor kind start ts = .ok (s, rest)) : s.value.IsPlain := by
  simp only [readActor, bind_eq_ok, Prod.exists] at h
  obtain ⟨_, _, _, _, _, _, _, _, _, _, _, _, h⟩ := h
  cases h
  trivial

theorem readNote_isPlain {word : Span} (h : readNote word start ts = .ok (s, rest)) :
    s.value.IsPlain := by
  simp only [readNote, bind_eq_ok, Prod.exists] at h
  obtain ⟨_, _, _, _, _, _, _, _, _, _, _, _, h⟩ := h
  cases h
  trivial

theorem readAssignment_isPlain (h : readAssignment left start ts = .ok (s, rest)) :
    s.value.IsPlain := by
  simp only [readAssignment, bind_eq_ok, Prod.exists] at h
  obtain ⟨_, _, _, h⟩ := h
  cases h
  trivial

theorem readCall_isPlain (h : readCall left start ts = .ok (s, rest)) : s.value.IsPlain := by
  simp only [readCall, bind_eq_ok, Prod.exists] at h
  obtain ⟨_, _, _, _, _, _, _, _, _, h⟩ := h
  cases h
  trivial

theorem readFlow_isPlain {kind : FlowKind} (h : readFlow kind left start ts = .ok (s, rest)) :
    s.value.IsPlain := by
  simp only [readFlow, bind_eq_ok, Prod.exists] at h
  obtain ⟨_, _, _, h⟩ := h
  cases h
  trivial

theorem readAnnotationDef_isPlain {at_ : Span}
    (h : readAnnotationDef at_ start ts = .ok (s, rest)) : s.value.IsPlain := by
  simp only [readAnnotationDef, bind_eq_ok, Prod.exists] at h
  obtain ⟨_, _, _, _, _, _, _, _, _, _, _, _, h⟩ := h
  cases h
  trivial

theorem readScenario_spansEnds {name : Spanned String}
    (h : readScenario name start ts = .ok (s, rest)) : ∀ x ∈ s.value.steps, SpansEnds x := by
  simp only [readScenario, bind_eq_ok, Prod.exists] at h
  obtain ⟨_, _, _, _, _, hsteps, _, _, _, h⟩ := h
  cases h
  exact readSteps_spansEnds hsteps

/-- Of the statements without statements in them, scenarios alone have steps. -/
theorem readSimple_isPlain_or_scenario (h : readSimple ts = .ok (some (s, rest))) :
    s.value.IsPlain ∨ ∃ name span tail, ts = ⟨.text name, span⟩ :: tail ∧
      readScenario ⟨name, span⟩ ts tail = .ok (s, rest) := by
  unfold readSimple at h
  split at h
  · exact Or.inl (readActor_isPlain (map_some_eq_ok.1 h))
  · exact Or.inl (readActor_isPlain (map_some_eq_ok.1 h))
  · exact Or.inl (readActor_isPlain (map_some_eq_ok.1 h))
  · exact Or.inl (readNote_isPlain (map_some_eq_ok.1 h))
  · exact Or.inl (readAnnotationDef_isPlain (map_some_eq_ok.1 h))
  · exact Or.inr ⟨_, _, _, rfl, map_some_eq_ok.1 h⟩
  · exact Or.inl (readAssignment_isPlain (map_some_eq_ok.1 h))
  · exact Or.inl (readCall_isPlain (map_some_eq_ok.1 h))
  · exact Or.inl (readFlow_isPlain (map_some_eq_ok.1 h))
  · exact Or.inl (readFlow_isPlain (map_some_eq_ok.1 h))
  · cases h

theorem readSimple_spansEnds (h : readSimple ts = .ok (some (s, rest))) :
    ∀ x ∈ s.value.steps, SpansEnds x := by
  rcases readSimple_isPlain_or_scenario h with hplain | ⟨_, _, _, _, hscenario⟩
  · rw [hplain.steps_eq_nil]
    exact nofun
  · exact readScenario_spansEnds hscenario

mutual

theorem readStatement_spansEnds {ts rest : Tokens} {s : Spanned Statement} {hr}
    (h : readStatement ts = .ok (some ⟨(s, rest), hr⟩)) :
    ∀ x ∈ s.value.steps, SpansEnds x := by
  unfold readStatement at h
  split at h
  · next word rest' =>
    dsimp only at h
    split at h
    · cases h
    · next head inner hhead =>
      split at h
      · cases h
      · next body tail ht hbody =>
        split at h
        · cases h
        · next close after hclose =>
          cases h
          -- the body has fewer tokens than the container, which ends the recursion
          have hlen := readContainerHead_length hhead
          exact readBody_spansEnds hbody
  · split at h
    · cases h
    · cases h
    · next p hp =>
      cases h
      exact readSimple_spansEnds hp
termination_by 2 * ts.length
decreasing_by
  subst_vars
  simp only [List.length_cons]
  omega

theorem readBody_spansEnds {ts rest : Tokens} {xs : List (Spanned Statement)} {hr}
    (h : readBody ts = .ok ⟨(xs, rest), hr⟩) : ∀ x ∈ stepsOf xs, SpansEnds x := by
  unfold readBody at h
  split at h
  · cases h
  · cases h
    exact nofun
  · next s next hnext hs =>
    dsimp only at h
    split at h
    · cases h
    · next more tail ht hmore =>
      cases h
      have hlen : next.length < ts.length := hnext
      have hskip := skipSemicolon_length next
      exact List.forall_mem_append.2 ⟨readStatement_spansEnds hs, readBody_spansEnds hmore⟩
termination_by 2 * ts.length + 1
decreasing_by all_goals omega

end

/-- Every step of a program that is read reaches from its first end to its second. -/
theorem readProgram_spansEnds {p : Program} (h : readProgram ts = .ok p) :
    ∀ x ∈ stepsOf p, SpansEnds x := by
  fun_induction readProgram ts generalizing p with
  | case1 => cases h
  | case2 =>
    cases h
    exact nofun
  | case3 => cases h
  | case4 => cases h
  | case5 ts s next _ hs _ rest hsemi ih =>
    obtain ⟨more, hmore, h⟩ := bind_eq_ok.1 h
    cases h
    exact List.forall_mem_append.2 ⟨readStatement_spansEnds hs, ih hmore⟩

end Reader

/-! ## Acts -/

section Cites

variable {P : Spanned Ident → Prop} {Q : Ident → Ident → Span → Prop}

/-- The act is about identifiers that satisfy `P`: a check about its operand, an effect about
what it defines. The ends and the span of a response that must be requested satisfy `Q`. -/
def Act.Cites (P : Spanned Ident → Prop) (Q : Ident → Ident → Span → Prop) : Act → Prop
  | .check (.known ref) => P ref
  | .check (.active _ ref) => P ref
  | .check (.store _ ref) => P ref
  | .check (.unused _ ref) => P ref
  | .check (.requested requester responder step) => Q requester responder step
  | .effect e => ∀ d, e.definition? = some d → P d.ref

/-- The ends and the span of a response satisfy `Q`. -/
def Responds (Q : Ident → Ident → Span → Prop) (x : Spanned StepDecl) : Prop :=
  ∀ requester responder message, x.value = .response requester responder message →
    Q requester.value responder.value x.span

theorem cites_channelChecks {source target : Spanned Ident} (h : ∀ x ∈ [source, target], P x) :
    ∀ a ∈ channelChecks source target, a.Cites P Q := by
  simpa [channelChecks, Act.Cites] using h

theorem cites_flowChecks (kind : FlowKind) {left right : Spanned Ident}
    (h : ∀ x ∈ [left, right], P x) : ∀ a ∈ flowChecks kind left right, a.Cites P Q := by
  cases kind <;> simpa [flowChecks, Act.Cites] using h

/-- An effect that defines nothing is about nothing. -/
theorem cites_effect {e : Effect} (h : e.definition? = none) : (Act.effect e).Cites P Q := by
  intro d hd
  rw [h] at hd
  cases hd

theorem cites_stepActs {x : Spanned StepDecl} (hx : Responds Q x)
    (hids : ∀ i ∈ x.value.identifiers, P i) : ∀ a ∈ stepActs x, a.Cites P Q := by
  obtain ⟨x, span⟩ := x
  cases x with
  | request kind source target message =>
    exact List.forall_mem_append.2
      ⟨cites_channelChecks hids, List.forall_mem_singleton.2 (cites_effect rfl)⟩
  | response requester responder message =>
    exact List.forall_mem_append.2 ⟨cites_channelChecks hids,
      List.forall_mem_singleton.2 (hx requester responder message rfl)⟩
  | transfer kind left right message =>
    exact List.forall_mem_append.2
      ⟨cites_flowChecks kind hids, List.forall_mem_singleton.2 (cites_effect rfl)⟩

/-- The acts of a statement are about its identifiers and responses. -/
theorem cites_acts {x : Statement} (hflat : x.IsFlat) (hids : ∀ i ∈ x.identifiers, P i)
    (hsteps : ∀ y ∈ x.steps, Responds Q y) : ∀ a ∈ x.acts, a.Cites P Q := by
  cases x with
  | actor d =>
    have hid := (List.forall_mem_cons.1 hids).1
    refine List.forall_mem_cons.2 ⟨hid, List.forall_mem_singleton.2 ?_⟩
    rintro _ ⟨⟩
    exact hid
  | note d =>
    have hid := (List.forall_mem_cons.1 hids).1
    exact List.forall_mem_cons.2 ⟨hid, List.forall_mem_singleton.2 (cites_effect rfl)⟩
  | assignment d =>
    have hid := (List.forall_mem_cons.1 hids).1
    exact List.forall_mem_cons.2 ⟨hid, List.forall_mem_singleton.2 (cites_effect rfl)⟩
  | call d =>
    exact List.forall_mem_append.2
      ⟨cites_channelChecks hids, List.forall_mem_singleton.2 (cites_effect rfl)⟩
  | flow d =>
    exact List.forall_mem_append.2
      ⟨cites_flowChecks d.kind hids, List.forall_mem_singleton.2 (cites_effect rfl)⟩
  | «annotation» d =>
    have hid := (List.forall_mem_cons.1 hids).1
    refine List.forall_mem_cons.2 ⟨hid, List.forall_mem_singleton.2 ?_⟩
    rintro _ ⟨⟩
    exact hid
  | scenario d =>
    have hacts : ∀ a ∈ d.steps.flatMap stepActs, a.Cites P Q := by
      intro a ha
      obtain ⟨y, hy, ha⟩ := List.mem_flatMap.1 ha
      have hends : ∀ i ∈ y.value.identifiers, P i :=
        fun i hi => hids i (List.mem_flatMap.2 ⟨y, hy, hi⟩)
      exact cites_stepActs (hsteps y hy) hends a ha
    exact List.forall_mem_append.2 ⟨hacts, List.forall_mem_singleton.2 (cites_effect rfl)⟩
  | container head body => exact hflat.elim

/-- The acts of a program are about its identifiers and responses. -/
theorem cites_visitsOf {xs : List (Spanned Statement)} (body : BodyPath) (i : Nat)
    (hids : ∀ x ∈ identifiersOf xs, P x) (hsteps : ∀ x ∈ stepsOf xs, Responds Q x) :
    ∀ a ∈ (visitsOf body i xs).map Visit.act, a.Cites P Q := by
  induction xs using Program.induction generalizing body i with
  | nil => exact nofun
  | flat x span xs hx ih =>
    obtain ⟨hid, hids⟩ := List.forall_mem_append.1 hids
    obtain ⟨hstep, hsteps⟩ := List.forall_mem_append.1 hsteps
    rw [visitsOf_flat hx, List.map_append, map_act_map_mk]
    exact List.forall_mem_append.2 ⟨cites_acts hx hid hstep, ih body (i + 1) hids hsteps⟩
  | container head inner span xs ih₁ ih₂ =>
    obtain ⟨hinner, hids⟩ := List.forall_mem_append.1 hids
    obtain ⟨hhead, hinner⟩ := List.forall_mem_cons.1 hinner
    obtain ⟨hstep, hsteps⟩ := List.forall_mem_append.1 hsteps
    have hopen : (Act.effect (.openBody (i :: body) head)).Cites P Q := by
      rintro _ ⟨⟩
      exact hhead
    rw [visitsOf_container]
    simp only [List.map_cons, List.map_append, List.forall_mem_cons, List.forall_mem_append]
    exact ⟨hhead, hopen, ih₁ (i :: body) 0 hinner hstep, cites_effect rfl,
      ih₂ body (i + 1) hids hsteps⟩

end Cites

/-! ## Violations -/

section Points

variable {P : Span → Prop}

/-- The act points at spans that satisfy `P`. -/
def Act.Points (P : Span → Prop) (a : Act) : Prop :=
  a.Cites (fun x => P x.span) fun _ _ span => P span

/-- Every place of a first definition in the scope satisfies `P`. -/
def Scope.Points (P : Span → Prop) (s : Scope) : Prop :=
  ∀ m span, s.firstDefined.get? m = some span → P span

theorem Scope.Points.apply {s : Scope} (hs : s.Points P) {e : Effect}
    (he : (Act.effect e).Points P) : (e.apply s).Points P := by
  unfold Scope.Points
  rw [firstDefined_apply]
  cases hd : e.definition? with
  | none => exact hs
  | some d =>
    intro m span hm
    rw [Table.get?_insertIfNew, Option.or_eq_some_iff] at hm
    rcases hm with hm | ⟨_, hm⟩
    · exact hs m span hm
    · split at hm
      · cases hm
        exact he d hd
      · cases hm

theorem map_eq_error {ε α β : Type} {r : Except ε α} {f : α → β} {e : ε}
    (h : r.map f = .error e) : r = .error e := by
  cases r <;> cases h
  rfl

/-- The violation is about one identifier alone. -/
def Violation.About (ref : Spanned Ident) : Violation → Prop
  | undefined r => r = ref
  | containerAsActor r => r = ref
  | storeAsEnd r _ => r = ref
  | notAStore r _ _ => r = ref
  | missingRequest _ _ _ => False
  | duplicate _ _ _ => False

theorem Violation.About.labels {ref : Spanned Ident} {w : Violation} (h : w.About ref) :
    w.diagnostic.labels = [⟨ref.span, w.note, true⟩] := by
  cases w <;> cases h <;> rfl

/-- A reference that is not good is what the violation is about. -/
theorem about_of_actor {s : Scope} {ref : Spanned Ident} {w : Violation}
    (h : Elaboration.actor s ref = .error w) : w.About ref := by
  unfold Elaboration.actor at h
  split at h
  · cases h
  · split at h <;> cases h <;> rfl

/-- So is an end of the wrong kind. -/
theorem about_of_actor_bind {s : Scope} {ref : Spanned Ident} {w : Violation}
    {f : Actor → Except Violation Unit} (hf : ∀ a, f a = .error w → w.About ref)
    (h : (Elaboration.actor s ref >>= f) = .error w) : w.About ref := by
  cases ha : Elaboration.actor s ref with
  | error v =>
    rw [ha] at h
    cases h
    exact about_of_actor ha
  | ok a =>
    rw [ha] at h
    exact hf a h

theorem about_of_active {policy : Redeclaration} {s : Scope} {role : EndRole} {ref : Spanned Ident}
    {w : Violation} (h : (Check.active role ref).test policy s = .error w) : w.About ref := by
  refine about_of_actor_bind (fun a ha => ?_) h
  split at ha
  · cases ha
  · cases ha
    rfl

theorem about_of_store {policy : Redeclaration} {s : Scope} {role : EndRole} {ref : Spanned Ident}
    {w : Violation} (h : (Check.store role ref).test policy s = .error w) : w.About ref := by
  refine about_of_actor_bind (fun a ha => ?_) h
  split at ha
  · cases ha
  · cases ha
    rfl

theorem exists_first_of_checkNew {policy : Redeclaration} {s : Scope} {what : DefinitionKind}
    {ref : Spanned Ident} {members : List Member} {w : Violation}
    (h : Elaboration.checkNew policy s what ref members = .error w) :
    policy = .reject ∧ ∃ m first, s.firstDefined.get? m = some first ∧
      w = .duplicate what ref first := by
  unfold Elaboration.checkNew at h
  split at h
  · cases h
  · split at h
    · next first hfirst =>
      cases h
      obtain ⟨m, _, hm⟩ := List.exists_of_findSome?_eq_some hfirst
      exact ⟨rfl, m, first, hm, rfl⟩
    · cases h

/-- A check that fails points at its operand, and at the first definition of a duplicate. -/
theorem Check.points_test {s : Scope} (hs : s.Points P) {policy : Redeclaration} {c : Check}
    (hc : (Act.check c).Points P) {w : Violation} (h : c.test policy s = .error w) :
    ∀ l ∈ w.diagnostic.labels, P l.span := by
  cases c with
  | known ref =>
    rw [(about_of_actor (map_eq_error h)).labels]
    exact List.forall_mem_singleton.2 hc
  | active role ref =>
    rw [(about_of_active h).labels]
    exact List.forall_mem_singleton.2 hc
  | store role ref =>
    rw [(about_of_store h).labels]
    exact List.forall_mem_singleton.2 hc
  | requested a b step =>
    simp only [Check.test] at h
    split at h
    · cases h
    · cases h
      exact List.forall_mem_singleton.2 hc
  | unused what ref =>
    obtain ⟨_, m, first, hm, rfl⟩ := exists_first_of_checkNew h
    exact List.forall_mem_cons.2 ⟨hc, List.forall_mem_singleton.2 (hs m first hm)⟩

/-- A walk that fails points where its acts do. -/
theorem perform_points {policy : Redeclaration} {acts : List Act} {s : Scope} {w : Violation}
    (hacts : ∀ a ∈ acts, a.Points P) (hs : s.Points P) (h : perform policy acts s = .error w) :
    ∀ l ∈ w.diagnostic.labels, P l.span := by
  induction acts generalizing s with
  | nil => cases h
  | cons a acts ih =>
    obtain ⟨ha, hrest⟩ := List.forall_mem_cons.1 hacts
    cases a with
    | check c =>
      simp only [perform] at h
      cases hc : c.test policy s with
      | error v =>
        rw [hc] at h
        cases h
        exact Check.points_test hs ha hc
      | ok u =>
        rw [hc] at h
        exact ih hrest hs h
    | effect e => exact ih hrest (hs.apply ha) h

/-- A violation points at identifiers and steps of its program. -/
theorem Program.elaborate_points {options : ElaborationOptions} {p : Program} {w : Violation}
    (hids : ∀ x ∈ identifiersOf p, P x.span) (hsteps : ∀ x ∈ stepsOf p, P x.span)
    (h : p.elaborate options = .error w) : ∀ l ∈ w.diagnostic.labels, P l.span := by
  have hempty : Scope.empty.Points P := by
    intro m span hm
    cases hm
  exact perform_points (cites_visitsOf [] 0 hids fun x hx _ _ _ _ => hsteps x hx) hempty
    (Program.elaborate_eq_error_iff.1 h)

end Points

end ArchScript
