/-
  Every effect of a walk is guarded by checks.

  A statement checks what it refers to and then changes the scope. `Effect.Guarded` names the
  checks of an effect, and `guarded_visitsOf` says that they stood before it: what holds of
  every check of a walk where it stands holds of the guards of every effect where the effect
  stands.
-/
import ArchScript.Proofs.Checking.Rules

namespace ArchScript

/-! ## Along a walk -/

/-- Every act of a walk that goes on after the visits `before` has the property `P`, which
may depend on what was visited until then. -/
def Throughout (P : List Visit → Act → Prop) (before vs : List Visit) : Prop :=
  ∀ pre body a post, vs = pre ++ ⟨body, a⟩ :: post → P (before ++ pre) a

/-- A property of the checks among acts. -/
def OnChecks (H : List Visit → Check → Prop) (before : List Visit) : Act → Prop
  | .check c => H before c
  | .effect _ => True

/-- A property of the effects among acts. -/
def OnEffects (E : List Visit → Effect → Prop) (before : List Visit) : Act → Prop
  | .check _ => True
  | .effect e => E before e

section Throughout

variable {P : List Visit → Act → Prop} {before vs ws : List Visit}

theorem throughout_nil : Throughout P before [] := by
  intro pre body a post h
  cases pre <;> cases h

theorem throughout_cons_iff {v : Visit} :
    Throughout P before (v :: vs) ↔ P before v.act ∧ Throughout P (before ++ [v]) vs := by
  constructor
  · intro h
    refine ⟨?_, fun pre body a post hvs => ?_⟩
    · have hfirst := h [] v.body v.act vs rfl
      rw [List.append_nil] at hfirst
      exact hfirst
    · rw [List.append_assoc]
      exact h (v :: pre) body a post (hvs ▸ rfl)
  · rintro ⟨hv, hvs⟩ pre body a post h
    cases pre with
    | nil =>
      obtain ⟨rfl, rfl⟩ := List.cons.inj h
      rw [List.append_nil]
      exact hv
    | cons u pre =>
      obtain ⟨rfl, ht⟩ := List.cons.inj h
      rw [List.append_cons]
      exact hvs pre body a post ht

theorem throughout_append_iff :
    Throughout P before (vs ++ ws) ↔ Throughout P before vs ∧ Throughout P (before ++ vs) ws := by
  induction vs generalizing before with
  | nil =>
    rw [List.nil_append, List.append_nil]
    exact ⟨fun h => ⟨throughout_nil, h⟩, fun h => h.2⟩
  | cons v vs ih =>
    rw [List.cons_append, throughout_cons_iff, throughout_cons_iff, ih, and_assoc,
      ← List.append_cons]

end Throughout

/-- All checks hold when every check holds where it stands. -/
theorem allHold_iff_throughout {before vs : List Visit} :
    AllHold before vs ↔ Throughout (OnChecks fun before c => c.Holds before) before vs := by
  constructor
  · intro h pre body a post hvs
    cases a with
    | check c => exact h pre body c post hvs
    | effect e => trivial
  · intro h pre body c post hvs
    exact h pre body (.check c) post hvs

/-! ## Guards -/

/-- An agent or user was asked for under the id `x`. -/
def AskedActive (H : Check → Prop) (x : Ident) : Prop :=
  ∃ role ref, ref.value = x ∧ H (.active role ref)

/-- A store was asked for under the id `x`. -/
def AskedStore (H : Check → Prop) (x : Ident) : Prop :=
  ∃ role ref, ref.value = x ∧ H (.store role ref)

/-- The checks that an effect needs have the property `H`. -/
def Effect.Guarded (H : Check → Prop) : Effect → Prop
  | declareActor d => H (.unused .actor d.id)
  | setNote target _ => ∃ ref, ref.value = target ∧ H (.known ref)
  | assign target _ => ∃ ref, ref.value = target ∧ H (.known ref)
  | declareChannel c => AskedActive H c.source ∧ AskedActive H c.target
  | useChannel c => AskedActive H c.source ∧ AskedActive H c.target
  | declareFlow f => AskedActive H f.actor ∧ AskedStore H f.store
  | useFlow f => AskedActive H f.actor ∧ AskedStore H f.store
  | annotate d => H (.unused DefinitionKind.annotation d.id)
  | openBody _ head => H (.unused .container head.id)
  | addScenario _ => True
  | closeBody _ _ => True

/-- A property of checks that a further check does not change. -/
def Stable (H : List Visit → Check → Prop) : Prop :=
  ∀ before body c c', H before c → H (before ++ [⟨body, .check c'⟩]) c

/-- What is known of the checks of visits is known of the guards of their effects. -/
def Guards (H : List Visit → Check → Prop) (before vs : List Visit) : Prop :=
  Throughout (OnChecks H) before vs → Throughout (OnEffects fun b e => e.Guarded (H b)) before vs

section Guarded

variable {H : List Visit → Check → Prop} {before : List Visit} {body : BodyPath}

theorem guards_nil : Guards H before [] := fun _ => throughout_nil

theorem Guards.append {vs ws : List Visit} (hv : Guards H before vs)
    (hw : Guards H (before ++ vs) ws) : Guards H before (vs ++ ws) := by
  intro h
  obtain ⟨h₁, h₂⟩ := throughout_append_iff.1 h
  exact throughout_append_iff.2 ⟨hv h₁, hw h₂⟩

/-- An effect that needs no check. -/
theorem guards_effect {e : Effect} (he : ∀ b, e.Guarded (H b)) :
    Guards H before [⟨body, .effect e⟩] :=
  fun _ => throughout_cons_iff.2 ⟨he before, throughout_nil⟩

/-- A check before an effect that needs this check. -/
theorem guards_check (hs : Stable H) {c : Check} {e : Effect}
    (he : ∀ b, H b c → e.Guarded (H b)) :
    Guards H before [⟨body, .check c⟩, ⟨body, .effect e⟩] := by
  intro h
  simp only [throughout_cons_iff, OnChecks, OnEffects] at h ⊢
  exact ⟨trivial, he _ (hs _ _ _ _ h.1), throughout_nil⟩

/-- Two checks before an effect that needs both. -/
theorem guards_checks (hs : Stable H) {c c' : Check} {e : Effect}
    (he : ∀ b, H b c → H b c' → e.Guarded (H b)) :
    Guards H before [⟨body, .check c⟩, ⟨body, .check c'⟩, ⟨body, .effect e⟩] := by
  intro h
  simp only [throughout_cons_iff, OnChecks, OnEffects] at h ⊢
  obtain ⟨h₁, h₂, _⟩ := h
  exact ⟨trivial, trivial, he _ (hs _ _ _ _ (hs _ _ _ _ h₁)) (hs _ _ _ _ h₂), throughout_nil⟩

/-- The ends of a channel are asked for before it is declared or used. -/
theorem guards_channel (hs : Stable H) (source target : Spanned Ident) {e : Effect}
    (he : ∀ H, AskedActive H source.value → AskedActive H target.value → e.Guarded H) :
    Guards H before ((channelChecks source target ++ [Act.effect e]).map (Visit.mk body)) :=
  guards_checks hs fun b h₁ h₂ =>
    he (H b) ⟨.channel, source, rfl, h₁⟩ ⟨.channel, target, rfl, h₂⟩

/-- The ends of a data flow are asked for before it is declared or used. -/
theorem guards_flow (hs : Stable H) (kind : FlowKind) (left right : Spanned Ident) {e : Effect}
    (he : ∀ H, AskedActive H (DataFlow.declared kind left.value right.value).actor →
      AskedStore H (DataFlow.declared kind left.value right.value).store → e.Guarded H) :
    Guards H before ((flowChecks kind left right ++ [Act.effect e]).map (Visit.mk body)) := by
  cases kind with
  | write =>
    exact guards_checks hs fun b h₁ h₂ => he (H b) ⟨.write, left, rfl, h₁⟩ ⟨.write, right, rfl, h₂⟩
  | read =>
    exact guards_checks hs fun b h₁ h₂ => he (H b) ⟨.read, right, rfl, h₂⟩ ⟨.read, left, rfl, h₁⟩

theorem guards_stepActs (hs : Stable H) (x : Spanned StepDecl) :
    Guards H before ((stepActs x).map (Visit.mk body)) := by
  obtain ⟨x, span⟩ := x
  cases x with
  | request kind source target message =>
    exact guards_channel hs source target fun _ h₁ h₂ => ⟨h₁, h₂⟩
  | response requester responder message =>
    intro _
    simp only [stepActs, channelChecks, List.cons_append, List.nil_append, List.map_cons,
      List.map_nil, throughout_cons_iff, OnEffects]
    exact ⟨trivial, trivial, trivial, throughout_nil⟩
  | transfer kind left right message =>
    exact guards_flow hs kind left right fun _ h₁ h₂ => ⟨h₁, h₂⟩

theorem guards_steps (hs : Stable H) (xs : List (Spanned StepDecl)) :
    Guards H before ((xs.flatMap stepActs).map (Visit.mk body)) := by
  induction xs generalizing before with
  | nil => exact guards_nil
  | cons x xs ih =>
    rw [List.flatMap_cons, List.map_append]
    exact (guards_stepActs hs x).append ih

theorem guards_acts (hs : Stable H) (x : Statement) :
    Guards H before (x.acts.map (Visit.mk body)) := by
  cases x with
  | actor d => exact guards_check hs fun _ h => h
  | note d => exact guards_check hs fun _ h => ⟨d.target, rfl, h⟩
  | assignment d => exact guards_check hs fun _ h => ⟨d.target, rfl, h⟩
  | call d => exact guards_channel hs d.source d.target fun _ h₁ h₂ => ⟨h₁, h₂⟩
  | flow d => exact guards_flow hs d.kind d.left d.right fun _ h₁ h₂ => ⟨h₁, h₂⟩
  | «annotation» d => exact guards_check hs fun _ h => h
  | scenario d =>
    rw [Statement.acts, ScenarioDef.acts, List.map_append]
    exact (guards_steps hs d.steps).append (guards_effect fun _ => trivial)
  | container head inner => exact guards_nil

/-- The walk of a program guards all its effects. -/
theorem guards_visitsOf (hs : Stable H) (xs : List (Spanned Statement)) (i : Nat) :
    Guards H before (visitsOf body i xs) := by
  induction xs using Program.induction generalizing before body i with
  | nil => exact guards_nil
  | flat x span xs hx ih =>
    rw [visitsOf_flat hx]
    exact (guards_acts hs x).append (ih (i + 1))
  | container head inner span xs ih₁ ih₂ =>
    rw [visitsOf_container]
    have hopen : Guards H before [⟨body, .check (.unused .container head.id)⟩,
        ⟨body, .effect (.openBody (i :: body) head)⟩] := guards_check hs fun _ h => h
    have hclose : ∀ b, Guards H b [⟨body, .effect (.closeBody (i :: body) head)⟩] :=
      fun _ => guards_effect fun _ => trivial
    exact hopen.append ((ih₁ 0).append ((hclose _).append (ih₂ (i + 1))))

end Guarded

/-- What holds of every check of a program where it stands holds of the guards of every
effect where the effect stands. -/
theorem Program.guarded {H : List Visit → Check → Prop} (hs : Stable H) {p : Program}
    (h : Throughout (OnChecks H) [] p.visits) {before after : List Visit} {body : BodyPath}
    {e : Effect} (hvisits : p.visits = before ++ ⟨body, .effect e⟩ :: after) :
    e.Guarded (H before) :=
  guards_visitsOf hs p 0 h before body (.effect e) after hvisits

end ArchScript
