/-
  The sources of channels are identifiers of the program.

  A channel is known by its id when its source is a word (`channelId_inj`). The lemmas here
  follow the sources from the statements and steps that write them to the acts of the walk.
-/
import ArchScript.Proofs.Checking.Rules
import ArchScript.Proofs.Names.Program

namespace ArchScript

/-- The source of the channel that an act declares, needs or answers on. -/
def Act.channelSource? : Act → Option Ident
  | .check (.requested requester _ _) => some requester
  | .check _ => none
  | .effect e => e.channel?.map Channel.source

/-- The sources of the channels of acts are among names. -/
def SourcesIn (acts : List Act) (names : List Ident) : Prop :=
  ∀ a ∈ acts, ∀ x, a.channelSource? = some x → x ∈ names

namespace SourcesIn

variable {as bs : List Act} {names more : List Ident}

theorem cons {a : Act} (ha : a.channelSource? = none) (hb : SourcesIn bs names) :
    SourcesIn (a :: bs) names := by
  refine List.forall_mem_cons.2 ⟨fun x hx => ?_, hb⟩
  rw [ha] at hx
  cases hx

theorem append (ha : SourcesIn as names) (hb : SourcesIn bs names) :
    SourcesIn (as ++ bs) names := List.forall_mem_append.2 ⟨ha, hb⟩

theorem mono (h : SourcesIn as names) (hsub : names ⊆ more) : SourcesIn as more :=
  fun a ha x hx => hsub (h a ha x hx)

end SourcesIn

/-! ## Statements -/

theorem sourcesIn_channelChecks (source target : Spanned Ident) (names : List Ident) :
    SourcesIn (channelChecks source target) names := by
  simp [SourcesIn, channelChecks, Act.channelSource?]

theorem sourcesIn_flowChecks (kind : FlowKind) (left right : Spanned Ident) (names : List Ident) :
    SourcesIn (flowChecks kind left right) names := by
  cases kind <;> simp [SourcesIn, flowChecks, Act.channelSource?]

theorem sourcesIn_stepActs (x : Spanned StepDecl) : SourcesIn (stepActs x) x.value.names := by
  obtain ⟨x, span⟩ := x
  cases x with
  | request kind source target message =>
    refine (sourcesIn_channelChecks _ _ _).append ?_
    simp [SourcesIn, Act.channelSource?, Effect.channel?, StepDecl.names, Channel.declared]
  | response requester responder message =>
    refine (sourcesIn_channelChecks _ _ _).append ?_
    simp [SourcesIn, Act.channelSource?, StepDecl.names]
  | transfer kind left right message =>
    refine (sourcesIn_flowChecks _ _ _ _).append ?_
    simp [SourcesIn, Act.channelSource?, Effect.channel?]

theorem sourcesIn_acts (x : Statement) : SourcesIn x.acts x.names := by
  cases x with
  | call d =>
    refine (sourcesIn_channelChecks _ _ _).append ?_
    simp [SourcesIn, Act.channelSource?, Effect.channel?, Statement.names, Channel.declared]
  | flow d =>
    refine (sourcesIn_flowChecks _ _ _ _).append ?_
    simp [SourcesIn, Act.channelSource?, Effect.channel?]
  | scenario d =>
    refine SourcesIn.append (fun a ha y hy => ?_) (.cons rfl (by simp [SourcesIn]))
    obtain ⟨x, hx, ha⟩ := List.mem_flatMap.1 ha
    exact List.mem_flatMap.2 ⟨x, hx, sourcesIn_stepActs x a ha y hy⟩
  | container head inner => simp [SourcesIn, Statement.acts]
  | _ =>
    simp [SourcesIn, Statement.acts, ActorDecl.acts, NoteDecl.acts, Assignment.acts,
      AnnotationDef.acts, Act.channelSource?, Effect.channel?]

/-! ## Programs -/

/-- The sources of the channels of a walk are names of its program. -/
theorem sourcesIn_visitsOf (xs : List (Spanned Statement)) (body : BodyPath) (i : Nat) :
    SourcesIn ((visitsOf body i xs).map Visit.act) (namesOf xs) := by
  induction xs using Program.induction generalizing body i with
  | nil => simp [SourcesIn, visitsOf]
  | flat x span xs hx ih =>
    rw [visitsOf_flat hx, List.map_append, map_act_map_mk, namesOf]
    exact ((sourcesIn_acts x).mono (List.subset_append_left _ _)).append
      ((ih body (i + 1)).mono (List.subset_append_right _ _))
  | container head inner span xs ih₁ ih₂ =>
    rw [visitsOf_container, namesOf, Statement.names]
    have hinner : namesOf inner ⊆ head.id.value :: namesOf inner ++ namesOf xs :=
      fun x hx => List.mem_append_left _ (List.mem_cons_of_mem _ hx)
    have hrest : namesOf xs ⊆ head.id.value :: namesOf inner ++ namesOf xs :=
      List.subset_append_right _ _
    have hbody := (ih₁ (i :: body) 0).mono hinner
    have hafter := (ih₂ body (i + 1)).mono hrest
    simp only [List.map_cons, List.map_append]
    exact .cons rfl (.cons rfl (hbody.append (.cons rfl hafter)))

/-- The sources of the channels of visits are words. -/
def WordSources (vs : List Visit) : Prop :=
  ∀ v ∈ vs, ∀ x, v.act.channelSource? = some x → IsWord x

theorem wordSources_append_iff {vs ws : List Visit} :
    WordSources (vs ++ ws) ↔ WordSources vs ∧ WordSources ws := List.forall_mem_append

theorem Program.WellNamed.wordSources {p : Program} (h : p.WellNamed) : WordSources p.visits :=
  fun v hv x hx => h x (sourcesIn_visitsOf p [] 0 v.act (List.mem_map_of_mem hv) x hx)

end ArchScript
