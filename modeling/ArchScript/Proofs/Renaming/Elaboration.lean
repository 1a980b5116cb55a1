/-
  Elaboration does not depend on how identifiers are spelled.

  The acts of a renamed program are the renamed acts of the program (`acts_renamed`). Every table
  of a scope goes along with its keys, as no two ids become one, so an act on the renamed scope
  gives the renamed scope or the renamed violation (`Check.test_renamed`, `Effect.apply_renamed`),
  and so does a walk (`perform_renamed`). The source of a relationship has to be a word on the way:
  only then its id tells the ends.
-/
import ArchScript.Proofs.Checking.Sources
import ArchScript.Proofs.Precedence
import ArchScript.Proofs.Relationships.Exact
import ArchScript.Proofs.Renaming.Trees
import Mathlib.Logic.Equiv.Basic

namespace ArchScript

variable (r : Renaming)

/-! ## Acts -/

def Check.renamed : Check → Check
  | known ref => known (ref.map r.name)
  | active role ref => active role (ref.map r.name)
  | store role ref => store role (ref.map r.name)
  | requested requester responder step => requested (r.name requester) (r.name responder) step
  | unused what ref => unused what (ref.map r.name)

def Effect.renamed : Effect → Effect
  | declareActor d => declareActor (d.renamed r)
  | setNote target text => setNote (r.name target) text
  | assign target refs => assign (r.name target) (refs.map r.name)
  | declareChannel c => declareChannel (c.renamed r)
  | useChannel c => useChannel (c.renamed r)
  | declareFlow f => declareFlow (f.renamed r)
  | useFlow f => useFlow (f.renamed r)
  | annotate d => annotate (d.renamed r)
  | addScenario x => addScenario (x.renamed r)
  | openBody path head => openBody path (head.renamed r)
  | closeBody path head => closeBody path (head.renamed r)

def Act.renamed : Act → Act
  | check c => check (c.renamed r)
  | effect e => effect (e.renamed r)

/-! ## The walk of a renamed program -/

theorem values_renamed (xs : List (Spanned Ident)) :
    (xs.map (Spanned.map r.name)).map Spanned.value = (xs.map Spanned.value).map r.name := by
  rw [List.map_map, List.map_map]
  rfl

theorem toStep_renamed {x : StepDecl} (h : ∀ y ∈ x.names, IsWord y) :
    (x.renamed r).toStep = x.toStep.renamed r := by
  cases x with
  | request kind source target message =>
    exact congrArg (Step.withMessage .request · (Elaboration.textOrEmpty message))
      (r.id_channelId kind (h _ List.mem_cons_self) target.value).symm
  | response requester responder message =>
    exact congrArg (Step.withMessage .response · (Elaboration.textOrEmpty message))
      (r.id_channelId .requestResponse (h _ List.mem_cons_self) responder.value).symm
  | transfer kind left right message =>
    have hid := (r.id_flowId kind (h _ List.mem_cons_self) right.value).symm
    cases kind with
    | read => exact congrArg (Step.withMessage .dataRead · message.value) hid
    | write => exact congrArg (Step.withMessage .dataWrite · message.value) hid

theorem toScenario_renamed {d : ScenarioDef} (h : ∀ x ∈ d.steps, ∀ y ∈ x.value.names, IsWord y) :
    (d.renamed r).toScenario = d.toScenario.renamed r := by
  refine congrArg (Scenario.mk d.name.value) ?_
  simp only [ScenarioDef.renamed, ScenarioDef.toScenario, List.map_map]
  exact List.map_congr_left fun x hx => toStep_renamed r (h x hx)

theorem stepActs_renamed (x : Spanned StepDecl) :
    stepActs (x.map (StepDecl.renamed r)) = (stepActs x).map (Act.renamed r) := by
  obtain ⟨x, span⟩ := x
  cases x with
  | transfer kind left right message => cases kind <;> rfl
  | _ => rfl

theorem acts_renamed_of_isFlat {x : Statement} (hx : x.IsFlat) (h : ∀ y ∈ x.names, IsWord y) :
    (x.renamed r).acts = x.acts.map (Act.renamed r) := by
  cases x with
  | assignment d =>
    simp only [Statement.renamed, Statement.acts, Assignment.acts, Assignment.renamed,
      values_renamed]
    rfl
  | flow d =>
    obtain ⟨kind, left, right⟩ := d
    cases kind <;> rfl
  | scenario d =>
    have hsteps : ∀ x ∈ d.steps, ∀ y ∈ x.value.names, IsWord y :=
      fun x hx y hy => h y (List.mem_flatMap.2 ⟨x, hx, hy⟩)
    simp only [Statement.renamed, Statement.acts, ScenarioDef.acts, toScenario_renamed r hsteps,
      List.map_append, List.map_flatMap, ← stepActs_renamed]
    rw [ScenarioDef.renamed, List.flatMap_map]
    rfl
  | container head inner => exact hx.elim
  | _ => rfl

theorem Statement.isFlat_renamed {x : Statement} (h : x.IsFlat) : (x.renamed r).IsFlat := by
  cases x with
  | container head inner => exact h.elim
  | _ => trivial

/-- The walk of a renamed program is the renamed walk. -/
theorem acts_renamed {p : Program} (h : p.WellNamed) (body : BodyPath) (i : Nat) :
    (visitsOf body i (renamedAll r p)).map Visit.act =
      ((visitsOf body i p).map Visit.act).map (Act.renamed r) := by
  induction p using Program.induction generalizing body i with
  | nil => rfl
  | flat x span xs hx ih =>
    obtain ⟨hnames, hrest⟩ := List.forall_mem_append.1 h
    rw [renamedAll, visitsOf_flat (Statement.isFlat_renamed r hx), visitsOf_flat hx,
      List.map_append, List.map_append, List.map_append, map_act_map_mk, map_act_map_mk,
      acts_renamed_of_isFlat r hx hnames, ih hrest]
  | container head inner span xs ih₁ ih₂ =>
    obtain ⟨hnames, hrest⟩ := List.forall_mem_append.1 h
    have hinner := (List.forall_mem_cons.1 hnames).2
    rw [renamedAll, Statement.renamed, visitsOf_container, visitsOf_container]
    simp only [List.map_cons, List.map_append, ih₁ hinner, ih₂ hrest]
    rfl

/-! ## Words in acts -/

/-- The source of the relationship that the act is about, if there is one, is a word. -/
def Act.Worded : Act → Prop
  | .check (.requested requester _ _) => IsWord requester
  | .effect (.declareChannel c) => IsWord c.source
  | .effect (.useChannel c) => IsWord c.source
  | .effect (.declareFlow f) => IsWord f.source
  | .effect (.useFlow f) => IsWord f.source
  | _ => True

theorem Program.WellNamed.worded {p : Program} (h : p.WellNamed) :
    ∀ a ∈ p.visits.map Visit.act, a.Worded := by
  refine List.forall_mem_map.2 fun v hv => ?_
  have hchannel : ∀ x, v.act.channelSource? = some x → IsWord x := h.wordSources v hv
  have hflow : ∀ e m, v.act = .effect e → e.flowMention? = some m → IsWord m.value.source :=
    fun e m he hm => h.isWord_flow_source _
      (List.mem_map_of_mem (mem_flowMentions_iff.2 ⟨v, hv, e, he, hm⟩))
  obtain ⟨body, act⟩ := v
  cases act with
  | check c =>
    cases c with
    | requested requester responder step => exact hchannel requester rfl
    | _ => trivial
  | effect e =>
    cases e with
    | declareChannel c => exact hchannel c.source rfl
    | useChannel c => exact hchannel c.source rfl
    | declareFlow f => exact hflow _ _ rfl rfl
    | useFlow f => exact hflow _ _ rfl rfl
    | _ => trivial

/-! ## Scopes -/

/-- The scope with new names in all its tables. -/
def Scope.renamed (s : Scope) : Scope where
  actors := s.actors.rename r.name_injective (Actor.renamed r)
  channels := s.channels.rename (r.id_injective .channel) (Channel.renamed r)
  dataFlows := s.dataFlows.rename (r.id_injective .dataFlow) (DataFlow.renamed r)
  annotations := s.annotations.rename r.name_injective fun a => a.renamed r
  containers := s.containers.rename r.name_injective (Container.renamed r)
  scenarios := s.scenarios.map (Scenario.renamed r)
  parents := s.parents.rename r.member_injective r.name
  openBodies := s.openBodies.map (List.map r.member)
  firstDefined := s.firstDefined.rename r.member_injective fun span => span

namespace Scope

variable (s : Scope)

/-! Every lookup goes along with the names. -/

theorem get?_actors_renamed (id : Ident) :
    (s.renamed r).actors.get? (r.name id) = (s.actors.get? id).map (Actor.renamed r) :=
  s.actors.get?_rename r.name_injective _ id

theorem contains_containers_renamed (id : Ident) :
    (s.renamed r).containers.contains (r.name id) = s.containers.contains id :=
  s.containers.contains_rename r.name_injective _ id

theorem contains_channels_renamed (id : Ident) :
    (s.renamed r).channels.contains (r.id .channel id) = s.channels.contains id :=
  s.channels.contains_rename (r.id_injective .channel) _ id

theorem contains_dataFlows_renamed (id : Ident) :
    (s.renamed r).dataFlows.contains (r.id .dataFlow id) = s.dataFlows.contains id :=
  s.dataFlows.contains_rename (r.id_injective .dataFlow) _ id

theorem get?_firstDefined_renamed (m : Member) :
    (s.renamed r).firstDefined.get? (r.member m) = s.firstDefined.get? m :=
  (s.firstDefined.get?_rename r.member_injective _ m).trans Option.map_id'

theorem parent?_renamed (m : Member) :
    (s.renamed r).parent? (r.member m) = (s.parent? m).map r.name :=
  s.parents.get?_rename r.member_injective r.name m

/-! Every update does. -/

theorem noteDefinition_renamed (m : Member) (span : Span) :
    (s.renamed r).noteDefinition (r.member m) span = (s.noteDefinition m span).renamed r :=
  congrArg (fun t => { s.renamed r with firstDefined := t })
    (s.firstDefined.insertIfNew_rename r.member_injective (fun span => span) m span)

theorem moveToFront_renamed (m : Member) (bodies : List (List Member)) :
    moveToFront (r.member m) (bodies.map (List.map r.member)) =
      (moveToFront m bodies).map (List.map r.member) := by
  have hkept : ∀ body : List Member,
      (body.map r.member).filter (fun x => !decide (x = r.member m)) =
        (body.filter fun x => !decide (x = m)).map r.member := by
    intro body
    rw [List.filter_map]
    refine congrArg _ (List.filter_congr fun x _ => ?_)
    simp only [Function.comp_apply, r.member_injective.eq_iff]
  cases bodies with
  | nil => rfl
  | cons body outer =>
    simp only [moveToFront, List.map_cons, List.map_map, hkept, List.map_append, List.map_nil]
    exact congrArg _ (List.map_congr_left fun body _ => hkept body)

theorem moveHere_renamed (m : Member) :
    (s.renamed r).moveHere (r.member m) = (s.moveHere m).renamed r := by
  unfold moveHere
  rw [show (s.renamed r).openBodies = s.openBodies.map (List.map r.member) from rfl,
    moveToFront_renamed,
    show (s.renamed r).parents = s.parents.rename r.member_injective r.name from rfl,
    Table.erase_rename]
  rfl

theorem registerActor_renamed (a : Actor) (span : Span) :
    (s.renamed r).registerActor (a.renamed r) span = (s.registerActor a span).renamed r := by
  have hmoved := (s.noteDefinition ⟨.actor, a.id⟩ span).moveHere_renamed r ⟨.actor, a.id⟩
  rw [← noteDefinition_renamed] at hmoved
  have hactors := s.actors.insert_rename r.name_injective (Actor.renamed r) a.id a
  exact congrArg₂ (fun (t : Scope) actors => { t with actors }) hmoved hactors

theorem registerAnnotation_renamed (a : Annotation) (span : Span) :
    Scope.registerAnnotation (s.renamed r) (a.renamed r) span =
      (s.registerAnnotation a span).renamed r := by
  have hmoved := (s.noteDefinition ⟨MemberKind.annotation, a.id⟩ span).moveHere_renamed r
    ⟨MemberKind.annotation, a.id⟩
  rw [← noteDefinition_renamed] at hmoved
  have hannotations := s.annotations.insert_rename r.name_injective (fun a => a.renamed r) a.id a
  exact congrArg₂ (fun (t : Scope) annotations => { t with annotations }) hmoved hannotations

theorem registerChannel_renamed {c : Channel} (h : IsWord c.source) :
    (s.renamed r).registerChannel (c.renamed r) = (s.registerChannel c).renamed r := by
  have hmoved := s.moveHere_renamed r ⟨.channel, c.id⟩
  have hchannels := s.channels.insert_rename (r.id_injective .channel) (Channel.renamed r) c.id c
  unfold registerChannel
  rw [Channel.id_renamed r h]
  exact congrArg₂ (fun (t : Scope) channels => { t with channels }) hmoved hchannels

theorem registerDataFlow_renamed {f : DataFlow} (h : IsWord f.source) :
    (s.renamed r).registerDataFlow (f.renamed r) = (s.registerDataFlow f).renamed r := by
  have hmoved := s.moveHere_renamed r ⟨.dataFlow, f.id⟩
  have hflows := s.dataFlows.insert_rename (r.id_injective .dataFlow) (DataFlow.renamed r) f.id f
  unfold registerDataFlow
  rw [DataFlow.id_renamed r h]
  exact congrArg₂ (fun (t : Scope) dataFlows => { t with dataFlows }) hmoved hflows

/-- A change of an actor that does the same to the renamed actor. -/
theorem updateActor_renamed (id : Ident) {f g : Actor → Actor}
    (h : ∀ a, g (a.renamed r) = (f a).renamed r) :
    (s.renamed r).updateActor (r.name id) g = (s.updateActor id f).renamed r := by
  unfold updateActor
  rw [get?_actors_renamed]
  cases s.actors.get? id with
  | none => rfl
  | some a =>
    simp only [Option.map_some, h]
    exact congrArg (fun actors => { s.renamed r with actors })
      (s.actors.insert_rename r.name_injective (Actor.renamed r) (f a).id (f a))

theorem openBody_renamed (id : Ident) (span : Span) :
    (s.renamed r).openBody (r.name id) span = (s.openBody id span).renamed r :=
  congrArg (fun t : Scope => { t with openBodies := [] :: t.openBodies })
    (s.noteDefinition_renamed r ⟨.container, id⟩ span)

theorem closeBody_renamed (id : Ident) (name : String) :
    (s.renamed r).closeBody (r.name id) name = (s.closeBody id name).renamed r := by
  have hbody : (s.renamed r).openBodies.head?.getD [] =
      (s.openBodies.head?.getD []).map r.member := by
    simp only [renamed, List.head?_map]
    cases s.openBodies.head? <;> rfl
  have hothers : (s.renamed r).parents.filter (fun _ parent => !decide (parent = r.name id)) =
      (s.parents.filter fun _ parent => !decide (parent = id)).rename r.member_injective r.name :=
    s.parents.filter_rename r.member_injective r.name fun _ parent => by
      simp only [r.name_injective.eq_iff]
  unfold closeBody
  simp only [hbody, hothers, Table.foldl_insert_rename, Members.ofList_renamed]
  have hmoved := Scope.moveHere_renamed r { s with
    openBodies := s.openBodies.tail
    parents := (s.openBodies.head?.getD []).foldl (fun t m => t.insert m id)
      (s.parents.filter fun _ parent => !decide (parent = id)) } ⟨.container, id⟩
  have hcontainers := s.containers.insert_rename r.name_injective (Container.renamed r) id
    (.defined id name (.ofList (s.openBodies.head?.getD [])))
  simp only [renamed, List.map_tail] at hmoved ⊢
  exact congrArg₂ (fun (t : Scope) containers => { t with containers }) hmoved hcontainers

end Scope

theorem ActorDecl.toActor_renamed (d : ActorDecl) :
    (d.renamed r).toActor = d.toActor.renamed r := by
  simp only [ActorDecl.toActor, ActorDecl.renamed, values_renamed]
  rfl

/-- An effect does to the renamed scope what it does to the scope. -/
theorem Effect.apply_renamed {e : Effect} (h : (Act.effect e).Worded) (s : Scope) :
    (e.renamed r).apply (s.renamed r) = (e.apply s).renamed r := by
  cases e with
  | declareActor d =>
    simp only [Effect.renamed, Effect.apply, ActorDecl.toActor_renamed]
    exact s.registerActor_renamed r d.toActor d.id.span
  | setNote target text => exact s.updateActor_renamed r target fun _ => rfl
  | assign target refs =>
    refine s.updateActor_renamed r target fun a => ?_
    simp only [Actor.withAnnotations, Actor.renamed, List.map_append]
  | declareChannel c => exact s.registerChannel_renamed r h
  | useChannel c =>
    simp only [Effect.renamed, Effect.apply, Channel.id_renamed r h,
      Scope.contains_channels_renamed]
    split
    · rfl
    · exact s.registerChannel_renamed r h
  | declareFlow f => exact s.registerDataFlow_renamed r h
  | useFlow f =>
    simp only [Effect.renamed, Effect.apply, DataFlow.id_renamed r h,
      Scope.contains_dataFlows_renamed]
    split
    · rfl
    · exact s.registerDataFlow_renamed r h
  | annotate d => exact s.registerAnnotation_renamed r d.toAnnotation d.id.span
  | addScenario x =>
    have hscenarios : s.scenarios.map (Scenario.renamed r) ++ [x.renamed r] =
        (s.scenarios ++ [x]).map (Scenario.renamed r) := by rw [List.map_append, List.map_singleton]
    exact congrArg (fun scenarios => { s.renamed r with scenarios }) hscenarios
  | openBody path head => exact s.openBody_renamed r head.id.value head.id.span
  | closeBody path head => exact s.closeBody_renamed r head.id.value head.name.value

/-! ## Checks -/

theorem actor_renamed (s : Scope) (ref : Spanned Ident) :
    Elaboration.actor (s.renamed r) (ref.map r.name) =
      ((Elaboration.actor s ref).map (Actor.renamed r)).mapError (Violation.renamed r) := by
  unfold Elaboration.actor
  rw [Spanned.map_value, Scope.get?_actors_renamed, Scope.contains_containers_renamed]
  cases s.actors.get? ref.value with
  | some a => rfl
  | none => cases s.containers.contains ref.value <;> rfl

theorem rivals_renamed (what : DefinitionKind) (id : Ident) :
    what.rivals (r.name id) = (what.rivals id).map r.member := by cases what <;> rfl

theorem checkNew_renamed (policy : Redeclaration) (s : Scope) (what : DefinitionKind)
    (ref : Spanned Ident) (members : List Member) :
    Elaboration.checkNew policy (s.renamed r) what (ref.map r.name) (members.map r.member) =
      (Elaboration.checkNew policy s what ref members).mapError (Violation.renamed r) := by
  cases policy with
  | replace => rfl
  | reject =>
    have hfirst : (members.map r.member).findSome? (s.renamed r).firstDefined.get? =
        members.findSome? s.firstDefined.get? := by
      rw [List.findSome?_map]
      congr 1
      funext m
      exact s.get?_firstDefined_renamed r m
    unfold Elaboration.checkNew
    simp only [hfirst]
    cases members.findSome? s.firstDefined.get? <;> rfl

/-- A check has the same outcome under the new names. -/
theorem Check.test_renamed {c : Check} (h : (Act.check c).Worded) (policy : Redeclaration)
    (s : Scope) :
    (c.renamed r).test policy (s.renamed r) = (c.test policy s).mapError (Violation.renamed r) := by
  cases c with
  | known ref =>
    simp only [Check.renamed, Check.test, actor_renamed]
    cases Elaboration.actor s ref <;> rfl
  | active role ref =>
    simp only [Check.renamed, Check.test, actor_renamed]
    cases Elaboration.actor s ref with
    | error w => rfl
    | ok a =>
      obtain ⟨id, kind, _⟩ := a
      cases kind <;> rfl
  | store role ref =>
    simp only [Check.renamed, Check.test, actor_renamed]
    cases Elaboration.actor s ref with
    | error w => rfl
    | ok a =>
      obtain ⟨id, kind, _⟩ := a
      cases kind <;> rfl
  | requested requester responder step =>
    simp only [Check.renamed, Check.test]
    rw [← r.id_channelId .requestResponse h responder, Scope.contains_channels_renamed]
    split <;> rfl
  | unused what ref =>
    simp only [Check.renamed, Check.test, Spanned.map_value, rivals_renamed]
    exact checkNew_renamed r policy s what ref _

/-- The renamed acts on the renamed scope give the renamed scope or the renamed violation. -/
theorem perform_renamed (policy : Redeclaration) {acts : List Act} (h : ∀ a ∈ acts, a.Worded)
    (s : Scope) :
    perform policy (acts.map (Act.renamed r)) (s.renamed r) =
      match perform policy acts s with
      | .ok s' => .ok (s'.renamed r)
      | .error w => .error (w.renamed r) :=
  perform_along (fun _ => rfl) (fun _ => rfl)
    (fun _ s hc => Check.test_renamed r (h _ hc) policy s)
    (fun _ s he => Effect.apply_renamed r (h _ he) s) s

/-! ## Models -/

/-- Where every relationship stands under its own id, before and after, the model goes along. -/
theorem Scope.toModel_renamed {s : Scope} (h : s.Keyed) (h' : (s.renamed r).Keyed) :
    (s.renamed r).toModel = s.toModel.renamed r := by
  have hactors : (s.renamed r).toModel.actors = s.toModel.actors.map (Actor.renamed r) := by
    simp only [toModel, renamed, Table.values_rename, List.map_map]
    refine List.map_congr_left fun a _ => ?_
    exact congrArg (a.renamed r).withContainer (s.parent?_renamed r ⟨.actor, a.id⟩)
  have hchannels : (s.renamed r).toModel.channels = s.toModel.channels.map (Channel.renamed r) := by
    simp only [toModel, renamed, Table.values_rename, List.map_map]
    refine List.map_congr_left fun c hc => ?_
    have hid : (c.renamed r).id = r.id .channel c.id :=
      h.channels.id_rename (r.id_injective .channel) _ h'.channels hc
    have hparent := s.parent?_renamed r ⟨.channel, c.id⟩
    rw [Renaming.member, ← hid] at hparent
    exact congrArg (c.renamed r).withContainer hparent
  have hflows : (s.renamed r).toModel.dataFlows = s.toModel.dataFlows.map (DataFlow.renamed r) := by
    simp only [toModel, renamed, Table.values_rename, List.map_map]
    refine List.map_congr_left fun f hf => ?_
    have hid : (f.renamed r).id = r.id .dataFlow f.id :=
      h.dataFlows.id_rename (r.id_injective .dataFlow) _ h'.dataFlows hf
    have hparent := s.parent?_renamed r ⟨.dataFlow, f.id⟩
    rw [Renaming.member, ← hid] at hparent
    exact congrArg (f.renamed r).withContainer hparent
  have hannotations : (s.renamed r).toModel.annotations =
      s.toModel.annotations.rename r.name_injective fun a => a.renamed r := by
    simp only [toModel]
    refine s.annotations.mapValues_rename r.name_injective (fun a => a.renamed r) fun id a => ?_
    exact congrArg (a.renamed r).withContainer (s.parent?_renamed r ⟨MemberKind.annotation, id⟩)
  have hcontainers : (s.renamed r).toModel.containers =
      s.toModel.containers.rename r.name_injective (Container.renamed r) := by
    simp only [toModel]
    refine s.containers.mapValues_rename r.name_injective (Container.renamed r) fun id c => ?_
    have hmembers : (c.members.renamed r).filter
        (fun x => decide ((s.renamed r).parent? x = some (r.name id))) =
        (c.members.filter fun x => decide (s.parent? x = some id)).renamed r := by
      refine Members.filter_renamed r c.members fun x => ?_
      rw [s.parent?_renamed r x, ← Option.map_some]
      simp only [(Option.map_injective r.name_injective).eq_iff]
    exact congrArg₂ (Container.mk (r.name id) c.name) hmembers
      (s.parent?_renamed r ⟨.container, id⟩)
  unfold SystemModel.renamed
  rw [← hactors, ← hchannels, ← hflows, ← hannotations, ← hcontainers]
  rfl

theorem offered_renamed (annotations : Table Ident Annotation) (refs : List Ident) :
    SystemModel.offered (annotations.rename r.name_injective fun a => a.renamed r)
      (refs.map r.name) = SystemModel.offered annotations refs := by
  unfold SystemModel.offered
  rw [List.flatMap_map]
  congr 1
  funext ref
  unfold SystemModel.offeredBy
  rw [Table.get?_rename]
  cases annotations.get? ref <;> rfl

theorem SystemModel.resolveAnnotations_renamed (m : SystemModel) :
    (m.renamed r).resolveAnnotations = m.resolveAnnotations.renamed r := by
  unfold resolveAnnotations renamed
  simp only [List.map_map]
  congr 1
  refine List.map_congr_left fun a _ => ?_
  simp only [Function.comp_apply, resolveActor_eq]
  rw [show (a.renamed r).annotations = a.annotations.map r.name from rfl, offered_renamed]
  rfl

/-! ## Programs -/

/-- A renamed program has the renamed model, or the renamed violation. -/
theorem Program.elaborate_renamed_eq (options : ElaborationOptions) {p : Program}
    (h : p.WellNamed) :
    (p.renamed r).elaborate options =
      match p.elaborate options with
      | .ok m => .ok (m.renamed r)
      | .error w => .error (w.renamed r) := by
  have hwalk := perform_renamed r options.redeclaration h.worded .empty
  rw [show Scope.empty.renamed r = .empty from rfl, Program.visits, ← acts_renamed r h] at hwalk
  rw [Program.elaborate_eq_perform, Program.elaborate_eq_perform, Program.visits, Program.renamed,
    hwalk, ← Program.visits]
  cases hrun : perform options.redeclaration (p.visits.map Visit.act) .empty with
  | error w => rfl
  | ok s =>
    have hkeyed := Scope.keyed_empty.perform hrun
    rw [Program.visits] at hrun
    rw [hrun] at hwalk
    have hkeyed' := Scope.keyed_empty.perform hwalk
    simp only [Except.map, Scope.toModel_renamed r hkeyed hkeyed',
      SystemModel.resolveAnnotations_renamed]
    cases options.resolveAnnotations <;> rfl

/-- A relationship of a model is known under its new ends as it was under the old ones. -/
theorem Program.ids_renamed {p : Program} (h : p.WellNamed) {options : ElaborationOptions}
    {m : SystemModel} (hm : p.elaborate options = .ok m) :
    (∀ c ∈ m.channels, r.id .channel c.id = (c.renamed r).id) ∧
      ∀ f ∈ m.dataFlows, r.id .dataFlow f.id = (f.renamed r).id := by
  have hchannels := (Program.forall_channels_iff h hm fun c => IsWord c.2.1).2
    fun x hx => h.isWord_channel_source _ (List.mem_map_of_mem hx)
  have hflows := (Program.forall_dataFlows_iff h hm fun f => IsWord f.2.1).2
    fun x hx => h.isWord_flow_source _ (List.mem_map_of_mem hx)
  exact ⟨fun c hc => (Channel.id_renamed r (hchannels c hc)).symm,
    fun f hf => (DataFlow.id_renamed r (hflows f hf)).symm⟩

/-- However identifiers are spelled, a program is elaborated alike. With new names it succeeds
exactly when it does with the old ones. Its model is then the old model with every name replaced,
and with the new ends in the id of every channel and data flow. It fails with the same code at the
same places, and with the same help where no request is missing. -/
theorem elaborate_renamed (r : Renaming) {p : Program} (h : p.WellNamed)
    (options : ElaborationOptions) :
    ((∃ m, (p.renamed r).elaborate options = .ok m) ↔ ∃ m, p.elaborate options = .ok m) ∧
      (∀ m, p.elaborate options = .ok m →
        (p.renamed r).elaborate options = .ok (m.renamed r) ∧
        (∀ c ∈ m.channels, r.id .channel c.id = (c.renamed r).id) ∧
        ∀ f ∈ m.dataFlows, r.id .dataFlow f.id = (f.renamed r).id) ∧
      ∀ w w', p.elaborate options = .error w → (p.renamed r).elaborate options = .error w' →
        w'.diagnostic.code = w.diagnostic.code ∧ w'.diagnostic.labels = w.diagnostic.labels ∧
          (w.diagnostic.code ≠ some .missingRequest → w'.diagnostic.help = w.diagnostic.help) := by
  have heq := Program.elaborate_renamed_eq r options h
  refine ⟨?_, fun m hm => ⟨?_, Program.ids_renamed r h hm⟩, fun w w' hw hw' => ?_⟩
  · rw [heq]
    cases p.elaborate options <;> simp
  · rw [heq, hm]
  · rw [heq, hw] at hw'
    cases hw'
    exact w.diagnostic_renamed r

/-- The names of an actor and of a container trade places with two words that derived ids use. -/
def tradedWithKinds : Renaming where
  map x := Equiv.swap ⟨"a", by decide +kernel⟩ ⟨"async", by decide +kernel⟩
    (Equiv.swap ⟨"c", by decide +kernel⟩ ⟨"read", by decide +kernel⟩ x)
  injective := (Equiv.injective _).comp (Equiv.injective _)

/-- A container with an actor, a store, a data flow and a channel, and a scenario over the two. -/
def askedInGroup : Program :=
  [unplaced (.container ⟨unplaced "C", unplaced "c"⟩
      [unplaced (.actor ⟨unplaced .agent, unplaced "A", unplaced "a", [unplaced "X"]⟩),
        unplaced (.actor ⟨unplaced .store, unplaced "S", unplaced "s", []⟩),
        unplaced (.flow ⟨.read, unplaced "s", unplaced "a"⟩),
        unplaced (.call ⟨.async, unplaced "a", unplaced "a", none⟩)]),
    unplaced (Statement.annotation ⟨unplaced "X", [⟨unplaced .color, unplaced "red"⟩]⟩),
    unplaced (.scenario ⟨unplaced "ask",
      [unplaced (.transfer .read (unplaced "s") (unplaced "a") (unplaced "get")),
        unplaced (.request .async (unplaced "a") (unplaced "a") none)]⟩)]

/-- The same, and then a note on the container. -/
def noteOnAskedGroup : Program :=
  askedInGroup ++ [unplaced (.note ⟨⟨"c", .ofSize 9 1⟩, unplaced "x"⟩)]

/-- The derived ids have the new names and the old kinds; the note fails alike. -/
theorem elaborate_renamed_tradedWithKinds :
    (∃ m, askedInGroup.elaborate .default = .ok m ∧
      (askedInGroup.renamed tradedWithKinds).elaborate .default = .ok (m.renamed tradedWithKinds) ∧
      ((m.renamed tradedWithKinds).containers.values.map fun c => (c.id, c.members)) =
        [("read", ⟨["async", "s"], ["async-async->async"], ["read:s->async"], [], []⟩)] ∧
      ((m.renamed tradedWithKinds).scenarios.flatMap fun x => x.steps.map Step.relation) =
        ["read:s->async", "async-async->async"]) ∧
    ∃ w w', noteOnAskedGroup.elaborate .default = .error w ∧
      (noteOnAskedGroup.renamed tradedWithKinds).elaborate .default = .error w' ∧
      w.message = "`c` is a container, not an actor" ∧
      w'.message = "`read` is a container, not an actor" ∧
      w'.diagnostic.labels = w.diagnostic.labels := by
  constructor
  · have hnamed : askedInGroup.WellNamed := by decide +kernel
    have hm : (askedInGroup.elaborate .default).toOption.map (fun m =>
        ((m.renamed tradedWithKinds).containers.values.map fun c => (c.id, c.members),
          (m.renamed tradedWithKinds).scenarios.flatMap fun x => x.steps.map Step.relation)) =
        some ([("read", ⟨["async", "s"], ["async-async->async"], ["read:s->async"], [], []⟩)],
          ["read:s->async", "async-async->async"]) := by decide +kernel
    obtain ⟨m, h, hids⟩ := exists_ok_of_toOption hm
    obtain ⟨hcontainers, hsteps⟩ := Prod.mk.inj hids
    have hrenamed := ((elaborate_renamed tradedWithKinds hnamed .default).2.1 m h).1
    exact ⟨m, h, hrenamed, hcontainers, hsteps⟩
  · have hnamed : noteOnAskedGroup.WellNamed := by decide +kernel
    have hw : noteOnAskedGroup.elaborate .default =
        .error (.containerAsActor ⟨"c", .ofSize 9 1⟩) := rfl
    have hw' : (noteOnAskedGroup.renamed tradedWithKinds).elaborate .default =
        .error (.containerAsActor ⟨"read", .ofSize 9 1⟩) := rfl
    obtain ⟨_, hlabels, _⟩ :=
      (elaborate_renamed tradedWithKinds hnamed .default).2.2 _ _ hw hw'
    exact ⟨_, _, hw, hw', by decide +kernel, by decide +kernel, hlabels⟩

end ArchScript
