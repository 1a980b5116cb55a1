/-
  The references of a model lead somewhere.

  A step holds only the derived id of its relationship, and a relationship only the ids of
  its ends. `compile_references` says that every one of them finds its entity in the model,
  and the right one: the scenarios are those of the source, step by step
  (`SystemModel.Realizes`), and no two entities of a kind share an id.
-/
import ArchScript.Proofs.Relationships.Types
import Mathlib.Data.List.Forall2

namespace ArchScript

/-! ## Steps -/

/-- What a step says: its message, or `--` without one or with an empty one. -/
def spokenMessage : Option (Spanned String) → String
  | some text => if text.value = "" then "--" else text.value
  | none => "--"

/-- A step of the model is a step of a program: it has its kind and message, and its relation
is the id of a relationship with the kind and ends of the step. A response uses the channel
of its request. -/
def SystemModel.Realizes (m : SystemModel) (step : Step) : StepDecl → Prop
  | .request kind source target message =>
    step.kind = .request ∧ step.message = spokenMessage message ∧
      ∃ c, m.channel? step.relation = some c ∧ c.signature = (kind, source.value, target.value)
  | .response requester responder message =>
    step.kind = .response ∧ step.message = spokenMessage message ∧
      ∃ c, m.channel? step.relation = some c ∧
        c.signature = (.requestResponse, requester.value, responder.value)
  | .transfer kind left right message =>
    step.kind = .ofFlow kind ∧ step.message = spokenMessage (some message) ∧
      ∃ f, m.dataFlow? step.relation = some f ∧ f.signature = (kind, left.value, right.value)

theorem message_withMessage (kind : StepKind) (relation : Ident)
    (message : Option (Spanned String)) :
    (Step.withMessage kind relation (Elaboration.textOrEmpty message)).message =
      spokenMessage message := by
  cases message with
  | none => rfl
  | some text =>
    simp only [Step.withMessage, Elaboration.textOrEmpty, spokenMessage, Step.silence,
      String.isEmpty_iff]

theorem Effect.channel?_eq (e : Effect) : e.channel? = e.channelMention?.map Mention.value := by
  cases e <;> rfl

namespace Program

variable {p : Program} {options : ElaborationOptions} {m : SystemModel}

/-- The scenarios of a model are those of its program. -/
theorem scenarios_eq (h : p.elaborate options = .ok m) :
    m.scenarios = p.scenarios.map ScenarioDef.toScenario := by
  obtain ⟨s, hs, hmodel⟩ := exists_scope h
  have hscenarios : m.scenarios = s.scenarios := by
    rw [hmodel]
    split <;> rfl
  rw [hscenarios, perform_fold Effect.scenarios_apply hs, scenarios_visits,
    List.foldl_append_eq_append]
  exact List.flatMap_singleton' _

/-- A channel that is mentioned is found under its id. -/
theorem channel?_of_mention (hn : p.WellNamed) (h : p.elaborate options = .ok m)
    {x : Mention Channel} (hx : x ∈ p.channelMentions) {kind : ChannelKind} {a b : Ident}
    (hends : x.value.signature = (kind, a, b)) :
    ∃ c, m.channel? (channelId kind a b) = some c ∧ c.signature = (kind, a, b) := by
  have hmem : (kind, a, b) ∈ m.channels.map Channel.signature := by
    rw [signatures_channels hn h, List.mem_eraseDups, ← hends]
    exact List.mem_map_of_mem hx
  obtain ⟨c, hc, hsignature⟩ := List.mem_map.1 hmem
  refine ⟨c, (find?_id_iff (nodup_channel_ids h)).2 ⟨hc, ?_⟩, hsignature⟩
  rw [← Channel.id_eq, hsignature]
  rfl

theorem dataFlow?_of_mention (hn : p.WellNamed) (h : p.elaborate options = .ok m)
    {x : Mention DataFlow} (hx : x ∈ p.flowMentions) {kind : FlowKind} {a b : Ident}
    (hends : x.value.signature = (kind, a, b)) :
    ∃ f, m.dataFlow? (flowId kind a b) = some f ∧ f.signature = (kind, a, b) := by
  have hmem : (kind, a, b) ∈ m.dataFlows.map DataFlow.signature := by
    rw [signatures_dataFlows hn h, List.mem_eraseDups, ← hends]
    exact List.mem_map_of_mem hx
  obtain ⟨f, hf, hsignature⟩ := List.mem_map.1 hmem
  refine ⟨f, (find?_id_iff (nodup_dataFlow_ids h)).2 ⟨hf, ?_⟩, hsignature⟩
  rw [← DataFlow.id_eq, hsignature]
  rfl

theorem mem_leaves_of_scenario {d : ScenarioDef} (hd : d ∈ p.scenarios) :
    .scenario d ∈ leavesOf p := by
  obtain ⟨x, hx, hd⟩ := List.mem_filterMap.1 hd
  cases x with
  | scenario d' =>
    cases hd
    exact hx
  | _ => cases hd

/-- A response follows a call or request with its ends. -/
theorem mention_of_response {policy : Redeclaration} {s : Scope}
    (h : Passed policy [] p.visits s) {d : ScenarioDef} (hd : d ∈ p.scenarios)
    {x : Spanned StepDecl} (hx : x ∈ d.steps) {a b : Spanned Ident}
    {message : Option (Spanned String)} (hvalue : x.value = .response a b message) :
    ∃ y ∈ p.channelMentions, y.value.signature = (.requestResponse, a.value, b.value) := by
  have hact : .check (.requested a.value b.value x.span) ∈ p.visits.map Visit.act := by
    refine mem_acts_visits (mem_leaves_of_scenario hd) (List.mem_append_left _ ?_)
    refine List.mem_flatMap.2 ⟨x, hx, ?_⟩
    rw [stepActs, hvalue]
    exact List.mem_append_right _ (List.mem_singleton.2 rfl)
  obtain ⟨⟨body, act⟩, hv, hact⟩ := List.mem_map.1 hact
  cases hact
  obtain ⟨before, after, hvisits⟩ := List.append_of_mem hv
  have hrequested : requestedIn before a.value b.value = true :=
    h.holds before body _ after hvisits
  obtain ⟨v, hv, hrequests⟩ := List.any_eq_true.1 hrequested
  unfold Visit.requests at hrequests
  split at hrequests
  · cases hrequests
  · next e he =>
    rw [Effect.channel?_eq, Option.any_map, Option.any_eq_true] at hrequests
    obtain ⟨y, hy, hends⟩ := hrequests
    refine ⟨y, mem_channelMentions_iff.2 ⟨v, ?_, e, he, hy⟩, ?_⟩
    · rw [hvisits]
      exact List.mem_append_left _ hv
    · simp only [Bool.and_eq_true, decide_eq_true_eq] at hends
      obtain ⟨⟨hkind, hsource⟩, htarget⟩ := hends
      rw [Channel.signature, hkind, hsource, htarget]

/-- Every step of a scenario finds its relationship. -/
theorem realizes_toStep (hn : p.WellNamed) (h : p.elaborate options = .ok m) {d : ScenarioDef}
    (hd : d ∈ p.scenarios) {x : Spanned StepDecl} (hx : x ∈ d.steps) :
    m.Realizes x.value.toStep x.value := by
  have hleaf := mem_leaves_of_scenario hd
  cases hvalue : x.value with
  | request kind source target message =>
    have hmention : .uses (.declared kind source.value target.value "") ∈ p.channelMentions := by
      refine List.mem_flatMap.2 ⟨_, hleaf, List.mem_map_of_mem (List.mem_filterMap.2 ⟨x, hx, ?_⟩)⟩
      rw [hvalue]
      rfl
    exact ⟨rfl, message_withMessage _ _ message, channel?_of_mention hn h hmention rfl⟩
  | response requester responder message =>
    obtain ⟨s, hs, _⟩ := exists_scope h
    obtain ⟨y, hy, hsignature⟩ := mention_of_response (hn.passed hs) hd hx hvalue
    exact ⟨rfl, message_withMessage _ _ message, channel?_of_mention hn h hy hsignature⟩
  | transfer kind left right message =>
    have hmention : .uses (.declared kind left.value right.value) ∈ p.flowMentions := by
      refine List.mem_flatMap.2 ⟨_, hleaf, List.mem_map_of_mem (List.mem_filterMap.2 ⟨x, hx, ?_⟩)⟩
      rw [hvalue]
      rfl
    exact ⟨rfl, message_withMessage _ _ (some message), dataFlow?_of_mention hn h hmention rfl⟩

/-! ## Ends -/

/-- The ends of a relationship that is mentioned are actors of the model. -/
theorem kind?_of_mentioned (hn : p.WellNamed) (h : p.elaborate options = .ok m) {v : Visit}
    (hv : v ∈ p.visits) {e : Effect} (he : v.act = .effect e) :
    ∃ kinds, e.Typed kinds ∧ ∀ x j, kinds x = some j → ∃ a, m.actor? x = some a := by
  obtain ⟨s, hs, _⟩ := exists_scope h
  obtain ⟨body, act⟩ := v
  cases he
  obtain ⟨before, after, hvisits⟩ := List.append_of_mem hv
  refine ⟨kindOf before, typed_where_mentioned (hn.passed hs) hvisits, fun x j hj => ?_⟩
  obtain ⟨k, hk⟩ := kindOf_append (⟨body, .effect e⟩ :: after) hj
  rw [← hvisits, ← kind?_eq hn h] at hk
  obtain ⟨a, ha, _⟩ := Option.map_eq_some_iff.1 hk
  exact ⟨a, ha⟩

theorem channel_ends (hn : p.WellNamed) (h : p.elaborate options = .ok m) :
    ∀ c ∈ m.channels, (∃ a, m.actor? c.source = some a) ∧ ∃ b, m.actor? c.target = some b := by
  refine (forall_channels_iff hn h fun x =>
    (∃ a, m.actor? x.2.1 = some a) ∧ ∃ b, m.actor? x.2.2 = some b).2 fun x hx => ?_
  obtain ⟨v, hv, e, he, hmention⟩ := mem_channelMentions_iff.1 hx
  obtain ⟨kinds, htyped, hknown⟩ := kind?_of_mentioned hn h hv he
  obtain ⟨⟨j, hj, _⟩, k, hk, _⟩ := ((Effect.typed_iff_mentions e).1 htyped).1 x hmention
  exact ⟨hknown _ j hj, hknown _ k hk⟩

theorem dataFlow_ends (hn : p.WellNamed) (h : p.elaborate options = .ok m) :
    ∀ f ∈ m.dataFlows, (∃ a, m.actor? f.source = some a) ∧ ∃ b, m.actor? f.target = some b := by
  refine (forall_dataFlows_iff hn h fun x =>
    (∃ a, m.actor? x.2.1 = some a) ∧ ∃ b, m.actor? x.2.2 = some b).2 fun x hx => ?_
  obtain ⟨v, hv, e, he, hmention⟩ := mem_flowMentions_iff.1 hx
  obtain ⟨kinds, htyped, hknown⟩ := kind?_of_mentioned hn h hv he
  obtain ⟨⟨j, hj, _⟩, k, hk, _⟩ := ((Effect.typed_iff_mentions e).1 htyped).2 x hmention
  -- the actor is the source of a write and the target of a read
  unfold DataFlow.actor at hj
  unfold DataFlow.store at hk
  cases hkind : x.value.kind with
  | write =>
    rw [hkind] at hj hk
    exact ⟨hknown _ j hj, hknown _ k hk⟩
  | read =>
    rw [hkind] at hj hk
    exact ⟨hknown _ k hk, hknown _ j hj⟩

theorem keyed_annotations (h : p.elaborate options = .ok m) :
    m.annotations.Keyed Annotation.id := by
  obtain ⟨s, hs, hmodel⟩ := exists_scope h
  have hannotations : m.annotations = s.toModel.annotations := by
    rw [hmodel]
    split <;> rfl
  intro id x hx
  rw [hannotations, Scope.toModel, Table.get?_mapValues] at hx
  obtain ⟨y, hy, rfl⟩ := Option.map_eq_some_iff.1 hx
  exact (records_program hs).keyed.annotations id y hy

end Program

/-! ## Sources -/

/-- In the model of a source every reference finds what it means. The scenarios are those of
the source in its order, with their names, and each step is the step at its place
(`SystemModel.Realizes`). The ends of channels and data flows are actors. No id of a kind
repeats, and annotations and containers stand under their own ids. -/
theorem compile_references {options : ElaborationOptions} {source : String} {m : SystemModel}
    (h : compile options source = .ok m) :
    (∃ lexemes p, tokenize source = .ok lexemes ∧
      Program.ofTokens (meaningful lexemes) = .ok p ∧
      List.Forall₂ (fun x d => x.name = d.name.value ∧
        List.Forall₂ (fun step y => m.Realizes step y.value) x.steps d.steps)
        m.scenarios p.scenarios) ∧
    (∀ c ∈ m.channels, (∃ a, m.actor? c.source = some a) ∧ ∃ b, m.actor? c.target = some b) ∧
    (∀ f ∈ m.dataFlows, (∃ a, m.actor? f.source = some a) ∧ ∃ b, m.actor? f.target = some b) ∧
    (m.actors.map Actor.id).Nodup ∧ (m.channels.map Channel.id).Nodup ∧
    (m.dataFlows.map DataFlow.id).Nodup ∧
    m.annotations.Keyed Annotation.id ∧ m.containers.Keyed Container.id := by
  obtain ⟨lexemes, p, ht, hp, hm⟩ := compile_eq_ok_iff.1 h
  have hn := wellNamed_of_source ht hp
  refine ⟨⟨lexemes, p, ht, hp, ?_⟩, Program.channel_ends hn hm, Program.dataFlow_ends hn hm,
    Program.nodup_actor_ids hm, Program.nodup_channel_ids hm, Program.nodup_dataFlow_ids hm,
    Program.keyed_annotations hm, (Program.consistent hm).keyed⟩
  rw [Program.scenarios_eq hm, List.forall₂_map_left_iff, List.forall₂_same]
  intro d hd
  refine ⟨rfl, ?_⟩
  show List.Forall₂ _ (d.steps.map fun x => x.value.toStep) d.steps
  rw [List.forall₂_map_left_iff, List.forall₂_same]
  exact fun x hx => Program.realizes_toStep hn hm hd hx

/-- A source with a scenario in a container, whose channel is declared again by a call. -/
def askedInside : String :=
  "agent 'A' as a; store 'S' as s;
   container 'C' as c \x7b 'inner' \x7b a -('ask')-> a a --()--< a a -''-> s \x7d \x7d;
   a -('again')-> a;
   'outer' \x7b s <-'get'- a; \x7d;"

/-- The scenarios stand in source order, and silent steps say `--`. -/
theorem compile_references_askedInside :
    ∃ m, compile .default askedInside = .ok m ∧
      (m.scenarios.map fun x => (x.name, x.steps.map Step.message)) =
        [("inner", ["ask", "--", "--"]), ("outer", ["get"])] ∧
      (∃ lexemes p, tokenize askedInside = .ok lexemes ∧
        Program.ofTokens (meaningful lexemes) = .ok p ∧
        List.Forall₂ (fun x d => x.name = d.name.value ∧
          List.Forall₂ (fun step y => m.Realizes step y.value) x.steps d.steps)
          m.scenarios p.scenarios) ∧
      m.containers.Keyed Container.id := by
  have hm : (compile .default askedInside).toOption.map
      (fun m => m.scenarios.map fun x => (x.name, x.steps.map Step.message)) =
      some [("inner", ["ask", "--", "--"]), ("outer", ["get"])] := by decide +kernel
  obtain ⟨m, h, hscenarios⟩ := exists_ok_of_toOption hm
  obtain ⟨hrealized, _, _, _, _, _, _, hcontainers⟩ := compile_references h
  exact ⟨m, h, hscenarios, hrealized, hcontainers⟩

end ArchScript
