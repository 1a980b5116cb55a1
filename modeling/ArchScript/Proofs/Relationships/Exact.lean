/-
  The channels and data flows of a model, read off its program.

  A relationship is known by its signature: its kind and its ends. A model has one channel
  for every signature that a call or request mentions and one data flow for every signature
  of a flow or transfer, in the order of the first mentions; the text of a channel is that of
  the last call (`elaborate_relationships`). A step moves and changes nothing that is there
  (`elaborateStep_keeps`).
-/
import ArchScript.Proofs.Compile
import ArchScript.Proofs.Containment.Places
import ArchScript.Proofs.Relationships.Statements

namespace ArchScript

/-! ## Signatures -/

/-- The kind and the ends of a channel. -/
def Channel.signature (c : Channel) : ChannelKind × Ident × Ident := (c.kind, c.source, c.target)

/-- The kind and the ends of a data flow. -/
def DataFlow.signature (f : DataFlow) : FlowKind × Ident × Ident := (f.kind, f.source, f.target)

/-- The id of a channel with a signature. -/
def channelIdOf (x : ChannelKind × Ident × Ident) : Ident := channelId x.1 x.2.1 x.2.2

/-- The id of a data flow with a signature. -/
def flowIdOf (x : FlowKind × Ident × Ident) : Ident := flowId x.1 x.2.1 x.2.2

theorem Channel.id_eq (c : Channel) : channelIdOf c.signature = c.id := rfl

theorem DataFlow.id_eq (f : DataFlow) : flowIdOf f.signature = f.id := rfl

/-- The text of the last call with a signature; empty if there is no such call. -/
def Program.lastText (p : Program) (signature : ChannelKind × Ident × Ident) : String :=
  match (Mention.declaredUnder Channel.signature signature p.channelMentions).getLast? with
  | some c => c.text
  | none => ""

theorem Channel.signature_eq_of_id_eq {c d : Channel} (hc : IsWord c.source) (hd : IsWord d.source)
    (h : c.id = d.id) : c.signature = d.signature := by
  obtain ⟨hkind, hsource, htarget⟩ := channelId_inj hc hd h
  unfold signature
  rw [hkind, hsource, htarget]

theorem DataFlow.signature_eq_of_id_eq {f g : DataFlow} (hf : IsWord f.source)
    (hg : IsWord g.source) (h : f.id = g.id) : f.signature = g.signature := by
  obtain ⟨hkind, hsource, htarget⟩ := flowId_inj hf hg h
  unfold signature
  rw [hkind, hsource, htarget]

/-! ## Sources are names -/

theorem StepDecl.source_mem_names {x : StepDecl} {c : Channel} (h : x.channel? = some c) :
    c.source ∈ x.names := by
  cases x with
  | request kind source target message =>
    cases h
    exact List.mem_cons_self
  | response requester responder message => cases h
  | transfer kind left right message => cases h

theorem StepDecl.flow_source_mem_names {x : StepDecl} {f : DataFlow} (h : x.flow? = some f) :
    f.source ∈ x.names := by
  cases x with
  | request kind source target message => cases h
  | response requester responder message => cases h
  | transfer kind left right message =>
    cases h
    exact List.mem_cons_self

theorem Statement.source_mem_names {x : Statement} {m : Mention Channel}
    (h : m ∈ x.channelMentions) : m.value.source ∈ x.names := by
  cases x with
  | call d =>
    rw [List.mem_singleton.1 h]
    exact List.mem_cons_self
  | scenario d =>
    obtain ⟨c, hc, rfl⟩ := List.mem_map.1 h
    obtain ⟨x, hx, hc⟩ := List.mem_filterMap.1 hc
    exact List.mem_flatMap.2 ⟨x, hx, StepDecl.source_mem_names hc⟩
  | _ => cases h

theorem Statement.flow_source_mem_names {x : Statement} {m : Mention DataFlow}
    (h : m ∈ x.flowMentions) : m.value.source ∈ x.names := by
  cases x with
  | flow d =>
    rw [List.mem_singleton.1 h]
    exact List.mem_cons_self
  | scenario d =>
    obtain ⟨f, hf, rfl⟩ := List.mem_map.1 h
    obtain ⟨x, hx, hf⟩ := List.mem_filterMap.1 hf
    exact List.mem_flatMap.2 ⟨x, hx, StepDecl.flow_source_mem_names hf⟩
  | _ => cases h

/-- The names of the statements inside containers are names of the program. -/
theorem names_leaves_subset {xs : List (Spanned Statement)} {x : Statement}
    (hx : x ∈ leavesOf xs) : x.names ⊆ namesOf xs := by
  induction xs using Program.induction with
  | nil => cases hx
  | flat y span xs hy ih =>
    rw [leavesOf_flat hy] at hx
    rw [namesOf]
    rcases List.mem_cons.1 hx with rfl | hx
    · exact List.subset_append_left _ _
    · exact List.Subset.trans (ih hx) (List.subset_append_right _ _)
  | container head inner span xs ih₁ ih₂ =>
    rw [leavesOf, Statement.leaves] at hx
    rw [namesOf, Statement.names]
    rcases List.mem_append.1 hx with hx | hx
    · have hbody : namesOf inner ⊆ head.id.value :: namesOf inner ++ namesOf xs :=
        fun x hx => List.mem_append_left _ (List.mem_cons_of_mem _ hx)
      exact List.Subset.trans (ih₁ hx) hbody
    · exact List.Subset.trans (ih₂ hx) (List.subset_append_right _ _)

namespace Program.WellNamed

variable {p : Program}

theorem isWord_channel_source (h : p.WellNamed) :
    ∀ c ∈ p.channelMentions.map Mention.value, IsWord c.source := by
  intro c hc
  obtain ⟨m, hm, rfl⟩ := List.mem_map.1 hc
  obtain ⟨x, hx, hm⟩ := List.mem_flatMap.1 hm
  exact h _ (names_leaves_subset hx (Statement.source_mem_names hm))

theorem isWord_flow_source (h : p.WellNamed) :
    ∀ f ∈ p.flowMentions.map Mention.value, IsWord f.source := by
  intro f hf
  obtain ⟨m, hm, rfl⟩ := List.mem_map.1 hf
  obtain ⟨x, hx, hm⟩ := List.mem_flatMap.1 hm
  exact h _ (names_leaves_subset hx (Statement.flow_source_mem_names hm))

end Program.WellNamed

/-! ## Channels and data flows of a model -/

/-- The tables of relationships at the end of a walk are what is left of its mentions. -/
theorem Program.channels_perform {policy : Redeclaration} {p : Program} {s : Scope}
    (h : perform policy (p.visits.map Visit.act) .empty = .ok s) :
    s.channels = p.channelMentions.foldl (Table.mention Channel.id) .empty := by
  rw [perform_fold Effect.channels_apply h, channelMentions_visits]
  rfl

theorem Program.dataFlows_perform {policy : Redeclaration} {p : Program} {s : Scope}
    (h : perform policy (p.visits.map Visit.act) .empty = .ok s) :
    s.dataFlows = p.flowMentions.foldl (Table.mention DataFlow.id) .empty := by
  rw [perform_fold Effect.dataFlows_apply h, flowMentions_visits]
  rfl

/-- A step uses a channel without a text. -/
theorem Program.text_of_uses {p : Program} {c : Channel} (h : .uses c ∈ p.channelMentions) :
    c.text = "" := by
  obtain ⟨x, _, hm⟩ := List.mem_flatMap.1 h
  cases x with
  | scenario d =>
    obtain ⟨_, hc, e⟩ := List.mem_map.1 hm
    cases e
    obtain ⟨⟨y, span⟩, _, hy⟩ := List.mem_filterMap.1 hc
    cases y <;> cases hy
    rfl
  | call d => cases List.mem_singleton.1 hm
  | _ => cases hm

theorem Program.signatures_channels {p : Program} (h : p.WellNamed) {m : SystemModel}
    {options : ElaborationOptions} (hm : p.elaborate options = .ok m) :
    m.channels.map Channel.signature =
      (p.channelMentions.map fun x => x.value.signature).eraseDups := by
  obtain ⟨s, hs, hmodel⟩ := exists_scope hm
  have hchannels : m.channels.map Channel.signature = s.channels.values.map Channel.signature := by
    rw [hmodel]
    split <;> simp only [SystemModel.resolveAnnotations, Scope.toModel, List.map_map] <;> rfl
  rw [hchannels, channels_perform hs]
  refine Table.map_values_foldl_mention channelIdOf Channel.id_eq fun c hc d hd e => ?_
  exact Channel.signature_eq_of_id_eq (h.isWord_channel_source c hc)
    (h.isWord_channel_source d hd) e

theorem Program.signatures_dataFlows {p : Program} (h : p.WellNamed) {m : SystemModel}
    {options : ElaborationOptions} (hm : p.elaborate options = .ok m) :
    m.dataFlows.map DataFlow.signature =
      (p.flowMentions.map fun x => x.value.signature).eraseDups := by
  obtain ⟨s, hs, hmodel⟩ := exists_scope hm
  have hflows : m.dataFlows.map DataFlow.signature =
      s.dataFlows.values.map DataFlow.signature := by
    rw [hmodel]
    split <;> simp only [SystemModel.resolveAnnotations, Scope.toModel, List.map_map] <;> rfl
  rw [hflows, dataFlows_perform hs]
  refine Table.map_values_foldl_mention flowIdOf DataFlow.id_eq fun f hf g hg e => ?_
  exact DataFlow.signature_eq_of_id_eq (h.isWord_flow_source f hf)
    (h.isWord_flow_source g hg) e

/-- Calls of one id are calls of one signature. -/
theorem Program.declaredUnder_id {p : Program} (h : p.WellNamed) {c : Channel}
    (hc : c ∈ p.channelMentions.map Mention.value) :
    Mention.declaredUnder Channel.id c.id p.channelMentions =
      Mention.declaredUnder Channel.signature c.signature p.channelMentions := by
  refine List.filter_congr fun d hd => decide_eq_decide.2 ?_
  obtain ⟨m, hm, hd⟩ := List.mem_filterMap.1 hd
  cases m with
  | uses v => cases hd
  | declares v =>
    cases hd
    have hword := h.isWord_channel_source d (List.mem_map_of_mem hm)
    constructor
    · exact Channel.signature_eq_of_id_eq hword (h.isWord_channel_source c hc)
    · intro e
      rw [← Channel.id_eq, ← Channel.id_eq, e]

theorem Program.text_channel {p : Program} (h : p.WellNamed) {m : SystemModel}
    {options : ElaborationOptions} (hm : p.elaborate options = .ok m) :
    ∀ c ∈ m.channels, c.text = p.lastText c.signature := by
  obtain ⟨s, hs, hmodel⟩ := exists_scope hm
  have hchannels : ∀ c ∈ m.channels, ∃ d ∈ s.channels.values,
      d.text = c.text ∧ d.signature = c.signature := by
    rw [hmodel]
    intro c hc
    have hc : c ∈ s.toModel.channels := by
      split at hc <;> exact hc
    obtain ⟨d, hd, rfl⟩ := List.mem_map.1 hc
    exact ⟨d, hd, rfl, rfl⟩
  intro c hc
  obtain ⟨d, hd, htext, hsignature⟩ := hchannels c hc
  rw [channels_perform hs] at hd
  rw [← htext, ← hsignature, lastText, ← declaredUnder_id h (Table.value_mem_of_mem_values hd)]
  rcases Table.exists_mention_of_mem_values hd with hlast | ⟨hnone, huse⟩
  · rw [hlast]
  · rw [hnone]
    exact text_of_uses huse

/-- What depends on kinds and ends alone holds of all channels when it holds of all calls
and requests. -/
theorem Program.forall_channels_iff {p : Program} (h : p.WellNamed) {m : SystemModel}
    {options : ElaborationOptions} (hm : p.elaborate options = .ok m)
    (Q : ChannelKind × Ident × Ident → Prop) :
    (∀ c ∈ m.channels, Q c.signature) ↔ ∀ x ∈ p.channelMentions, Q x.value.signature := by
  rw [← List.forall_mem_map (P := Q), signatures_channels h hm]
  simp only [List.mem_eraseDups, List.forall_mem_map]

theorem Program.forall_dataFlows_iff {p : Program} (h : p.WellNamed) {m : SystemModel}
    {options : ElaborationOptions} (hm : p.elaborate options = .ok m)
    (Q : FlowKind × Ident × Ident → Prop) :
    (∀ f ∈ m.dataFlows, Q f.signature) ↔ ∀ x ∈ p.flowMentions, Q x.value.signature := by
  rw [← List.forall_mem_map (P := Q), signatures_dataFlows h hm]
  simp only [List.mem_eraseDups, List.forall_mem_map]

/-! ## Steps -/

/-- `s'` has all that `s` has: its relationships as they are and its entities where they
are, in their container or in the open body. -/
structure Scope.Keeps (s s' : Scope) : Prop where
  channels : ∀ id c, s.channels.get? id = some c → s'.channels.get? id = some c
  dataFlows : ∀ id f, s.dataFlows.get? id = some f → s'.dataFlows.get? id = some f
  ids : ∀ m : Member, m.id ∈ s.ids m.kind → m.id ∈ s'.ids m.kind
  parents : ∀ m : Member, m.id ∈ s.ids m.kind → s'.parent? m = s.parent? m
  bodies : ∀ m : Member, m.id ∈ s.ids m.kind →
    (s'.openBodies.map fun body => decide (m ∈ body)) =
      s.openBodies.map fun body => decide (m ∈ body)

namespace Scope

theorem Keeps.refl (s : Scope) : s.Keeps s :=
  ⟨fun _ _ h => h, fun _ _ h => h, fun _ h => h, fun _ _ => rfl, fun _ _ => rfl⟩

theorem Keeps.trans {s₁ s₂ s₃ : Scope} (h : s₁.Keeps s₂) (h' : s₂.Keeps s₃) : s₁.Keeps s₃ where
  channels id c hc := h'.channels id c (h.channels id c hc)
  dataFlows id f hf := h'.dataFlows id f (h.dataFlows id f hf)
  ids m hm := h'.ids m (h.ids m hm)
  parents m hm := (h'.parents m (h.ids m hm)).trans (h.parents m hm)
  bodies m hm := (h'.bodies m (h.ids m hm)).trans (h.bodies m hm)

/-- Only the entity that is moved changes its place. -/
theorem bodies_moveToFront {m n : Member} (h : m ≠ n) (bodies : List (List Member)) :
    ((moveToFront n bodies).map fun body => decide (m ∈ body)) =
      bodies.map fun body => decide (m ∈ body) := by
  unfold moveToFront
  cases bodies with
  | nil => rfl
  | cons body outer => simp [h]

/-- An entity that is new to the scope moves nothing that the scope has. -/
theorem place_moveHere {s : Scope} {m n : Member} (hm : m.id ∈ s.ids m.kind)
    (hn : n.id ∉ s.ids n.kind) : (s.moveHere n).parent? m = s.parent? m ∧
      ((s.moveHere n).openBodies.map fun body => decide (m ∈ body)) =
        s.openBodies.map fun body => decide (m ∈ body) := by
  have hne : m ≠ n := by
    rintro rfl
    exact hn hm
  refine ⟨?_, bodies_moveToFront hne s.openBodies⟩
  rw [Places.parent?_moveHere, if_neg hne]

theorem keeps_registerChannel {s : Scope} {c : Channel} (hc : c.id ∉ s.channels.keys) :
    s.Keeps (s.registerChannel c) where
  channels id d hd := by
    have hne : c.id ≠ id := by
      rintro rfl
      exact hc (Table.mem_keys_iff.2 ⟨d, hd⟩)
    exact (Table.get?_insert s.channels c.id id c).trans ((if_neg hne).trans hd)
  dataFlows id f hf := hf
  ids m hm := (mem_ids_registerChannel s c m).2 (Or.inr hm)
  parents m hm := (place_moveHere (n := ⟨.channel, c.id⟩) hm hc).1
  bodies m hm := (place_moveHere (n := ⟨.channel, c.id⟩) hm hc).2

theorem keeps_registerDataFlow {s : Scope} {f : DataFlow} (hf : f.id ∉ s.dataFlows.keys) :
    s.Keeps (s.registerDataFlow f) where
  channels id c hc := hc
  dataFlows id g hg := by
    have hne : f.id ≠ id := by
      rintro rfl
      exact hf (Table.mem_keys_iff.2 ⟨g, hg⟩)
    exact (Table.get?_insert s.dataFlows f.id id f).trans ((if_neg hne).trans hg)
  ids m hm := (mem_ids_registerDataFlow s f m).2 (Or.inr hm)
  parents m hm := (place_moveHere (n := ⟨.dataFlow, f.id⟩) hm hf).1
  bodies m hm := (place_moveHere (n := ⟨.dataFlow, f.id⟩) hm hf).2

end Scope

open Elaboration

/-- A step keeps all that the scope has, whatever the scope. -/
theorem elaborateStep_keeps {x : Spanned StepDecl} {s s' : Scope} {step : Step}
    (h : elaborateStep x s = .ok (step, s')) : s.Keeps s' := by
  unfold elaborateStep at h
  split at h
  · obtain ⟨ends, _, h⟩ := Reader.bind_eq_ok.1 h
    cases h
    split
    · exact Scope.Keeps.refl s
    · next hc => exact Scope.keeps_registerChannel fun hmem => hc (Table.contains_iff.2 hmem)
  · obtain ⟨ends, _, h⟩ := Reader.bind_eq_ok.1 h
    dsimp only at h
    split at h
    · cases h
      exact Scope.Keeps.refl s
    · cases h
  · obtain ⟨ends, _, h⟩ := Reader.bind_eq_ok.1 h
    cases h
    split
    · exact Scope.Keeps.refl s
    · next hf => exact Scope.keeps_registerDataFlow fun hmem => hf (Table.contains_iff.2 hmem)

/-- The steps of a scenario keep all that was there before them. -/
theorem elaborateSteps_keeps {xs : List (Spanned StepDecl)} {s s' : Scope} {steps : List Step}
    (h : elaborateSteps xs s = .ok (steps, s')) : s.Keeps s' := by
  induction xs generalizing s steps with
  | nil =>
    cases h
    exact Scope.Keeps.refl _
  | cons x xs ih =>
    simp only [elaborateSteps, Reader.bind_eq_ok, Prod.exists] at h
    obtain ⟨_, mid, hx, _, _, hxs, h⟩ := h
    cases h
    exact (elaborateStep_keeps hx).trans (ih hxs)

/-! ## Programs -/

/-- The programs of sources are well named. The model of such a program has one channel for
every kind and ends of a call or request and one data flow for every kind and ends of a flow
or transfer, each in the order of the first mentions; the text of a channel is that of the
last call, empty if there is none. No step and no row of steps, in any scope, changes or
moves what is there. -/
theorem elaborate_relationships :
    (∀ source lexemes p, tokenize source = .ok lexemes →
      Program.ofTokens (meaningful lexemes) = .ok p → p.WellNamed) ∧
    (∀ (p : Program) options m, p.WellNamed → p.elaborate options = .ok m →
      m.channels.map Channel.signature =
        (p.channelMentions.map fun x => x.value.signature).eraseDups ∧
      (∀ c ∈ m.channels, c.text = p.lastText c.signature) ∧
      m.dataFlows.map DataFlow.signature =
        (p.flowMentions.map fun x => x.value.signature).eraseDups) ∧
    (∀ x s step s', elaborateStep x s = .ok (step, s') → s.Keeps s') ∧
    ∀ xs s steps s', elaborateSteps xs s = .ok (steps, s') → s.Keeps s' := by
  refine ⟨fun source lexemes p ht hp => wellNamed_of_source ht hp, fun p options m h hm => ?_,
    fun x s step s' h => elaborateStep_keeps h, fun xs s steps s' h => elaborateSteps_keeps h⟩
  exact ⟨Program.signatures_channels h hm, Program.text_channel h hm,
    Program.signatures_dataFlows h hm⟩

/-- A scenario in a container uses two channels before one of them is called; the other is
called twice, with a text and without. -/
def calledLate : Program :=
  [unplaced (.actor ⟨unplaced .agent, unplaced "A", unplaced "a", []⟩),
    unplaced (.actor ⟨unplaced .store, unplaced "S", unplaced "s", []⟩),
    unplaced (.call ⟨.async, unplaced "a", unplaced "a", some (unplaced "old")⟩),
    unplaced (.container ⟨unplaced "C", unplaced "c"⟩
      [unplaced (.scenario ⟨unplaced "N",
        [unplaced (.transfer .write (unplaced "a") (unplaced "s") (unplaced "put")),
          unplaced (.request .requestResponse (unplaced "a") (unplaced "a") none),
          unplaced (.request .async (unplaced "a") (unplaced "a") none)]⟩),
        unplaced (.call ⟨.requestResponse, unplaced "a", unplaced "a", some (unplaced "new")⟩)]),
    unplaced (.call ⟨.async, unplaced "a", unplaced "a", none⟩),
    unplaced (.flow ⟨.write, unplaced "a", unplaced "s"⟩)]

/-- The channels stand in the order of their first use; the last calls give the texts. -/
theorem elaborate_relationships_calledLate :
    ∃ m, calledLate.elaborate .default = .ok m ∧
      m.channels.map Channel.signature =
        [(.async, "a", "a"), (.requestResponse, "a", "a")] ∧
      (∀ c ∈ m.channels, c.text = if c.kind = .async then "" else "new") ∧
      m.dataFlows.map DataFlow.signature = [(.write, "a", "s")] := by
  have hm : (calledLate.elaborate .default).toOption.map (fun _ => ()) = some () := by
    decide +kernel
  obtain ⟨m, h, _⟩ := exists_ok_of_toOption hm
  have hnamed : calledLate.WellNamed := by decide +kernel
  obtain ⟨hchannels, htext, hflows⟩ := elaborate_relationships.2.1 calledLate .default m hnamed h
  have hsignatures : m.channels.map Channel.signature =
      [(.async, "a", "a"), (.requestResponse, "a", "a")] :=
    hchannels.trans (by decide +kernel)
  refine ⟨m, h, hsignatures, fun c hc => ?_, hflows.trans (by decide +kernel)⟩
  have hmem : c.signature ∈ m.channels.map Channel.signature := List.mem_map_of_mem hc
  rw [hsignatures, List.mem_pair] at hmem
  rcases hmem with e | e
  · have hkind : c.kind = .async := congrArg Prod.fst e
    rw [htext c hc, e, hkind]
    decide +kernel
  · have hkind : c.kind = .requestResponse := congrArg Prod.fst e
    rw [htext c hc, e, hkind]
    decide +kernel

end ArchScript
