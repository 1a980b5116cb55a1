/-
  Derived ids are unambiguous.

  An id is written from a kind and two ends with separators between them that no word has.
  So the first dash of a channel's id ends its source and the first colon of a data flow's id
  ends its kind, whatever the ends are called. The lexer makes words only, so in a model
  distinct relationships have distinct ids (`derivedIds_unambiguous`).
-/
import ArchScript.Proofs.Lookup
import ArchScript.Proofs.Relationships.Exact

namespace ArchScript

/-! ## Separators -/

/-- The signs that stand between the parts of a derived id. -/
def separators : List Char := ['-', '>', ':']

/-- A name that no separator can cut. -/
def SeparatorFree (x : Ident) : Prop := ∀ c ∈ separators, c ∉ x.toList

instance (x : Ident) : Decidable (SeparatorFree x) :=
  List.decidableBAll (fun c => c ∉ x.toList) separators

theorem IsWord.separatorFree {x : Ident} (h : IsWord x) : SeparatorFree x := by
  intro c hc
  have hsigns : separators.all (fun c => Lexer.isWordChar c == false) = true := by decide
  exact h.not_mem (beq_iff_eq.mp (List.all_eq_true.mp hsigns c hc))

namespace SeparatorFree

variable {x : Ident}

theorem dash_not_mem (h : SeparatorFree x) : '-' ∉ x.toList := h '-' (by decide)

theorem colon_not_mem (h : SeparatorFree x) : ':' ∉ x.toList := h ':' (by decide)

end SeparatorFree

theorem dash_mem_channelId (k : ChannelKind) (a b : Ident) : '-' ∈ (channelId k a b).toList := by
  simp [toList_channelId]

theorem dash_mem_flowId (k : FlowKind) (a b : Ident) : '-' ∈ (flowId k a b).toList := by
  simp [toList_flowId]

/-- Up to its first dash a data flow's id has a colon, and a channel's id only its source. -/
theorem channelId_ne_flowId {k : ChannelKind} {j : FlowKind} {a b a' b' : Ident}
    (ha : SeparatorFree a) (ha' : SeparatorFree a') : channelId k a b ≠ flowId j a' b' := by
  intro h
  have hcolon : '-' ∉ ':' :: a'.toList := by
    rw [List.mem_cons, not_or]
    exact ⟨by decide, ha'.dash_not_mem⟩
  have hkind : '-' ∉ j.text.toList := j.isWord_text.not_mem (by decide)
  have hfront : '-' ∉ j.text.toList ++ ':' :: a'.toList := by
    rw [List.mem_append, not_or]
    exact ⟨hkind, hcolon⟩
  have hlist : a.toList ++ '-' :: (k.text.toList ++ '-' :: ('>' :: b.toList)) =
      (j.text.toList ++ ':' :: a'.toList) ++ '-' :: ('>' :: b'.toList) := by
    rw [← toList_channelId, h, toList_flowId, List.append_assoc, List.cons_append]
  obtain ⟨hsource, _⟩ := eq_of_append_cons ha.dash_not_mem hfront hlist
  refine ha.colon_not_mem ?_
  rw [hsource]
  exact List.mem_append_right _ List.mem_cons_self

/-! ## Models -/

/-- A value with a key that no other value of the list has. -/
theorem eq_of_nodup_keys {α : Type} {key : α → Ident} {l : List α} (hl : (l.map key).Nodup)
    {v w : α} (hv : v ∈ l) (hw : w ∈ l) (h : key v = key w) : v = w :=
  List.inj_on_of_nodup_map hl hv hw h

/-- The relationships of the model are those that the program mentions, one for each kind and
ends, and no id of one is that of another or a name of the program. -/
structure SystemModel.Separates (m : SystemModel) (p : Program) : Prop where
  ids : (m.channels.map Channel.id ++ m.dataFlows.map DataFlow.id).Nodup
  names : ∀ x ∈ namesOf p, x ∉ m.channels.map Channel.id ++ m.dataFlows.map DataFlow.id
  channels : ∀ x ∈ p.channelMentions, ∃ c ∈ m.channels, c.signature = x.value.signature ∧
    ∀ d ∈ m.channels, d.id = x.value.id → d = c
  dataFlows : ∀ x ∈ p.flowMentions, ∃ f ∈ m.dataFlows, f.signature = x.value.signature ∧
    ∀ g ∈ m.dataFlows, g.id = x.value.id → g = f
  mentioned : (∀ c ∈ m.channels, ∃ x ∈ p.channelMentions, x.value.signature = c.signature) ∧
    ∀ f ∈ m.dataFlows, ∃ x ∈ p.flowMentions, x.value.signature = f.signature

namespace Program

variable {p : Program} {options : ElaborationOptions} {m : SystemModel}

theorem mem_channels_signature_iff (hn : p.WellNamed) (h : p.elaborate options = .ok m)
    {x : ChannelKind × Ident × Ident} :
    (∃ c ∈ m.channels, c.signature = x) ↔ ∃ y ∈ p.channelMentions, y.value.signature = x := by
  rw [← List.mem_map, signatures_channels hn h, List.mem_eraseDups, List.mem_map]

theorem mem_dataFlows_signature_iff (hn : p.WellNamed) (h : p.elaborate options = .ok m)
    {x : FlowKind × Ident × Ident} :
    (∃ f ∈ m.dataFlows, f.signature = x) ↔ ∃ y ∈ p.flowMentions, y.value.signature = x := by
  rw [← List.mem_map, signatures_dataFlows hn h, List.mem_eraseDups, List.mem_map]

/-- The ends that derived ids begin with are words. -/
theorem isWord_sources (hn : p.WellNamed) (h : p.elaborate options = .ok m) :
    (∀ c ∈ m.channels, IsWord c.source) ∧ ∀ f ∈ m.dataFlows, IsWord f.source := by
  refine ⟨(forall_channels_iff hn h fun x => IsWord x.2.1).2 fun x hx => ?_,
    (forall_dataFlows_iff hn h fun x => IsWord x.2.1).2 fun x hx => ?_⟩
  · exact hn.isWord_channel_source _ (List.mem_map_of_mem hx)
  · exact hn.isWord_flow_source _ (List.mem_map_of_mem hx)

theorem elaborate_separates (hn : p.WellNamed) (h : p.elaborate options = .ok m) :
    m.Separates p where
  ids := by
    obtain ⟨hchannels, hflows⟩ := isWord_sources hn h
    refine List.nodup_append.2 ⟨nodup_channel_ids h, nodup_dataFlow_ids h, fun x hx y hy => ?_⟩
    obtain ⟨c, hc, rfl⟩ := List.mem_map.1 hx
    obtain ⟨f, hf, rfl⟩ := List.mem_map.1 hy
    exact channelId_ne_flowId (hchannels c hc).separatorFree (hflows f hf).separatorFree
  names x hx hid := by
    have hdash := (hn x hx).separatorFree.dash_not_mem
    rcases List.mem_append.1 hid with hid | hid
    · obtain ⟨c, _, rfl⟩ := List.mem_map.1 hid
      exact hdash (dash_mem_channelId _ _ _)
    · obtain ⟨f, _, rfl⟩ := List.mem_map.1 hid
      exact hdash (dash_mem_flowId _ _ _)
  channels x hx := by
    obtain ⟨c, hc, hsignature⟩ := (mem_channels_signature_iff hn h).2 ⟨x, hx, rfl⟩
    refine ⟨c, hc, hsignature, fun d hd hid => ?_⟩
    refine eq_of_nodup_keys (nodup_channel_ids h) hd hc ?_
    rw [hid, ← Channel.id_eq c, hsignature, Channel.id_eq]
  dataFlows x hx := by
    obtain ⟨f, hf, hsignature⟩ := (mem_dataFlows_signature_iff hn h).2 ⟨x, hx, rfl⟩
    refine ⟨f, hf, hsignature, fun g hg hid => ?_⟩
    refine eq_of_nodup_keys (nodup_dataFlow_ids h) hg hf ?_
    rw [hid, ← DataFlow.id_eq f, hsignature, DataFlow.id_eq]
  mentioned :=
    ⟨fun c hc => (mem_channels_signature_iff hn h).1 ⟨c, hc, rfl⟩,
      fun f hf => (mem_dataFlows_signature_iff hn h).1 ⟨f, hf, rfl⟩⟩

end Program

/-- The lexer puts no separator into an identifier, whatever the source. With sources free of
separators an id gives back the kind and the ends it was written from, the id of a channel is
never that of a data flow, and neither is a name that is free of separators. So a model has one
entry for each kind and ends of a channel or data flow of its source and no two entries share
an id. -/
theorem derivedIds_unambiguous :
    (∀ (source : String), ∀ f ∈ Lexer.scan 0 source.toList, ∀ x,
      f.value = .lexeme (.token (.identifier x)) → SeparatorFree x) ∧
    (∀ k k' a b a' b', SeparatorFree a → SeparatorFree a' →
      (channelId k a b = channelId k' a' b' ↔ k = k' ∧ a = a' ∧ b = b')) ∧
    (∀ k k' a b a' b', SeparatorFree a → SeparatorFree a' →
      (flowId k a b = flowId k' a' b' ↔ k = k' ∧ a = a' ∧ b = b')) ∧
    (∀ k j a b a' b', SeparatorFree a → SeparatorFree a' → channelId k a b ≠ flowId j a' b') ∧
    (∀ x, SeparatorFree x →
      (∀ k a b, channelId k a b ≠ x) ∧ ∀ k a b, flowId k a b ≠ x) ∧
    ∀ options source m, compile options source = .ok m → ∃ lexemes p,
      tokenize source = .ok lexemes ∧ Program.ofTokens (meaningful lexemes) = .ok p ∧
      m.Separates p := by
  refine ⟨fun source f hf x hx => (Lexer.isWord_of_mem_scan hf hx).separatorFree,
    fun k k' a b a' b' ha ha' => ⟨?_, ?_⟩, fun k k' a b a' b' ha ha' => ⟨?_, ?_⟩,
    fun k j a b a' b' ha ha' => channelId_ne_flowId ha ha', fun x hx => ⟨?_, ?_⟩,
    fun options source m h => ?_⟩
  · exact channelId_inj_of_dash ha.dash_not_mem ha'.dash_not_mem
  · rintro ⟨rfl, rfl, rfl⟩
    rfl
  · exact flowId_inj_of_dash ha.dash_not_mem ha'.dash_not_mem
  · rintro ⟨rfl, rfl, rfl⟩
    rfl
  · rintro k a b rfl
    exact hx.dash_not_mem (dash_mem_channelId k a b)
  · rintro k a b rfl
    exact hx.dash_not_mem (dash_mem_flowId k a b)
  · obtain ⟨lexemes, p, ht, hp, hm⟩ := compile_eq_ok_iff.1 h
    exact ⟨lexemes, p, ht, hp, Program.elaborate_separates (wellNamed_of_source ht hp) hm⟩

/-- Actors that are called like the tags of kinds and like the fronts of each other. -/
def imitations : String :=
  "agent 'A' as async; agent 'R' as req_res; agent 'B' as async_req; store 'S' as read;" ++
    "async -('x')-> req_res; async -('y')-\\ req_res; async_req -('z')-> async;" ++
    "async --> read; read <-- req_res;"

/-- The names imitate tags and each other in vain: every relationship of the source has its
own id, and no id gives back other ends. -/
theorem derivedIds_unambiguous_imitations :
    ∃ m, compile .default imitations = .ok m ∧
      m.channels.map Channel.signature = [(.requestResponse, "async", "req_res"),
        (.async, "async", "req_res"), (.requestResponse, "async_req", "async")] ∧
      (m.channels.map Channel.id ++ m.dataFlows.map DataFlow.id).Nodup ∧
      channelId .async "async" "req_res" ≠ channelId .requestResponse "async" "req_res" ∧
      channelId .async "a" "b" ≠ "async" ∧ flowId .read "read" "a" ≠ flowId .read "rea" "da" ∧
      channelId .async "read" "a" ≠ flowId .read "async" "a" := by
  obtain ⟨_, hchannels, hflows, hapart, hnames, hmodels⟩ := derivedIds_unambiguous
  obtain ⟨m, h, hsignatures⟩ := exists_ok_of_toOption (r := compile .default imitations)
    (f := fun m => m.channels.map Channel.signature)
    (b := [(.requestResponse, "async", "req_res"), (.async, "async", "req_res"),
      (.requestResponse, "async_req", "async")]) (by decide +kernel)
  obtain ⟨_, p, _, _, hm⟩ := hmodels .default imitations m h
  have hasync : SeparatorFree "async" := by decide
  refine ⟨m, h, hsignatures, hm.ids, fun e => ?_, (hnames "async" hasync).1 .async "a" "b",
    fun e => ?_, hapart .async .read "read" "a" "async" "a" (by decide) hasync⟩
  · exact absurd ((hchannels _ _ _ _ _ _ hasync hasync).1 e).1 (by decide)
  · exact absurd ((hflows _ _ _ _ _ _ (by decide) (by decide)).1 e).2.1 (by decide)

end ArchScript
