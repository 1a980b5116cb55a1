/-
  Elaboration checks exactly the rules.

  `Knows vs s` says that the scope `s` has the actors, channels and containers of the visits
  `vs`. A check that is tested in such a scope fails with the violation that the rules name
  (`Knows.test`), and every effect keeps the invariant, so a walk that replaces earlier
  definitions ends at its first violation or not at all (`perform_replace`).
-/
import ArchScript.Proofs.Checking.Sources
import ArchScript.Proofs.Compile

namespace ArchScript

/-! ## What a scope knows -/

/-- The scope has the kinds and the entities of the visits. -/
structure Knows (vs : List Visit) (s : Scope) : Prop where
  keyed : s.Keyed
  kinds : ∀ x, (s.actors.get? x).map Actor.kind = kindOf vs x
  ids : ∀ m : Member, m.id ∈ s.ids m.kind ↔
    ∃ v ∈ vs, ∃ e, v.act = .effect e ∧ e.placed? = some m

theorem Scope.kinds_updateActor {s : Scope} (h : s.Keyed) (target : Ident) (f : Actor → Actor)
    (hid : ∀ a, (f a).id = a.id) (hkind : ∀ a, (f a).kind = a.kind) (x : Ident) :
    ((s.updateActor target f).actors.get? x).map Actor.kind =
      (s.actors.get? x).map Actor.kind := by
  unfold updateActor
  split
  · next a ha =>
    have hkey : (f a).id = target := (hid a).trans (h.actors target a ha)
    simp only [setActor, Table.get?_insert, hkey]
    split
    · next hx =>
      rw [← hx, ha, Option.map_some, Option.map_some, hkind]
    · rfl
  · rfl

/-- Only the declaration of an actor changes a kind. -/
theorem Scope.kinds_apply {s : Scope} (h : s.Keyed) (e : Effect) (x : Ident) :
    ((e.apply s).actors.get? x).map Actor.kind =
      match e with
      | .declareActor d =>
        if d.id.value = x then some d.kind.value else (s.actors.get? x).map Actor.kind
      | _ => (s.actors.get? x).map Actor.kind := by
  cases e with
  | declareActor d =>
    have hid : d.toActor.id = d.id.value := rfl
    simp only [Effect.apply, registerActor, noteDefinition, moveHere, Table.get?_insert, hid]
    by_cases hx : d.id.value = x
    · rw [if_pos hx, if_pos hx]
      rfl
    · rw [if_neg hx, if_neg hx]
  | setNote target text =>
    exact kinds_updateActor h target (·.withNote text) (fun _ => rfl) (fun _ => rfl) x
  | assign target refs =>
    exact kinds_updateActor h target (·.withAnnotations refs) (fun _ => rfl) (fun _ => rfl) x
  | useChannel c =>
    exact Effect.useChannel_frame (fun s => (s.actors.get? x).map Actor.kind) (fun _ _ => rfl) c s
  | useFlow f =>
    exact Effect.useFlow_frame (fun s => (s.actors.get? x).map Actor.kind) (fun _ _ => rfl) f s
  | _ => rfl

namespace Knows

variable {vs : List Visit} {s : Scope}

theorem empty : Knows [] .empty where
  keyed := Scope.keyed_empty
  kinds _ := rfl
  ids m := by
    obtain ⟨kind, id⟩ := m
    cases kind <;> simp [Scope.ids, Scope.empty, Table.keys, Table.empty]

theorem check (h : Knows vs s) (body : BodyPath) (c : Check) :
    Knows (vs ++ [⟨body, .check c⟩]) s where
  keyed := h.keyed
  kinds x := by
    rw [kindOf_append_singleton]
    exact h.kinds x
  ids m := by
    rw [h.ids m]
    simp

theorem effect (h : Knows vs s) (body : BodyPath) (e : Effect) :
    Knows (vs ++ [⟨body, .effect e⟩]) (e.apply s) where
  keyed := h.keyed.apply e
  kinds x := by
    rw [kindOf_append_singleton, Scope.kinds_apply h.keyed, h.kinds]
    cases e <;> rfl
  ids m := by
    rw [Scope.mem_ids_apply h.keyed, h.ids m]
    simp [or_and_right, exists_or, or_comm]

theorem closed (h : Knows vs s) (x : Ident) : s.containers.contains x = closedIn vs x := by
  rw [Bool.eq_iff_iff, Table.contains_iff]
  refine (h.ids ⟨.container, x⟩).trans ?_
  simp only [closedIn, closings, List.any_eq_true, List.mem_filterMap, decide_eq_true_eq]
  constructor
  · rintro ⟨v, hv, e, he, hp⟩
    obtain ⟨path, head, rfl, hid⟩ := Effect.placed?_container hp
    exact ⟨⟨path, head.id.value⟩, ⟨v, hv, Visit.closing?_eq_some_iff.2 ⟨path, head, he, rfl⟩⟩, hid⟩
  · rintro ⟨_, ⟨v, hv, hc⟩, hid⟩
    obtain ⟨path, head, he, rfl⟩ := Visit.closing?_eq_some_iff.1 hc
    exact ⟨v, hv, _, he, hid ▸ rfl⟩

/-- There is a channel for a response when a call or request had the same ends. -/
theorem requested (h : Knows vs s) {a : Ident} (ha : IsWord a) (hvs : WordSources vs)
    (b : Ident) :
    s.channels.contains (channelId .requestResponse a b) = requestedIn vs a b := by
  rw [Bool.eq_iff_iff, Table.contains_iff]
  refine (h.ids ⟨.channel, channelId .requestResponse a b⟩).trans ?_
  simp only [requestedIn, List.any_eq_true]
  refine exists_congr fun v => and_congr_right fun hv => ?_
  unfold Visit.requests
  cases hact : v.act with
  | check c => simp
  | effect e =>
    simp only [Act.effect.injEq, exists_eq_left', Effect.placed?_channel_iff]
    cases hc : e.channel? with
    | none => simp
    | some c =>
      -- the ids of two channels are equal only if their ends are, as both sources are words
      have hsource : IsWord c.source := by
        refine hvs v hv c.source ?_
        rw [hact, Act.channelSource?, hc, Option.map_some]
      simp only [Option.some.injEq, exists_eq_left', Option.any_some, Bool.and_eq_true,
        decide_eq_true_eq]
      constructor
      · intro hid
        obtain ⟨hkind, hs, ht⟩ := channelId_inj hsource ha hid
        exact ⟨⟨hkind, hs⟩, ht⟩
      · rintro ⟨⟨hkind, rfl⟩, rfl⟩
        rw [Channel.id, hkind]

end Knows

/-! ## Walks -/

/-- What a walk with the violation `w?`, if any, comes to. -/
def outcome : Option Violation → Except Violation Unit
  | none => .ok ()
  | some w => .error w

/-- In a scope that knows the visits before it, a check is tested by the rules. -/
theorem Knows.test {vs : List Visit} {s : Scope} (h : Knows vs s) {body : BodyPath} {c : Check}
    (hn : WordSources (vs ++ [⟨body, .check c⟩])) :
    c.test .replace s = outcome (c.violation? vs) := by
  obtain ⟨hvs, hc⟩ := wordSources_append_iff.1 hn
  cases c with
  | known ref =>
    have hk := h.kinds ref.value
    simp only [Check.test, Check.violation?, Elaboration.actor, Check.missing, ← hk,
      ← h.closed ref.value]
    cases s.actors.get? ref.value with
    | none => cases s.containers.contains ref.value <;> rfl
    | some a => rfl
  | active role ref =>
    have hk := h.kinds ref.value
    simp only [Check.test, Check.violation?, Elaboration.actor, Check.missing, ← hk,
      ← h.closed ref.value]
    cases s.actors.get? ref.value with
    | none => cases s.containers.contains ref.value <;> rfl
    | some a =>
      simp only [Option.map_some, bind, Except.bind]
      cases a.kind.isActive <;> rfl
  | store role ref =>
    have hk := h.kinds ref.value
    simp only [Check.test, Check.violation?, Elaboration.actor, Check.missing, ← hk,
      ← h.closed ref.value]
    cases s.actors.get? ref.value with
    | none => cases s.containers.contains ref.value <;> rfl
    | some a =>
      simp only [Option.map_some, bind, Except.bind]
      cases a.kind.isStore <;> rfl
  | requested a b step =>
    have hr := h.requested (hc _ (List.mem_singleton.2 rfl) a rfl) hvs b
    simp only [Check.test, Check.violation?, hr]
    cases requestedIn vs a b <;> rfl
  | unused what ref => rfl

/-- A walk that replaces earlier definitions ends at its first violation. -/
theorem perform_replace {before vs : List Visit} {s : Scope} (h : Knows before s)
    (hn : WordSources (before ++ vs)) :
    (perform .replace (vs.map Visit.act) s).map (fun _ => ()) =
      outcome (firstViolation before vs) := by
  induction vs generalizing before s with
  | nil => rfl
  | cons v vs ih =>
    obtain ⟨body, act⟩ := v
    rw [List.append_cons] at hn
    cases act with
    | check c =>
      simp only [List.map_cons, perform, firstViolation, Visit.violation?]
      rw [h.test (wordSources_append_iff.1 hn).1]
      cases hv : c.violation? before with
      | none => exact ih (h.check body c) hn
      | some w => rfl
    | effect e => exact ih (h.effect body e) hn

/-! ## Programs and sources -/

theorem Program.elaborate_replace {p : Program} (h : p.WellNamed) (resolve : Bool) :
    (p.elaborate ⟨resolve, .replace⟩).map (fun _ => ()) =
      outcome (firstViolation [] p.visits) := by
  have hrun : (perform .replace (p.visits.map Visit.act) .empty).map (fun _ => ()) =
      outcome (firstViolation [] p.visits) := perform_replace Knows.empty h.wordSources
  rw [← hrun, Program.elaborate_eq_perform]
  cases perform .replace (p.visits.map Visit.act) .empty <;> rfl

theorem exists_ok_iff {α : Type} {r : Except Violation α} {w? : Option Violation}
    (h : r.map (fun _ => ()) = outcome w?) : (∃ a, r = .ok a) ↔ w? = none := by
  cases r <;> cases w? <;> simp_all [Except.map, outcome]

theorem eq_error_iff {α : Type} {r : Except Violation α} {w? : Option Violation}
    (h : r.map (fun _ => ()) = outcome w?) (w : Violation) : r = .error w ↔ w? = some w := by
  cases r <;> cases w? <;> simp_all [Except.map, outcome]

/-- The identifiers of a program that a source spells are words, and the source has the model
of the program or the diagnostic of its violation. A program of words is elaborated when all
its checks hold where they stand. Otherwise its violation is that of the first check that
does not hold, with the code for it and one label where the check points. -/
theorem elaborate_replace_exact :
    (∀ source lexemes p, tokenize source = .ok lexemes →
      Program.ofTokens (meaningful lexemes) = .ok p →
      p.WellNamed ∧ ∀ options, compile options source =
        (p.elaborate options).mapError fun w => [w.diagnostic]) ∧
    ∀ p : Program, p.WellNamed → ∀ resolve,
      ((∃ m, p.elaborate ⟨resolve, .replace⟩ = .ok m) ↔ AllHold [] p.visits) ∧
      ∀ w, p.elaborate ⟨resolve, .replace⟩ = .error w ↔ ∃ before body c after,
        p.visits = before ++ ⟨body, .check c⟩ :: after ∧ AllHold [] before ∧
          ¬ c.Holds before ∧ c.violation? before = some w ∧
          w.diagnostic.code = some (c.code before) ∧
          w.diagnostic.labels = [⟨c.span, w.note, true⟩] := by
  refine ⟨fun source lexemes p ht hp =>
    ⟨wellNamed_of_source ht hp, fun _ => compile_of_program ht hp⟩,
    fun p h resolve => ⟨?_, fun w => ?_⟩⟩
  · rw [exists_ok_iff (Program.elaborate_replace h resolve), firstViolation_eq_none_iff]
  · rw [eq_error_iff (Program.elaborate_replace h resolve), firstViolation_eq_some_iff]
    constructor
    · rintro ⟨before, body, c, after, hvisits, hbefore, hw⟩
      have hfails : ¬ c.Holds before := by
        intro hc
        rw [← Check.violation?_eq_none_iff, ← List.nil_append before, hw] at hc
        cases hc
      have hdiagnostic := Check.diagnostic_of_violation? hw
      exact ⟨before, body, c, after, hvisits, hbefore, hfails, hw, hdiagnostic⟩
    · rintro ⟨before, body, c, after, hvisits, hbefore, _, hw, _⟩
      exact ⟨before, body, c, after, hvisits, hbefore, hw⟩

/-- An agent answers its own request and then becomes a store, which has no channels. -/
def kindChanges : Program :=
  [unplaced (.actor ⟨unplaced .agent, unplaced "A", unplaced "a", []⟩),
    unplaced (.scenario ⟨unplaced "S",
      [unplaced (.request .requestResponse (unplaced "a") (unplaced "a") none),
        unplaced (.response (unplaced "a") (unplaced "a") none)]⟩),
    unplaced (.actor ⟨unplaced .store, unplaced "A", unplaced "a", []⟩),
    unplaced (.call ⟨.async, ⟨"a", .ofSize 7 1⟩, unplaced "b", none⟩)]

/-- The first end of the last call is wrong; the second is not looked at. -/
theorem elaborate_replace_exact_kindChanges :
    kindChanges.WellNamed ∧ kindChanges.elaborate .default =
      .error (.storeAsEnd ⟨"a", .ofSize 7 1⟩ .channel) := by
  have hnamed : kindChanges.WellNamed := by decide +kernel
  refine ⟨hnamed, ((elaborate_replace_exact.2 kindChanges hnamed true).2 _).2 ?_⟩
  have hbefore : AllHold [] (kindChanges.visits.take 11) :=
    firstViolation_eq_none_iff.1 (by decide +kernel)
  have hw : (Check.active .channel ⟨"a", .ofSize 7 1⟩).violation? (kindChanges.visits.take 11) =
      some (.storeAsEnd ⟨"a", .ofSize 7 1⟩ .channel) := by decide +kernel
  have hfails : ¬ (Check.active .channel ⟨"a", .ofSize 7 1⟩).Holds
      (kindChanges.visits.take 11) := by
    rw [← Check.violation?_eq_none_iff, hw]
    simp
  exact ⟨_, [], _, kindChanges.visits.drop 12, rfl, hbefore, hfails, hw,
    Check.diagnostic_of_violation? hw⟩

end ArchScript
