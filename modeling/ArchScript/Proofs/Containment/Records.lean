/-
  Scopes record the history of a walk.

  `Records vs st s` is the invariant of elaboration: after the visits `vs`, inside the open
  bodies `st`, the scope `s` has exactly the entities that were placed, and its tables of
  containment are those of `Places`. A check and an effect keep it (`Records.check`,
  `Records.effect`), so performing a walk does (`Records.perform`), and at the end of a
  program no body is open (`records_program`).
-/
import ArchScript.Proofs.Containment.Places

namespace ArchScript

/-! ## Paths in use -/

/-- The paths of a history: open and closed bodies were opened, none is both, and entities
were placed only in bodies that were opened or in the program. -/
structure Fresh (vs : List Visit) (st : List BodyPath) : Prop where
  nodup : st.Nodup
  stack : ∀ path ∈ st, path ∈ opened vs
  closed : ∀ x ∈ closings vs, x.path ∈ opened vs ∧ x.path ∉ st
  placed : ∀ p ∈ placements vs, p.body = [] ∨ p.body ∈ opened vs
  nil : [] ∉ opened vs

theorem closings_singleton_of_path? {v : Visit} (h : v.act.path? = none) : closings [v] = [] := by
  obtain ⟨body, act⟩ := v
  cases act with
  | check c => rfl
  | effect e =>
    cases e with
    | closeBody path head => cases h
    | _ => rfl

namespace Fresh

variable {vs : List Visit} {st st' : List BodyPath} {v : Visit}

theorem empty : Fresh [] [] where
  nodup := List.nodup_nil
  stack := by simp
  closed := by simp [closings]
  placed := by simp [placements]
  nil := by simp [opened]

theorem innermost_mem (h : Fresh vs st) : innermost st = [] ∨ innermost st ∈ opened vs := by
  cases st with
  | nil => exact Or.inl rfl
  | cons path st => exact Or.inr (h.stack path List.mem_cons_self)

/-- An open body was never closed, and neither was the program. -/
theorem lastClosed_ne (h : Fresh vs st) {path : BodyPath} (hp : path ∈ st ∨ path = [])
    (c : Ident) : lastClosed (closings vs) c ≠ some path := by
  intro e
  obtain ⟨ho, hs⟩ := h.closed _ (mem_of_lastClosed e)
  rcases hp with hp | rfl
  · exact hs hp
  · exact h.nil ho

theorem innermost_not_closed (h : Fresh vs st) (c : Ident) :
    lastClosed (closings vs) c ≠ some (innermost st) := by
  refine h.lastClosed_ne ?_ c
  cases st with
  | nil => exact Or.inr rfl
  | cons path st => exact Or.inl List.mem_cons_self

theorem mem_addPlacement {ps : List Placement} {p : Placement} (hp : p ∈ addPlacement ps v) :
    p ∈ ps ∨ p.body = v.body := by
  unfold addPlacement at hp
  split at hp
  · exact Or.inl hp
  · split at hp
    · exact Or.inl hp
    · split at hp
      · exact Or.inl hp
      · rcases List.mem_append.1 hp with hp | hp
        · exact Or.inl hp
        · rw [List.mem_singleton.1 hp]
          exact Or.inr rfl

/-- A body is innermost or the program wherever a visit happens. -/
theorem placed_append (h : Fresh vs st) (hv : v.body = [] ∨ v.body ∈ opened vs) :
    ∀ p ∈ placements (vs ++ [v]), p.body = [] ∨ p.body ∈ opened (vs ++ [v]) := by
  intro p hp
  rw [placements_append_singleton] at hp
  have hbody : p.body = [] ∨ p.body ∈ opened vs := by
    rcases mem_addPlacement hp with hp | e
    · exact h.placed p hp
    · rw [e]
      exact hv
  rw [opened_append]
  exact hbody.imp_right (List.mem_append_left _)

theorem not_mem_opened {body path : BodyPath} {head : ContainerHead}
    (hn : (opened (vs ++ [⟨body, .effect (.openBody path head)⟩])).Nodup) : path ∉ opened vs := by
  rw [opened_append] at hn
  exact fun hp => (List.nodup_append.1 hn).2.2 path hp path (List.mem_singleton.2 rfl) rfl

theorem move (h : Fresh vs st) (hm : v.Moves st st') (hn : (opened (vs ++ [v])).Nodup)
    (hnil : [] ∉ opened (vs ++ [v])) : Fresh (vs ++ [v]) st' := by
  have hsub : ∀ path ∈ opened vs, path ∈ opened (vs ++ [v]) := by
    intro path hpath
    rw [opened_append]
    exact List.mem_append_left _ hpath
  cases hm with
  | stays hbody hact =>
    have hclose : closings (vs ++ [v]) = closings vs := by
      rw [closings_append, closings_singleton_of_path? hact, List.append_nil]
    refine ⟨h.nodup, fun path hp => hsub path (h.stack path hp), ?_,
      h.placed_append (hbody ▸ h.innermost_mem), hnil⟩
    rw [hclose]
    exact fun x hx => ⟨hsub _ (h.closed x hx).1, (h.closed x hx).2⟩
  | @opens body _ path head hbody =>
    subst hbody
    have ho : opened (vs ++ [⟨innermost st, .effect (.openBody path head)⟩]) =
        opened vs ++ [path] := by rw [opened_append]; rfl
    have hc : closings (vs ++ [⟨innermost st, .effect (.openBody path head)⟩]) =
        closings vs := by rw [closings_append]; exact List.append_nil _
    have hnew := not_mem_opened hn
    refine ⟨List.nodup_cons.2 ⟨fun hp => hnew (h.stack path hp), h.nodup⟩, ?_, ?_,
      h.placed_append h.innermost_mem, hnil⟩
    · intro q hq
      rw [ho]
      rcases List.mem_cons.1 hq with rfl | hq
      · exact List.mem_append_right _ (List.mem_singleton.2 rfl)
      · exact List.mem_append_left _ (h.stack q hq)
    · rw [hc]
      intro x hx
      obtain ⟨hxo, hxs⟩ := h.closed x hx
      refine ⟨hsub _ hxo, fun hmem => ?_⟩
      rcases List.mem_cons.1 hmem with e | hmem
      · exact hnew (e ▸ hxo)
      · exact hxs hmem
  | @closes body _ path head hbody =>
    subst hbody
    have hc : closings (vs ++ [⟨innermost st', .effect (.closeBody path head)⟩]) =
        closings vs ++ [⟨path, head.id.value⟩] := by rw [closings_append]; rfl
    obtain ⟨hpath, hst⟩ := List.nodup_cons.1 h.nodup
    have hinner : innermost st' = [] ∨ innermost st' ∈ opened vs := by
      cases st' with
      | nil => exact Or.inl rfl
      | cons q st' => exact Or.inr (h.stack q (List.mem_cons_of_mem _ List.mem_cons_self))
    refine ⟨hst, fun q hq => hsub q (h.stack q (List.mem_cons_of_mem _ hq)), ?_,
      h.placed_append hinner, hnil⟩
    rw [hc]
    intro x hx
    rcases List.mem_append.1 hx with hx | hx
    · obtain ⟨hxo, hxs⟩ := h.closed x hx
      exact ⟨hsub _ hxo, fun hmem => hxs (List.mem_cons_of_mem _ hmem)⟩
    · rw [List.mem_singleton.1 hx]
      exact ⟨hsub _ (h.stack path List.mem_cons_self), hpath⟩

end Fresh

/-! ## The invariant -/

/-- After the visits `vs`, inside the open bodies `st`, the scope has what was placed, where
it was placed. -/
structure Records (vs : List Visit) (st : List BodyPath) (s : Scope) : Prop where
  keyed : s.Keyed
  fresh : Fresh vs st
  ids : ∀ m : Member, m.id ∈ s.ids m.kind ↔ m ∈ (placements vs).map Placement.member
  places : Places (placements vs) (closings vs) st s

namespace Records

variable {vs : List Visit} {st st' : List BodyPath} {s : Scope}

theorem empty : Records [] [] Scope.empty where
  keyed := Scope.keyed_empty
  fresh := Fresh.empty
  ids m := by
    obtain ⟨kind, id⟩ := m
    cases kind <;> simp [Scope.ids, Scope.empty, Table.keys, Table.empty, placements]
  places := Places.empty

/-- A registration at the innermost body. -/
theorem moveHere (h : Records vs st s) (m : Member) :
    Places (placements vs ++ [⟨m, innermost st⟩]) (closings vs) st (s.moveHere m) :=
  h.places.moveHere m h.fresh.nodup h.fresh.innermost_not_closed

theorem contains_channel (h : Records vs st s) (id : Ident) :
    (placements vs).any (·.member = ⟨.channel, id⟩) = s.channels.contains id := by
  rw [Bool.eq_iff_iff, any_member_iff, ← h.ids ⟨.channel, id⟩, Table.contains_iff]
  rfl

theorem contains_dataFlow (h : Records vs st s) (id : Ident) :
    (placements vs).any (·.member = ⟨.dataFlow, id⟩) = s.dataFlows.contains id := by
  rw [Bool.eq_iff_iff, any_member_iff, ← h.ids ⟨.dataFlow, id⟩, Table.contains_iff]
  rfl

/-- The tables of containment after an effect that neither opens nor closes a body. -/
theorem places_stays (h : Records vs st s) {e : Effect} (he : (Act.effect e).path? = none) :
    Places (addPlacement (placements vs) ⟨innermost st, .effect e⟩) (closings vs) st
      (e.apply s) := by
  cases e with
  | declareActor d => exact (h.moveHere ⟨.actor, d.id.value⟩).of_eq rfl rfl rfl
  | declareChannel c => exact (h.moveHere ⟨.channel, c.id⟩).of_eq rfl rfl rfl
  | declareFlow f => exact (h.moveHere ⟨.dataFlow, f.id⟩).of_eq rfl rfl rfl
  | annotate d =>
    exact (h.moveHere ⟨MemberKind.annotation, d.id.value⟩).of_eq rfl rfl rfl
  | useChannel c =>
    simp only [Effect.apply, addPlacement, Effect.placed?, Effect.onlyIfNew, Bool.true_and,
      h.contains_channel]
    split
    · exact h.places
    · exact (h.moveHere ⟨.channel, c.id⟩).of_eq rfl rfl rfl
  | useFlow f =>
    simp only [Effect.apply, addPlacement, Effect.placed?, Effect.onlyIfNew, Bool.true_and,
      h.contains_dataFlow]
    split
    · exact h.places
    · exact (h.moveHere ⟨.dataFlow, f.id⟩).of_eq rfl rfl rfl
  | setNote target text =>
    simp only [Effect.apply, Scope.updateActor]
    split
    · exact h.places.of_eq rfl rfl rfl
    · exact h.places
  | assign target refs =>
    simp only [Effect.apply, Scope.updateActor]
    split
    · exact h.places.of_eq rfl rfl rfl
    · exact h.places
  | addScenario x => exact h.places.of_eq rfl rfl rfl
  | openBody path head => cases he
  | closeBody path head => cases he

/-- A check changes nothing. -/
theorem check (h : Records vs st s) {body : BodyPath} {c : Check}
    (hm : Visit.Moves ⟨body, .check c⟩ st st')
    (hn : (opened (vs ++ [⟨body, .check c⟩])).Nodup)
    (hnil : [] ∉ opened (vs ++ [⟨body, .check c⟩])) :
    Records (vs ++ [⟨body, .check c⟩]) st' s := by
  have hf := h.fresh.move hm hn hnil
  cases hm with
  | stays hbody hact =>
    refine ⟨h.keyed, hf, ?_, ?_⟩
    · rw [placements_append_singleton]
      exact h.ids
    · rw [placements_append_singleton, closings_append, closings_singleton_of_path? hact,
        List.append_nil]
      exact h.places

/-- One effect keeps the record. -/
theorem effect (h : Records vs st s) {body : BodyPath} {e : Effect}
    (hm : Visit.Moves ⟨body, .effect e⟩ st st')
    (hn : (opened (vs ++ [⟨body, .effect e⟩])).Nodup)
    (hnil : [] ∉ opened (vs ++ [⟨body, .effect e⟩])) :
    Records (vs ++ [⟨body, .effect e⟩]) st' (e.apply s) := by
  refine ⟨h.keyed.apply e, h.fresh.move hm hn hnil, fun m => ?_, ?_⟩
  · rw [Scope.mem_ids_apply h.keyed, h.ids, placements_append_singleton, mem_addPlacement_iff]
  · rw [placements_append_singleton, closings_append]
    cases hm with
    | stays hbody hact =>
      subst hbody
      rw [closings_singleton_of_path? hact, List.append_nil]
      exact h.places_stays hact
    | @opens _ _ path head hbody =>
      have hnew : ∀ p ∈ placements vs, p.body ≠ path := by
        rintro p hp rfl
        rcases h.fresh.placed p hp with e | ho
        · refine hnil ?_
          rw [opened_append, ← e]
          exact List.mem_append_right _ (List.mem_singleton.2 rfl)
        · exact Fresh.not_mem_opened hn ho
      have hc : closings [⟨body, .effect (.openBody path head)⟩] = [] := rfl
      rw [hc, List.append_nil]
      exact h.places.openBody hnew head.id.value head.id.span
    | @closes _ _ path head hbody =>
      subst hbody
      refine h.places.closeBody h.fresh.nodup ?_ ?_ ?_ head.id.value head.name.value
      · exact fun q hq c => h.fresh.lastClosed_ne (Or.inl hq) c
      · exact fun c => h.fresh.lastClosed_ne (Or.inr rfl) c
      · rintro rfl
        exact h.fresh.nil (h.fresh.stack [] List.mem_cons_self)

/-- Performing visits keeps the record. -/
theorem perform (h : Records vs st s) {ws : List Visit} (hw : Nests st ws st')
    (hn : (opened (vs ++ ws)).Nodup) (hnil : [] ∉ opened (vs ++ ws)) {policy : Redeclaration}
    {s' : Scope} (hs : ArchScript.perform policy (ws.map Visit.act) s = .ok s') :
    Records (vs ++ ws) st' s' := by
  induction ws generalizing vs st s with
  | nil =>
    cases hw
    cases hs
    rw [List.append_nil]
    exact h
  | cons w ws ih =>
    obtain ⟨mid, hm, hw⟩ := hw
    rw [List.append_cons] at hn hnil ⊢
    have hn' : (opened (vs ++ [w])).Nodup := by
      rw [opened_append] at hn
      exact (List.nodup_append.1 hn).1
    have hnil' : [] ∉ opened (vs ++ [w]) := by
      rw [opened_append, List.mem_append, not_or] at hnil
      exact hnil.1
    obtain ⟨body, act⟩ := w
    cases act with
    | check c =>
      obtain ⟨_, _, hs⟩ := Reader.bind_eq_ok.1 hs
      exact ih (h.check hm hn' hnil') hw hn hnil hs
    | effect e => exact ih (h.effect hm hn' hnil') hw hn hnil hs

end Records

/-- The scope at the end of a program records its walk, and no body is open. -/
theorem records_program {policy : Redeclaration} {p : Program} {s : Scope}
    (h : perform policy (p.visits.map Visit.act) .empty = .ok s) : Records p.visits [] s := by
  have hn := nodup_opened_visits p
  have hnil := nil_not_mem_opened_visits p
  exact Records.empty.perform (nests_visits p) hn hnil h

end ArchScript
