/-
  The scopes that a walk reaches.

  A walk passes from scope to scope, also when a violation ends it later. Whatever policy it
  runs under, an effect takes place in a scope that has passed the checks of the effect
  (`Program.Reaches.guarded`), and a container is closed only after it was opened
  (`openedBefore_visitsOf`). `Program.Reaches.induction` packs both into an induction over
  all later scopes of a run.
-/
import ArchScript.Proofs.Checking.Policies
import ArchScript.Proofs.Containment.Nesting
import Mathlib.Data.List.Induction

namespace ArchScript

/-! ## Containers are opened before they are closed -/

/-- A container that is closed was opened before. -/
def Effect.OpenedIn (vs : List Visit) (e : Effect) : Prop :=
  ∀ path head, e = .closeBody path head → DefinedIn vs ⟨.container, head.id.value⟩

theorem throughout_of_forall {P : List Visit → Act → Prop} {before vs : List Visit}
    (h : ∀ v ∈ vs, ∀ b, P b v.act) : Throughout P before vs := by
  rintro pre body a post rfl
  exact h ⟨body, a⟩ (List.mem_append_right _ List.mem_cons_self) _

theorem openedBefore_visitsOf (xs : List (Spanned Statement)) (before : List Visit)
    (body : BodyPath) (i : Nat) :
    Throughout (OnEffects fun b e => e.OpenedIn b) before (visitsOf body i xs) := by
  induction xs using Program.induction generalizing before body i with
  | nil => exact throughout_nil
  | flat x span xs hx ih =>
    rw [visitsOf_flat hx, throughout_append_iff]
    refine ⟨throughout_of_forall fun v hv b => ?_, ih _ body (i + 1)⟩
    obtain ⟨a, ha, rfl⟩ := List.mem_map.1 hv
    have hpath := path?_acts x a ha
    cases a with
    | check c => trivial
    | effect e =>
      rintro path head rfl
      cases hpath
  | container head inner span xs ih₁ ih₂ =>
    rw [visitsOf_container, throughout_cons_iff, throughout_cons_iff, throughout_append_iff,
      throughout_cons_iff]
    refine ⟨trivial, ?_, ih₁ _ (i :: body) 0, ?_, ih₂ _ body (i + 1)⟩
    · rintro path head' ⟨⟩
    · rintro path head' ⟨⟩
      exact ⟨⟨body, .effect (.openBody (i :: body) head)⟩, by simp, _, rfl, rfl⟩

/-! ## Reached scopes -/

theorem Effect.Guarded.mono {H H' : Check → Prop} (hH : ∀ c, H c → H' c) {e : Effect}
    (h : e.Guarded H) : e.Guarded H' := by
  have hactive : ∀ {x}, AskedActive H x → AskedActive H' x := by
    rintro x ⟨role, ref, hx, h⟩
    exact ⟨role, ref, hx, hH _ h⟩
  have hstore : ∀ {x}, AskedStore H x → AskedStore H' x := by
    rintro x ⟨role, ref, hx, h⟩
    exact ⟨role, ref, hx, hH _ h⟩
  cases e with
  | declareActor d => exact hH _ h
  | setNote target text =>
    obtain ⟨ref, href, h⟩ := h
    exact ⟨ref, href, hH _ h⟩
  | assign target refs =>
    obtain ⟨ref, href, h⟩ := h
    exact ⟨ref, href, hH _ h⟩
  | declareChannel c => exact And.imp hactive hactive h
  | useChannel c => exact And.imp hactive hactive h
  | declareFlow f => exact And.imp hactive hstore h
  | useFlow f => exact And.imp hactive hstore h
  | annotate d => exact hH _ h
  | openBody path head => exact hH _ h
  | addScenario x => trivial
  | closeBody path head => trivial

/-- The walk of `p` has made the visits `vs` and stands in the scope `s`. -/
structure Program.Reaches (p : Program) (policy : Redeclaration) (vs : List Visit) (s : Scope) :
    Prop where
  visited : vs <+: p.visits
  performed : perform policy (vs.map Visit.act) .empty = .ok s

theorem perform_concat {policy : Redeclaration} {vs : List Visit} {v : Visit} {s t : Scope} :
    perform policy ((vs ++ [v]).map Visit.act) s = .ok t ↔
      ∃ mid, perform policy (vs.map Visit.act) s = .ok mid ∧
        perform policy [v.act] mid = .ok t := by
  rw [List.map_append, perform_append]
  exact Reader.bind_eq_ok

theorem perform_check {policy : Redeclaration} {c : Check} {s t : Scope} :
    perform policy [.check c] s = .ok t ↔ c.test policy s = .ok () ∧ s = t := by
  rw [perform, Reader.bind_eq_ok]
  simp only [perform, Except.ok.injEq]
  constructor
  · rintro ⟨_, h⟩
    exact h
  · intro h
    exact ⟨(), h⟩

namespace Program.Reaches

variable {p : Program} {policy : Redeclaration} {vs ws : List Visit} {s t : Scope}

theorem nil (p : Program) (policy : Redeclaration) : p.Reaches policy [] .empty :=
  ⟨List.nil_prefix, rfl⟩

theorem keyed (h : p.Reaches policy vs s) : s.Keyed := Scope.keyed_empty.perform h.performed

/-- The scope before the last visit. -/
theorem exists_before {v : Visit} (h : p.Reaches policy (vs ++ [v]) t) :
    ∃ s, p.Reaches policy vs s ∧ perform policy [v.act] s = .ok t := by
  obtain ⟨s, hs, ht⟩ := perform_concat.1 h.performed
  exact ⟨s, ⟨(List.prefix_append _ _).trans h.visited, hs⟩, ht⟩

/-- An effect takes place where the checks that it needs have passed. -/
theorem guarded (h : p.Reaches policy vs s) {body : BodyPath} {e : Effect}
    (hnext : vs ++ [⟨body, .effect e⟩] <+: p.visits) :
    e.Guarded fun c => c.test policy s = .ok () := by
  -- what the checks until here have shown; nothing is known of those that come later
  let H : List Visit → Check → Prop := fun b c =>
    b <+: vs → ∀ s, perform policy (b.map Visit.act) .empty = .ok s → c.test policy s = .ok ()
  have hstable : Stable H := by
    intro b body c c' hb hle s hs
    obtain ⟨mid, hmid, hc'⟩ := perform_concat.1 hs
    obtain ⟨_, rfl⟩ := perform_check.1 hc'
    exact hb ((List.prefix_append _ _).trans hle) mid hmid
  obtain ⟨after, hafter⟩ := hnext
  rw [List.append_assoc] at hafter
  have hchecks : Throughout (OnChecks H) [] p.visits := by
    intro pre body' a post hvisits
    cases a with
    | effect e' => trivial
    | check c =>
      rintro ⟨mid, hmid⟩ s₀ hs₀
      rw [List.nil_append] at hmid hs₀
      rw [hvisits, ← hmid, List.append_assoc] at hafter
      have htail := List.append_cancel_left hafter
      cases mid with
      | nil => cases (List.cons.inj htail).1
      | cons v mid =>
        obtain ⟨rfl, _⟩ := List.cons.inj htail
        have hs := h.performed
        rw [← hmid, List.append_cons, List.map_append, perform_append, Reader.bind_eq_ok] at hs
        obtain ⟨_, hs, _⟩ := hs
        obtain ⟨s₁, hs₁, hc⟩ := perform_concat.1 hs
        cases hs₀.symm.trans hs₁
        exact (perform_check.1 hc).1
  have hguarded := Program.guarded hstable hchecks hafter.symm
  exact hguarded.mono fun c hc => hc (List.prefix_refl _) s h.performed

/-- What holds of a scope of a run holds of all later ones when every check and every effect
keeps it. -/
theorem induction (h : p.Reaches policy vs s) {P : List Visit → Scope → Prop} (start : P vs s)
    (check : ∀ ws t body c, p.Reaches policy ws t → P ws t → P (ws ++ [⟨body, .check c⟩]) t)
    (effect : ∀ ws t body e, p.Reaches policy ws t →
      e.Guarded (fun c => c.test policy t = .ok ()) → e.OpenedIn ws → P ws t →
        P (ws ++ [⟨body, .effect e⟩]) (e.apply t))
    (h' : p.Reaches policy ws t) (hle : vs <+: ws) : P ws t := by
  obtain ⟨us, rfl⟩ := hle
  induction us using List.reverseRecOn generalizing t with
  | nil =>
    rw [List.append_nil] at h' ⊢
    cases h.performed.symm.trans h'.performed
    exact start
  | append_singleton us v ih =>
    rw [← List.append_assoc] at h' ⊢
    obtain ⟨mid, hmid, hv⟩ := h'.exists_before
    obtain ⟨body, act⟩ := v
    cases act with
    | check c =>
      obtain ⟨_, rfl⟩ := perform_check.1 hv
      exact check _ mid body c hmid (ih hmid)
    | effect e =>
      cases hv
      obtain ⟨after, hafter⟩ := h'.visited
      rw [List.append_assoc] at hafter
      have hopened := openedBefore_visitsOf p [] [] 0 _ body (.effect e) after hafter.symm
      exact effect _ mid body e hmid (hmid.guarded h'.visited) hopened (ih hmid)

end Program.Reaches

end ArchScript
