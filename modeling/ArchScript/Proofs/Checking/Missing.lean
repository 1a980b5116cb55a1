/-
  References to no actor.

  A reference whose id no actor has is reported as a container when one of that id was closed
  before it, and as undefined otherwise (`Program.elaborate_missing`). A container counts as
  defined from its head on, and what was opened before a visit and not closed is a body around
  it (`bodiesAround_visits`). So the two agree except inside the body of the first container
  of the id: there the head stands before the reference, and the reference is undefined.
-/
import ArchScript.Proofs.Checking.Reach

namespace ArchScript

/-! ## What a scope knows along a walk -/

/-- A scope knows what a walk to it has visited, whatever the identifiers are. -/
theorem Knows.perform {policy : Redeclaration} {before vs : List Visit} {s t : Scope}
    (h : Knows before s) (ht : ArchScript.perform policy (vs.map Visit.act) s = .ok t) :
    Knows (before ++ vs) t := by
  induction vs generalizing before s with
  | nil =>
    cases ht
    rw [List.append_nil]
    exact h
  | cons v vs ih =>
    obtain ⟨body, act⟩ := v
    rw [List.append_cons]
    cases act with
    | check c =>
      obtain ⟨_, _, ht⟩ := Reader.bind_eq_ok.1 ht
      exact ih (h.check body c) ht
    | effect e => exact ih (h.effect body e) ht

/-! ## References -/

/-- The identifier that a check asks an actor for. -/
def Check.reference? : Check → Option (Spanned Ident)
  | known ref => some ref
  | active _ ref => some ref
  | store _ ref => some ref
  | requested _ _ _ => none
  | unused _ _ => none

/-- A reference to no actor fails with the same violation, whatever it is asked for. -/
theorem Knows.test_missing {vs : List Visit} {s : Scope} (h : Knows vs s) {c : Check}
    {ref : Spanned Ident} (href : c.reference? = some ref) (hkind : kindOf vs ref.value = none) :
    c.test .replace s = .error (Check.missing vs ref) := by
  have hactor : Elaboration.actor s ref = .error (Check.missing vs ref) := by
    have hnone : s.actors.get? ref.value = none := by
      rw [← Option.map_eq_none_iff (f := Actor.kind), h.kinds, hkind]
    simp only [Elaboration.actor, Check.missing, hnone, h.closed]
    split <;> rfl
  cases c with
  | known r =>
    cases href
    rw [Check.test, hactor]
    rfl
  | active role r =>
    cases href
    rw [Check.test, hactor]
    rfl
  | store role r =>
    cases href
    rw [Check.test, hactor]
    rfl
  | requested a b step => cases href
  | unused what r => cases href

/-! ## Bodies around a visit -/

/-- What was opened among the visits `pre` is closed among them or is a body around `body`. -/
def BodiesAround (pre : List Visit) (body : BodyPath) : Prop :=
  ∀ v ∈ pre, ∀ path head, v.act = .effect (.openBody path head) →
    ⟨path, head.id.value⟩ ∈ closings pre ∨ path <:+ body

theorem bodiesAround_of_path? {pre : List Visit} (h : ∀ v ∈ pre, v.act.path? = none)
    (body : BodyPath) : BodiesAround pre body := by
  intro v hv path head hact
  have hpath := h v hv
  rw [hact] at hpath
  cases hpath

theorem BodiesAround.append {pre vs : List Visit} {body : BodyPath} (h : BodiesAround pre body)
    (hvs : BodiesAround vs body) : BodiesAround (pre ++ vs) body := by
  intro v hv path head hact
  rw [closings_append, List.mem_append]
  rcases List.mem_append.1 hv with hv | hv
  · exact (h v hv path head hact).imp_left Or.inl
  · exact (hvs v hv path head hact).imp_left Or.inr

/-- Statements close what they open. -/
theorem closed_visitsOf (xs : List (Spanned Statement)) (body : BodyPath) (i : Nat) :
    ∀ v ∈ visitsOf body i xs, ∀ path head, v.act = .effect (.openBody path head) →
      ⟨path, head.id.value⟩ ∈ closings (visitsOf body i xs) := by
  induction xs using Program.induction generalizing body i with
  | nil => simp [visitsOf]
  | flat x span xs hx ih =>
    intro v hv path head hact
    rw [visitsOf_flat hx] at hv ⊢
    rw [closings_append, List.mem_append]
    rcases List.mem_append.1 hv with hv | hv
    · obtain ⟨a, ha, rfl⟩ := List.mem_map.1 hv
      have hpath := path?_acts x a ha
      cases hact
      cases hpath
    · exact Or.inr (ih body (i + 1) v hv path head hact)
  | container head inner span xs ih₁ ih₂ =>
    intro v hv path head' hact
    rw [visitsOf_container] at hv ⊢
    simp only [closings, List.filterMap_cons, Visit.closing?, List.filterMap_append,
      List.mem_append, List.mem_cons]
    simp only [List.mem_cons, List.mem_append] at hv
    rcases hv with rfl | rfl | hv | rfl | hv
    · cases hact
    · cases hact
      exact Or.inr (Or.inl rfl)
    · exact Or.inl (ih₁ (i :: body) 0 v hv path head' hact)
    · cases hact
    · exact Or.inr (Or.inr (ih₂ body (i + 1) v hv path head' hact))

theorem bodiesAround_closed (xs : List (Spanned Statement)) (body : BodyPath) (i : Nat)
    (around : BodyPath) : BodiesAround (visitsOf body i xs) around :=
  fun v hv path head hact => Or.inl (closed_visitsOf xs body i v hv path head hact)

/-- Every check of a walk that goes on after the visits `before` stands inside all bodies
that are open where it stands. -/
def Sheltered (before vs : List Visit) : Prop :=
  ∀ pre body c post, vs = pre ++ ⟨body, .check c⟩ :: post → BodiesAround (before ++ pre) body

theorem Sheltered.append {before vs ws : List Visit} (hv : Sheltered before vs)
    (hw : Sheltered (before ++ vs) ws) : Sheltered before (vs ++ ws) := by
  intro pre body c post h
  rw [List.append_eq_append_iff] at h
  rcases h with ⟨mid, rfl, hws⟩ | ⟨mid, hvs, hrest⟩
  · rw [← List.append_assoc]
    exact hw mid body c post hws
  · rw [List.cons_eq_append_iff] at hrest
    rcases hrest with ⟨rfl, hws⟩ | ⟨mid', rfl, _⟩
    · rw [List.append_nil] at hvs
      have h := hw [] body c post hws
      rw [List.append_nil, hvs] at h
      exact h
    · exact hv pre body c mid' hvs

theorem Sheltered.cons {before vs : List Visit} {v : Visit}
    (hv : ∀ c, v.act = .check c → BodiesAround before v.body)
    (hvs : Sheltered (before ++ [v]) vs) : Sheltered before (v :: vs) := by
  intro pre body c post h
  cases pre with
  | nil =>
    obtain ⟨rfl, _⟩ := List.cons.inj h
    rw [List.append_nil]
    exact hv c rfl
  | cons u pre =>
    obtain ⟨rfl, htail⟩ := List.cons.inj h
    rw [List.append_cons]
    exact hvs pre body c post htail

/-- An effect may stand anywhere. -/
theorem Sheltered.effect {before vs : List Visit} {body : BodyPath} {e : Effect}
    (hvs : Sheltered (before ++ [⟨body, .effect e⟩]) vs) :
    Sheltered before (⟨body, .effect e⟩ :: vs) := by
  refine .cons (fun c hc => ?_) hvs
  cases hc

/-- Visits that open nothing are sheltered where they begin. -/
theorem sheltered_of_path? {before vs : List Visit} (h : ∀ v ∈ vs, v.act.path? = none)
    (hbefore : ∀ v ∈ vs, BodiesAround before v.body) : Sheltered before vs := by
  rintro pre body c post rfl
  refine (hbefore _ (List.mem_append_right pre List.mem_cons_self)).append ?_
  exact bodiesAround_of_path? (fun v hv => h v (List.mem_append_left _ hv)) body

/-- Statements are sheltered where all that was opened before and is open is around them. -/
theorem sheltered_visitsOf (xs : List (Spanned Statement)) (before : List Visit)
    (body : BodyPath) (i : Nat) (h : ∀ inner, body <:+ inner → BodiesAround before inner) :
    Sheltered before (visitsOf body i xs) := by
  induction xs using Program.induction generalizing before body i with
  | nil =>
    refine sheltered_of_path? ?_ ?_ <;> simp [visitsOf]
  | flat x span xs hx ih =>
    have hacts : ∀ v ∈ x.acts.map (Visit.mk body), v.act.path? = none :=
      List.forall_mem_map.2 (path?_acts x)
    rw [visitsOf_flat hx]
    refine (sheltered_of_path? hacts ?_).append (ih _ body (i + 1) fun inner hinner => ?_)
    · exact List.forall_mem_map.2 fun a _ => h body (List.suffix_refl body)
    · exact (h inner hinner).append (bodiesAround_of_path? hacts inner)
  | container head inner span xs ih₁ ih₂ =>
    rw [visitsOf_container]
    refine .cons (fun _ _ => h body (List.suffix_refl body)) (.effect (.append ?_ (.effect ?_)))
    · refine ih₁ _ (i :: body) 0 fun around haround => ?_
      rw [List.append_assoc]
      have houter := h around ((List.suffix_cons i body).trans haround)
      refine houter.append fun v hv path head' hact => ?_
      -- only the body itself was opened, and it is still open
      simp only [List.cons_append, List.nil_append, List.mem_cons, List.not_mem_nil, or_false] at hv
      rcases hv with rfl | rfl
      · cases hact
      · cases hact
        exact Or.inr haround
    · refine ih₂ _ body (i + 1) fun around haround => ?_
      have hwhole := bodiesAround_closed [⟨.container head inner, span⟩] body i around
      rw [visitsOf_container, visitsOf] at hwhole
      simpa using (h around haround).append hwhole

/-- Every check of a program stands inside all bodies that are open before it. -/
theorem sheltered_visits (p : Program) : Sheltered [] p.visits :=
  sheltered_visitsOf p [] [] 0 fun inner _ => bodiesAround_of_path? (by simp) inner

/-! ## Heads and bodies -/

/-- A body around, or the body itself, is that of a container with the id `x`. -/
def InBodyOf (before : List Visit) (body : BodyPath) (x : Ident) : Prop :=
  ∃ v ∈ before, ∃ path head, v.act = .effect (.openBody path head) ∧ head.id.value = x ∧
    path <:+ body

theorem closedIn_iff {vs : List Visit} {x : Ident} :
    closedIn vs x = true ↔ ∃ path, ⟨path, x⟩ ∈ closings vs := by
  simp only [closedIn, List.any_eq_true, decide_eq_true_eq]
  constructor
  · rintro ⟨⟨path, _⟩, hmem, rfl⟩
    exact ⟨path, hmem⟩
  · rintro ⟨path, hmem⟩
    exact ⟨_, hmem, rfl⟩

/-- A container was opened before it was closed. -/
theorem definedIn_of_closedIn {p : Program} {before after : List Visit}
    (h : p.visits = before ++ after) {x : Ident} (hx : closedIn before x = true) :
    DefinedIn before ⟨.container, x⟩ := by
  obtain ⟨path, hmem⟩ := closedIn_iff.1 hx
  obtain ⟨v, hv, hclosing⟩ := List.mem_filterMap.1 hmem
  obtain ⟨path', head, hact, hid⟩ := Visit.closing?_eq_some_iff.1 hclosing
  cases hid
  obtain ⟨pre, post, rfl⟩ := List.append_of_mem hv
  obtain ⟨body, act⟩ := v
  cases hact
  rw [List.append_assoc, List.cons_append] at h
  obtain ⟨u, hu, e, hopen⟩ := openedBefore_visitsOf p [] [] 0 pre body _ _ h path head rfl
  exact ⟨u, List.mem_append_left _ hu, e, hopen⟩

/-- The head of a container stands before a check when the container is closed before it or
its body is around it. -/
theorem definedIn_container_iff {p : Program} {before after : List Visit} {body : BodyPath}
    {c : Check} (h : p.visits = before ++ ⟨body, .check c⟩ :: after) (x : Ident) :
    DefinedIn before ⟨.container, x⟩ ↔ closedIn before x = true ∨ InBodyOf before body x := by
  constructor
  · rintro ⟨v, hv, e, hact, hdefined⟩
    cases e with
    | openBody path head =>
      cases hdefined
      rcases sheltered_visits p before body c after h v hv path head hact with hclosed | haround
      · exact Or.inl (closedIn_iff.2 ⟨path, hclosed⟩)
      · exact Or.inr ⟨v, hv, path, head, hact, rfl, haround⟩
    | _ => cases hdefined
  · rintro (hclosed | ⟨v, hv, path, head, hact, rfl, _⟩)
    · exact definedIn_of_closedIn h hclosed
    · exact ⟨v, hv, _, hact, rfl⟩

/-! ## The codes -/

/-- When the first violation of a program is a reference to no actor, its label is at the
reference, and it is reported as a container if one of the id was closed before and as
undefined if none was. This is whether a container of the id has its head before the
reference, unless the reference stands in the body of such a container and none of the id
was closed before. -/
theorem Program.elaborate_missing {p : Program} {before after : List Visit} {body : BodyPath}
    {c : Check} {ref : Spanned Ident} (resolve : Bool)
    (hvisits : p.visits = before ++ ⟨body, .check c⟩ :: after)
    (href : c.reference? = some ref)
    (hfirst : ∃ s, perform .replace (before.map Visit.act) .empty = .ok s)
    (hkind : kindOf before ref.value = none) :
    ∃ w, p.elaborate ⟨resolve, .replace⟩ = .error w ∧
      w.diagnostic.labels = [⟨ref.span, w.note, true⟩] ∧
      w.diagnostic.code = some (if closedIn before ref.value then .notAnActor
        else .undefinedIdentifier) ∧
      ((w.diagnostic.code = some .notAnActor ↔ DefinedIn before ⟨.container, ref.value⟩) ↔
        (InBodyOf before body ref.value → closedIn before ref.value = true)) := by
  obtain ⟨s, hs⟩ := hfirst
  have hknows : Knows before s := Knows.empty.perform hs
  have herror : p.elaborate ⟨resolve, .replace⟩ = .error (Check.missing before ref) := by
    rw [Program.elaborate_eq_error_iff, hvisits, List.map_append, perform_append, hs]
    simp only [bind, Except.bind, List.map_cons, perform, hknows.test_missing href hkind]
  obtain ⟨hcode, hlabels⟩ := Check.diagnostic_missing before ref hkind
  simp only [Check.referenceCode, hkind] at hcode
  refine ⟨_, herror, hlabels, hcode, ?_⟩
  rw [hcode, definedIn_container_iff hvisits]
  by_cases hclosed : closedIn before ref.value = true
  · simp [hclosed]
  · simp [hclosed]

/-- A container is closed, and one of its id is open around a note on the id. -/
def reopenedContainer : Program :=
  [unplaced (.container ⟨unplaced "C", unplaced "c"⟩ []),
    unplaced (.container ⟨unplaced "C", unplaced "c"⟩
      [unplaced (.note ⟨⟨"c", .ofSize 9 1⟩, unplaced "x"⟩)])]

/-- The note names the closed container. -/
theorem Program.elaborate_missing_reopenedContainer :
    DefinedIn (reopenedContainer.visits.take 5) ⟨.container, "c"⟩ ∧
      ∃ w, reopenedContainer.elaborate .default = .error w ∧
        w.diagnostic.labels = [⟨.ofSize 9 1, w.note, true⟩] ∧
        w.diagnostic.code = some .notAnActor := by
  have hvisits : reopenedContainer.visits = reopenedContainer.visits.take 5 ++
      ⟨[1], .check (.known ⟨"c", .ofSize 9 1⟩)⟩ :: reopenedContainer.visits.drop 6 := rfl
  have hclosed : closedIn (reopenedContainer.visits.take 5) "c" = true := by decide
  obtain ⟨w, hw, hlabels, hcode, hiff⟩ :=
    Program.elaborate_missing true hvisits rfl ⟨_, rfl⟩ (by decide)
  simp only [hclosed, if_true] at hcode
  exact ⟨(hiff.2 fun _ => hclosed).1 hcode, w, hw, hlabels, hcode⟩

/-- A note on a container in its own body: `container 'C' as c { note for c: 'x' };`. -/
def openContainer : Program :=
  [unplaced (.container ⟨unplaced "C", unplaced "c"⟩
    [unplaced (.note ⟨unplaced "c", unplaced "x"⟩)])]

/-- The head of the container stands before the note, and the note is reported as undefined. -/
theorem openContainer_undefined :
    (∃ after, openContainer.visits =
      openContainer.visits.take 2 ++ ⟨[0], .check (.known (unplaced "c"))⟩ :: after) ∧
      (∃ s, perform .replace ((openContainer.visits.take 2).map Visit.act) .empty = .ok s) ∧
      kindOf (openContainer.visits.take 2) "c" = none ∧
      DefinedIn (openContainer.visits.take 2) ⟨.container, "c"⟩ ∧
      ∃ w, openContainer.elaborate .default = .error w ∧
        w.diagnostic.code = some .undefinedIdentifier := by
  refine ⟨⟨_, rfl⟩, ⟨_, rfl⟩, by decide, ?_, _, rfl, rfl⟩
  exact ⟨_, List.mem_cons_of_mem _ List.mem_cons_self, _, rfl, rfl⟩

end ArchScript
