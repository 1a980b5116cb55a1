/-
  Where a scope keeps its entities, in terms of the history.

  `Places ps cs st s` says what the tables of containment hold after the placements `ps` and
  the closings `cs`, inside the open bodies `st`: an open body lists the entities that were
  placed last in it, and an entity is in the container whose last closed body is the body
  of its last placement. Moving an entity and opening or closing a body keep this.
-/
import ArchScript.Proofs.Containment.History
import ArchScript.Proofs.Containment.Nesting
import ArchScript.Proofs.Table

namespace ArchScript

/-! ## Ids of a kind -/

theorem idsOfKind_filter (k : MemberKind) (ms : List Member) (p : Member → Bool) :
    idsOfKind k (ms.filter p) = (idsOfKind k ms).filter fun id => p ⟨k, id⟩ := by
  induction ms with
  | nil => rfl
  | cons m ms ih =>
    obtain ⟨j, id⟩ := m
    unfold idsOfKind at ih ⊢
    by_cases hj : j = k
    · subst hj
      cases hp : p ⟨j, id⟩ <;> simp [hp, ih, -List.filter_filter]
    · cases hp : p ⟨j, id⟩ <;> simp [hp, hj, ih, -List.filter_filter]

theorem mem_idsOfKind_iff {k : MemberKind} {ms : List Member} {id : Ident} :
    id ∈ idsOfKind k ms ↔ ⟨k, id⟩ ∈ ms := by
  simp only [idsOfKind, List.mem_map, List.mem_filter, decide_eq_true_eq]
  constructor
  · rintro ⟨m, ⟨hm, rfl⟩, rfl⟩
    exact hm
  · intro h
    exact ⟨_, ⟨h, rfl⟩, rfl⟩

theorem nodup_idsOfKind {k : MemberKind} {ms : List Member} (h : ms.Nodup) :
    (idsOfKind k ms).Nodup := by
  refine (h.filter _).map_on fun m hm n hn e => ?_
  simp only [List.mem_filter, decide_eq_true_eq] at hm hn
  obtain ⟨j, id⟩ := m
  obtain ⟨j', id'⟩ := n
  cases hm.2
  cases hn.2
  cases e
  rfl

/-! ## Places -/

/-- What a scope holds about containment after the placements `ps` and the closings `cs`,
inside the open bodies `st`. -/
structure Places (ps : List Placement) (cs : List Closing) (st : List BodyPath) (s : Scope) :
    Prop where
  /-- an open body lists what was placed last in it -/
  bodies : s.openBodies = st.map (membersIn (latest ps))
  /-- an entity is in the container that was closed last as the body of its last placement -/
  parents : ∀ m c, s.parent? m = some c ↔
    ∃ p ∈ latest ps, p.member = m ∧ lastClosed cs c = some p.body
  /-- a container lists, of what it still holds, what was placed last in its body -/
  lists : ∀ c x path, s.containers.get? c = some x → lastClosed cs c = some path → ∀ k,
    (x.members.ofKind k).filter (fun id => s.parent? ⟨k, id⟩ = some c) =
      idsOfKind k (membersIn (latest ps) path)
  /-- the containers are those with a closed body -/
  closed : ∀ c, c ∈ s.containers.keys ↔ ∃ path, lastClosed cs c = some path

namespace Places

variable {ps : List Placement} {cs : List Closing} {st : List BodyPath} {s : Scope}

theorem empty : Places [] [] [] Scope.empty where
  bodies := rfl
  parents m c := by simp [latest, Scope.parent?, Scope.empty]
  lists c x path hx := by cases hx
  closed c := by simp [lastClosed, Scope.empty, Table.keys, Table.empty]

/-- Only the tables of containment count. -/
theorem of_eq (h : Places ps cs st s) {s' : Scope} (hp : s'.parents = s.parents)
    (hb : s'.openBodies = s.openBodies) (hc : s'.containers = s.containers) :
    Places ps cs st s' := by
  obtain ⟨h₁, h₂, h₃, h₄⟩ := h
  unfold Scope.parent? at h₂ h₃
  constructor
  · rw [hb, h₁]
  · unfold Scope.parent?
    rw [hp]
    exact h₂
  · unfold Scope.parent?
    rw [hp, hc]
    exact h₃
  · rw [hc]
    exact h₄

/-! ## Moving an entity -/

theorem moveToFront_map (ps : List Placement) (m : Member) {path : BodyPath}
    {st : List BodyPath} (hst : (path :: st).Nodup) :
    Scope.moveToFront m ((path :: st).map (membersIn (latest ps))) =
      (path :: st).map (membersIn (latest (ps ++ [⟨m, path⟩]))) := by
  have hrest : st.map (membersIn (latest (ps ++ [⟨m, path⟩]))) =
      (st.map (membersIn (latest ps))).map fun body => body.filter fun x => !decide (x = m) := by
    rw [List.map_map]
    refine List.map_congr_left fun outer houter => ?_
    have hne : path ≠ outer := fun e => (List.nodup_cons.1 hst).1 (e ▸ houter)
    exact membersIn_latest_append_of_ne hne
  rw [List.map_cons, List.map_cons, hrest]
  have hself := membersIn_latest_append_self ps ⟨m, path⟩
  rw [hself]
  rfl

theorem parent?_moveHere (s : Scope) (m n : Member) :
    (s.moveHere m).parent? n = if n = m then none else s.parent? n :=
  Table.get?_erase s.parents m n

/-- An entity that moves here leaves its old place. -/
theorem moveHere (h : Places ps cs st s) (m : Member) (hst : st.Nodup)
    (hopen : ∀ c, lastClosed cs c ≠ some (innermost st)) :
    Places (ps ++ [⟨m, innermost st⟩]) cs st (s.moveHere m) where
  bodies := by
    show Scope.moveToFront m s.openBodies = _
    rw [h.bodies]
    cases st with
    | nil => rfl
    | cons path st => exact moveToFront_map ps m hst
  parents n c := by
    rw [parent?_moveHere, latest_append_singleton]
    by_cases hn : n = m
    · subst hn
      simp only [if_true, List.mem_append, List.mem_filter, List.mem_singleton]
      constructor
      · intro hc
        cases hc
      · rintro ⟨p, hp | rfl, hpn, hc⟩
        · simp [hpn] at hp
        · exact (hopen c hc).elim
    · rw [if_neg hn, h.parents n c]
      constructor
      · rintro ⟨p, hp, rfl, hc⟩
        refine ⟨p, List.mem_append_left _ (List.mem_filter.2 ⟨hp, ?_⟩), rfl, hc⟩
        simpa using hn
      · rintro ⟨p, hp, hpn, hc⟩
        rcases List.mem_append.1 hp with hp | hp
        · exact ⟨p, (List.mem_filter.1 hp).1, hpn, hc⟩
        · rw [List.mem_singleton.1 hp] at hpn
          exact (hn hpn.symm).elim
  lists c x path hx hc k := by
    have hne : innermost st ≠ path := fun e => hopen c (e ▸ hc)
    rw [membersIn_latest_append_of_ne hne, idsOfKind_filter, ← h.lists c x path hx hc k,
      List.filter_filter]
    refine List.filter_congr fun id _ => ?_
    rw [parent?_moveHere]
    by_cases hid : (⟨k, id⟩ : Member) = m <;> simp [hid]
  closed := h.closed

/-! ## Opening a body -/

theorem openBody (h : Places ps cs st s) {path : BodyPath}
    (hnew : ∀ p ∈ ps, p.body ≠ path) (id : Ident) (span : Span) :
    Places ps cs (path :: st) (s.openBody id span) where
  bodies := by
    have hempty : membersIn (latest ps) path = [] := by
      refine List.eq_nil_iff_forall_not_mem.2 fun m hm => ?_
      exact hnew _ ((latest_sublist ps).subset (mem_membersIn_iff.1 hm)) rfl
    rw [List.map_cons, hempty, ← h.bodies]
    rfl
  parents := h.parents
  lists := h.lists
  closed := h.closed

/-! ## Closing a body -/

/-- A scope after its innermost body was taken off and its members were given to `id`. -/
def takeBody (s : Scope) (id : Ident) (name : String) : Scope :=
  let body := s.openBodies.head?.getD []
  { s with
    openBodies := s.openBodies.tail
    parents := body.foldl (fun t m => t.insert m id)
      (s.parents.filter fun _ parent => !decide (parent = id))
    containers := s.containers.insert id (.defined id name (.ofList body)) }

theorem closeBody_eq (s : Scope) (id : Ident) (name : String) :
    s.closeBody id name = (takeBody s id name).moveHere ⟨.container, id⟩ := rfl

variable {path : BodyPath}

theorem head_openBodies (h : Places ps cs (path :: st) s) :
    s.openBodies.head?.getD [] = membersIn (latest ps) path := by
  rw [h.bodies]
  rfl

theorem parent?_takeBody (h : Places ps cs (path :: st) s) (id : Ident) (name : String)
    (m : Member) :
    (takeBody s id name).parent? m =
      if m ∈ membersIn (latest ps) path then some id
      else (s.parent? m).filter fun parent => !decide (parent = id) := by
  unfold takeBody Scope.parent?
  simp only [Table.get?_foldl_insert, Table.get?_filter, h.head_openBodies]

/-- What another container holds it keeps. -/
theorem parent?_takeBody_of_ne (h : Places ps cs (path :: st) s)
    (hopen : ∀ c, lastClosed cs c ≠ some path) {id c : Ident} (hc : c ≠ id) (name : String)
    (m : Member) : (takeBody s id name).parent? m = some c ↔ s.parent? m = some c := by
  rw [h.parent?_takeBody]
  by_cases hm : m ∈ membersIn (latest ps) path
  · rw [if_pos hm, h.parents]
    constructor
    · intro e
      cases e
      exact (hc rfl).elim
    · rintro ⟨p, hp, rfl, hlast⟩
      have e := eq_of_mem_latest hp (mem_membersIn_iff.1 hm) rfl
      rw [e] at hlast
      exact (hopen c hlast).elim
  · rw [if_neg hm, Option.filter_eq_some_iff]
    simp [hc]

theorem takeBody_places (h : Places ps cs (path :: st) s)
    (hopen : ∀ c, lastClosed cs c ≠ some path) (id : Ident) (name : String) :
    Places ps (cs ++ [⟨path, id⟩]) st (takeBody s id name) where
  bodies := by
    show s.openBodies.tail = _
    rw [h.bodies]
    rfl
  parents m c := by
    rw [lastClosed_append_singleton]
    by_cases hc : id = c
    · subst hc
      rw [h.parent?_takeBody, if_pos rfl]
      have hmem : m ∈ membersIn (latest ps) path ↔
          ∃ p ∈ latest ps, p.member = m ∧ some path = some p.body := by
        rw [mem_membersIn_iff]
        constructor
        · intro hm
          exact ⟨_, hm, rfl, rfl⟩
        · rintro ⟨⟨n, q⟩, hp, rfl, e⟩
          cases e
          exact hp
      rw [← hmem]
      by_cases hm : m ∈ membersIn (latest ps) path <;> simp [hm, Option.filter_eq_some_iff]
    · rw [h.parent?_takeBody_of_ne hopen fun e => hc e.symm, h.parents, if_neg hc]
  lists c x q hx hq k := by
    rw [lastClosed_append_singleton] at hq
    simp only [takeBody, Table.get?_insert, h.head_openBodies] at hx
    by_cases hc : id = c
    · subst hc
      rw [if_pos rfl] at hx hq
      cases hx
      cases hq
      simp only [Container.defined, Members.ofKind_ofList]
      refine List.filter_eq_self.2 fun i hi => ?_
      rw [h.parent?_takeBody, if_pos (mem_idsOfKind_iff.1 hi)]
      simp
    · rw [if_neg hc] at hx hq
      rw [← h.lists c x q hx hq k]
      refine List.filter_congr fun i _ => ?_
      simp only [h.parent?_takeBody_of_ne hopen (fun e => hc e.symm : c ≠ id)]
  closed c := by
    rw [lastClosed_append_singleton]
    simp only [takeBody, Table.mem_keys_insert, h.closed c]
    by_cases hc : id = c
    · simp [hc]
    · have hc' : ¬ c = id := fun e => hc e.symm
      simp [hc, hc']

/-- A closed container holds what was placed last in its body, and stands around that. -/
theorem closeBody (h : Places ps cs (path :: st) s) (hst : (path :: st).Nodup)
    (hopen : ∀ q ∈ path :: st, ∀ c, lastClosed cs c ≠ some q)
    (hnil : ∀ c, lastClosed cs c ≠ some []) (hpath : path ≠ []) (id : Ident) (name : String) :
    Places (ps ++ [⟨⟨.container, id⟩, innermost st⟩]) (cs ++ [⟨path, id⟩]) st
      (s.closeBody id name) := by
  rw [closeBody_eq]
  refine (h.takeBody_places (hopen path List.mem_cons_self) id name).moveHere _
    (List.nodup_cons.1 hst).2 fun c => ?_
  rw [lastClosed_append_singleton]
  cases st with
  | nil =>
    split
    · intro e
      exact hpath (Option.some.inj e)
    · exact hnil c
  | cons outer st =>
    split
    · intro e
      have hne : path = outer := Option.some.inj e
      exact (List.nodup_cons.1 hst).1 (hne ▸ List.mem_cons_self)
    · exact hopen outer (List.mem_cons_of_mem _ List.mem_cons_self) c

end Places

end ArchScript
