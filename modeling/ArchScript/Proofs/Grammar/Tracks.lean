/-
  Readers keep to the agenda.

  `Tracks all L R ts r`: a reader with the result `r` on the tokens `ts` fills the slots `L`. If
  it succeeds, its tokens lead from `L` to optional slots among `R`. If it fails, it stops where
  the agenda does, and the tokens of its fault are consecutive ones of the tokens `all`. Each
  lemma `*_tracks` follows one reader, in the order of its tokens.
-/
import ArchScript.Program.Reader
import ArchScript.Proofs.Grammar.Stops

namespace ArchScript.Reader

open Agenda

variable {α β : Type} {all start ts rest : Tokens} {L L₁ L₂ R R₁ R₂ : Agenda}

/-! ## Readers in sequence -/

/-- A reader with the result `r` on the tokens `ts` fills the slots `L`. -/
def Tracks (all : Tokens) (L R : Agenda) (ts : Tokens) : Read (α × Tokens) → Prop
  | .ok p => p.2 <:+ ts ∧ Leads L R (values ts) (values p.2)
  | .error f => f.construct ++ f.rest <:+ all ∧ Stops L (values ts) (values f.rest)

/-- A reader that leaves a slot empty. -/
theorem tracks_empty {s : Slot} {a : α} (hs : s ∈ R) (h : Declines s (values ts)) :
    Tracks all [s] R ts (.ok (a, ts)) := by
  refine ⟨List.suffix_refl ts, .refl fun s' hs' => ?_⟩
  obtain rfl := List.mem_singleton.1 hs'
  exact ⟨hs, h⟩

theorem Tracks.mono {r : Read (α × Tokens)} (h : Tracks all L R ts r) (hR : R ⊆ R₂) :
    Tracks all L R₂ ts r := by
  cases r with
  | error f => exact h
  | ok p => exact ⟨h.1, h.2.mono hR⟩

/-- The fault of a reader is that of every sequence that it begins. -/
theorem Tracks.fault {f : SyntaxFault} (h : Tracks all L₁ R₁ ts (.error f : Read (α × Tokens)))
    (L₂ R₂ : Agenda) : Tracks all (L₁ ++ L₂) R₂ ts (.error f : Read (β × Tokens)) :=
  ⟨h.1, h.2.below L₂⟩

/-- A reader after one that has succeeded. -/
theorem Tracks.after {a : α} {r : Read (β × Tokens)} (h₁ : Tracks all L₁ R₁ ts (.ok (a, rest)))
    (h₂ : Tracks all L₂ R₂ rest r) (happart : Apart R₁ L₂)
    (hR : R₁ ⊆ R₂ ∨ ∃ s ∈ L₂, s.optional = false) : Tracks all (L₁ ++ L₂) R₂ ts r := by
  obtain ⟨hrest, hleads⟩ := h₁
  cases r with
  | error f => exact ⟨h₂.1, hleads.stops h₂.2 happart⟩
  | ok q => exact ⟨h₂.1.trans hrest, hleads.seq h₂.2 happart hR⟩

theorem Tracks.bind {r : Read (α × Tokens)} {f : α × Tokens → Read (β × Tokens)}
    (h₁ : Tracks all L₁ R₁ ts r)
    (h₂ : ∀ a rest, rest <:+ ts → Tracks all L₂ R₂ rest (f (a, rest)))
    (happart : Apart R₁ L₂) (hR : R₁ ⊆ R₂ ∨ ∃ s ∈ L₂, s.optional = false) :
    Tracks all (L₁ ++ L₂) R₂ ts (r >>= f) := by
  cases r with
  | error e => exact Tracks.fault h₁ L₂ R₂
  | ok p => exact h₁.after (h₂ p.1 p.2 h₁.1) happart hR

/-- A reader after one that fills the first slot. -/
theorem Tracks.cons {s : Slot} {r : Read (α × Tokens)} {f : α × Tokens → Read (β × Tokens)}
    (h₁ : Tracks all [s] [] ts r)
    (h₂ : ∀ a rest, rest <:+ ts → Tracks all L R rest (f (a, rest))) :
    Tracks all (s :: L) R ts (r >>= f) :=
  h₁.bind h₂ (apart_nil L) (Or.inl (List.nil_subset R))

/-- What a reader makes of what it read does not matter. -/
theorem Tracks.last {r : Read (α × Tokens)} {f : α × Tokens → Read (β × Tokens)}
    (h : Tracks all L R ts r) (hf : ∀ a rest, ∃ b, f (a, rest) = .ok (b, rest)) :
    Tracks all L R ts (r >>= f) := by
  cases r with
  | error e => exact h
  | ok p =>
    obtain ⟨b, hb⟩ := hf p.1 p.2
    rw [show (Except.ok p >>= f : Read (β × Tokens)) = f (p.1, p.2) from rfl, hb]
    exact h

/-- A reader whose slots are what the tokens before it lead to. -/
theorem Tracks.begun (read : Tokens) {L' : Agenda} {r : Read (α × Tokens)}
    (hrun : run L (values read) = some L') (h : Tracks all L' R ts r) :
    Tracks all L R (read ++ ts) r := by
  have hvalues : values (read ++ ts) = values read ++ values ts := List.map_append
  cases r with
  | error f =>
    refine ⟨h.1, ?_⟩
    rw [hvalues]
    exact h.2.after hrun
  | ok p =>
    obtain ⟨hrest, ws, N, hus, hN, hR⟩ := h
    refine ⟨hrest.trans (List.suffix_append read ts), values read ++ ws, N, ?_, ?_, hR⟩
    · rw [hvalues, hus, List.append_assoc]
    · rw [run_append_of_eq hrun]
      exact hN

/-! ## Single tokens -/

/-- The tokens of a fault and those that are left make up what the construct began with. -/
theorem construct_append_rest (expected : Expected) (h : ts <:+ start) :
    (SyntaxFault.stoppedAt expected start ts).construct ++
      (SyntaxFault.stoppedAt expected start ts).rest = start := by
  obtain ⟨front, rfl⟩ := h
  simp [SyntaxFault.stoppedAt]

section Accept

variable (hts : ts <:+ start) (hstart : start <:+ all)
include hts hstart

/-- A reader after a token that leaves the slots `L` open. -/
theorem accept_bind_tracks {pick : Token → Option α} (expected : Expected) {s : Slot}
    {f : Spanned α × Tokens → Read (β × Tokens)} (hs : s.optional = false)
    (hpending : s.pending = 0) (hpick : ∀ t, s.take? t = (pick t).map fun _ => L)
    (h : ∀ a rest, rest <:+ ts → Tracks all L R rest (f (a, rest))) :
    Tracks all [s] R ts (accept pick expected start ts >>= f) := by
  have hfault : (SyntaxFault.stoppedAt expected start ts).construct ++
      (SyntaxFault.stoppedAt expected start ts).rest <:+ all := by
    rw [construct_append_rest expected hts]
    exact hstart
  cases ts with
  | nil => exact ⟨hfault, stops_of_not_taken hs hpending nofun⟩
  | cons t ts =>
    rw [accept]
    cases ht : pick t.value with
    | none =>
      refine ⟨hfault, stops_of_not_taken hs hpending ?_⟩
      rintro _ ⟨⟩
      rw [hpick, ht, Option.map_none]
    | some a =>
      refine Tracks.begun [t] ?_ (h ⟨a, t.span⟩ ts (List.suffix_cons t ts))
      rw [values_cons, run_cons, step_take (d := L) (by rw [hpick, ht, Option.map_some])]
      simp

theorem accept_tracks {pick : Token → Option α} {expected : Expected} {s : Slot}
    (hs : s.optional = false) (hpending : s.pending = 0)
    (hpick : ∀ t, s.take? t = (pick t).map fun _ => []) :
    Tracks all [s] [] ts (accept pick expected start ts) := by
  have h := accept_bind_tracks (R := []) (f := pure) hts hstart expected hs hpending
    hpick fun a rest _ => ⟨List.suffix_refl rest, .refl nofun⟩
  rw [bind_pure] at h
  exact h

theorem accept_token_tracks (t : Token) (expected : Expected) :
    Tracks all [.token t] [] ts
      (accept (fun u => if u = t then some () else none) expected start ts) := by
  refine accept_tracks hts hstart rfl rfl fun u => ?_
  simp only [Slot.take?]
  split <;> rfl

theorem readName_tracks (role : Option NameRole) :
    Tracks all [.name] [] ts (readName role start ts) := by
  refine accept_tracks hts hstart rfl rfl fun t => ?_
  cases t <;> rfl

theorem readTextLiteral_tracks (role : TextRole) :
    Tracks all [.literal] [] ts (readTextLiteral role start ts) := by
  refine accept_tracks hts hstart rfl rfl fun t => ?_
  cases t <;> rfl

theorem readChannelArrow_tracks : Tracks all [.arrow] [] ts (readChannelArrow start ts) := by
  refine accept_tracks hts hstart rfl rfl fun t => ?_
  cases t with
  | sign u => cases u <;> rfl
  | _ => rfl

end Accept

/-! ## What may be left out -/

theorem declines_nil {s : Slot} (hs : s.optional = true) : Declines s [] := ⟨hs, Or.inl nofun⟩

theorem declines_cons {s : Slot} {t : Token} {us : List Token} (hs : s.optional = true)
    (h : s.take? t = none) : Declines s (t :: us) := by
  refine ⟨hs, Or.inl ?_⟩
  rintro _ ⟨⟩
  exact h

/-- A reader that takes the first token for a slot. -/
theorem tracks_take {s : Slot} {t : Spanned Token} {a : α} (h : s.take? t.value = some []) :
    Tracks all [s] R (t :: ts) (.ok (a, ts)) := by
  refine ⟨List.suffix_cons t ts, [t.value], [], rfl, ?_, nofun⟩
  rw [run_cons, step_take h]
  rfl

theorem optionalText_tracks (all ts : Tokens) :
    Tracks all [.optionalText] [.optionalText] ts (.ok (optionalText ts)) := by
  cases ts with
  | nil => exact tracks_empty List.mem_cons_self (declines_nil rfl)
  | cons t ts =>
    obtain ⟨t, span⟩ := t
    cases t with
    | text value => exact tracks_take rfl
    | _ => exact tracks_empty List.mem_cons_self (declines_cons rfl rfl)

theorem head_ne {t₀ : Token} (h : ∀ span rest, ts ≠ ⟨t₀, span⟩ :: rest) :
    ∀ t, (values ts).head? = some t → t ≠ t₀ := by
  rintro t ht rfl
  cases ts with
  | nil => cases ht
  | cons u rest =>
    cases ht
    exact h u.span rest rfl

/-- A slot that takes one token takes no other. -/
theorem not_taken_of_ne {s : Slot} {t₀ : Token} (hs : ∀ t, t ≠ t₀ → s.take? t = none)
    (h : ∀ span rest, ts ≠ ⟨t₀, span⟩ :: rest) :
    ∀ t, (values ts).head? = some t → s.take? t = none :=
  fun t ht => hs t (head_ne h t ht)

theorem skipSemicolon_tracks (all ts : Tokens) :
    Tracks all [.optionalSemicolon] [.optionalSemicolon] ts (.ok ((), skipSemicolon ts)) := by
  unfold skipSemicolon
  split
  · exact tracks_take rfl
  · next hts =>
    exact tracks_empty List.mem_cons_self
      ⟨rfl, Or.inl (not_taken_of_ne (fun _ ht => if_neg ht) hts)⟩

/-! ## References to annotations -/

/-- A comma without a reference after it is given back. -/
theorem declines_moreReferences (h : ∀ c a name n rest, ts ≠
    ⟨.sign .comma, c⟩ :: ⟨.sign .at, a⟩ :: ⟨.identifier name, n⟩ :: rest) :
    Declines .moreReferences (values ts) := by
  refine ⟨rfl, ?_⟩
  by_cases hcomma : ∀ c rest, ts ≠ ⟨.sign .comma, c⟩ :: rest
  · exact Or.inl (not_taken_of_ne (fun _ ht => if_neg ht) hcomma)
  · simp only [ne_eq, Classical.not_forall, Classical.not_not] at hcomma
    obtain ⟨c, rest, rfl⟩ := hcomma
    by_cases hat : ∀ a rest', rest ≠ ⟨.sign .at, a⟩ :: rest'
    · exact Or.inr (stops_of_pending [.sign .comma] rfl rfl rfl
        (not_taken_of_ne (fun _ ht => if_neg ht) hat))
    · simp only [ne_eq, Classical.not_forall, Classical.not_not] at hat
      obtain ⟨a, rest, rfl⟩ := hat
      refine Or.inr (stops_of_pending [.sign .comma, .sign .at] rfl rfl rfl ?_)
      intro t ht
      cases rest with
      | nil => cases ht
      | cons u rest =>
        cases ht
        obtain ⟨u, span⟩ := u
        cases u with
        | identifier name => exact absurd rfl (h c a name span rest)
        | _ => rfl

theorem moreReferences_tracks (ts : Tokens) :
    Tracks all [.moreReferences] [.moreReferences] ts (.ok (moreReferences ts)) := by
  fun_induction moreReferences ts with
  | case1 c a name n ts refs rest h ih =>
    rw [h] at ih
    exact Tracks.begun [⟨.sign .comma, c⟩, ⟨.sign .at, a⟩, ⟨.identifier name, n⟩] rfl ih
  | case2 ts h => exact tracks_empty List.mem_cons_self (declines_moreReferences h)

section Clauses

variable (hts : ts <:+ start) (hstart : start <:+ all)
include hts hstart

theorem readReference_tracks :
    Tracks all [.token (.sign .at), .name] [] ts (readReference start ts) :=
  (accept_token_tracks hts hstart _ _).cons fun _ _ h₁ =>
    readName_tracks (h₁.trans hts) hstart _

theorem readReferences_tracks :
    Tracks all [.token (.sign .at), .name, .moreReferences] [.moreReferences] ts
      (readReferences start ts) :=
  (readReference_tracks hts hstart).bind
    (fun _ rest _ => (moreReferences_tracks rest : Tracks all _ _ rest (.ok (moreReferences rest))))
    (apart_nil _) (Or.inl (List.nil_subset _))

end Clauses

theorem optionalReferences_tracks (hts : ts <:+ all) :
    Tracks all [.optionalClause] [.optionalClause, .moreReferences] ts (optionalReferences ts) := by
  unfold optionalReferences
  split
  · next span rest =>
    refine Tracks.begun [⟨.keyword .is, span⟩] rfl ?_
    exact (readReferences_tracks (List.suffix_cons _ rest) hts).mono (by simp)
  · next h =>
    exact tracks_empty List.mem_cons_self
      ⟨rfl, Or.inl (not_taken_of_ne (fun _ ht => if_neg ht) h)⟩

/-! ## Statements without braces -/

section Flat

variable (hts : ts <:+ start) (hstart : start <:+ all)
include hts hstart

theorem readActor_tracks (kind : Spanned ActorKind) :
    Tracks all [.literal, .token (.keyword .as), .name, .optionalClause]
      [.optionalClause, .moreReferences] ts (readActor kind start ts) :=
  (readTextLiteral_tracks hts hstart _).cons fun _ _ h₁ =>
  (accept_token_tracks (h₁.trans hts) hstart _ _).cons fun _ _ h₂ =>
  (readName_tracks (h₂.trans (h₁.trans hts)) hstart _).cons fun _ _ h₃ =>
  (optionalReferences_tracks (h₃.trans (h₂.trans (h₁.trans (hts.trans hstart))))).last
    fun _ _ => ⟨_, rfl⟩

theorem readNote_tracks (word : Span) :
    Tracks all [.token (.keyword .for), .name, .token (.sign .colon), .literal] [] ts
      (readNote word start ts) :=
  (accept_token_tracks hts hstart _ _).cons fun _ _ h₁ =>
  (readName_tracks (h₁.trans hts) hstart _).cons fun _ _ h₂ =>
  (accept_token_tracks (h₂.trans (h₁.trans hts)) hstart _ _).cons fun _ _ h₃ =>
  (readTextLiteral_tracks (h₃.trans (h₂.trans (h₁.trans hts))) hstart _).last fun _ _ => ⟨_, rfl⟩

theorem readAssignment_tracks (target : Spanned Ident) :
    Tracks all [.token (.sign .at), .name, .moreReferences] [.moreReferences] ts
      (readAssignment target start ts) :=
  (readReferences_tracks hts hstart).last fun _ _ => ⟨_, rfl⟩

theorem readCall_tracks (source : Spanned Ident) :
    Tracks all [.optionalText, .token (.sign .rightParen), .arrow, .name] [] ts
      (readCall source start ts) := by
  unfold readCall
  have htext := optionalText_tracks all ts
  cases hopt : optionalText ts with
  | mk text rest =>
    rw [hopt] at htext
    refine htext.after ?_ (apart_token (by decide) _) (Or.inr ⟨.arrow, by decide, rfl⟩)
    exact (accept_token_tracks (htext.1.trans hts) hstart _ _).cons fun _ _ h₁ =>
      (readChannelArrow_tracks (h₁.trans (htext.1.trans hts)) hstart).cons fun _ _ h₂ =>
      (readName_tracks (h₂.trans (h₁.trans (htext.1.trans hts))) hstart _).last fun _ _ => ⟨_, rfl⟩

theorem readFlow_tracks (kind : FlowKind) (left : Spanned Ident) :
    Tracks all [.name] [] ts (readFlow kind left start ts) :=
  (readName_tracks hts hstart _).last fun _ _ => ⟨_, rfl⟩

/-! ## Steps -/

theorem readRequestStep_tracks (source : Spanned Ident) :
    Tracks all [.optionalText, .token (.sign .rightParen), .arrow, .name] [] ts
      (readRequestStep source start ts) := by
  unfold readRequestStep
  have htext := optionalText_tracks all ts
  cases hopt : optionalText ts with
  | mk message rest =>
    rw [hopt] at htext
    refine htext.after ?_ (apart_token (by decide) _) (Or.inr ⟨.arrow, by decide, rfl⟩)
    exact (accept_token_tracks (htext.1.trans hts) hstart _ _).cons fun _ _ h₁ =>
      (readChannelArrow_tracks (h₁.trans (htext.1.trans hts)) hstart).cons fun _ _ h₂ =>
      (readName_tracks (h₂.trans (h₁.trans (htext.1.trans hts))) hstart _).last fun _ _ => ⟨_, rfl⟩

theorem readWriteStep_tracks (left : Spanned Ident) (message : Spanned String) :
    Tracks all [.token (.sign .arrow), .name] [] ts (readWriteStep left message start ts) :=
  (accept_token_tracks hts hstart _ _).cons fun _ _ h₁ =>
  (readName_tracks (h₁.trans hts) hstart _).last fun _ _ => ⟨_, rfl⟩

theorem readResponseStep_tracks (requester : Spanned Ident) :
    Tracks all [.token (.sign .leftParen), .optionalText, .token (.sign .rightParen),
      .token (.sign .responseArrow), .name] [] ts (readResponseStep requester start ts) := by
  refine (accept_token_tracks hts hstart _ _).cons fun _ mid h₀ => ?_
  have htext := optionalText_tracks all mid
  dsimp only
  cases hopt : optionalText mid with
  | mk message rest =>
    rw [hopt] at htext
    have hrest := htext.1.trans (h₀.trans hts)
    refine htext.after ?_ (apart_token (by decide) _) (Or.inr ⟨.name, by decide, rfl⟩)
    exact (accept_token_tracks hrest hstart _ _).cons fun _ _ h₁ =>
      (accept_token_tracks (h₁.trans hrest) hstart _ _).cons fun _ _ h₂ =>
      (readName_tracks (h₂.trans (h₁.trans hrest)) hstart _).last fun _ _ => ⟨_, rfl⟩

theorem readReadStep_tracks (left : Spanned Ident) :
    Tracks all [.readMessage] [] ts (readReadStep left start ts) := by
  refine accept_bind_tracks (L := [.token (.sign .dash), .name]) hts hstart _ rfl rfl
    (fun t => ?_) fun _ _ h₁ => ?_
  · cases t <;> rfl
  · exact (accept_token_tracks (h₁.trans hts) hstart _ _).cons fun _ _ h₂ =>
      (readName_tracks (h₂.trans (h₁.trans hts)) hstart _).last fun _ _ => ⟨_, rfl⟩

end Flat

/-! ## Items -/

/-- A reader of an item: it fills the slot, or the tokens do not begin an item, or it stops
after the first of them. -/
def TracksItem (all : Tokens) (kind : BlockItem) (ts : Tokens) :
    Read (Option (α × Tokens)) → Prop
  | .ok (some p) => p.2 <:+ ts ∧
      Leads [.item kind] [.optionalClause, .moreReferences] (values ts) (values p.2)
  | .ok none => Stops [.item kind] (values ts) (values ts)
  | .error f => f.construct ++ f.rest <:+ all ∧ Stops [.item kind] (values ts) (values f.rest) ∧
      values f.rest ≠ values ts

/-- A reader that is bound to the form of an item. -/
theorem Tracks.item {kind : BlockItem} {r : Read (α × Tokens)} (h : Tracks all L R ts r)
    (read : Tokens) (hread : read ≠ []) (hrun : run [.item kind] (values read) = some L)
    (hR : R ⊆ [.optionalClause, .moreReferences]) :
    TracksItem all kind (read ++ ts) (some <$> r) := by
  have hbegun := (h.mono hR).begun read hrun
  cases r with
  | ok p => exact hbegun
  | error f =>
    refine ⟨hbegun.1, hbegun.2, fun heq => ?_⟩
    obtain ⟨front, look, post, d, hus, hrest, _⟩ := h.2
    have hlen := congrArg List.length heq
    rw [show values (read ++ ts) = values read ++ values ts from List.map_append, hus,
      hrest] at hlen
    have hpos : 0 < (values read).length := by
      rw [show (values read).length = read.length from List.length_map _]
      exact List.length_pos_iff.2 hread
    simp only [List.length_append] at hlen
    omega

/-- Tokens that do not begin an item. -/
theorem stops_item {kind : BlockItem} {us : List Token}
    (h : ∀ t, us.head? = some t → Slot.begins kind t = none) : Stops [.item kind] us us :=
  stops_of_not_taken rfl rfl h

/-- A property begins with its key. -/
theorem begins_property (t : Token) : Slot.begins .property t =
    ((name? t).bind PropertyKey.ofText?).map fun _ => [.token (.sign .colon), .literal] := by
  cases t with
  | identifier x =>
    simp only [Slot.begins, name?, Option.bind_some]
    cases PropertyKey.ofText? x <;> rfl
  | _ => rfl

theorem readProperty_tracks (hts : ts <:+ all) : TracksItem all .property ts (readProperty ts) := by
  unfold readProperty
  split
  · refine stops_item fun t ht => ?_
    cases ht
  · next t rest =>
    split
    · next hkey =>
      refine stops_item ?_
      rintro _ ⟨⟩
      rw [begins_property, hkey, Option.map_none]
    · next key hkey =>
      have hread : run [.item .property] (values [t]) = some [.token (.sign .colon), .literal] := by
        rw [values_cons, run_cons, step_take (d := [.token (.sign .colon), .literal])
          (by rw [Slot.take?, begins_property, hkey, Option.map_some])]
        rfl
      have hrest : rest <:+ t :: rest := List.suffix_cons t rest
      have htracks : Tracks all [.token (.sign .colon), .literal] [] rest
          (readSign .colon (t :: rest) rest >>= fun p =>
            readTextLiteral .propertyValue (t :: rest) p.2 >>= fun q =>
              pure ((⟨⟨key, t.span⟩, q.1⟩ : PropertyDecl), q.2)) := by
        refine (accept_token_tracks hrest hts _ _).cons fun _ _ h₁ => ?_
        refine Tracks.last ?_ fun _ _ => ⟨_, rfl⟩
        exact readTextLiteral_tracks (h₁.trans hrest) hts _
      have hitem := htracks.item [t] (List.cons_ne_nil t []) hread (List.nil_subset _)
      simp only [map_bind, map_pure] at hitem
      exact hitem

/-- Tokens that begin an item with a name, with which no form goes on: the name is given back,
and a dash after it. -/
theorem stops_named {kind : BlockItem} (named dashed : Slot)
    (hbegins : ∀ x, Slot.begins kind (.identifier x) = some [named])
    (hdash : named.take? (.sign .dash) = some [dashed])
    (hnamed : named.optional = false ∧ named.pending = 1)
    (hdashed : dashed.optional = false ∧ dashed.pending = 2)
    (hother : ∀ t rest, ts = t :: rest → (∀ x, t.value ≠ .identifier x) →
      Slot.begins kind t.value = none)
    (hname : ∀ x a u rest, ts = ⟨.identifier x, a⟩ :: u :: rest → u.value ≠ .sign .dash →
      named.take? u.value = none)
    (hafter : ∀ x a d u rest, ts = ⟨.identifier x, a⟩ :: ⟨.sign .dash, d⟩ :: u :: rest →
      dashed.take? u.value = none) :
    Stops [.item kind] (values ts) (values ts) := by
  by_cases hx : ∃ x a rest, ts = ⟨.identifier x, a⟩ :: rest
  · obtain ⟨x, a, rest, rfl⟩ := hx
    have hrun : run [.item kind] [.identifier x] = some [named] := by
      rw [run_cons, step_take (s := .item kind) (hbegins x)]
      rfl
    by_cases hd : ∃ d rest', rest = ⟨.sign .dash, d⟩ :: rest'
    · obtain ⟨d, rest, rfl⟩ := hd
      have hrun' : run [.item kind] [.identifier x, .sign .dash] = some [dashed] := by
        refine (run_append_of_eq hrun [.sign .dash]).trans ?_
        rw [run_cons, step_take hdash]
        rfl
      refine stops_of_pending [.identifier x, .sign .dash] hrun' hdashed.1 hdashed.2 fun t ht => ?_
      cases rest with
      | nil => cases ht
      | cons u rest =>
        cases ht
        exact hafter x a d u rest rfl
    · refine stops_of_pending [.identifier x] hrun hnamed.1 hnamed.2 fun t ht => ?_
      cases rest with
      | nil => cases ht
      | cons u rest =>
        cases ht
        exact hname x a u rest rfl fun hu => hd ⟨u.span, rest, by rw [← hu]⟩
  · refine stops_item fun t ht => ?_
    cases ts with
    | nil => cases ht
    | cons u rest =>
      cases ht
      exact hother u rest rfl fun x hu => hx ⟨x, u.span, rest, by rw [← hu]⟩

/-- Tokens that do not begin a form of step. -/
theorem stops_step
    (hrequest : ∀ x a d p rest, ts ≠
      ⟨.identifier x, a⟩ :: ⟨.sign .dash, d⟩ :: ⟨.sign .leftParen, p⟩ :: rest)
    (hwrite : ∀ x a d text b rest, ts ≠
      ⟨.identifier x, a⟩ :: ⟨.sign .dash, d⟩ :: ⟨.text text, b⟩ :: rest)
    (hresponse : ∀ x a d rest, ts ≠ ⟨.identifier x, a⟩ :: ⟨.sign .doubleDash, d⟩ :: rest)
    (hread : ∀ x a d rest, ts ≠ ⟨.identifier x, a⟩ :: ⟨.sign .leftArrow, d⟩ :: rest) :
    Stops [.item .step] (values ts) (values ts) := by
  refine stops_named .namedStep .dashedStep (fun _ => rfl) rfl ⟨rfl, rfl⟩ ⟨rfl, rfl⟩ ?_ ?_ ?_
  · rintro ⟨t, span⟩ rest rfl hne
    cases t with
    | identifier x => exact absurd rfl (hne x)
    | _ => rfl
  · rintro x a ⟨u, span⟩ rest rfl hne
    simp only [Slot.take?]
    split
    · exact absurd rfl hne
    · exact absurd rfl (hresponse x a span rest)
    · exact absurd rfl (hread x a span rest)
    · rfl
  · rintro x a d ⟨u, span⟩ rest rfl
    simp only [Slot.take?]
    split
    · exact absurd rfl (hrequest x a d span rest)
    · next text => exact absurd rfl (hwrite x a d text span rest)
    · rfl

theorem readStep_tracks (hts : ts <:+ all) : TracksItem all .step ts (readStep ts) := by
  unfold readStep
  split
  · next name span _ _ rest =>
    exact (readRequestStep_tracks ⟨[_, _, _], rfl⟩ hts ⟨name, span⟩).item
      [_, _, _] (List.cons_ne_nil _ _) rfl (List.nil_subset _)
  · next name span _ value at_ rest =>
    exact (readWriteStep_tracks ⟨[_, _, _], rfl⟩ hts ⟨name, span⟩ ⟨value, at_⟩).item
      [_, _, _] (List.cons_ne_nil _ _) rfl (List.nil_subset _)
  · next name span _ rest =>
    exact (readResponseStep_tracks ⟨[_, _], rfl⟩ hts ⟨name, span⟩).item
      [_, _] (List.cons_ne_nil _ _) rfl (List.nil_subset _)
  · next name span _ rest =>
    exact (readReadStep_tracks ⟨[_, _], rfl⟩ hts ⟨name, span⟩).item
      [_, _] (List.cons_ne_nil _ _) rfl (List.nil_subset _)
  · next hrequest hwrite hresponse hread => exact stops_step hrequest hwrite hresponse hread

/-! ## Blocks -/

/-- What may stay empty at the end of a block. -/
def ends (kind : BlockItem) : Agenda :=
  [.optionalClause, .moreReferences, .optionalSemicolon, .block kind]

section Blocks

variable {kind : BlockItem} {f : SyntaxFault}

theorem TracksItem.block_error
    (h : TracksItem all kind ts (.error f : Read (Option (α × Tokens)))) :
    Tracks all [.block kind] R ts (.error f : Read (β × Tokens)) := by
  obtain ⟨hfault, hstops, hne⟩ := h
  refine ⟨hfault, ?_⟩
  rcases (hstops.below [.optionalSemicolon, .block kind]).many (s := .block kind) (fun _ => rfl)
    with ⟨_, heq⟩ | hblock
  · exact absurd heq hne
  · exact hblock

theorem TracksItem.block_none (h : TracksItem all kind ts (.ok none : Read (Option (α × Tokens)))) :
    Declines (.block kind) (values ts) := by
  refine ⟨rfl, ?_⟩
  rcases (Stops.below h [.optionalSemicolon, .block kind]).many (s := .block kind) (fun _ => rfl)
    with ⟨hnone, _⟩ | hblock
  · exact Or.inl hnone
  · exact Or.inr hblock

theorem TracksItem.block_some {a : α} {r : Read (β × Tokens)}
    (h : TracksItem all kind ts (.ok (some (a, rest))))
    (hmore : Tracks all [.block kind] (ends kind) (skipSemicolon rest) r) :
    Tracks all [.block kind] (ends kind) ts r := by
  have hitem : Tracks all [.item kind] [.optionalClause, .moreReferences] ts (.ok (a, rest)) := h
  have hsemicolon : Tracks all [.item kind, .optionalSemicolon]
      [.optionalClause, .moreReferences, .optionalSemicolon] ts (.ok ((), skipSemicolon rest)) := by
    refine hitem.after ((skipSemicolon_tracks all rest).mono (by simp)) ?_ (Or.inl (by simp))
    exact apart_cons (fun _ ht => if_neg ht) rfl
      (apart_cons (fun _ ht => if_neg ht) rfl (apart_nil _))
  have hall : Tracks all [.item kind, .optionalSemicolon, .block kind] (ends kind) ts r := by
    refine hsemicolon.after hmore ?_ (Or.inl (by simp [ends]))
    have happart : Apart [.optionalClause, .moreReferences, .optionalSemicolon] [.block kind] := by
      refine apart_cons (fun _ ht => if_neg ht) ?_ (apart_cons (fun _ ht => if_neg ht) ?_
        (apart_cons (fun _ ht => if_neg ht) ?_ (apart_nil _))) <;> cases kind <;> rfl
    exact happart
  cases r with
  | ok p => exact ⟨hall.1, hall.2.many fun _ => rfl⟩
  | error f =>
    refine ⟨hall.1, ?_⟩
    rcases hall.2.many (s := .block kind) (fun _ => rfl) with ⟨_, heq⟩ | hblock
    · have hlen := hmore.2.length_le
      have hskip := skipSemicolon_length rest
      have hlt := hitem.2.length_lt rfl
      rw [heq] at hlen
      simp only [values, List.length_map] at hlen hlt
      omega
    · exact hblock

end Blocks

theorem skipSemicolon_suffix (h : rest <:+ all) : skipSemicolon rest <:+ all :=
  (skipSemicolon_tracks all rest).1.trans h

theorem readProperties_tracks (hts : ts <:+ all) :
    Tracks all [.block .property] (ends .property) ts (readProperties ts) := by
  fun_induction readProperties ts with
  | case1 ts e h =>
    have hitem := readProperty_tracks hts
    rw [h] at hitem
    exact hitem.block_error
  | case2 ts h =>
    have hitem := readProperty_tracks hts
    rw [h] at hitem
    exact tracks_empty (by simp [ends]) hitem.block_none
  | case3 ts p rest h ih =>
    have hitem := readProperty_tracks hts
    rw [h] at hitem
    have hrest : skipSemicolon rest <:+ all := skipSemicolon_suffix (hitem.1.trans hts)
    exact hitem.block_some ((ih hrest).last fun _ _ => ⟨_, rfl⟩)

theorem readSteps_tracks (hts : ts <:+ all) :
    Tracks all [.block .step] (ends .step) ts (readSteps ts) := by
  fun_induction readSteps ts with
  | case1 ts e h =>
    have hitem := readStep_tracks hts
    rw [h] at hitem
    exact hitem.block_error
  | case2 ts h =>
    have hitem := readStep_tracks hts
    rw [h] at hitem
    exact tracks_empty (by simp [ends]) hitem.block_none
  | case3 ts p rest h ih =>
    have hitem := readStep_tracks hts
    rw [h] at hitem
    have hrest : skipSemicolon rest <:+ all := skipSemicolon_suffix (hitem.1.trans hts)
    exact hitem.block_some ((ih hrest).last fun _ _ => ⟨_, rfl⟩)

theorem apart_rightBrace (kind : BlockItem) (L : Agenda) :
    Apart (ends kind) (.token (.sign .rightBrace) :: L) := by
  refine apart_token ?_ L
  cases kind <;> decide

section Braces

variable (hts : ts <:+ start) (hstart : start <:+ all)
include hts hstart

theorem readBlockEnd_tracks (kind : BlockItem) :
    Tracks all [.token (.sign .rightBrace)] [] ts (readBlockEnd kind start ts) :=
  accept_token_tracks hts hstart _ _

theorem readAnnotationDef_tracks (at_ : Span) :
    Tracks all [.name, .token (.sign .leftBrace), .block .property, .token (.sign .rightBrace)] []
      ts (readAnnotationDef at_ start ts) :=
  (readName_tracks hts hstart _).cons fun _ _ h₁ =>
  (accept_token_tracks (h₁.trans hts) hstart _ _).cons fun _ _ h₂ =>
  (readProperties_tracks (h₂.trans (h₁.trans (hts.trans hstart)))).bind
    (fun _ _ h₃ => (readBlockEnd_tracks (h₃.trans (h₂.trans (h₁.trans hts))) hstart .property).last
      fun _ _ => ⟨_, rfl⟩)
    (apart_rightBrace .property _) (Or.inr ⟨_, List.mem_cons_self, rfl⟩)

theorem readScenario_tracks (name : Spanned String) :
    Tracks all [.token (.sign .leftBrace), .block .step, .token (.sign .rightBrace)] []
      ts (readScenario name start ts) :=
  (accept_token_tracks hts hstart _ _).cons fun _ _ h₁ =>
  (readSteps_tracks (h₁.trans (hts.trans hstart))).bind
    (fun _ _ h₂ => (readBlockEnd_tracks (h₂.trans (h₁.trans hts)) hstart .step).last
      fun _ _ => ⟨_, rfl⟩)
    (apart_rightBrace .step _) (Or.inr ⟨_, List.mem_cons_self, rfl⟩)

theorem readContainerHead_tracks :
    Tracks all [.literal, .token (.keyword .as), .name, .token (.sign .leftBrace)] [] ts
      (readContainerHead start ts) :=
  (readTextLiteral_tracks hts hstart _).cons fun _ _ h₁ =>
  (accept_token_tracks (h₁.trans hts) hstart _ _).cons fun _ _ h₂ =>
  (readName_tracks (h₂.trans (h₁.trans hts)) hstart _).cons fun _ _ h₃ =>
  (accept_token_tracks (h₃.trans (h₂.trans (h₁.trans hts))) hstart _ _).last fun _ _ => ⟨_, rfl⟩

end Braces

end ArchScript.Reader
