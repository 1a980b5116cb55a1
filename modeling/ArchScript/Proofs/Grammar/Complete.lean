/-
  What the grammar derives, the readers of single forms read.

  The reader goes on in a clause or a block as long as it can. That loses no derivation: no
  item of a block begins with the word `is`, a comma or a semicolon (`Opens`), so a phrase that
  can end at a place (`Ends`) cannot go on there. Each lemma `*_complete` follows one reader
  from the tokens of a rule to its tree; `block_complete` does so for all three kinds of block.
-/
import ArchScript.Proofs.Grammar.Sound

namespace ArchScript

open Grammar

/-! ## Where phrases begin and end -/

/-- A phrase with a clause can end before these tokens. -/
def Ends (us : List Token) : Prop :=
  us.head? ≠ some (.keyword .is) ∧ us.head? ≠ some (.sign .comma)

/-- An item of a block, or its closing brace, begins these tokens. -/
def Opens (us : List Token) : Prop :=
  ∃ t ts, us = t :: ts ∧ t ≠ .keyword .is ∧ t ≠ .sign .comma ∧ t ≠ .sign .semicolon

theorem Opens.append {us : List Token} (h : Opens us) (vs : List Token) : Opens (us ++ vs) := by
  obtain ⟨t, ts, rfl, ht⟩ := h
  exact ⟨t, ts ++ vs, rfl, ht⟩

theorem Opens.ends {us : List Token} (h : Opens us) : Ends us := by
  obtain ⟨t, ts, rfl, his, hcomma, _⟩ := h
  exact ⟨fun e => his (Option.some.inj e), fun e => hcomma (Option.some.inj e)⟩

theorem opens_cons {t : Token} (h : t ≠ .keyword .is ∧ t ≠ .sign .comma ∧ t ≠ .sign .semicolon)
    (ts : List Token) : Opens (t :: ts) := ⟨t, ts, rfl, h⟩

theorem ends_cons {t : Token} (h : t ≠ .keyword .is ∧ t ≠ .sign .comma) (ts : List Token) :
    Ends (t :: ts) := ⟨fun e => h.1 (Option.some.inj e), fun e => h.2 (Option.some.inj e)⟩

namespace Grammar

theorem PropertyRule.opens {ws : List Token} {d : PropertyDecl} (h : PropertyRule ws d) :
    Opens ws := by
  cases h
  exact opens_cons (by simp) _

theorem StepRule.opens {ws : List Token} {d : StepDecl} (h : StepRule ws d) : Opens ws := by
  cases h <;> exact opens_cons (by simp) _

/-- No statement begins with the word `is`, a comma or a semicolon. -/
theorem StatementRule.opens {ws : List Token} {x : Statement} (h : StatementRule ws x) :
    Opens ws := by
  cases h with
  | actor kind caption x h => cases kind <;> exact opens_cons (by simp [actorWord]) _
  | _ => exact opens_cons (by simp) _

theorem Block.opens {α : Type} {Item : List Token → α → Prop} {ws : List Token} {xs : List α}
    (h : Block Item ws xs) (hopens : ∀ ws x, Item ws x → Opens ws) (us : List Token) :
    Opens (ws ++ .sign .rightBrace :: us) := by
  cases h with
  | nil => exact opens_cons (by simp) _
  | cons hx hxs =>
    rw [List.append_assoc]
    exact (hopens _ _ hx).append _
  | consSemicolon hx hxs =>
    rw [List.append_assoc]
    exact (hopens _ _ hx).append _

/-- The items of a block are shorter than what the block is shorter than. -/
theorem Block.shorter {α : Type} {Item : List Token → α → Prop} {ws : List Token} {xs : List α}
    (h : Block Item ws xs) {n : Nat} (hn : ws.length < n) :
    Block (fun ws x => Item ws x ∧ ws.length < n) ws xs := by
  induction h with
  | nil => exact .nil
  | cons hx hxs ih =>
    rw [List.length_append] at hn
    exact .cons ⟨hx, by omega⟩ (ih (by omega))
  | consSemicolon hx hxs ih =>
    rw [List.length_append, List.length_cons] at hn
    exact .consSemicolon ⟨hx, by omega⟩ (ih (by omega))

end Grammar

namespace Reader

variable {start ts : Tokens} {us ws : List Token}

/-! ## Single tokens -/

theorem values_eq_cons {t : Token} (h : values ts = t :: us) :
    ∃ span rest, ts = ⟨t, span⟩ :: rest ∧ values rest = us := by
  cases ts with
  | nil => cases h
  | cons u ts =>
    obtain ⟨rfl, rfl⟩ := List.cons.inj h
    exact ⟨u.span, ts, rfl, rfl⟩

theorem accept_complete {α : Type} (pick : Token → Option α) (expected : Expected)
    (start : Tokens) {t : Token} {a : α} (h : values ts = t :: us) (ht : pick t = some a) :
    ∃ span rest, accept pick expected start ts = .ok (⟨a, span⟩, rest) ∧ values rest = us := by
  obtain ⟨span, rest, rfl, hrest⟩ := values_eq_cons h
  refine ⟨span, rest, ?_, hrest⟩
  rw [accept, ht]

/-- A reader of one fixed token accepts this token. -/
theorem accept_fixed_complete (expected : Expected) (start : Tokens) {t : Token}
    (h : values ts = t :: us) : ∃ span rest,
      accept (fun u => if u = t then some () else none) expected start ts = .ok (⟨(), span⟩, rest) ∧
        values rest = us :=
  accept_complete _ expected start h (if_pos rfl)

theorem channelKind?_channelArrow (kind : ChannelKind) :
    channelKind? (.sign (channelArrow kind)) = some kind := by cases kind <;> rfl

theorem optionalText_complete {text : Option (Spanned String)} (h : OptionalText ws text)
    (hts : values ts = ws ++ .sign .rightParen :: us) : ∃ found rest,
      optionalText ts = (found, rest) ∧ found.map Spanned.bare = text ∧
        values rest = .sign .rightParen :: us := by
  cases h with
  | absent =>
    obtain ⟨span, rest, rfl, _⟩ := values_eq_cons hts
    exact ⟨none, ⟨.sign .rightParen, span⟩ :: rest, rfl, rfl, hts⟩
  | present text =>
    obtain ⟨span, rest, rfl, hrest⟩ := values_eq_cons hts
    exact ⟨some ⟨text, span⟩, rest, rfl, rfl, hrest⟩

/-! ## References -/

/-- The references end where no comma follows. -/
theorem moreReferences_of_ends (h : Ends (values ts)) : moreReferences ts = ([], ts) := by
  unfold moreReferences
  split
  · exact (h.2 rfl).elim
  · rfl

theorem moreReferences_complete {refs : List (Spanned Ident)} (h : References ws refs)
    (hts : values ts = ws ++ us) (hus : Ends us) : ∃ a x b rest,
      ts = ⟨.sign .at, a⟩ :: ⟨.identifier x, b⟩ :: rest ∧
        unplaced x :: (moreReferences rest).1.map Spanned.bare = refs ∧
        values (moreReferences rest).2 = us := by
  induction h generalizing ts with
  | last x =>
    obtain ⟨a, _, rfl, h₁⟩ := values_eq_cons hts
    obtain ⟨b, rest, rfl, h₂⟩ := values_eq_cons h₁
    have hrest : values rest = us := h₂
    have hend : moreReferences rest = ([], rest) := moreReferences_of_ends (hrest ▸ hus)
    refine ⟨a, x, b, rest, rfl, ?_, ?_⟩ <;> rw [hend]
    · rfl
    · exact hrest
  | more x h ih =>
    obtain ⟨a, _, rfl, h₁⟩ := values_eq_cons hts
    obtain ⟨b, _, rfl, h₂⟩ := values_eq_cons h₁
    obtain ⟨c, _, rfl, h₃⟩ := values_eq_cons h₂
    obtain ⟨d, y, e, rest, rfl, hrefs, hrest⟩ := ih h₃
    refine ⟨a, x, b, _, rfl, ?_, ?_⟩ <;> rw [moreReferences]
    · rw [List.map_cons, Spanned.bare_mk, hrefs]
    · exact hrest

theorem readReferences_complete (start : Tokens) {refs : List (Spanned Ident)}
    (h : References ws refs) (hts : values ts = ws ++ us) (hus : Ends us) : ∃ found rest,
      readReferences start ts = .ok (found, rest) ∧ found.map Spanned.bare = refs ∧
        values rest = us := by
  obtain ⟨a, x, b, rest, rfl, hrefs, hrest⟩ := moreReferences_complete h hts hus
  exact ⟨⟨x, b⟩ :: (moreReferences rest).1, (moreReferences rest).2, rfl, hrefs, hrest⟩

theorem optionalReferences_complete {refs : List (Spanned Ident)} (h : OptionalClause ws refs)
    (hts : values ts = ws ++ us) (hus : Ends us) : ∃ found rest,
      optionalReferences ts = .ok (found, rest) ∧ found.map Spanned.bare = refs ∧
        values rest = us := by
  cases h with
  | absent =>
    rw [List.nil_append] at hts
    refine ⟨[], ts, ?_, rfl, hts⟩
    rw [← hts] at hus
    unfold optionalReferences
    split
    · exact (hus.1 rfl).elim
    · rfl
  | present h =>
    cases h with
    | is h =>
      obtain ⟨word, ts, rfl, h₁⟩ := values_eq_cons hts
      exact readReferences_complete (⟨.keyword .is, word⟩ :: ts) h h₁ hus

/-! ## Statements without braces -/

/-- The reader gives a tree that is `x` without its spans, and leaves the tokens `us`. -/
def Gives {α : Type} (bare : α → α) (r : Read (Spanned α × Tokens)) (x : α) (us : List Token) :
    Prop :=
  ∃ y rest, r = .ok (y, rest) ∧ bare y.value = x ∧ values rest = us

theorem readActor_complete (kind : Spanned ActorKind) (start : Tokens) {caption : String}
    {x : Ident} {refs : List (Spanned Ident)} (h : OptionalClause ws refs)
    (hts : values ts = .text caption :: .keyword .as :: .identifier x :: (ws ++ us))
    (hus : Ends us) :
    Gives Statement.bare (readActor kind start ts)
      (.actor ⟨kind.bare, unplaced caption, unplaced x, refs⟩) us := by
  obtain ⟨a, _, h₁, hts⟩ :=
    accept_complete textValue? (.textLiteral .actorCaption) start hts rfl
  obtain ⟨_, _, h₂, hts⟩ := accept_fixed_complete (.keyword .as) start hts
  obtain ⟨b, _, h₃, hts⟩ := accept_complete name? (.identifier (some .actor)) start hts rfl
  obtain ⟨found, rest, h₄, rfl, hrest⟩ := optionalReferences_complete h hts hus
  refine ⟨⟨.actor ⟨kind, ⟨caption, a⟩, ⟨x, b⟩, found⟩, spanTo kind.span b found⟩, rest,
    ?_, rfl, hrest⟩
  simp only [readActor, bind_eq_ok, Prod.exists]
  exact ⟨_, _, h₁, _, _, h₂, _, _, h₃, _, _, h₄, rfl⟩

theorem readNote_complete (word : Span) (start : Tokens) {x : Ident} {text : String}
    (hts : values ts = .keyword .for :: .identifier x :: .sign .colon :: .text text :: us) :
    Gives Statement.bare (readNote word start ts) (.note ⟨unplaced x, unplaced text⟩) us := by
  obtain ⟨_, _, h₁, hts⟩ := accept_fixed_complete (.keyword .for) start hts
  obtain ⟨a, _, h₂, hts⟩ := accept_complete name? (.identifier none) start hts rfl
  obtain ⟨_, _, h₃, hts⟩ := accept_fixed_complete (.sign .colon) start hts
  obtain ⟨b, rest, h₄, hrest⟩ :=
    accept_complete textValue? (.textLiteral .noteText) start hts rfl
  refine ⟨⟨.note ⟨⟨x, a⟩, ⟨text, b⟩⟩, word.union b⟩, rest, ?_, rfl, hrest⟩
  simp only [readNote, bind_eq_ok, Prod.exists]
  exact ⟨_, _, h₁, _, _, h₂, _, _, h₃, _, _, h₄, rfl⟩

theorem readAssignment_complete (target : Spanned Ident) (start : Tokens)
    {refs : List (Spanned Ident)} (h : References ws refs) (hts : values ts = ws ++ us)
    (hus : Ends us) :
    Gives Statement.bare (readAssignment target start ts) (.assignment ⟨target.bare, refs⟩) us := by
  obtain ⟨found, rest, h₁, rfl, hrest⟩ := readReferences_complete start h hts hus
  refine ⟨⟨.assignment ⟨target, found⟩, spanTo target.span target.span found⟩, rest, ?_, rfl, hrest⟩
  simp only [readAssignment, bind_eq_ok, Prod.exists]
  exact ⟨_, _, h₁, rfl⟩

/-- What calls and requests have in common: an optional text, an arrow and a target. -/
theorem callEnd_complete (role : Option NameRole) (start : Tokens) {kind : ChannelKind}
    {x : Ident} {text : Option (Spanned String)} (h : OptionalText ws text)
    (hts : values ts =
      ws ++ .sign .rightParen :: .sign (channelArrow kind) :: .identifier x :: us) :
    ∃ a b c ts₁ ts₂ rest, readSign .rightParen start (optionalText ts).2 = .ok (⟨(), a⟩, ts₁) ∧
      readChannelArrow start ts₁ = .ok (⟨kind, b⟩, ts₂) ∧
      readName role start ts₂ = .ok (⟨x, c⟩, rest) ∧
      (optionalText ts).1.map Spanned.bare = text ∧ values rest = us := by
  obtain ⟨found, ts₀, h₀, htext, hts⟩ := optionalText_complete h hts
  rw [h₀]
  obtain ⟨a, ts₁, h₁, hts⟩ := accept_fixed_complete (.sign .rightParen) start hts
  obtain ⟨b, ts₂, h₂, hts⟩ := accept_complete channelKind? .channelArrow start hts
    (channelKind?_channelArrow kind)
  obtain ⟨c, rest, h₃, hrest⟩ := accept_complete name? (.identifier role) start hts rfl
  exact ⟨a, b, c, ts₁, ts₂, rest, h₁, h₂, h₃, htext, hrest⟩

theorem readCall_complete (source : Spanned Ident) (start : Tokens) {kind : ChannelKind}
    {b : Ident} {text : Option (Spanned String)} (h : OptionalText ws text)
    (hts : values ts =
      ws ++ .sign .rightParen :: .sign (channelArrow kind) :: .identifier b :: us) :
    Gives Statement.bare (readCall source start ts)
      (.call ⟨kind, source.bare, unplaced b, text⟩) us := by
  obtain ⟨_, _, c, _, _, rest, h₁, h₂, h₃, rfl, hrest⟩ :=
    callEnd_complete (some .channelTarget) start h hts
  refine ⟨⟨.call ⟨kind, source, ⟨b, c⟩, (optionalText ts).1⟩, source.span.union c⟩, rest, ?_, rfl,
    hrest⟩
  simp only [readCall, bind_eq_ok, Prod.exists]
  exact ⟨_, _, h₁, _, _, h₂, _, _, h₃, rfl⟩

theorem readFlow_complete (kind : FlowKind) (left : Spanned Ident) (start : Tokens) {b : Ident}
    (hts : values ts = .identifier b :: us) :
    Gives Statement.bare (readFlow kind left start ts)
      (.flow ⟨kind, left.bare, unplaced b⟩) us := by
  obtain ⟨a, rest, h₁, hrest⟩ :=
    accept_complete name? (.identifier (some .flowTarget)) start hts rfl
  refine ⟨⟨.flow ⟨kind, left, ⟨b, a⟩⟩, left.span.union a⟩, rest, ?_, rfl, hrest⟩
  simp only [readFlow, bind_eq_ok, Prod.exists]
  exact ⟨_, _, h₁, rfl⟩

/-! ## Blocks -/

theorem skipSemicolon_of_opens (h : Opens (values ts)) : skipSemicolon ts = ts := by
  unfold skipSemicolon
  split
  · obtain ⟨t, ts, e, _, _, ht⟩ := h
    exact (ht (List.cons.inj e).1.symm).elim
  · rfl

/-- A reader of items that reads every item of the rule, and `readAll` with it while items
follow, read every block of such items up to its closing brace. -/
theorem block_complete {α β : Type} {Item : List Token → α → Prop} (bare : β → α)
    (ReadOne : Tokens → β → Tokens → Prop) (ReadAll : Tokens → List β → Tokens → Prop)
    (hopens : ∀ ws x, Item ws x → Opens ws)
    (hone : ∀ {ws x ts us}, Item ws x → values ts = ws ++ us → Ends us →
      ∃ y rest, ReadOne ts y rest ∧ bare y = x ∧ values rest = us)
    (hnil : ∀ {ts us}, values ts = .sign .rightBrace :: us → ReadAll ts [] ts)
    (hcons : ∀ {ts y next ys rest}, ReadOne ts y next → ReadAll (skipSemicolon next) ys rest →
      ReadAll ts (y :: ys) rest)
    {xs : List α} (h : Block Item ws xs) (hts : values ts = ws ++ .sign .rightBrace :: us) :
    ∃ ys rest, ReadAll ts ys rest ∧ ys.map bare = xs ∧
      values rest = .sign .rightBrace :: us := by
  induction h generalizing ts with
  | nil => exact ⟨[], ts, hnil hts, rfl, hts⟩
  | @cons vs ws x xs hx hxs ih =>
    rw [List.append_assoc] at hts
    have hafter : Opens (ws ++ .sign .rightBrace :: us) := hxs.opens hopens us
    obtain ⟨y, next, hy, rfl, hnext⟩ := hone hx hts hafter.ends
    have hskip : skipSemicolon next = next := skipSemicolon_of_opens (hnext ▸ hafter)
    obtain ⟨ys, rest, hys, rfl, hrest⟩ := ih hnext
    refine ⟨y :: ys, rest, hcons hy ?_, rfl, hrest⟩
    rw [hskip]
    exact hys
  | @consSemicolon vs ws x xs hx hxs ih =>
    rw [List.append_assoc] at hts
    obtain ⟨y, next, hy, rfl, hnext⟩ := hone hx hts (ends_cons (by simp) _)
    obtain ⟨_, after, rfl, hafter⟩ := values_eq_cons hnext
    obtain ⟨ys, rest, hys, rfl, hrest⟩ := ih hafter
    exact ⟨y :: ys, rest, hcons hy hys, rfl, hrest⟩

theorem readProperty_complete {d : PropertyDecl} (h : PropertyRule ws d)
    (hts : values ts = ws ++ us) :
    ∃ p rest, readProperty ts = .ok (some (p, rest)) ∧ p.bare = d ∧ values rest = us := by
  cases h with
  | property key value =>
    obtain ⟨a, ts, rfl, h₁⟩ := values_eq_cons hts
    have hkey : (name? (.identifier key.text)).bind PropertyKey.ofText? = some key :=
      PropertyKey.ofText?_text key
    obtain ⟨_, _, h₂, hts⟩ :=
      accept_fixed_complete (.sign .colon) (⟨.identifier key.text, a⟩ :: ts) h₁
    obtain ⟨b, rest, h₃, hrest⟩ := accept_complete textValue?
      (.textLiteral .propertyValue) (⟨.identifier key.text, a⟩ :: ts) hts rfl
    refine ⟨⟨⟨key, a⟩, ⟨value, b⟩⟩, rest, ?_, rfl, hrest⟩
    simp only [readProperty, hkey, bind_eq_ok, Prod.exists]
    exact ⟨_, _, h₂, _, _, h₃, rfl⟩

theorem readProperties_complete {ds : List PropertyDecl} (h : Block PropertyRule ws ds)
    (hts : values ts = ws ++ .sign .rightBrace :: us) : ∃ ps rest,
      readProperties ts = .ok (ps, rest) ∧ ps.map PropertyDecl.bare = ds ∧
        values rest = .sign .rightBrace :: us := by
  refine block_complete PropertyDecl.bare
    (fun ts p rest => readProperty ts = .ok (some (p, rest)))
    (fun ts ps rest => readProperties ts = .ok (ps, rest))
    (fun _ _ => PropertyRule.opens) (fun hx hts _ => readProperty_complete hx hts) ?_ ?_ h hts
  · intro ts us hts
    obtain ⟨_, rest, rfl, _⟩ := values_eq_cons hts
    rw [readProperties]
    rfl
  · intro ts p next ps rest hp hps
    unfold readProperties
    split
    · next e he =>
      rw [he] at hp
      cases hp
    · next hnone =>
      rw [hnone] at hp
      cases hp
    · next q next' hq =>
      rw [hq] at hp
      cases hp
      exact bind_eq_ok.2 ⟨_, hps, rfl⟩

theorem readAnnotationDef_complete (at_ : Span) (start : Tokens) {x : Ident}
    {ds : List PropertyDecl} (h : Block PropertyRule ws ds)
    (hts : values ts =
      .identifier x :: .sign .leftBrace :: (ws ++ .sign .rightBrace :: us)) :
    Gives Statement.bare (readAnnotationDef at_ start ts)
      (Statement.annotation ⟨unplaced x, ds⟩) us := by
  obtain ⟨a, _, h₁, hts⟩ :=
    accept_complete name? (.identifier (some NameRole.annotation)) start hts rfl
  obtain ⟨_, _, h₂, hts⟩ := accept_fixed_complete (.sign .leftBrace) start hts
  obtain ⟨ps, _, h₃, rfl, hts⟩ := readProperties_complete h hts
  obtain ⟨b, rest, h₄, hrest⟩ := accept_fixed_complete (.itemOrEnd .property) start hts
  refine ⟨⟨Statement.annotation ⟨⟨x, a⟩, ps⟩, at_.union b⟩, rest, ?_, rfl, hrest⟩
  simp only [readAnnotationDef, bind_eq_ok, Prod.exists]
  exact ⟨_, _, h₁, _, _, h₂, _, _, h₃, _, _, h₄, rfl⟩

/-! ## Scenarios -/

theorem readRequestStep_complete (source : Spanned Ident) (start : Tokens) {kind : ChannelKind}
    {b : Ident} {message : Option (Spanned String)} (h : OptionalText ws message)
    (hts : values ts =
      ws ++ .sign .rightParen :: .sign (channelArrow kind) :: .identifier b :: us) :
    Gives StepDecl.bare (readRequestStep source start ts)
      (.request kind source.bare (unplaced b) message) us := by
  obtain ⟨_, _, c, _, _, rest, h₁, h₂, h₃, rfl, hrest⟩ := callEnd_complete none start h hts
  refine ⟨⟨.request kind source ⟨b, c⟩ (optionalText ts).1, source.span.union c⟩, rest, ?_, rfl,
    hrest⟩
  simp only [readRequestStep, bind_eq_ok, Prod.exists]
  exact ⟨_, _, h₁, _, _, h₂, _, _, h₃, rfl⟩

theorem readResponseStep_complete (requester : Spanned Ident) (start : Tokens) {b : Ident}
    {message : Option (Spanned String)} (h : OptionalText ws message)
    (hts : values ts = .sign .leftParen ::
      (ws ++ .sign .rightParen :: .sign .responseArrow :: .identifier b :: us)) :
    Gives StepDecl.bare (readResponseStep requester start ts)
      (.response requester.bare (unplaced b) message) us := by
  obtain ⟨_, ts₁, h₁, hts⟩ := accept_fixed_complete (.sign .leftParen) start hts
  obtain ⟨found, ts₂, hfound, rfl, hts⟩ := optionalText_complete h hts
  obtain ⟨_, _, h₂, hts⟩ := accept_fixed_complete (.sign .rightParen) start hts
  obtain ⟨_, _, h₃, hts⟩ := accept_fixed_complete (.sign .responseArrow) start hts
  obtain ⟨c, rest, h₄, hrest⟩ := accept_complete name? (.identifier none) start hts rfl
  refine ⟨⟨.response requester ⟨b, c⟩ found, requester.span.union c⟩, rest, ?_, rfl, hrest⟩
  simp only [readResponseStep, bind_eq_ok, Prod.exists]
  refine ⟨_, ts₁, h₁, ?_⟩
  rw [hfound]
  exact ⟨_, _, h₂, _, _, h₃, _, _, h₄, rfl⟩

theorem readWriteStep_complete (left : Spanned Ident) (message : Spanned String) (start : Tokens)
    {b : Ident} (hts : values ts = .sign .arrow :: .identifier b :: us) :
    Gives StepDecl.bare (readWriteStep left message start ts)
      (.transfer .write left.bare (unplaced b) message.bare) us := by
  obtain ⟨_, _, h₁, hts⟩ := accept_fixed_complete (.sign .arrow) start hts
  obtain ⟨c, rest, h₂, hrest⟩ := accept_complete name? (.identifier none) start hts rfl
  refine ⟨⟨.transfer .write left ⟨b, c⟩ message, left.span.union c⟩, rest, ?_, rfl, hrest⟩
  simp only [readWriteStep, bind_eq_ok, Prod.exists]
  exact ⟨_, _, h₁, _, _, h₂, rfl⟩

theorem readReadStep_complete (left : Spanned Ident) (start : Tokens) {b : Ident}
    {message : String}
    (hts : values ts = .text message :: .sign .dash :: .identifier b :: us) :
    Gives StepDecl.bare (readReadStep left start ts)
      (.transfer .read left.bare (unplaced b) (unplaced message)) us := by
  obtain ⟨a, _, h₁, hts⟩ :=
    accept_complete textValue? (.textLiteral .stepMessage) start hts rfl
  obtain ⟨_, _, h₂, hts⟩ := accept_fixed_complete (.sign .dash) start hts
  obtain ⟨c, rest, h₃, hrest⟩ := accept_complete name? (.identifier none) start hts rfl
  refine ⟨⟨.transfer .read left ⟨b, c⟩ ⟨message, a⟩, left.span.union c⟩, rest, ?_, rfl, hrest⟩
  simp only [readReadStep, bind_eq_ok, Prod.exists]
  exact ⟨_, _, h₁, _, _, h₂, _, _, h₃, rfl⟩

/-- A reader that decides for one form gives what the form gives. -/
theorem Gives.exists_some {α : Type} {bare : α → α} {r : Read (Spanned α × Tokens)} {x : α}
    (h : Gives bare r x us) :
    ∃ y rest, some <$> r = .ok (some (y, rest)) ∧ bare y.value = x ∧ values rest = us := by
  obtain ⟨y, rest, hr, hy, hrest⟩ := h
  exact ⟨y, rest, map_some_eq_ok.2 hr, hy, hrest⟩

theorem readStep_complete {d : StepDecl} (h : StepRule ws d) (hts : values ts = ws ++ us) :
    ∃ x rest, readStep ts = .ok (some (x, rest)) ∧ x.value.bare = d ∧ values rest = us := by
  cases h with
  | request kind a b h =>
    obtain ⟨sa, _, rfl, h₁⟩ := values_eq_cons hts
    obtain ⟨_, _, rfl, h₂⟩ := values_eq_cons h₁
    obtain ⟨_, ts, rfl, h₃⟩ := values_eq_cons h₂
    rw [List.append_eq, List.append_assoc] at h₃
    exact (readRequestStep_complete ⟨a, sa⟩ _ h h₃).exists_some
  | response a b h =>
    obtain ⟨sa, _, rfl, h₁⟩ := values_eq_cons hts
    obtain ⟨_, ts, rfl, h₂⟩ := values_eq_cons h₁
    rw [List.append_eq, List.cons_append, List.append_assoc] at h₂
    exact (readResponseStep_complete ⟨a, sa⟩ _ h h₂).exists_some
  | write a b message =>
    obtain ⟨sa, _, rfl, h₁⟩ := values_eq_cons hts
    obtain ⟨_, _, rfl, h₂⟩ := values_eq_cons h₁
    obtain ⟨sm, ts, rfl, h₃⟩ := values_eq_cons h₂
    exact (readWriteStep_complete ⟨a, sa⟩ ⟨message, sm⟩ _ h₃).exists_some
  | read a b message =>
    obtain ⟨sa, _, rfl, h₁⟩ := values_eq_cons hts
    obtain ⟨_, ts, rfl, h₂⟩ := values_eq_cons h₁
    exact (readReadStep_complete ⟨a, sa⟩ _ h₂).exists_some

theorem readSteps_complete {ds : List StepDecl} (h : Block StepRule ws ds)
    (hts : values ts = ws ++ .sign .rightBrace :: us) : ∃ xs rest,
      readSteps ts = .ok (xs, rest) ∧ (xs.map fun x => x.value.bare) = ds ∧
        values rest = .sign .rightBrace :: us := by
  refine block_complete (fun x => x.value.bare)
    (fun ts x rest => readStep ts = .ok (some (x, rest)))
    (fun ts xs rest => readSteps ts = .ok (xs, rest))
    (fun _ _ => StepRule.opens) (fun hx hts _ => readStep_complete hx hts) ?_ ?_ h hts
  · intro ts us hts
    obtain ⟨_, rest, rfl, _⟩ := values_eq_cons hts
    rw [readSteps]
    rfl
  · intro ts x next xs rest hx hxs
    unfold readSteps
    split
    · next e he =>
      rw [he] at hx
      cases hx
    · next hnone =>
      rw [hnone] at hx
      cases hx
    · next y next' hy =>
      rw [hy] at hx
      cases hx
      exact bind_eq_ok.2 ⟨_, hxs, rfl⟩

theorem readScenario_complete (name : Spanned String) (start : Tokens) {ds : List StepDecl}
    (h : Block StepRule ws ds)
    (hts : values ts = .sign .leftBrace :: (ws ++ .sign .rightBrace :: us)) :
    Gives Statement.bare (readScenario name start ts)
      (.scenario ⟨name.bare, ds.map unplaced⟩) us := by
  obtain ⟨_, _, h₁, hts⟩ := accept_fixed_complete .scenarioBody start hts
  obtain ⟨xs, _, h₂, rfl, hts⟩ := readSteps_complete h hts
  obtain ⟨b, rest, h₃, hrest⟩ := accept_fixed_complete (.itemOrEnd .step) start hts
  refine ⟨⟨.scenario ⟨name, xs⟩, name.span.union b⟩, rest, ?_, ?_, hrest⟩
  · simp only [readScenario, bind_eq_ok, Prod.exists]
    exact ⟨_, _, h₁, _, _, h₂, _, _, h₃, rfl⟩
  · rw [Statement.bare, List.map_map]
    rfl

end Reader

end ArchScript
