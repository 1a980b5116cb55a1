/-
  When a parser does what a reader does.

  A parser gets the lexemes of a source and passes over the layout as it goes; a reader gets
  the tokens alone. `Follows` compares them within a construct, where what comes next must be
  there, and `Chooses` where it may be missing. Both say what is read, what is left and which
  fault a failure is (`Explains`), and there is a law for each way in which parsers are put
  together. Positions differ: a parser counts lexemes, a fault holds the tokens between them.
-/
import ArchScript.Program.Parser
import ArchScript.Proofs.Grammar.Equations

namespace ArchScript

namespace ParseFailure

theorem labels_labelled (label : String) (e : ParseFailure) :
    (e.labelled label).labels = e.labels ++ [label] := by
  simp [labels, labelled]

theorem labels_committed (start : Lexemes) (e : ParseFailure) :
    (e.committed start).labels = e.labels := by
  simp [labels, committed]

theorem began?_labelled (label : String) (e : ParseFailure) :
    (e.labelled label).began? = e.began? := by
  simp [began?, labelled, List.findSome?_append]

theorem began?_committed (start : Lexemes) (e : ParseFailure) :
    (e.committed start).began? = some (e.began?.getD start.length) := by
  simp only [began?, committed, List.findSome?_append]
  cases List.findSome? _ e.notes <;> rfl

end ParseFailure

/-- What the labels of a parser say where this is expected. -/
def Expected.labels : Expected → List String
  | identifier none => ["identifier"]
  | identifier (some role) => ["identifier", role.text]
  | textLiteral role => ["text literal", role.text]
  | e => [e.text]

namespace Parser

open Reader

variable {α β : Type} {begin ls rest : Lexemes}

/-! ## Layout -/

theorem meaningful_onward (ls : Lexemes) : meaningful (onward ls) = meaningful ls := by
  induction ls with
  | nil => rfl
  | cons l ls ih =>
    unfold onward at *
    cases hl : l.value.token? with
    | none => simpa [List.dropWhile_cons, hl, meaningful] using ih
    | some t => simp [hl]

theorem onward_suffix (ls : Lexemes) : onward ls <:+ ls := List.dropWhile_suffix _

/-- The lexemes from the next token on begin with it. -/
theorem onward_eq_nil_or (ls : Lexemes) : onward ls = [] ∨
    ∃ t span rest, onward ls = ⟨.token t, span⟩ :: rest := by
  cases h : onward ls with
  | nil => exact Or.inl rfl
  | cons l rest =>
    refine Or.inr ?_
    have hl : l.value.token?.isNone = false := by
      have := List.head?_dropWhile_not (fun l : Spanned Lexeme => l.value.token?.isNone) ls
      unfold onward at h
      rw [h] at this
      simpa using this
    obtain ⟨value, span⟩ := l
    cases value with
    | token t => exact ⟨t, span, rest, rfl⟩
    | comment _ => cases hl
    | blanks => cases hl
    | lineBreak => cases hl

/-- Of the lexemes `ls` these are left, after one at least. -/
structure Leaves (ls rest : Lexemes) : Prop where
  suffix : rest <:+ ls
  length_lt : rest.length < ls.length

theorem Leaves.of_suffix {rest' : Lexemes} (h : Leaves ls rest) (hrest : rest' <:+ rest) :
    Leaves ls rest' :=
  ⟨hrest.trans h.suffix, Nat.lt_of_le_of_lt hrest.length_le h.length_lt⟩

theorem Leaves.in_suffix (h : Leaves ls rest) (hls : ls <:+ begin) : Leaves begin rest :=
  ⟨h.suffix.trans hls, Nat.lt_of_lt_of_le h.length_lt hls.length_le⟩

/-! ## Single tokens -/

/-- What comes of taking a token that `accepts` does: the token, or a mild failure where a token
of another kind or none stands. -/
inductive TakesFrom (accepts : Token → Option α) (labels : List String) (ls : Lexemes) :
    Outcome (Spanned α) → Prop
  | taken {t : Spanned Token} {a : α} {rest : Lexemes} (hrest : Leaves ls rest)
      (htokens : meaningful ls = t :: meaningful rest) (ha : accepts t.value = some a) :
      TakesFrom accepts labels ls (.ok ⟨a, t.span⟩ rest)
  | missed {e : ParseFailure} {rest : Lexemes} (hrest : rest <:+ ls)
      (htokens : meaningful ls = meaningful rest)
      (hnone : ∀ t ts, meaningful ls = t :: ts → accepts t.value = none)
      (hmild : e.isFinal = false) (hlabels : e.labels = labels) (hbegan : e.began? = none) :
      TakesFrom accepts labels ls (.error e rest)

/-- `p` takes one token, which `accepts` does; where it cannot, it expects these labels. -/
def Takes (p : Parser (Spanned α)) (accepts : Token → Option α) (labels : List String) : Prop :=
  ∀ ls, TakesFrom accepts labels ls (p ls)

theorem pick_apply (accepts : Token → Option α) (ls : Lexemes) :
    pick accepts ls = (match onward ls with
      | ⟨.token t, span⟩ :: rest =>
        match accepts t with
        | some a => do
          set rest
          return ⟨a, span⟩
        | none => throw .mild
      | _ => throw .mild : Parser (Spanned α)) (onward ls) := rfl

theorem takes_pick (accepts : Token → Option α) : Takes (pick accepts) accepts [] := by
  intro ls
  have htokens := (meaningful_onward ls).symm
  have hsuffix := onward_suffix ls
  rw [pick_apply]
  rcases onward_eq_nil_or ls with h | ⟨t, span, rest, h⟩
  · rw [h] at htokens hsuffix ⊢
    exact .missed hsuffix htokens (fun t ts ht => by rw [htokens] at ht; cases ht) rfl rfl rfl
  · rw [h] at htokens hsuffix ⊢
    dsimp only
    cases ha : accepts t with
    | none =>
      exact .missed hsuffix htokens (fun u us hu => by rw [htokens] at hu; cases hu; exact ha)
        rfl rfl rfl
    | some a =>
      exact TakesFrom.taken (t := ⟨t, span⟩) ⟨(List.suffix_cons _ rest).trans hsuffix,
        Nat.lt_of_lt_of_le (Nat.lt_succ_self _) hsuffix.length_le⟩ htokens ha

theorem Takes.labelled {p : Parser (Spanned α)} {accepts : Token → Option α}
    {labels : List String} (h : Takes p accepts labels) (label : String) :
    Takes (labelled label p) accepts (labels ++ [label]) := by
  intro ls
  have hls := h ls
  unfold Parser.labelled
  generalize p ls = x at hls
  cases hls with
  | taken hrest htokens ha => exact .taken hrest htokens ha
  | missed hrest htokens hnone hmild hlabels hbegan =>
    exact .missed hrest htokens hnone hmild (by rw [ParseFailure.labels_labelled, hlabels])
      (by rw [ParseFailure.began?_labelled, hbegan])

/-! ## Agreement -/

/-- The failure `e`, which leaves `rest` of the construct at `begin`, is the fault `f`. A failure
that no inner construct has noted its beginning on is one of the construct at `begin`. -/
structure Explains (begin : Lexemes) (e : ParseFailure) (rest : Lexemes) (f : SyntaxFault) :
    Prop where
  labels : e.labels = f.expected.labels
  left : f.rest = meaningful rest
  construct : ∃ front, front ++ rest <:+ begin ∧
    e.began?.getD begin.length = (front ++ rest).length ∧ f.construct = meaningful front

/-- In the construct at `begin` a parser with the result `x` does what a reader with the result
`r` does. -/
inductive Follows (begin : Lexemes) : Outcome α → Read (α × Tokens) → Prop
  | ok {a : α} {rest : Lexemes} (hrest : Leaves begin rest) :
      Follows begin (.ok a rest) (.ok (a, meaningful rest))
  | error {e : ParseFailure} {rest : Lexemes} {f : SyntaxFault} (h : Explains begin e rest f) :
      Follows begin (.error e rest) (.error f)

/-- The same at `ls`, of a parser and a reader that may find that nothing of theirs is there. -/
inductive Chooses (ls : Lexemes) : Outcome α → Read (Option (α × Tokens)) → Prop
  | ok {a : α} {rest : Lexemes} (hrest : Leaves ls rest) :
      Chooses ls (.ok a rest) (.ok (some (a, meaningful rest)))
  | absent {e : ParseFailure} {rest : Lexemes} (hmild : e.isFinal = false) :
      Chooses ls (.error e rest) (.ok none)
  | error {e : ParseFailure} {rest : Lexemes} {f : SyntaxFault} (hfinal : e.isFinal = true)
      (hbegan : e.began?.isSome) (h : Explains ls e rest f) :
      Chooses ls (.error e rest) (.error f)

/-- A failure that knows where its construct began is explained wherever that is. -/
theorem Explains.in_suffix {e : ParseFailure} {f : SyntaxFault} (h : Explains ls e rest f)
    (hbegan : e.began?.isSome) (hls : ls <:+ begin) : Explains begin e rest f := by
  obtain ⟨front, hfront, hlength, hconstruct⟩ := h.construct
  obtain ⟨n, hn⟩ := Option.isSome_iff_exists.1 hbegan
  refine ⟨h.labels, h.left, front, hfront.trans hls, ?_, hconstruct⟩
  rw [hn] at hlength ⊢
  exact hlength

/-- Where the token that must come does not. -/
theorem Explains.missed {e : ParseFailure} {expected : Expected}
    (hlabels : e.labels = expected.labels) (hbegan : e.began? = none) (hrest : rest <:+ begin) :
    Explains begin e rest (.stoppedAt expected (meaningful begin) (meaningful rest)) := by
  obtain ⟨front, rfl⟩ := hrest
  refine ⟨hlabels, rfl, front, List.suffix_refl _, by rw [hbegan]; rfl, ?_⟩
  simp [SyntaxFault.stoppedAt, meaningful, List.filterMap_append]

theorem bind_apply (p : Parser α) (k : α → Parser β) (ls : Lexemes) :
    (p >>= k) ls = match p ls with
      | .ok a rest => k a rest
      | .error e rest => .error e rest := by
  cases h : p ls <;> simp [bind, EStateM.bind, h]

/-! ### Within a construct -/

theorem Follows.take {p : Parser (Spanned α)} {accepts : Token → Option α} {expected : Expected}
    (hp : Takes p accepts expected.labels) (hls : ls <:+ begin) :
    Follows begin (p ls) (accept accepts expected (meaningful begin) (meaningful ls)) := by
  have hpls := hp ls
  generalize p ls = x at hpls
  cases hpls with
  | taken hrest htokens ha =>
    rw [htokens, accept, ha]
    exact .ok (hrest.in_suffix hls)
  | missed hrest htokens hnone hmild hlabels hbegan =>
    have haccept : accept accepts expected (meaningful begin) (meaningful ls) =
        .error (.stoppedAt expected (meaningful begin) (meaningful ls)) := by
      cases hts : meaningful ls with
      | nil => rfl
      | cons t ts => rw [accept, hnone t ts hts]
    rw [haccept, htokens]
    exact .error (.missed hlabels hbegan (hrest.trans hls))

theorem Follows.bind {p : Parser α} {k : α → Parser β} {r : Read (α × Tokens)}
    {k' : α × Tokens → Read (β × Tokens)} (h : Follows begin (p ls) r)
    (hk : ∀ a rest, Leaves begin rest → Follows begin (k a rest) (k' (a, meaningful rest))) :
    Follows begin ((p >>= k) ls) (r >>= k') := by
  rw [bind_apply]
  generalize p ls = x at h
  cases h with
  | ok hrest => exact hk _ _ hrest
  | error h => exact .error h

theorem Follows.map {p : Parser α} {r : Read (α × Tokens)} (g : α → β)
    (h : Follows begin (p ls) r) :
    Follows begin ((g <$> p) ls) ((fun q => (g q.1, q.2)) <$> r) := by
  change Follows begin (EStateM.map g p ls) _
  unfold EStateM.map
  generalize p ls = x at h
  cases h with
  | ok hrest => exact .ok hrest
  | error h => exact .error h

/-! ### Where a form may be missing -/

/-- What `form` reads after a token that `accepts` does, if one comes next. -/
def leading (accepts : Token → Option α) (ts : Tokens)
    (form : Spanned α → Tokens → Read (Option (β × Tokens))) : Read (Option (β × Tokens)) :=
  match ts with
  | [] => .ok none
  | t :: rest =>
    match accepts t.value with
    | none => .ok none
    | some a => form ⟨a, t.span⟩ rest

/-- A form is there only after a token that may lead it. -/
theorem leading_cases (accepts : Token → Option α) (ts : Tokens)
    (form : Spanned α → Tokens → Read (Option (β × Tokens))) :
    leading accepts ts form = .ok none ∨ ∃ t rest a, ts = t :: rest ∧
      accepts t.value = some a ∧ leading accepts ts form = form ⟨a, t.span⟩ rest := by
  cases ts with
  | nil => exact Or.inl rfl
  | cons t rest =>
    cases ha : accepts t.value with
    | none => exact Or.inl (by rw [leading, ha])
    | some a => exact Or.inr ⟨t, rest, a, rfl, ha, by rw [leading, ha]⟩

theorem leading_eq_none {accepts : Token → Option α} {ts : Tokens}
    {form : Spanned α → Tokens → Read (Option (β × Tokens))}
    (h : ∀ t rest, ts = t :: rest → accepts t.value = none) :
    leading accepts ts form = .ok none := by
  cases ts with
  | nil => rfl
  | cons t rest => rw [leading, h t rest rfl]

theorem map_leading {γ : Type} (g : β × Tokens → γ × Tokens) (accepts : Token → Option α)
    (ts : Tokens) (form : Spanned α → Tokens → Read (Option (β × Tokens))) :
    Option.map g <$> leading accepts ts form =
      leading accepts ts fun a rest => Option.map g <$> form a rest := by
  cases ts with
  | nil => rfl
  | cons t rest =>
    simp only [leading]
    cases accepts t.value <;> rfl

theorem Chooses.in_suffix {x : Outcome α}
    {r : Read (Option (α × Tokens))} (h : Chooses ls x r) (hls : ls <:+ begin) :
    Chooses begin x r := by
  cases h with
  | ok hrest => exact .ok (hrest.in_suffix hls)
  | absent hmild => exact .absent hmild
  | error hfinal hbegan h => exact .error hfinal hbegan (h.in_suffix hbegan hls)

theorem Chooses.take {p : Parser (Spanned α)} {accepts : Token → Option α} {labels : List String}
    {k : Spanned α → Parser β} {form : Spanned α → Tokens → Read (Option (β × Tokens))}
    (hp : Takes p accepts labels) (hls : ls <:+ begin)
    (hk : ∀ a rest, Leaves begin rest → Chooses begin (k a rest) (form a (meaningful rest))) :
    Chooses begin ((p >>= k) ls) (leading accepts (meaningful ls) form) := by
  have hpls := hp ls
  rw [bind_apply]
  generalize p ls = x at hpls
  cases hpls with
  | taken hrest htokens ha =>
    rw [htokens, leading, ha]
    exact hk _ _ (hrest.in_suffix hls)
  | missed _ _ hnone hmild _ _ =>
    rw [leading_eq_none hnone]
    exact .absent hmild

/-- A form of one token. -/
theorem Chooses.last {p : Parser (Spanned α)} {accepts : Token → Option α} {labels : List String}
    (hp : Takes p accepts labels) (hls : ls <:+ begin) :
    Chooses begin (p ls) (leading accepts (meaningful ls) fun a rest => .ok (some (a, rest))) := by
  have hpls := hp ls
  generalize p ls = x at hpls
  cases hpls with
  | taken hrest htokens ha =>
    rw [htokens, leading, ha]
    exact .ok (hrest.in_suffix hls)
  | missed _ _ hnone hmild _ _ =>
    rw [leading_eq_none hnone]
    exact .absent hmild

theorem Chooses.committed {p : Parser α} {r : Read (α × Tokens)} (h : Follows begin (p ls) r) :
    Chooses begin (committed begin p ls) (some <$> r) := by
  unfold Parser.committed
  generalize p ls = x at h
  cases h with
  | ok hrest => exact .ok hrest
  | @error e rest f h =>
    have hbegan := ParseFailure.began?_committed begin e
    obtain ⟨front, hfront, hlength, hconstruct⟩ := h.construct
    refine .error rfl (by rw [hbegan]; rfl) ⟨?_, h.left, front, hfront, ?_, hconstruct⟩
    · rw [ParseFailure.labels_committed, h.labels]
    · rw [hbegan]
      exact hlength

/-- A parser that always succeeds behind a form. -/
theorem Chooses.after {p : Parser α} {k : α → Parser β} {r : Read (Option (α × Tokens))}
    {g : α × Tokens → β × Tokens} (h : Chooses ls (p ls) r)
    (hk : ∀ a rest, ∃ b rest', k a rest = .ok b rest' ∧ rest' <:+ rest ∧
      g (a, meaningful rest) = (b, meaningful rest')) :
    Chooses ls ((p >>= k) ls) (Option.map g <$> r) := by
  rw [bind_apply]
  generalize p ls = x at h
  cases h with
  | @ok a rest hrest =>
    obtain ⟨b, rest', hb, hrest', hg⟩ := hk a rest
    have hr : Option.map g <$> (.ok (some (a, meaningful rest)) : Read (Option (α × Tokens))) =
        .ok (some (b, meaningful rest')) := by rw [← hg]; rfl
    rw [hr]
    dsimp only
    rw [hb]
    exact .ok (hrest.of_suffix hrest')
  | absent hmild => exact .absent hmild
  | error hfinal hbegan h => exact .error hfinal hbegan h

/-! ### Choice -/

/-- What the second reader gives where the first finds nothing of its own. -/
def orElse (r r' : Read (Option (α × Tokens))) : Read (Option (α × Tokens)) :=
  match r with
  | .error x => .error x
  | .ok none => r'
  | .ok (some q) => .ok (some q)

theorem orElse_form (r : Read (α × Tokens)) (r' : Read (Option (α × Tokens))) :
    orElse (some <$> r) r' = some <$> r := by
  cases r <;> rfl

theorem Chooses.alt {p q : Parser α} {r r' : Read (Option (α × Tokens))}
    (hp : Chooses ls (p ls) r) (hq : Chooses ls (q ls) r') :
    Chooses ls (alt p q ls) (orElse r r') := by
  unfold Parser.alt
  generalize p ls = x at hp
  cases hp with
  | ok hrest => exact .ok hrest
  | absent hmild =>
    simp only [hmild]
    exact hq
  | error hfinal hbegan h =>
    simp only [hfinal]
    exact .error hfinal hbegan h

/-! ### Forms that may be left out -/

/-- What is read of a form that may be left out. -/
def orNothing (ts : Tokens) (r : Read (Option (α × Tokens))) : Read (Option α × Tokens) :=
  match r with
  | .error x => .error x
  | .ok none => .ok (none, ts)
  | .ok (some q) => .ok (some q.1, q.2)

theorem Follows.maybe {p : Parser α} {r : Read (Option (α × Tokens))} (h : Chooses ls (p ls) r)
    (hls : Leaves begin ls) : Follows begin (maybe p ls) (orNothing (meaningful ls) r) := by
  unfold Parser.maybe
  generalize p ls = x at h
  cases h with
  | ok hrest => exact .ok (hls.of_suffix hrest.suffix)
  | absent hmild =>
    simp only [hmild]
    exact .ok hls
  | error hfinal hbegan h =>
    simp only [hfinal]
    exact .error (h.in_suffix hbegan hls.suffix)

/-- Takes one token if `accepts` does. -/
def taking (accepts : Token → Option α) : Tokens → Option (Spanned α) × Tokens
  | [] => (none, [])
  | t :: rest =>
    match accepts t.value with
    | none => (none, t :: rest)
    | some a => (some ⟨a, t.span⟩, rest)

theorem maybe_takes {p : Parser (Spanned α)} {accepts : Token → Option α} {labels : List String}
    (hp : Takes p accepts labels) (ls : Lexemes) : ∃ o rest, maybe p ls = .ok o rest ∧
      rest <:+ ls ∧ taking accepts (meaningful ls) = (o, meaningful rest) := by
  have hpls := hp ls
  unfold maybe
  generalize p ls = x at hpls
  cases hpls with
  | @taken t a rest hrest htokens ha =>
    refine ⟨_, rest, rfl, hrest.suffix, ?_⟩
    rw [htokens, taking, ha]
  | missed hrest htokens hnone hmild hlabels hbegan =>
    simp only [hmild]
    refine ⟨_, ls, rfl, List.suffix_refl ls, ?_⟩
    cases hts : meaningful ls with
    | nil => rfl
    | cons t ts => rw [taking, hnone t ts hts]

/-! ### Repetition -/

/-- What is read of items at `ts` when an item reader gives `r` there and `more` reads what
follows an item. -/
def repeating (ts : Tokens) (r : Read (Option (α × Tokens)))
    (more : Tokens → Read (List α × Tokens)) : Read (List α × Tokens) :=
  match r with
  | .error x => .error x
  | .ok none => .ok ([], ts)
  | .ok (some q) => more q.2 >>= fun p => .ok (q.1 :: p.1, p.2)

theorem many_apply (p : Parser α) (ls : Lexemes) : many p ls = manyFrom p ls := rfl

/-- Items are read one after the other, as long as their parser does what their reader does on no
more than `n` lexemes. -/
theorem Follows.many {n : Nat} {p : Parser α} {r : Tokens → Read (Option (α × Tokens))}
    {more : Tokens → Read (List α × Tokens)}
    (hmore : ∀ ts, more ts = repeating ts (r ts) more)
    (hp : ∀ ls, ls.length ≤ n → Chooses ls (p ls) (r (meaningful ls)))
    (hn : ls.length ≤ n) (hls : Leaves begin ls) :
    Follows begin (many p ls) (more (meaningful ls)) := by
  have hitem := hp ls hn
  rw [hmore, many_apply]
  -- along the repetitions: each leaves less, so the bound `n` holds of what it leaves
  fun_induction manyFrom p ls with
  | case1 ls a rest h hlt as rest' hmany ih =>
    rw [h] at hitem
    generalize r (meaningful ls) = read at hitem ⊢
    cases hitem with
    | ok hrest =>
      have hfollow := ih (by omega) (hls.of_suffix hrest.suffix) (hp rest (by omega))
      rw [hmany, ← hmore] at hfollow
      simp only [repeating]
      generalize more (meaningful rest) = follow at hfollow ⊢
      cases hfollow with
      | ok hrest' => exact .ok hrest'
  | case2 ls a rest h hlt e rest' hmany ih =>
    rw [h] at hitem
    generalize r (meaningful ls) = read at hitem ⊢
    cases hitem with
    | ok hrest =>
      have hfollow := ih (by omega) (hls.of_suffix hrest.suffix) (hp rest (by omega))
      rw [hmany, ← hmore] at hfollow
      simp only [repeating]
      generalize more (meaningful rest) = follow at hfollow ⊢
      cases hfollow with
      | error h => exact .error h
  | case3 ls a rest h hlt =>
    rw [h] at hitem
    generalize r (meaningful ls) = read at hitem ⊢
    cases hitem with
    | ok hrest => exact absurd hrest.length_lt hlt
  | case4 ls e rest h hfinal =>
    rw [h] at hitem
    generalize r (meaningful ls) = read at hitem ⊢
    cases hitem with
    | absent hmild =>
      rw [hmild] at hfinal
      cases hfinal
    | error _ hbegan h => exact .error (h.in_suffix hbegan hls.suffix)
  | case5 ls e rest h hmild =>
    rw [h] at hitem
    generalize r (meaningful ls) = read at hitem ⊢
    cases hitem with
    | absent => exact .ok hls
    | error hfinal => exact absurd hfinal hmild

end Parser

end ArchScript
