/-
  Words: the letters, digits and underscores of which identifiers are made.

  The lexer makes an identifier of nothing else (`words_of_tokenize`). No sign stands in a
  word, so the id of a channel tells its kind and its ends (`channelId_inj`).
-/
import ArchScript.Token.Lexer
import ArchScript.Program
import Mathlib.Data.List.TakeWhile

namespace ArchScript

/-! ## Words -/

/-- Letters, digits and underscores. -/
def IsWord (x : Ident) : Prop := ∀ c ∈ x.toList, Lexer.isWordChar c = true

instance (x : Ident) : Decidable (IsWord x) := List.decidableBAll _ x.toList

theorem IsWord.not_mem {x : Ident} (h : IsWord x) {c : Char} (hc : Lexer.isWordChar c = false) :
    c ∉ x.toList := by
  intro hm
  rw [h c hm] at hc
  cases hc

/-- A list is cut in one way before the first `c`. -/
theorem eq_of_append_cons {c : Char} {u v x y : List Char} (hx : c ∉ x) (hy : c ∉ y)
    (h : x ++ c :: u = y ++ c :: v) : x = y ∧ u = v := by
  induction x generalizing y with
  | nil =>
    cases y with
    | nil => exact ⟨rfl, (List.cons.inj h).2⟩
    | cons d y =>
      obtain ⟨rfl, _⟩ := List.cons.inj h
      exact (hy List.mem_cons_self).elim
  | cons d x ih =>
    cases y with
    | nil =>
      obtain ⟨rfl, _⟩ := List.cons.inj h
      exact (hx List.mem_cons_self).elim
    | cons e y =>
      obtain ⟨rfl, ht⟩ := List.cons.inj h
      rw [List.mem_cons, not_or] at hx hy
      obtain ⟨rfl, huv⟩ := ih hx.2 hy.2 ht
      exact ⟨rfl, huv⟩

theorem toList_channelId (k : ChannelKind) (a b : Ident) :
    (channelId k a b).toList = a.toList ++ '-' :: (k.text.toList ++ '-' :: ('>' :: b.toList)) := by
  simp [channelId, String.toList_append]

theorem ChannelKind.isWord_text (k : ChannelKind) : IsWord k.text := by cases k <;> decide

/-- A channel with no dash in its source is known by its id. -/
theorem channelId_inj_of_dash {k k' : ChannelKind} {a b a' b' : Ident} (ha : '-' ∉ a.toList)
    (ha' : '-' ∉ a'.toList) (h : channelId k a b = channelId k' a' b') :
    k = k' ∧ a = a' ∧ b = b' := by
  have hdash : Lexer.isWordChar '-' = false := by decide
  have hlist := congrArg String.toList h
  rw [toList_channelId, toList_channelId] at hlist
  obtain ⟨hsource, hrest⟩ := eq_of_append_cons ha ha' hlist
  obtain ⟨hkind, htarget⟩ := eq_of_append_cons (k.isWord_text.not_mem hdash)
    (k'.isWord_text.not_mem hdash) hrest
  refine ⟨?_, String.toList_inj.1 hsource, String.toList_inj.1 (List.cons.inj htarget).2⟩
  have htext := congrArg ChannelKind.ofText? (String.toList_inj.1 hkind)
  rw [ChannelKind.ofText?_text, ChannelKind.ofText?_text] at htext
  exact Option.some.inj htext

/-- A channel with a word for its source is known by its id. -/
theorem channelId_inj {k k' : ChannelKind} {a b a' b' : Ident} (ha : IsWord a) (ha' : IsWord a')
    (h : channelId k a b = channelId k' a' b') : k = k' ∧ a = a' ∧ b = b' :=
  channelId_inj_of_dash (ha.not_mem (by decide)) (ha'.not_mem (by decide)) h

theorem toList_flowId (k : FlowKind) (a b : Ident) :
    (flowId k a b).toList = k.text.toList ++ ':' :: (a.toList ++ '-' :: ('>' :: b.toList)) := by
  simp [flowId, String.toList_append]

theorem FlowKind.isWord_text (k : FlowKind) : IsWord k.text := by cases k <;> decide

/-- A data flow with no dash in its source is known by its id. -/
theorem flowId_inj_of_dash {k k' : FlowKind} {a b a' b' : Ident} (ha : '-' ∉ a.toList)
    (ha' : '-' ∉ a'.toList) (h : flowId k a b = flowId k' a' b') :
    k = k' ∧ a = a' ∧ b = b' := by
  have hcolon : Lexer.isWordChar ':' = false := by decide
  have hlist := congrArg String.toList h
  rw [toList_flowId, toList_flowId] at hlist
  obtain ⟨hkind, hrest⟩ := eq_of_append_cons (k.isWord_text.not_mem hcolon)
    (k'.isWord_text.not_mem hcolon) hlist
  obtain ⟨hsource, htarget⟩ := eq_of_append_cons ha ha' hrest
  refine ⟨?_, String.toList_inj.1 hsource, String.toList_inj.1 (List.cons.inj htarget).2⟩
  have htext := congrArg FlowKind.ofText? (String.toList_inj.1 hkind)
  rw [FlowKind.ofText?_text, FlowKind.ofText?_text] at htext
  exact Option.some.inj htext

/-- A data flow with a word for its source is known by its id. -/
theorem flowId_inj {k k' : FlowKind} {a b a' b' : Ident} (ha : IsWord a) (ha' : IsWord a')
    (h : flowId k a b = flowId k' a' b') : k = k' ∧ a = a' ∧ b = b' :=
  flowId_inj_of_dash (ha.not_mem (by decide)) (ha'.not_mem (by decide)) h

/-! ## Tokens of a source -/

/-- Every identifier among the tokens is a word. -/
def Words (ts : Tokens) : Prop := ∀ t ∈ ts, ∀ x, t.value = .identifier x → IsWord x

theorem Words.tail {t : Spanned Token} {ts : Tokens} (h : Words (t :: ts)) : Words ts :=
  fun u hu => h u (List.mem_cons_of_mem t hu)

theorem Words.head {name : String} {span : Span} {ts : Tokens}
    (h : Words (⟨.identifier name, span⟩ :: ts)) : IsWord name := h _ List.mem_cons_self name rfl

namespace Lexer

theorem isWordChar_of_isWordStart {c : Char} (h : isWordStart c = true) :
    isWordChar c = true := by
  unfold isWordStart at h
  unfold isWordChar
  rw [Bool.or_eq_true] at h
  rcases h with h | h <;> simp [h]

theorem isWord_of_wordToken {w : List Char} (hw : ∀ c ∈ w, isWordChar c = true) {x : Ident}
    (h : wordToken w = .identifier x) : IsWord x := by
  unfold wordToken at h
  split at h
  · cases h
  · cases h
    intro c hc
    rw [String.toList_ofList] at hc
    exact hw c hc

theorem readText_found_ne {pos : Nat} {cs : List Char} {x : Ident} :
    (readText pos cs).found.value ≠ .lexeme (.token (.identifier x)) := by
  unfold readText
  dsimp only
  split <;> simp [Reading.ofLexeme]

theorem readSign_found_ne {pos : Nat} {c : Char} {cs : List Char} {x : Ident} :
    (readSign pos c cs).found.value ≠ .lexeme (.token (.identifier x)) := by
  unfold readSign
  split <;> simp

/-- An identifier at the front of a source is a word. -/
theorem isWord_of_readFront {pos : Nat} {c : Char} {cs : List Char} {x : Ident}
    (h : (readFront pos c cs).found.value = .lexeme (.token (.identifier x))) : IsWord x := by
  unfold readFront at h
  split at h
  · cases h
  · exact (readText_found_ne h).elim
  · split at h
    · next hstart =>
      injection h with h
      injection h with h
      refine isWord_of_wordToken (fun d hd => ?_) h
      rcases List.mem_cons.1 hd with rfl | hd
      · exact isWordChar_of_isWordStart hstart
      · exact List.mem_takeWhile_imp hd
    · split at h
      · cases h
      · split at h
        · cases h
        · exact (readSign_found_ne h).elim

theorem isWord_of_mem_scan {pos : Nat} {cs : List Char} {f : Spanned Finding} {x : Ident}
    (hf : f ∈ scan pos cs) (h : f.value = .lexeme (.token (.identifier x))) : IsWord x := by
  fun_induction scan pos cs with
  | case1 => cases hf
  | case2 pos c cs r ih =>
    rcases List.mem_cons.1 hf with rfl | hf
    · exact isWord_of_readFront h
    · exact ih hf

end Lexer

theorem words_of_tokenize {source : String} {lexemes : List (Spanned Lexeme)}
    (h : tokenize source = .ok lexemes) : Words (meaningful lexemes) := by
  unfold tokenize at h
  dsimp only at h
  split at h
  · cases h
    intro t ht x hx
    obtain ⟨l, hl, hlt⟩ := List.mem_filterMap.1 ht
    obtain ⟨token, htoken, rfl⟩ := Option.map_eq_some_iff.1 hlt
    obtain ⟨f, hf, hfl⟩ := List.mem_filterMap.1 hl
    split at hfl
    · next lexeme hlexeme =>
      cases hfl
      refine Lexer.isWord_of_mem_scan hf (hlexeme.trans ?_)
      cases lexeme with
      | token u =>
        cases htoken
        rw [← hx]
      | _ => cases htoken
    · cases hfl
  · cases h

end ArchScript
