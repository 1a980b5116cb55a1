/-
  Pieces of a source.

  `Span.slice` cuts a span out of a source. Where characters of the source begin and end, the
  span between them gives these characters (`slice_of_append`), and the span over two pieces
  begins with the first and ends with the second (`Written.slice_union`). In a program that is
  read from a source each identifier is written where it stands (`written_of_source`).
-/
import ArchScript.Proofs.Names.Order
import ArchScript.Proofs.Names.Program
import Mathlib.Data.String.Basic

namespace ArchScript

/-- The characters of the source that the span takes up. -/
def Span.slice (s : Span) (source : String) : String :=
  String.Pos.Raw.extract source ⟨s.start⟩ ⟨s.stop⟩

theorem Text.utf8Len_eq (cs : List Char) : String.utf8Len cs = Text.byteLength cs := by
  rw [← String.utf8ByteSize_ofList, Text.utf8ByteSize_ofList]

variable {source : String}

theorem slice_of_append {before w after : List Char} (h : source.toList = before ++ (w ++ after)) :
    (Span.ofSize (Text.byteLength before) (Text.byteLength w)).slice source = String.ofList w := by
  have hcut := String.extract_of_valid before w after
  rw [Text.utf8Len_eq, Text.utf8Len_eq, List.append_assoc, ← h, String.ofList_toList] at hcut
  exact hcut

/-- Of two cuts through a text the one at the smaller offset is the first. -/
theorem exists_middle_of_byteLength_le {u v x y : List Char} (h : u ++ x = v ++ y)
    (hle : Text.byteLength u ≤ Text.byteLength v) : ∃ m, v = u ++ m ∧ x = m ++ y := by
  rcases List.append_eq_append_iff.1 h with ⟨m, hv, hx⟩ | ⟨m, hu, hy⟩
  · exact ⟨m, hv, hx⟩
  · have hm : m = [] := by
      by_contra hne
      have hpos := Text.byteLength_pos hne
      rw [hu, Text.byteLength_append] at hle
      omega
    subst hm
    exact ⟨[], by rw [hu, List.append_nil, List.append_nil], hy.symm⟩

/-! ## Identifiers -/

/-- The identifier is written in the source where its span says. -/
def Written (source : String) (x : Spanned Ident) : Prop :=
  ∃ before after, source.toList = before ++ (x.value.toList ++ after) ∧
    x.span = .ofSize (Text.byteLength before) (Text.byteLength x.value.toList)

namespace Written

variable {a b : Spanned Ident}

theorem slice_eq (h : Written source a) : a.span.slice source = a.value := by
  obtain ⟨before, after, hsource, hspan⟩ := h
  rw [hspan, slice_of_append hsource, String.ofList_toList]

/-- The span over two identifiers begins with the first and ends with the second. -/
theorem slice_union (ha : Written source a) (hb : Written source b)
    (hab : a.span.stop ≤ b.span.start) :
    ∃ middle, (a.span.union b.span).slice source = a.value ++ middle ++ b.value := by
  obtain ⟨before, after, hsource, hspan⟩ := ha
  obtain ⟨before', after', hsource', hspan'⟩ := hb
  have hcuts : (before ++ a.value.toList) ++ after = before' ++ (b.value.toList ++ after') := by
    rw [List.append_assoc, ← hsource, hsource']
  have hle : Text.byteLength (before ++ a.value.toList) ≤ Text.byteLength before' := by
    rw [hspan, hspan'] at hab
    rw [Text.byteLength_append]
    exact hab
  obtain ⟨m, hbefore', rfl⟩ := exists_middle_of_byteLength_le hcuts hle
  have hpiece : source.toList =
      before ++ ((a.value.toList ++ m ++ b.value.toList) ++ after') := by
    rw [hsource]
    simp only [List.append_assoc]
  have hunion : a.span.union b.span = .ofSize (Text.byteLength before)
      (Text.byteLength (a.value.toList ++ m ++ b.value.toList)) := by
    rw [hspan, hspan', hbefore']
    simp only [Span.union, Span.ofSize, Text.byteLength_append, Span.mk.injEq]
    omega
  refine ⟨String.ofList m, ?_⟩
  rw [hunion, slice_of_append hpiece, String.ofList_append, String.ofList_append,
    String.ofList_toList, String.ofList_toList]

end Written

/-! ## Sources -/

variable {lexemes : List (Spanned Lexeme)} {p : Program}

theorem written_of_mem_identifiersIn (ht : tokenize source = .ok lexemes) :
    ∀ x ∈ identifiersIn (meaningful lexemes), Written source x := by
  obtain ⟨ps, hps, _, rfl⟩ := tokenize_eq_ok_iff_greedy.1 ht
  intro x hx
  obtain ⟨t, ht, hname⟩ := List.mem_filterMap.1 hx
  obtain ⟨l, hl, htoken⟩ := List.mem_filterMap.1 ht
  obtain ⟨u, hu, rfl⟩ := Option.map_eq_some_iff.1 htoken
  obtain ⟨name, hu', rfl⟩ := Option.map_eq_some_iff.1 hname
  obtain ⟨before, w, after, hsource, hlongest, hspan⟩ := hps.standsIn 0 l hl
  have hvalue : l.value = .token (.identifier name) := by
    cases hl : l.value <;> rw [hl] at hu <;> cases hu
    cases u <;> cases hu'
    rfl
  have hw : w = name.toList := by
    have hspells := hlongest.spells
    rw [hvalue] at hspells
    cases hspells
    rw [String.toList_ofList]
  rw [Nat.zero_add] at hspan
  exact ⟨before, after, hw ▸ hsource, hw ▸ hspan⟩

/-- The identifiers of a program are written where they stand. -/
theorem written_of_source (ht : tokenize source = .ok lexemes)
    (hp : Program.ofTokens (meaningful lexemes) = .ok p) :
    ∀ x ∈ identifiersOf p, Written source x :=
  fun x hx => written_of_mem_identifiersIn ht x ((Reader.readProgram_taken hp).subset hx)

theorem isWord_of_mem_identifiersOf (ht : tokenize source = .ok lexemes)
    (hp : Program.ofTokens (meaningful lexemes) = .ok p) :
    ∀ x ∈ identifiersOf p, IsWord x.value := by
  intro x hx
  obtain ⟨t, ht', hname⟩ := List.mem_filterMap.1 ((Reader.readProgram_taken hp).subset hx)
  obtain ⟨name, hvalue, rfl⟩ := Option.map_eq_some_iff.1 hname
  refine words_of_tokenize ht t ht' name ?_
  cases h : t.value <;> rw [h] at hvalue <;> cases hvalue
  rfl

/-- Each span of a source ends before the next begins. -/
theorem Covers.apart {start stop : Nat} {spans : List Span} (h : Covers start stop spans) :
    spans.Pairwise fun s t => s.stop ≤ t.start := by
  induction spans generalizing start with
  | nil => exact .nil
  | cons s spans ih =>
    obtain ⟨_, _, hspans⟩ := h
    exact List.pairwise_cons.2 ⟨hspans.ascending.2, ih hspans⟩

/-- Each identifier of the program of a source ends before the next begins. -/
theorem identifiers_apart (ht : tokenize source = .ok lexemes)
    (hp : Program.ofTokens (meaningful lexemes) = .ok p) :
    ((identifiersOf p).map Spanned.span).Pairwise fun s t => s.stop ≤ t.start := by
  obtain ⟨ps, hps, _, rfl⟩ := tokenize_eq_ok_iff_greedy.1 ht
  exact ((hps.covers 0).apart.sublist (spans_identifiersIn_sublist _)).sublist
    ((Reader.readProgram_taken hp).map Spanned.span)

end ArchScript
