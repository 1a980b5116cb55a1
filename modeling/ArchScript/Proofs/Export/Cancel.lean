/-
  Written JSON can be read in one way.

  `Delimits w P x`: what `w` writes for `x` tells where it ends, so two texts that begin with
  a written value begin with the same one. Escaped characters do so because they can be read
  back (`readChar_escapeChar`), lists of delimited items because no item begins like the
  end of the list (`Delimits.flatMap`), and documents of texts, lists and records by induction
  over the tree (`Document.Verbal.delimits`), in either layout.
-/
import ArchScript.Document.Json
import Mathlib.Tactic.SplitIfs

namespace ArchScript

/-! ## Delimited items -/

/-- Nothing of the class `P` but `x` is written with what is written for `x` at the front. -/
def Delimits {α : Type} (w : α → List Char) (P : α → Prop) (x : α) : Prop :=
  ∀ y, P y → ∀ r r', w x ++ r = w y ++ r' → x = y ∧ r = r'

/-- Delimited items in a row, up to an end that no item begins like. -/
theorem Delimits.flatMap {α : Type} {w : α → List Char} {P : α → Prop} {stop r r' : List Char}
    {xs ys : List α} (hxs : ∀ x ∈ xs, Delimits w P x) (hys : ∀ y ∈ ys, P y)
    (hstop : ∀ x r r', w x ++ r ≠ stop ++ r')
    (h : xs.flatMap w ++ (stop ++ r) = ys.flatMap w ++ (stop ++ r')) : xs = ys ∧ r = r' := by
  induction xs generalizing ys with
  | nil =>
    cases ys with
    | nil => exact ⟨rfl, List.append_cancel_left h⟩
    | cons y ys =>
      rw [List.flatMap_cons, List.append_assoc] at h
      exact (hstop y _ _ h.symm).elim
  | cons x xs ih =>
    obtain ⟨hx, hxs⟩ := List.forall_mem_cons.1 hxs
    cases ys with
    | nil =>
      rw [List.flatMap_cons, List.append_assoc] at h
      exact (hstop x _ _ h).elim
    | cons y ys =>
      obtain ⟨hy, hmore⟩ := List.forall_mem_cons.1 hys
      rw [List.flatMap_cons, List.flatMap_cons, List.append_assoc, List.append_assoc] at h
      obtain ⟨rfl, hrest⟩ := hx y hy _ _ h
      obtain ⟨rfl, hr⟩ := ih hxs hmore hrest
      exact ⟨rfl, hr⟩

namespace Json

/-! ## Strings -/

/-- The value of a hexadecimal digit in lower case. -/
def hexValue (c : Char) : Nat :=
  if c.toNat < 'a'.toNat then c.toNat - '0'.toNat else c.toNat - 'a'.toNat + 10

theorem hexValue_hexDigit : ∀ n < 16, hexValue (hexDigit n) = n := by decide

/-- The character that a letter after a backslash stands for; any other stands for itself. -/
def unescaped (c : Char) : Char :=
  if c = 'b' then '\x08'
  else if c = 'f' then '\x0c'
  else if c = 'n' then '\n'
  else if c = 'r' then '\r'
  else if c = 't' then '\t'
  else c

/-- Reads one character from the inside of a string. -/
def readChar : List Char → Option (Char × List Char)
  | [] => none
  | '\\' :: 'u' :: '0' :: '0' :: h :: l :: cs =>
    some (Char.ofNat (16 * hexValue h + hexValue l), cs)
  | '\\' :: c :: cs => some (unescaped c, cs)
  | c :: cs => some (c, cs)

/-- A character is read back from what is written for it. -/
theorem readChar_escapeChar (c : Char) (cs : List Char) :
    readChar (escapeChar c ++ cs) = some (c, cs) := by
  unfold escapeChar
  split_ifs with hquote hslash hb hf hn hr ht hcontrol
  · rw [hquote]; rfl
  · rw [hslash]; rfl
  · rw [hb]; rfl
  · rw [hf]; rfl
  · rw [hn]; rfl
  · rw [hr]; rfl
  · rw [ht]; rfl
  · have hhigh : hexValue (hexDigit (c.toNat / 16)) = c.toNat / 16 :=
      hexValue_hexDigit _ (by omega)
    have hlow : hexValue (hexDigit (c.toNat % 16)) = c.toNat % 16 :=
      hexValue_hexDigit _ (by omega)
    simp only [List.cons_append, List.nil_append, readChar, hhigh, hlow, Nat.div_add_mod,
      Char.ofNat_toNat]
  · -- any other character stands for itself, and it is not the backslash
    rw [List.singleton_append, readChar]
    · rintro _ _ _ rfl
      exact (hslash rfl).elim
    · rintro _ _ rfl
      exact (hslash rfl).elim

theorem delimits_escapeChar (c : Char) : Delimits escapeChar (fun _ => True) c := by
  intro d _ r r' h
  have hread := congrArg readChar h
  rw [readChar_escapeChar, readChar_escapeChar] at hread
  cases hread
  exact ⟨rfl, rfl⟩

/-- No character of a string is written like its end. -/
theorem escapeChar_append_ne (c : Char) (r r' : List Char) :
    escapeChar c ++ r ≠ ['"'] ++ r' := by
  intro h
  have hread := congrArg readChar h
  rw [readChar_escapeChar] at hread
  cases hread
  cases h

/-- A string in quotes ends at its closing quote. -/
theorem delimits_quote (s : String) : Delimits quote (fun _ => True) s := by
  intro t _ r r' h
  unfold quote at h
  rw [List.cons_append, List.append_assoc, List.cons_append, List.append_assoc] at h
  obtain ⟨hchars, hr⟩ := Delimits.flatMap (fun c _ => delimits_escapeChar c)
    (fun _ _ => trivial) escapeChar_append_ne (List.cons.inj h).2
  exact ⟨String.toList_inj.1 hchars, hr⟩

/-! ## Lists and records -/

/-- Writes a field. -/
def writeField (layout : Layout) (depth : Nat) (f : String × Document) : List Char :=
  quote f.1 ++ layout.colon ++ write layout depth f.2

theorem writeItems_eq (layout : Layout) (depth : Nat) (ds : List Document) :
    writeItems layout depth ds =
      ds.flatMap fun d => ',' :: layout.lineBreak depth ++ write layout depth d := by
  induction ds with
  | nil => rfl
  | cons d ds ih => rw [writeItems, ih, List.flatMap_cons]

theorem writeFields_eq (layout : Layout) (depth : Nat) (fs : List (String × Document)) :
    writeFields layout depth fs =
      fs.flatMap fun f => ',' :: layout.lineBreak depth ++ writeField layout depth f := by
  induction fs with
  | nil => rfl
  | cons f fs ih =>
    rw [writeFields, ih, List.flatMap_cons, writeField]
    simp only [List.append_assoc, List.cons_append]

/-- What a bracket encloses: nothing, or items with commas between them, each on a line. -/
def enclosed {α : Type} (layout : Layout) (depth : Nat) (w : α → List Char) (stop : Char) :
    List α → List Char
  | [] => [stop]
  | x :: xs =>
    layout.lineBreak (depth + 1) ++ w x ++
      xs.flatMap (fun x => ',' :: layout.lineBreak (depth + 1) ++ w x) ++
      layout.lineBreak depth ++ [stop]

theorem write_list (layout : Layout) (depth : Nat) (ds : List Document) :
    write layout depth (.list ds) =
      '[' :: enclosed layout depth (write layout (depth + 1)) ']' ds := by
  cases ds with
  | nil => rfl
  | cons d ds =>
    rw [write, writeItems_eq, enclosed]
    simp only [List.append_assoc, List.cons_append]

theorem write_record (layout : Layout) (depth : Nat) (fs : List (String × Document)) :
    write layout depth (.record fs) =
      '{' :: enclosed layout depth (writeField layout (depth + 1)) '}' fs := by
  cases fs with
  | nil => rfl
  | cons f fs =>
    rw [write, writeFields_eq, enclosed, writeField]
    simp only [List.append_assoc, List.cons_append]

/-- A line break begins with no visible character. -/
theorem lineBreak_append_ne {layout : Layout} {depth : Nat} {a b : Char} {r r' : List Char}
    (ha : a ≠ '\n') (hab : a ≠ b) : a :: r ≠ layout.lineBreak depth ++ b :: r' := by
  intro h
  cases layout with
  | compact => exact hab (List.cons.inj h).1
  | pretty => exact ha (List.cons.inj h).1

/-- The first item of a bracket stands where an empty bracket would be closed. -/
theorem enclosed_ne_nil {α : Type} {layout : Layout} {depth : Nat} {w : α → List Char}
    {stop : Char} {x : α} {xs : List α} {r r' : List Char} (hstop : stop ≠ '\n')
    (hw : ∃ a cs, w x = a :: cs ∧ stop ≠ a) :
    enclosed layout depth w stop (x :: xs) ++ r ≠ stop :: r' := by
  obtain ⟨a, cs, hx, ha⟩ := hw
  intro h
  rw [enclosed, hx] at h
  simp only [List.append_assoc, List.cons_append] at h
  exact lineBreak_append_ne hstop ha h.symm

/-- Brackets around delimited items are delimited by their end. -/
theorem Delimits.enclosed {α : Type} {layout : Layout} {depth : Nat} {w : α → List Char}
    {P : α → Prop} {stop : Char} (hcomma : stop ≠ ',') (hline : stop ≠ '\n')
    (hw : ∀ x, P x → ∃ a cs, w x = a :: cs ∧ stop ≠ a) {xs : List α} (hP : ∀ x ∈ xs, P x)
    (hxs : ∀ x ∈ xs, Delimits w P x) :
    Delimits (enclosed layout depth w stop) (fun ys => ∀ y ∈ ys, P y) xs := by
  intro ys hys r r' h
  cases xs with
  | nil =>
    cases ys with
    | nil => exact ⟨rfl, (List.cons.inj h).2⟩
    | cons y ys => exact (enclosed_ne_nil hline (hw y (hys y List.mem_cons_self)) h.symm).elim
  | cons x xs =>
    obtain ⟨hx, hxs⟩ := List.forall_mem_cons.1 hxs
    cases ys with
    | nil => exact (enclosed_ne_nil hline (hw x (hP x List.mem_cons_self)) h).elim
    | cons y ys =>
      obtain ⟨hy, hmore⟩ := List.forall_mem_cons.1 hys
      simp only [Json.enclosed, List.append_assoc] at h
      obtain ⟨rfl, hrest⟩ := hx y hy _ _ (List.append_cancel_left h)
      simp only [← List.append_assoc (layout.lineBreak depth)] at hrest
      have hitem : ∀ x ∈ xs,
          Delimits (fun x => ',' :: layout.lineBreak (depth + 1) ++ w x) P x := by
        intro x hmem y hy r r' h
        simp only [List.cons_append, List.append_assoc] at h
        exact hxs x hmem y hy _ _ (List.append_cancel_left (List.cons.inj h).2)
      have hend : ∀ x r r', (',' :: layout.lineBreak (depth + 1) ++ w x) ++ r ≠
          (layout.lineBreak depth ++ [stop]) ++ r' := by
        intro x r r' h
        rw [List.append_assoc _ [stop]] at h
        exact lineBreak_append_ne (by decide) hcomma.symm h
      obtain ⟨rfl, hr⟩ := Delimits.flatMap hitem hmore hend hrest
      exact ⟨rfl, hr⟩

end Json

/-! ## Documents -/

/-- A document of texts, lists and records only. -/
inductive Document.Verbal : Document → Prop
  | text (s : String) : Verbal (.text s)
  | list {ds : List Document} (h : ∀ d ∈ ds, Verbal d) : Verbal (.list ds)
  | record {fs : List (String × Document)} (h : ∀ f ∈ fs, Verbal f.2) : Verbal (.record fs)

namespace Document.Verbal

open Json

variable {layout : Layout} {d : Document}

/-- The first character of a document tells a text, a list and a record apart. -/
theorem exists_front (h : d.Verbal) (layout : Layout) (depth : Nat) :
    ∃ a cs, write layout depth d = a :: cs ∧ a ∈ ['"', '[', '{'] := by
  cases h with
  | text s => exact ⟨'"', _, rfl, by simp⟩
  | list h => exact ⟨'[', _, write_list layout depth _, by simp⟩
  | record h => exact ⟨'{', _, write_record layout depth _, by simp⟩

/-- A written document tells where it ends. -/
theorem delimits (h : d.Verbal) (depth : Nat) : Delimits (write layout depth) Verbal d := by
  induction h generalizing depth with
  | text s =>
    intro d' hd' r r' h
    -- a document of another form begins with another character
    cases hd' with
    | text t =>
      obtain ⟨rfl, hr⟩ := delimits_quote s t trivial _ _ h
      exact ⟨rfl, hr⟩
    | list _ =>
      rw [write_list] at h
      cases h
    | record _ =>
      rw [write_record] at h
      cases h
  | @list ds hds ih =>
    intro d' hd' r r' h
    cases hd' with
    | text t =>
      rw [write_list] at h
      cases h
    | @list es hes =>
      rw [write_list, write_list] at h
      have hfront : ∀ d : Document, d.Verbal →
          ∃ a cs, write layout (depth + 1) d = a :: cs ∧ ']' ≠ a := by
        intro d hd
        obtain ⟨a, cs, hd, ha⟩ := hd.exists_front layout (depth + 1)
        exact ⟨a, cs, hd, by rintro rfl; simp at ha⟩
      obtain ⟨rfl, hr⟩ := Delimits.enclosed (by decide) (by decide) hfront hds
        (fun d hd => ih d hd (depth + 1)) es hes _ _ (List.cons.inj h).2
      exact ⟨rfl, hr⟩
    | record _ =>
      rw [write_list, write_record] at h
      cases h
  | @record fs hfs ih =>
    intro d' hd' r r' h
    cases hd' with
    | text t =>
      rw [write_record] at h
      cases h
    | list _ =>
      rw [write_record, write_list] at h
      cases h
    | @record gs hgs =>
      rw [write_record, write_record] at h
      have hfield : ∀ f ∈ fs,
          Delimits (writeField layout (depth + 1)) (fun g => g.2.Verbal) f := by
        intro f hf g hg r r' h
        simp only [writeField, List.append_assoc] at h
        obtain ⟨hname, h⟩ := delimits_quote f.1 g.1 trivial _ _ h
        obtain ⟨hvalue, hr⟩ := ih f hf (depth + 1) g.2 hg _ _ (List.append_cancel_left h)
        exact ⟨Prod.ext hname hvalue, hr⟩
      have hfront : ∀ f : String × Document, f.2.Verbal →
          ∃ a cs, writeField layout (depth + 1) f = a :: cs ∧ '}' ≠ a :=
        fun f _ => ⟨'"', _, rfl, by decide⟩
      obtain ⟨rfl, hr⟩ := Delimits.enclosed (by decide) (by decide) hfront hfs hfield gs hgs _ _
        (List.cons.inj h).2
      exact ⟨rfl, hr⟩

/-- Documents with one text are the same. -/
theorem eq_of_render {d' : Document} (h : d.Verbal) (h' : d'.Verbal)
    (heq : render layout d = render layout d') : d = d' := by
  have hchars := String.ofList_injective heq
  exact (h.delimits 0 d' h' [] [] (by rw [hchars])).1

end Document.Verbal

end ArchScript
