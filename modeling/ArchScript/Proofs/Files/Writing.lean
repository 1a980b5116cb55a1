/-
  What a written file changes on a disk, and which paths name files.

  A path is followed through directories only, so a file at its end stands in no other path's way:
  the path leads to the same location after the file was written (`locate_put`). A written file
  changes the disk at that location and nowhere else (`writes_of_writeText`). A path that ends
  above a directory, or names nothing, leads to a directory (`follow_directory`), so every text
  that is read has a file name (`exists_stem_of_readText`).
-/
import ArchScript.Files.Disk
import ArchScript.Program.Reader.Clause
import Mathlib.Tactic.SplitIfs

namespace ArchScript.Disk

variable {d : Disk} {l k : Location} {p : Place}

/-! ## Paths to a file that is written -/

theorem names_ne_nil (h : d.entryAt? l ≠ some .directory) : l.names ≠ [] := by
  intro hl
  exact h (if_pos hl)

/-- Where a piece of a path leads from a directory. -/
def advance (l : Location) (piece : List Char) : Except FileError Location :=
  if Path.isHere piece then .ok l
  else if piece = Path.above then .ok l.parent
  else if longestName < Text.byteLength piece then .error .nameTooLong
  else .ok (l.child (String.ofList piece))

/-- Only a directory leads on. -/
theorem follow_cons_eq_ok_iff {piece : List Char} {ps : List (List Char)} :
    d.follow l (piece :: ps) = .ok k ↔
      d.entryAt? l = some .directory ∧ ∃ l', advance l piece = .ok l' ∧ d.follow l' ps = .ok k := by
  rw [follow, advance]
  cases d.entryAt? l with
  | none => simp
  | some entry =>
    cases entry with
    | file content => simp
    | directory => split_ifs <;> simp

/-- A location that is no directory lies on no path, so what is put there moves no path. -/
theorem follow_put (hk : d.entryAt? k ≠ some .directory) (content : ByteArray)
    {ps : List (List Char)} (h : d.follow l ps = .ok k) :
    (d.put k content).follow l ps = .ok k := by
  induction ps generalizing l with
  | nil => exact h
  | cons piece ps ih =>
    obtain ⟨hl, l', hstep, h⟩ := follow_cons_eq_ok_iff.1 h
    have hne : k ≠ l := by
      rintro rfl
      exact hk hl
    refine follow_cons_eq_ok_iff.2 ⟨?_, l', hstep, ih h⟩
    rw [entryAt?_put (names_ne_nil hk), if_neg hne, hl]

theorem locate_put (hk : d.entryAt? k ≠ some .directory) (content : ByteArray) {base : Base}
    {path : List Char} (h : d.locate base path = .ok k) :
    (d.put k content).locate base path = .ok k := by
  unfold locate at h ⊢
  obtain ⟨_, hcheck, h⟩ := Reader.bind_eq_ok.1 h
  refine Reader.bind_eq_ok.2 ⟨_, hcheck, ?_⟩
  split
  · exact h
  · exact follow_put hk content h
  · next hempty hslash =>
    split at h
    · exact (hempty rfl).elim
    · exact (hslash _ rfl).elim
    · exact follow_put hk content h

/-- A path without a slash at its end has none to lose there. -/
theorem withoutLastSlashes_eq {path : List Char} (h : path.getLast? ≠ some '/') :
    withoutLastSlashes path = path := by
  cases path with
  | nil => rfl
  | cons c cs =>
    have hlast : cs.reverse.dropWhile (· == '/') = cs.reverse := by
      cases hcs : cs.reverse with
      | nil => rfl
      | cons e es =>
        have he : e ≠ '/' := by
          rintro rfl
          refine h ?_
          rw [← List.reverse_reverse cs, hcs, List.reverse_cons, ← List.cons_append,
            List.getLast?_concat]
        rw [List.dropWhile_cons_of_neg (by simpa using he)]
    rw [withoutLastSlashes, hlast, List.reverse_reverse]

/-- A file is written where its path leads, and no directory is there. -/
theorem target_ok (h : d.target p = .ok l) :
    d.locate p.base p.path.toList = .ok l ∧ d.entryAt? l ≠ some .directory := by
  simp only [target, Reader.bind_eq_ok] at h
  obtain ⟨_, _, l', hlocate, h⟩ := h
  split at h
  · cases h
  · next hdirectory =>
    split at h
    · cases h
    · next hslash =>
      cases h
      rw [withoutLastSlashes_eq hslash] at hlocate
      exact ⟨hlocate, hdirectory⟩

/-! ## One file written -/

/-- The disk `d'` is `d` with one file written: the path leads to a location that holds the text
and nothing else, and what stands at any other location is what stood there. -/
def Writes (d : Disk) (p : Place) (text : String) (d' : Disk) : Prop :=
  ∃ l, d'.locate p.base p.path.toList = .ok l ∧ d'.entryAt? l = some (.file text.toUTF8) ∧
    ∀ k, k ≠ l → d'.entryAt? k = d.entryAt? k

theorem writes_of_writeText {text : String} {d' : Disk} (h : d.writeText p text = .ok d') :
    d.Writes p text d' := by
  unfold writeText at h
  cases ht : d.target p with
  | error e =>
    rw [ht] at h
    cases h
  | ok l =>
    rw [ht] at h
    cases h
    obtain ⟨hlocate, hl⟩ := target_ok ht
    have hentry := entryAt?_put (names_ne_nil hl) d text.toUTF8
    refine ⟨l, locate_put hl _ hlocate, ?_, fun k hk => ?_⟩
    · rw [hentry, if_pos rfl]
    · rw [hentry, if_neg (Ne.symm hk)]

/-- The text of a file is read where a path leads to it. -/
theorem readText_of_entryAt {text : String} (hlocate : d.locate p.base p.path.toList = .ok l)
    (hl : d.entryAt? l = some (.file text.toUTF8)) : d.readText p = .ok text := by
  have htext : String.fromUTF8? text.toUTF8 = some text := dif_pos text.isValidUTF8
  unfold readText
  rw [hlocate]
  simp only [bind, Except.bind, hl, htext]

/-- What was written is read. -/
theorem Writes.readText {text : String} {d' : Disk} (h : d.Writes p text d') :
    d'.readText p = .ok text := by
  obtain ⟨l, hlocate, hl, _⟩ := h
  exact readText_of_entryAt hlocate hl

/-! ## Paths that name files -/

/-- All directories above a location are there. -/
def Reached (d : Disk) (l : Location) : Prop :=
  ∀ names, names <+: l.names → names ≠ l.names →
    d.entryAt? { l with names } = some .directory

theorem reached_of_names_eq_nil (h : l.names = []) : d.Reached l := by
  intro names hfront hne
  rw [h] at hfront hne
  exact (hne (List.prefix_nil.1 hfront)).elim

theorem Reached.child (h : d.Reached l) (hl : d.entryAt? l = some .directory) (name : String) :
    d.Reached (l.child name) := by
  intro names hfront hne
  rw [Location.child] at hfront hne ⊢
  rcases List.prefix_concat_iff.1 hfront with rfl | hfront
  · exact (hne rfl).elim
  · by_cases heq : names = l.names
    · rw [heq]
      exact hl
    · exact h names hfront heq

/-- The directory above a reached location is there, and reached. -/
theorem Reached.parent (h : d.Reached l) :
    d.Reached l.parent ∧ d.entryAt? l.parent = some .directory := by
  obtain ⟨base, levels, names⟩ := l
  cases names with
  | nil =>
    have hnames : (Location.parent ⟨base, levels, []⟩).names = [] := by cases base <;> rfl
    exact ⟨reached_of_names_eq_nil hnames, if_pos hnames⟩
  | cons n ns =>
    have hdrop : (n :: ns).dropLast <+: n :: ns := List.dropLast_prefix _
    have hparent : Location.parent ⟨base, levels, n :: ns⟩ = ⟨base, levels, (n :: ns).dropLast⟩ :=
      rfl
    have hshort : (n :: ns).dropLast.length < (n :: ns).length := by
      rw [List.length_dropLast]
      exact Nat.lt_succ_self _
    rw [hparent]
    constructor
    · intro names hfront _
      refine h names (hfront.trans hdrop) ?_
      rintro rfl
      exact absurd hfront.length_le (by simp)
    · refine h _ hdrop fun heq => ?_
      rw [heq] at hshort
      exact Nat.lt_irrefl _ hshort

/-- The pieces of a path that are steps. -/
def steps (ps : List (List Char)) : List (List Char) := ps.filter fun p => !Path.isHere p

/-- A path whose last step, if it has one, leads above, leads from a directory to one. -/
theorem follow_directory (hr : d.Reached l) {ps : List (List Char)}
    (hlast : ∀ name ∈ (steps ps).getLast?, name = Path.above)
    (hnone : steps ps = [] → d.entryAt? l = some .directory) (h : d.follow l ps = .ok k) :
    d.entryAt? k = some .directory := by
  induction ps generalizing l with
  | nil =>
    cases h
    exact hnone rfl
  | cons piece ps ih =>
    obtain ⟨hl, l', hstep, h⟩ := follow_cons_eq_ok_iff.1 h
    unfold advance at hstep
    by_cases hhere : Path.isHere piece = true
    · have hsteps : steps (piece :: ps) = steps ps := List.filter_cons_of_neg (by simpa using hhere)
      rw [if_pos hhere] at hstep
      cases hstep
      rw [hsteps] at hlast
      exact ih hr hlast (fun _ => hl) h
    · have hsteps : steps (piece :: ps) = piece :: steps ps :=
        List.filter_cons_of_pos (by simpa using hhere)
      have hrest : ∀ name ∈ (steps ps).getLast?, name = Path.above := by
        intro name hname
        refine hlast name ?_
        rw [hsteps, List.getLast?_cons, Option.mem_def.1 hname]
        rfl
      rw [if_neg hhere] at hstep
      by_cases habove : piece = Path.above
      · rw [if_pos habove] at hstep
        cases hstep
        exact ih hr.parent.1 hrest (fun _ => hr.parent.2) h
      · rw [if_neg habove] at hstep
        split at hstep
        · cases hstep
        · cases hstep
          refine ih (hr.child hl _) hrest (fun hempty => ?_) h
          -- a step into a directory is not the last one
          refine (habove (hlast piece ?_)).elim
          rw [hsteps, hempty]
          rfl

theorem locate_directory {base : Base} {path : List Char}
    (hlast : ∀ name ∈ (steps (Path.pieces path)).getLast?, name = Path.above)
    (h : d.locate base path = .ok k) : d.entryAt? k = some .directory := by
  unfold locate at h
  obtain ⟨_, _, h⟩ := Reader.bind_eq_ok.1 h
  split at h
  · cases h
  · exact follow_directory (l := .root) (reached_of_names_eq_nil rfl) hlast (fun _ => rfl) h
  · exact follow_directory (l := .ofBase base) (reached_of_names_eq_nil rfl) hlast (fun _ => rfl) h

/-- A text that is read has a file name, and so a stem. -/
theorem exists_stem_of_readText {text : String} (h : d.readText p = .ok text) :
    ∃ name, Path.stem? p.path = some name := by
  unfold readText at h
  obtain ⟨l, hlocate, h⟩ := Reader.bind_eq_ok.1 h
  cases hname : Path.fileName? p.path with
  | some name => exact ⟨_, by rw [Path.stem?, hname]; rfl⟩
  | none =>
    have hlast : ∀ name ∈ (steps (Path.pieces p.path.toList)).getLast?, name = Path.above := by
      intro name hmem
      refine Decidable.byContradiction fun habove => ?_
      unfold Path.fileName? at hname
      rw [← steps, Option.mem_def.1 hmem] at hname
      simp [habove] at hname
    rw [locate_directory hlast hlocate] at h
    cases h

end ArchScript.Disk
