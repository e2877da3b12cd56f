import NestedPascal.CommandLine.FileTree
import NestedPascal.Proofs.Register
import NestedPascal.Proofs.Run.Evaluation

/-!
# Files written and read under the same path

A path under which a file can be written leads to that file once it is there: no name on the way to
it stops being that of a directory when files are written in its place.
-/

namespace NestedPascal

namespace FileTree

variable {t t' t'' : FileTree} {place here current : Place} {path : String}

theorem isDirectory_dropLast (h : t.isDirectory here = true) : t.isDirectory here.dropLast = true := by
  have hprefix : here.dropLast <+: here := List.dropLast_prefix here
  simp only [isDirectory, Bool.or_eq_true, List.isEmpty_iff, List.any_eq_true, Bool.and_eq_true,
    decide_eq_true_eq, List.isPrefixOf_iff_prefix] at h ⊢
  rcases h with (rfl | ⟨d, hd, hbelow⟩) | ⟨f, hf, hlength, hbelow⟩
  · exact .inl (.inl rfl)
  · exact .inl (.inr ⟨d, hd, hprefix.trans hbelow⟩)
  · exact .inr ⟨f, hf, Nat.lt_of_le_of_lt hprefix.length_le hlength, hprefix.trans hbelow⟩

/-! ## Writing to a file -/

/-- What the file at a place holds. -/
def bytesAt (t : FileTree) (place : Place) : List UInt8 :=
  ((t.files.get? place).getD .empty).bytes

theorem get?_create (t : FileTree) (place : Place) :
    (t.create place).files.get? place = some .empty := by
  rw [create, Register.get?_set, if_pos rfl]

theorem get?_append (t : FileTree) (place : Place) (text : String) :
    (t.append place text).files.get? place =
      some (((t.files.get? place).getD .empty).append text.toUTF8.toList) := by
  rw [append, Register.get?_set, if_pos rfl]

theorem isFile_create (t : FileTree) (place : Place) : (t.create place).isFile place = true := by
  rw [isFile, get?_create]
  rfl

theorem isFile_append (t : FileTree) (place : Place) (text : String) :
    (t.append place text).isFile place = true := by
  rw [isFile, get?_append]
  rfl

theorem bytesAt_create (t : FileTree) (place : Place) : (t.create place).bytesAt place = [] := by
  rw [bytesAt, get?_create]
  rfl

theorem bytesAt_append (t : FileTree) (place : Place) (text : String) :
    (t.append place text).bytesAt place = t.bytesAt place ++ text.toUTF8.toList := by
  rw [bytesAt, get?_append]
  simp [bytesAt, FileContent.append, FileContent.bytes]

/-! ## Trees that differ in one file -/

/-- One tree has what another has, a place apart at which it may have another file. -/
structure DiffersAt (place : Place) (t t' : FileTree) : Prop where
  isFile : ∀ other, other ≠ place → t'.isFile other = t.isFile other
  isDirectory : ∀ other, t.isDirectory other = true → t'.isDirectory other = true

namespace DiffersAt

theorem refl (place : Place) (t : FileTree) : DiffersAt place t t :=
  ⟨fun _ _ => rfl, fun _ h => h⟩

theorem trans (h : DiffersAt place t t') (h' : DiffersAt place t' t'') : DiffersAt place t t'' :=
  ⟨fun other hne => (h'.isFile other hne).trans (h.isFile other hne),
    fun other hother => h'.isDirectory other (h.isDirectory other hother)⟩

theorem set (place : Place) (t : FileTree) (content : FileContent) :
    DiffersAt place t { t with files := t.files.set place content } := by
  constructor
  · intro other hne
    simp [FileTree.isFile, Register.get?_set, Ne.symm hne]
  · intro other hother
    simp only [FileTree.isDirectory, Bool.or_eq_true, List.any_eq_true] at hother ⊢
    refine hother.imp_right fun ⟨f, hf, hbelow⟩ => ?_
    have hkept : f.1 ∈ (t.files.set place content).entries.map (·.1) := by
      rw [Register.set, Register.keys_replace]
      split
      next => exact List.mem_map_of_mem hf
      next => exact List.mem_append_left _ (List.mem_map_of_mem hf)
    obtain ⟨f', hf', heq⟩ := List.mem_map.mp hkept
    exact ⟨f', hf', heq ▸ hbelow⟩

end DiffersAt

/-- What names lead on from is no file if they lead to a directory. -/
theorem isFile_of_follow {parent : Place} {names : List String}
    (h : t.follow here (names ++ ["."]) = .ok parent) : t.isFile here = false := by
  refine Bool.eq_false_iff.mpr fun hfile => ?_
  cases names <;> simp [follow, hfile] at h

/-- A directory to which names lead is a directory to which they lead in a tree that differs from this
one where it has no directory. -/
theorem follow_of_differsAt (h : DiffersAt place t t') (hplace : t.isDirectory place = false)
    {parent : Place} (names : List String) (hhere : t.isDirectory here = true)
    (hfollow : t.follow here (names ++ ["."]) = .ok parent) :
    t.isDirectory parent = true ∧ t.isFile parent = false ∧
      ∀ rest, t'.follow here (names ++ rest) = t'.follow parent rest := by
  have hne {other : Place} (hother : t.isDirectory other = true) : other ≠ place := by
    rintro rfl
    rw [hplace] at hother
    contradiction
  induction names generalizing here with
  | nil =>
      have hno := isFile_of_follow hfollow
      have heq : here = parent := by
        simpa [follow, hno] using hfollow
      exact ⟨heq ▸ hhere, heq ▸ hno, fun rest => by rw [List.nil_append, heq]⟩
  | cons name names ih =>
      have hno := isFile_of_follow hfollow
      have hno' : t'.isFile here = false := by rw [h.isFile here (hne hhere), hno]
      simp only [List.cons_append, follow, hno, hno', Bool.false_eq_true, if_false] at hfollow ⊢
      split at hfollow
      next hdot => simpa only [if_pos hdot] using ih hhere hfollow
      next hdot =>
        simp only [if_neg hdot]
        split at hfollow
        next hdots => simpa only [if_pos hdots] using ih (isDirectory_dropLast hhere) hfollow
        next hdots =>
          simp only [if_neg hdots]
          split at hfollow
          next => contradiction
          next hlong =>
            simp only [if_neg hlong]
            split at hfollow
            next hnext =>
              have hdirectory : t.isDirectory (here ++ [name]) = true := by
                simpa [isFile_of_follow hfollow] using hnext
              have hnext' := h.isDirectory _ hdirectory
              simpa only [hnext', Bool.or_true, if_true] using ih hdirectory hfollow
            next => contradiction

theorem isDirectory_origin (hcurrent : t.isDirectory current = true) (path : String) :
    t.isDirectory (origin current path) = true := by
  rw [origin]
  split
  next => rfl
  next => exact hcurrent

/-- A place where a file can be written is a name in a directory to which the other names lead. -/
theorem placeToWrite_eq_ok (h : t.placeToWrite current path = .ok place) :
    requirePath path = .ok () ∧ t.isDirectory place = false ∧
      ∃ names last parent, namesOf path = (names ++ [last], false) ∧
        last ≠ "." ∧ last ≠ ".." ∧ isLongName last = false ∧
        t.follow (origin current path) (names ++ ["."]) = .ok parent ∧ place = parent ++ [last] := by
  rw [placeToWrite] at h
  obtain ⟨⟨⟩, hpath, h⟩ := bind_eq_ok_iff.mp h
  rcases hnames : namesOf path with ⟨names, slash⟩
  simp only [hnames] at h
  split at h
  next => contradiction
  next last hlast =>
    split at h
    next =>
      obtain ⟨-, -, h⟩ := bind_eq_ok_iff.mp h
      contradiction
    next hdots =>
      obtain ⟨parent, hparent, h⟩ := bind_eq_ok_iff.mp h
      obtain ⟨hdot, hdotdot⟩ := not_or.mp hdots
      split at h
      next => contradiction
      next hslash =>
        split at h
        next => contradiction
        next hlong =>
          split at h
          next => contradiction
          next hdirectory =>
            cases h
            refine ⟨hpath, by simpa using hdirectory, names.dropLast, last, parent, ?_, hdot, hdotdot,
              by simpa using hlong, hparent, rfl⟩
            rw [List.dropLast_append_getLast? last hlast, Bool.eq_false_iff.mpr hslash]

theorem read_of_find {content : FileContent} (hfind : t.find current path = .ok place)
    (hcontent : t.files.get? place = some content) :
    t.read current path = .ok content.bytes := by
  rw [read]
  exact bind_eq_ok_iff.mpr ⟨place, hfind, by simp only [hcontent]⟩

/-- What is at a place where a path allows a file to be written is read under that path. -/
theorem read_of_placeToWrite (h : DiffersAt place t t')
    (hplace : t.placeToWrite current path = .ok place) (hcurrent : t.isDirectory current = true)
    (hfile : t'.isFile place = true) : t'.read current path = .ok (t'.bytesAt place) := by
  obtain ⟨hpath, hno, names, last, parent, hnames, hdot, hdots, hlong, hfollow, rfl⟩ :=
    placeToWrite_eq_ok hplace
  obtain ⟨hdirectory, hparent, hlead⟩ :=
    follow_of_differsAt h hno names (isDirectory_origin hcurrent path) hfollow
  have hparent' : t'.isFile parent = false := by
    rw [h.isFile parent (by simp), hparent]
  have hfind : t'.find current path = .ok (parent ++ [last]) := by
    rw [find, hpath, hnames]
    change t'.follow (origin current path) (names ++ [last]) = _
    rw [hlead]
    simp [follow, hparent', hdot, hdots, hlong, hfile]
  obtain ⟨content, hcontent⟩ := Option.isSome_iff_exists.mp hfile
  rw [read_of_find hfind hcontent, bytesAt, hcontent]
  rfl

end FileTree

end NestedPascal
