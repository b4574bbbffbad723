import Bytecode.Proofs.Lookup
import Bytecode.Proofs.Texts
/-!
# Where class files lie

A class name is `Path.Proper` if its segments can be names of files and directories. The
class file of such a class lies where the name says, below what the root comes to
(`Path.join_proper`), so different classes have different files.
-/
namespace Bytecode

/-! ## Paths -/

namespace Path

/-- No segment of the class name is empty, `.` or `..`. -/
def Proper (className : Text) : Prop :=
  ∀ segment ∈ Text.split '/' className, segment ≠ [] ∧ segment ≠ Text.ofString "." ∧ segment ≠ Text.ofString ".."

/-- What the path of every file below a root begins with. -/
def above (root : Text) : Text :=
  let slash : Text := "/"
  let absolute := slash.isPrefixOf root
  (if absolute then slash else []) ++
    ((Text.split '/' root).foldl (follow absolute) []).reverse.flatMap (· ++ slash)

theorem slash_eq : Text.ofString "/" = [CodeUnit.ofChar '/'] := by decide

/-- Whether there is a slash in front is seen from the first unit. -/
theorem isPrefixOf_append {t : Text} (h : t ≠ []) (rest : Text) :
    (Text.ofString "/").isPrefixOf (t ++ rest) = (Text.ofString "/").isPrefixOf t := by
  obtain ⟨u, tail, rfl⟩ := List.exists_cons_of_ne_nil h
  simp [slash_eq, List.isPrefixOf]

/-- Proper segments are added one after another. -/
theorem foldl_follow (absolute : Bool) {segments : List Text}
    (h : ∀ segment ∈ segments, segment ≠ [] ∧ segment ≠ Text.ofString "." ∧ segment ≠ Text.ofString "..")
    (done : List Text) : segments.foldl (follow absolute) done = segments.reverse ++ done := by
  induction segments generalizing done with
  | nil => rfl
  | cons segment segments ih =>
    obtain ⟨⟨hne, hdot, hdots⟩, hrest⟩ := List.forall_mem_cons.1 h
    have hfollow : follow absolute done segment = segment :: done := by
      simp [follow, hne, hdot, hdots]
    rw [List.foldl_cons, hfollow, ih hrest]
    simp

namespace Proper

variable {className : Text}

theorem ne_nil (h : Proper className) : className ≠ [] := by
  rintro rfl
  exact (h [] (by simp [Text.split])).1 rfl

/-- A proper name has no slash in front. -/
theorem isPrefixOf_eq (h : Proper className) : (Text.ofString "/").isPrefixOf className = false := by
  obtain ⟨u, rest, rfl⟩ := List.exists_cons_of_ne_nil h.ne_nil
  have hne : u ≠ CodeUnit.ofChar '/' := by
    rintro rfl
    exact (h [] (by simp [Text.split])).1 rfl
  simp [slash_eq, List.isPrefixOf, Ne.symm hne]

/-- Nor has it one at its end. -/
theorem isPrefixOf_reverse_eq (h : Proper className) : (Text.ofString "/").isPrefixOf className.reverse = false := by
  obtain ⟨rest, u, rfl⟩ : ∃ rest u, className = rest ++ [u] := by
    exact ⟨_, _, (List.dropLast_concat_getLast h.ne_nil).symm⟩
  have hne : u ≠ CodeUnit.ofChar '/' := by
    rintro rfl
    have hsplit := Text.split_append (CodeUnit.ofChar '/') rest []
    exact (h [] (by rw [hsplit]; simp [Text.split])).1 rfl
  simp [slash_eq, List.isPrefixOf, Ne.symm hne]

end Proper

/-- The shortest form of a path whose last segments are those of a proper name. -/
theorem normalize_eq {path className : Text} {base : List Text} (h : Proper className)
    (htrailing : (Text.ofString "/").isPrefixOf path.reverse = false)
    (hsegments : (Text.split '/' path).foldl (follow ((Text.ofString "/").isPrefixOf path)) [] =
      (Text.split '/' className).reverse ++ base) :
    normalize path = (if (Text.ofString "/").isPrefixOf path then Text.ofString "/" else []) ++
      base.reverse.flatMap (· ++ Text.ofString "/") ++ className := by
  have hbody : Text.join (Text.ofString "/") (base.reverse ++ Text.split '/' className) =
      base.reverse.flatMap (· ++ Text.ofString "/") ++ className := by
    rw [Text.join_append _ _ (Text.split_ne_nil _ _), slash_eq, Text.join_split]
  have hnonempty : (base.reverse.flatMap (· ++ Text.ofString "/") ++ className).isEmpty = false := by
    simp [h.ne_nil]
  unfold normalize
  simp only [hsegments, htrailing, List.reverse_append, List.reverse_reverse, hbody, hnonempty]
  simp

/-- Where a proper name leads below a root. -/
theorem join_proper (root : Text) {className : Text} (h : Proper className) :
    join (root :: Text.split '/' className) = above root ++ className := by
  have hfilter : (Text.split '/' className).filter (!·.isEmpty) = Text.split '/' className := by
    refine List.filter_eq_self.2 fun segment hsegment => ?_
    simpa using (h segment hsegment).1
  have hjoined : Text.join (Text.ofString "/") (Text.split '/' className) = className := by
    rw [slash_eq, Text.join_split]
  unfold join
  by_cases hroot : root = []
  · subst hroot
    have hnormal : normalize className = className := by
      rw [normalize_eq h h.isPrefixOf_reverse_eq (foldl_follow _ h []), h.isPrefixOf_eq]
      rfl
    simp [hfilter, hjoined, h.ne_nil, hnormal]
    rfl
  · have hparts : (root :: Text.split '/' className).filter (!·.isEmpty) = root :: Text.split '/' className := by
      rw [List.filter_cons_of_pos (by simpa using hroot), hfilter]
    have hpath : Text.join (Text.ofString "/") (root :: Text.split '/' className) =
        root ++ CodeUnit.ofChar '/' :: className := by
      rw [Text.join_cons _ _ (Text.split_ne_nil _ _), hjoined, slash_eq]
      simp
    have htrailing : (Text.ofString "/").isPrefixOf (root ++ CodeUnit.ofChar '/' :: className).reverse = false := by
      rw [List.reverse_append, List.reverse_cons, List.append_assoc,
        isPrefixOf_append (List.reverse_ne_nil_iff.2 h.ne_nil), h.isPrefixOf_reverse_eq]
    have habsolute := isPrefixOf_append hroot (CodeUnit.ofChar '/' :: className)
    rw [hparts, hpath]
    simp only [List.isEmpty_iff]
    rw [if_neg (by simp), normalize_eq h htrailing, habsolute]
    · rfl
    · rw [Text.split_append, List.foldl_append, foldl_follow _ h, habsolute]

end Path

namespace Directory

theorem classFilePath_proper (directory : Directory) {className : Text} (h : Path.Proper className) :
    directory.classFilePath className = Path.above directory.root ++ className ++ Text.ofString ".json" := by
  rw [classFilePath, Path.join_proper _ h]

/-- Different proper names have different files. -/
theorem classFilePath_injective (directory : Directory) {className other : Text} (h : Path.Proper className)
    (hother : Path.Proper other) (heq : directory.classFilePath className = directory.classFilePath other) :
    className = other := by
  rw [classFilePath_proper _ h, classFilePath_proper _ hother] at heq
  exact List.append_cancel_left (List.append_cancel_right heq)

end Directory

end Bytecode
