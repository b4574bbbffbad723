import Bytecode.Proofs.Paths
/-!
# Below a root

`Path.above` is what all paths below a root begin with. Here it is told from the root's
own path in its shortest form (`Path.below_resolved`): that path and a slash, but nothing
for the path `.` and no second slash for `/`. No root, however it is written, takes a
segment of a class name away or adds one, so a class has its file where its name says and
shares it with no other class (`Directory.classes_have_own_files`).
-/
namespace Bytecode

theorem Text.not_mem_of_mem_split {sep : CodeUnit} {t piece : Text} (h : piece ∈ Text.split sep t) : sep ∉ piece := by
  induction t generalizing piece with
  | nil => simp_all [Text.split]
  | cons u rest ih =>
    rw [Text.split] at h
    split at h
    · rcases List.mem_cons.1 h with rfl | hrest
      · exact List.not_mem_nil
      · exact ih hrest
    · rename_i hsep
      obtain ⟨first, pieces, hsplit⟩ := List.exists_cons_of_ne_nil (Text.split_ne_nil sep rest)
      rw [hsplit] at h ih
      rcases List.mem_cons.1 h with rfl | hrest
      · exact List.not_mem_cons_of_ne_of_not_mem (Ne.symm hsep) (ih List.mem_cons_self)
      · exact ih (List.mem_cons_of_mem _ hrest)

namespace Path

/-- A path without the slash at its end. The slash of `/` stays. -/
def withoutSlash (path : Text) : Text :=
  if path ≠ Text.ofString "/" ∧ path.getLast? = some (CodeUnit.ofChar '/') then path.dropLast else path

/-- The path of a root in its shortest form. A slash at its end is no part of it. -/
def resolved (root : Text) : Text := withoutSlash (join [root])

/-- What lies below a path. -/
def below (base rest : Text) : Text :=
  if base = Text.ofString "." then rest
  else if base = Text.ofString "/" then base ++ rest
  else base ++ Text.ofString "/" ++ rest

/-! ## The segments of a root -/

def isAbsolute (path : Text) : Bool := (Text.ofString "/").isPrefixOf path

/-- The slash in front of an absolute path. -/
def lead (path : Text) : Text := if isAbsolute path then Text.ofString "/" else []

/-- What is left of the segments of a path. -/
def segments (path : Text) : List Text := ((Text.split '/' path).foldl (follow (isAbsolute path)) []).reverse

theorem above_eq (root : Text) : above root = lead root ++ (segments root).flatMap (· ++ Text.ofString "/") := rfl

/-- A segment that leads somewhere. -/
structure Settled (segment : Text) : Prop where
  ne_nil : segment ≠ []
  ne_dot : segment ≠ Text.ofString "."
  no_slash : CodeUnit.ofChar '/' ∉ segment

theorem settled_follow {absolute : Bool} {done : List Text} {segment : Text} (hdone : ∀ s ∈ done, Settled s)
    (hsegment : CodeUnit.ofChar '/' ∉ segment) : ∀ s ∈ follow absolute done segment, Settled s := by
  unfold follow
  split
  · exact hdone
  · rename_i hkept
    simp only [Bool.or_eq_true, List.isEmpty_iff, decide_eq_true_eq, not_or] at hkept
    have hsettled : Settled segment := ⟨hkept.1, hkept.2, hsegment⟩
    split
    · split
      · split
        · exact List.forall_mem_nil _
        · exact List.forall_mem_cons.2 ⟨hsettled, List.forall_mem_nil _⟩
      · split
        · exact List.forall_mem_cons.2 ⟨hsettled, hdone⟩
        · exact (List.forall_mem_cons.1 hdone).2
    · exact List.forall_mem_cons.2 ⟨hsettled, hdone⟩

theorem settled_segments (path : Text) : ∀ s ∈ segments path, Settled s := by
  have hfold : ∀ s ∈ (Text.split '/' path).foldl (follow (isAbsolute path)) [], Settled s := by
    refine List.foldlRecOn (motive := fun done => ∀ s ∈ done, Settled s) _ _ (List.forall_mem_nil _) ?_
    exact fun done hdone segment hsegment => settled_follow hdone (Text.not_mem_of_mem_split hsegment)
  exact fun s hs => hfold s (List.mem_reverse.1 hs)

/-- Some segments, the last of them apart. -/
theorem join_concat (before : List Text) (last : Text) :
    Text.join (Text.ofString "/") (before ++ [last]) = before.flatMap (· ++ Text.ofString "/") ++ last := by
  rw [Text.join_append _ _ (List.cons_ne_nil _ _)]
  simp [Text.join, List.intercalate]

/-! ## The shortest form of a root -/

theorem withoutSlash_append {path : Text} (h : path ≠ []) : withoutSlash (path ++ Text.ofString "/") = path := by
  rw [withoutSlash, if_pos]
  · rw [slash_eq, List.dropLast_concat]
  · rw [slash_eq, List.getLast?_concat]
    exact ⟨by simpa using h, rfl⟩

theorem withoutSlash_settled (base : Text) {last : Text} (h : Settled last) :
    withoutSlash (base ++ last) = base ++ last := by
  rw [withoutSlash, if_neg]
  rintro ⟨-, hslash⟩
  rw [List.getLast?_append_of_ne_nil _ h.ne_nil] at hslash
  exact h.no_slash (List.mem_of_getLast? hslash)

theorem join_singleton {root : Text} (h : root ≠ []) : join [root] = normalize root := by
  have hempty : root.isEmpty = false := by simpa using h
  simp [join, Text.join, List.intercalate, hempty]

theorem normalize_of_segments {path : Text} (h : Text.join (Text.ofString "/") (segments path) ≠ []) :
    normalize path = lead path ++ Text.join (Text.ofString "/") (segments path) ++
      if (Text.ofString "/").isPrefixOf path.reverse then Text.ofString "/" else [] := by
  have hnonempty : (Text.join (Text.ofString "/") (segments path)).isEmpty = false := by simpa using h
  unfold normalize
  simp only [segments, isAbsolute, lead] at hnonempty ⊢
  rw [hnonempty]
  rfl

theorem resolved_of_nil {root : Text} (h : segments root = []) :
    resolved root = if isAbsolute root then Text.ofString "/" else Text.ofString "." := by
  by_cases hroot : root = []
  · subst hroot
    decide
  · have hnormal : normalize root = if isAbsolute root then Text.ofString "/"
        else if (Text.ofString "/").isPrefixOf root.reverse then Text.ofString "./" else Text.ofString "." := by
      unfold normalize
      simp only [segments, isAbsolute] at h ⊢
      rw [h]
      rfl
    rw [resolved, join_singleton hroot, hnormal]
    split
    · decide
    · split <;> decide

theorem resolved_of_concat {root last : Text} {before : List Text} (h : segments root = before ++ [last]) :
    resolved root = lead root ++ before.flatMap (· ++ Text.ofString "/") ++ last := by
  have hlast : Settled last := settled_segments root last (by simp [h])
  have hroot : root ≠ [] := by
    rintro rfl
    have hnil : segments [] = [] := by decide
    simp [hnil] at h
  have hbody := join_concat before last
  have hne : Text.join (Text.ofString "/") (segments root) ≠ [] := by
    rw [h, hbody]
    simp [hlast.ne_nil]
  rw [resolved, join_singleton hroot, normalize_of_segments hne, h, hbody, ← List.append_assoc]
  split
  · exact withoutSlash_append (by simp [hlast.ne_nil])
  · rw [List.append_nil, withoutSlash_settled _ hlast]

/-- A path that ends in a segment is one unit only if the segment is. -/
theorem append_ne_singleton {base last : Text} {u : CodeUnit} (h : Settled last) (hu : last ≠ [u]) :
    base ++ last ≠ [u] := by
  intro heq
  rcases List.append_eq_singleton_iff.1 heq with ⟨-, hlast⟩ | ⟨-, hlast⟩
  · exact hu hlast
  · exact h.ne_nil hlast

/-- What all paths below a root begin with is its path and a slash. -/
theorem below_resolved (root rest : Text) : below (resolved root) rest = above root ++ rest := by
  rw [above_eq]
  rcases List.eq_nil_or_concat' (segments root) with hnil | ⟨before, last, hsegments⟩
  · rw [resolved_of_nil hnil, hnil, lead]
    have hne : Text.ofString "/" ≠ Text.ofString "." := by decide
    split <;> simp [below, hne]
  · have hlast : Settled last := settled_segments root last (by simp [hsegments])
    have hdot : Text.ofString "." = [CodeUnit.ofChar '.'] := by decide
    have hslash : last ≠ [CodeUnit.ofChar '/'] := by
      rintro rfl
      exact hlast.no_slash List.mem_cons_self
    rw [resolved_of_concat hsegments, hsegments, below, hdot, if_neg (append_ne_singleton hlast (hdot ▸ hlast.ne_dot)),
      slash_eq, if_neg (append_ne_singleton hlast hslash)]
    simp

end Path

namespace Directory

/-- The file of a class lies below what the root comes to, where the segments of its name lead; so
two names lead to one file only if they are the same. -/
theorem classes_have_own_files (directory : Directory) {className other : Text} (h : Path.Proper className)
    (hother : Path.Proper other) :
    (directory.classFilePath className = directory.classFilePath other ↔ className = other) ∧
      directory.classFilePath className =
        Path.below (Path.resolved directory.root) (Text.join "/" (Text.split '/' className)) ++
          Text.ofString ".json" := by
  refine ⟨⟨directory.classFilePath_injective h hother, ?_⟩, ?_⟩
  · rintro rfl
    rfl
  · rw [Path.slash_eq, Text.join_split, Path.below_resolved, directory.classFilePath_proper h]

end Directory

namespace Sample

theorem proper_pointName : Path.Proper "geometry/Point" := by
  unfold Path.Proper
  decide

theorem proper_lineName : Path.Proper "geometry/Line" := by
  unfold Path.Proper
  decide

end Sample

open Sample in
/-- Below a root that climbs and has a slash at its end, below a root that comes to nothing, and below `/`. -/
theorem point_and_line_below_roots :
    (∀ root : Text, (Directory.ofFiles root []).classFilePath "geometry/Point" ≠
        (Directory.ofFiles root []).classFilePath "geometry/Line") ∧
      (Directory.ofFiles "../lib//x/../" []).classFilePath "geometry/Point" = "../lib/geometry/Point.json" ∧
      (Directory.ofFiles "x/../" []).classFilePath "geometry/Point" = "geometry/Point.json" ∧
      (Directory.ofFiles "//.." []).classFilePath "geometry/Point" = "/geometry/Point.json" := by
  have hpath := fun root : Text =>
    (Directory.classes_have_own_files (Directory.ofFiles root []) proper_pointName proper_lineName).2
  refine ⟨fun root heq => ?_, ?_, ?_, ?_⟩
  · have hsame := (Directory.classes_have_own_files _ proper_pointName proper_lineName).1.1 heq
    exact absurd hsame (by decide)
  · rw [hpath]
    decide
  · rw [hpath]
    decide
  · rw [hpath]
    decide

end Bytecode
