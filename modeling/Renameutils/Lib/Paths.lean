import Mathlib.Data.List.Basic
import Mathlib.Logic.Function.Basic

/-!
# Paths in directories

A path is a list of components with a separator between them, which are followed one after the other.
`Directories sep dot up δ` says where a component leads from a directory: to a child, to the parent, or along a
symbolic link. `walk` follows a whole path to a directory and `locate` all but its last component, to the place of
an entry. A path that is joined to that of a directory is followed from there, also if it is absolute
(`locate_join`).
-/

/-- The empty component and `dot` stay where they are, and so does `up` in the root. -/
structure Directories {β : Type} (sep : β) (dot up : List β) (δ : Type) where
  root : δ
  enter : δ → List β → Option δ
  enter_nil : ∀ d, enter d [] = some d
  enter_dot : ∀ d, enter d dot = some d
  enter_up : enter root up = some root

namespace Directories

variable {δ β : Type} [DecidableEq β] {sep : β} {dot up : List β}

/-- The path `name` below the directory `dir`. -/
def join (sep : β) (dir name : List β) : List β :=
  if dir.getLast? = some sep then dir ++ name else dir ++ sep :: name

variable (D : Directories sep dot up δ)

/-- Where an absolute or a relative path starts. -/
def start (cwd : δ) (path : List β) : δ := if path.head? = some sep then D.root else cwd

/-- The directory at a path. -/
def walk (cwd : δ) (path : List β) : Option δ :=
  if path = [] then none else (path.splitOn sep).foldlM D.enter (D.start cwd path)

/-- The place that a path leads to from the directory `d`: a directory, and the name of an entry, which need not be
there. -/
def place (d : δ) (path : List β) : Option (δ × List β) :=
  if path = [] then none
  else ((path.splitOn sep).dropLast.foldlM D.enter d).map fun d => (d, (path.splitOn sep).getLastD [])

def locate (cwd : δ) (path : List β) : Option (δ × List β) := D.place (D.start cwd path) path

variable {D} {cwd d : δ} {dir path name : List β}

theorem start_relative (h : path.head? ≠ some sep) : D.start cwd path = cwd := if_neg h

theorem locate_relative (h : path.head? ≠ some sep) : D.locate d path = D.place d path := by
  rw [locate, start_relative h]

theorem locate_absolute (h : path.head? = some sep) : D.locate d path = D.place D.root path := by
  rw [locate, start, if_pos h]

theorem walk_dot (hne : dot ≠ []) (hsep : sep ∉ dot) : D.walk d dot = some d := by
  have hhead : dot.head? ≠ some sep := fun h => hsep (List.mem_of_head? h)
  rw [walk, if_neg hne, List.splitOn_eq_singleton hsep, start_relative hhead]
  simp [D.enter_dot]

theorem locate_entry (hne : name ≠ []) (hsep : sep ∉ name) : D.locate d name = some (d, name) := by
  rw [locate_relative fun h => hsep (List.mem_of_head? h), place, if_neg hne, List.splitOn_eq_singleton hsep]
  rfl

theorem place_append_sep (hne : name ≠ []) :
    D.place d (dir ++ sep :: name) = ((dir.splitOn sep).foldlM D.enter d).bind fun d => D.place d name := by
  have hsplit := List.splitOn_ne_nil sep name
  have hlast : (dir.splitOn sep ++ name.splitOn sep).getLastD [] = (name.splitOn sep).getLastD [] := by
    rw [List.getLastD_eq_getLast?, List.getLastD_eq_getLast?, List.getLast?_append_of_ne_nil _ hsplit]
  rw [place, if_neg (by simp), List.splitOn_append_cons_self, hlast, List.dropLast_append_of_ne_nil hsplit,
    List.foldlM_append]
  simp only [Option.bind_eq_bind, Option.map_bind]
  refine Option.bind_congr fun d _ => ?_
  rw [place, if_neg hne]
  rfl

theorem place_sep_cons (hne : name ≠ []) : D.place d (sep :: name) = D.place d name := by
  have hsplit := List.splitOn_ne_nil sep name
  have hcons : (sep :: name).splitOn sep = [[]] ++ name.splitOn sep := List.splitOn_append_cons_self [] name
  have hlast : ([[]] ++ name.splitOn sep).getLastD [] = (name.splitOn sep).getLastD [] := by
    rw [List.getLastD_eq_getLast?, List.getLastD_eq_getLast?, List.getLast?_append_of_ne_nil _ hsplit]
  rw [place, place, if_neg (by simp), if_neg hne, hcons, hlast, List.dropLast_append_of_ne_nil hsplit,
    List.foldlM_append]
  simp [D.enter_nil]

theorem locate_append_sep (hdir : dir ≠ []) (hne : name ≠ []) :
    D.locate cwd (dir ++ sep :: name) = (D.walk cwd dir).bind fun d => D.place d name := by
  obtain ⟨c, dir', rfl⟩ := List.exists_cons_of_ne_nil hdir
  have hstart : D.start cwd (c :: dir' ++ sep :: name) = D.start cwd (c :: dir') := rfl
  rw [locate, hstart, place_append_sep hne, walk, if_neg hdir]

theorem walk_append_sep (hdir : dir ≠ []) : D.walk cwd (dir ++ [sep]) = D.walk cwd dir := by
  obtain ⟨c, dir', rfl⟩ := List.exists_cons_of_ne_nil hdir
  have hstart : D.start cwd (c :: dir' ++ [sep]) = D.start cwd (c :: dir') := rfl
  rw [walk, walk, if_neg (by simp), if_neg hdir, List.splitOn_append_cons_self, List.foldlM_append, hstart]
  simp [D.enter_nil]

theorem walk_sep : D.walk cwd [sep] = some D.root := by
  have hsplit : [sep].splitOn sep = ([] : List β).splitOn sep ++ ([] : List β).splitOn sep :=
    List.splitOn_append_cons_self [] []
  rw [walk, if_neg (by simp), hsplit]
  simp [D.enter_nil, start]

/-- A path below a directory leads where it leads from there. -/
theorem locate_join (hdir : dir ≠ []) (hne : name ≠ []) :
    D.locate cwd (join sep dir name) = (D.walk cwd dir).bind fun d => D.place d name := by
  unfold join
  split
  · rename_i hlast
    obtain ⟨dir', rfl⟩ := List.getLast?_eq_some_iff.mp hlast
    by_cases hdir' : dir' = []
    · rw [hdir', List.nil_append, walk_sep, Option.bind_some, List.singleton_append, locate, place_sep_cons hne,
        start, if_pos List.head?_cons]
    · rw [walk_append_sep hdir', List.append_assoc, List.singleton_append, locate_append_sep hdir' hne]
  · exact locate_append_sep hdir hne

end Directories
