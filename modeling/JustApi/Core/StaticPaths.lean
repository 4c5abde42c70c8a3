import JustApi.Lib.Lines
import JustApi.Core.StaticFiles

/-! # Paths of a mount

What a mount maps into its directory, and that nothing it maps leaves the directory. -/
namespace JustApi.Core.StaticFiles
open JustApi.Lib.Text JustApi.Lib.Lines

/-! ## Components -/

/-- The components of a path that goes on after a slash. -/
def normals (path : List Char) : List Component := (path.splitOn '/').filterMap component

theorem splitOn_slash (base rest : List Char) :
    (base ++ '/' :: rest).splitOn '/' = base.splitOn '/' ++ rest.splitOn '/' :=
  List.splitOn_append_cons_self base rest

theorem head?_splitOn_append (base : List Char) (parts : List (List Char)) :
    (base.splitOn '/' ++ parts).head? = (base.splitOn '/').head? :=
  List.head?_append_of_ne_nil _ (List.splitOn_ne_nil '/' base)

theorem isAbsolute_append {base : List Char} (h : base ≠ []) (rest : List Char) :
    isAbsolute (base ++ rest) = isAbsolute base := by
  unfold isAbsolute
  rw [List.head?_append_of_ne_nil _ h]

/-- What follows a slash is added behind. -/
theorem components_append_slash (base rest : List Char) :
    components (base ++ '/' :: rest) = components (base ++ ['/']) ++ normals rest := by
  have habs : isAbsolute (base ++ '/' :: rest) = isAbsolute (base ++ ['/']) := by
    cases base <;> rfl
  have hempty : ([] : List Char).splitOn '/' = [[]] := rfl
  simp only [components, normals, splitOn_slash, hempty, head?_splitOn_append, habs,
    List.filterMap_append]
  simp [component]

theorem components_slash {base : List Char} (h : base ≠ []) :
    components (base ++ ['/']) = components base := by
  have hempty : ([] : List Char).splitOn '/' = [[]] := rfl
  simp only [components, splitOn_slash, hempty, head?_splitOn_append, isAbsolute_append h,
    List.filterMap_append]
  simp [component]

/-- A relative path is joined below the root. -/
theorem components_join {relative : List Char} (hrel : isAbsolute relative = false)
    (root : List Char) : components root <+: components (join root relative) := by
  rw [join, hrel, if_neg Bool.false_ne_true]
  by_cases hroot : root = []
  · rw [if_pos (.inl hroot), hroot]
    exact List.nil_prefix
  by_cases hlast : root.getLast? = some '/'
  · obtain ⟨base, rfl⟩ := List.getLast?_eq_some_iff.mp hlast
    rw [if_pos (.inr hlast), List.append_assoc, List.singleton_append,
      components_append_slash base relative]
    exact List.prefix_append _ _
  · rw [if_neg (not_or.mpr ⟨hroot, hlast⟩), components_append_slash root relative,
      components_slash hroot]
    exact List.prefix_append _ _

/-- A parent directory shows in the text of the path. -/
theorem parentDir_notMem {relative : List Char} (h : ¬ "..".toList <:+: relative) :
    Component.parentDir ∉ components relative := by
  intro hmem
  rcases List.mem_append.mp hmem with hfront | hparts
  · split at hfront <;> [skip; split at hfront] <;> simp at hfront
  · obtain ⟨part, hpart, hcomp⟩ := List.mem_filterMap.mp hparts
    have hdots : part = ['.', '.'] := by
      unfold component at hcomp
      split at hcomp
      · cases hcomp
      · split at hcomp
        · assumption
        · cases hcomp
    rw [hdots] at hpart
    have hinfix := infix_intercalate hpart ['/']
    rw [List.intercalate_splitOn] at hinfix
    exact h hinfix

/-! ## Directories and mounts -/

/-- The path is below the root, in the text and where both are found in the file
system. -/
structure Inside (fs : FileSystem) (root p : List Char) : Prop where
  joined : ∃ relative, p = join root relative ∧ isAbsolute relative = false ∧
    Component.parentDir ∉ components relative
  below : components root <+: components p
  canonical : ∀ c rc, fs.canonicalize p = some c → fs.canonicalize root = some rc →
    pathStartsWith c rc = true

variable {fs : FileSystem} {dir : StaticDir} {mount : StaticMount} {uriPath p : List Char}

theorem resolve_inside (h : dir.resolve fs uriPath = some p) :
    uriPath.dropWhile (· = '/') ≠ [] ∧ Inside fs dir.root p := by
  unfold StaticDir.resolve at h
  dsimp only at h
  split at h
  · cases h
  rename_i hne
  split at h
  · cases h
  rename_i hclean
  have hdots : ¬ "..".toList <:+: uriPath.dropWhile (· = '/') := by
    intro hinfix
    exact hclean (by simp only [containsText, decide_eq_true hinfix, Bool.true_or])
  have hrel : isAbsolute (uriPath.dropWhile (· = '/')) = false := by
    have hhead := List.head?_dropWhile_not (fun c => decide (c = '/')) uriPath
    unfold isAbsolute
    split at hhead
    · rename_i c hc
      rw [hc]
      simpa using hhead
    · rename_i hnil
      rw [hnil]
      rfl
  refine ⟨hne, ?_⟩
  have hp : p = join dir.root (uriPath.dropWhile (· = '/')) := by
    split at h <;> split at h <;> cases h <;> rfl
  refine ⟨⟨_, hp, hrel, parentDir_notMem hdots⟩, ?_, ?_⟩
  · rw [hp]
    exact components_join hrel dir.root
  · intro c rc hc hrc
    rw [← hp, hc, hrc] at h
    dsimp only at h
    split at h
    · assumption
    · cases h

/-- The request path is the prefix, a slash and more. -/
def Under (mount : StaticMount) (uriPath : List Char) : Prop :=
  mount.mountPrefix = ['/'] ∨ ∃ rest, rest ≠ [] ∧ uriPath = mount.mountPrefix ++ '/' :: rest

/-- **Static mounts.** What a mount resolves lies inside its directory, and the request
path is under its prefix exactly when the prefix is the root or a slash follows it. -/
theorem mount_serves_own_subtree_iff (mount : StaticMount) (fs : FileSystem)
    (uriPath p : List Char) (h : mount.resolve fs uriPath = some p) :
    Inside fs mount.dir.root p ∧
      (Under mount uriPath ↔
        mount.mountPrefix = ['/'] ∨ mount.mountPrefix ++ ['/'] <+: uriPath) := by
  unfold StaticMount.resolve at h
  split at h
  · rename_i hroot
    exact ⟨(resolve_inside h).2, iff_of_true (.inl hroot) (.inl hroot)⟩
  split at h
  · rename_i hroot hprefix
    obtain ⟨hne, hinside⟩ := resolve_inside h
    refine ⟨hinside, or_congr_right ?_⟩
    constructor
    · intro hunder
      obtain ⟨rest, -, rfl⟩ := hunder
      exact ⟨rest, by simp⟩
    · intro hslash
      obtain ⟨rest, rfl⟩ := hslash
      refine ⟨rest, ?_, by simp⟩
      -- of the prefix and the slash alone nothing is left to resolve
      rintro rfl
      simp at hne
  · cases h

def staticMount : StaticMount := ⟨"/static".toList, ⟨"/srv/app".toList⟩, none⟩

/-- Every path is its own canonical one. -/
def plainFiles : FileSystem := ⟨some, fun _ => none, fun _ => .error "", fun _ => .error ""⟩

theorem mount_serves_own_subtree_iff_css :
    staticMount.resolve plainFiles "/static/css/style.css".toList =
        some "/srv/app/css/style.css".toList ∧
      Inside plainFiles "/srv/app".toList "/srv/app/css/style.css".toList ∧
      Under staticMount "/static/css/style.css".toList := by
  have h : staticMount.resolve plainFiles "/static/css/style.css".toList =
      some "/srv/app/css/style.css".toList := by decide +kernel
  obtain ⟨hinside, hunder⟩ := mount_serves_own_subtree_iff staticMount plainFiles _ _ h
  exact ⟨h, hinside, hunder.mpr (.inr (by decide +kernel))⟩

theorem longer_segment_mapped_into_mount :
    ¬ ∀ mount fs uriPath p, StaticMount.resolve mount fs uriPath = some p → Under mount uriPath := by
  intro hall
  rcases hall staticMount plainFiles "/staticfoo/a.js".toList "/srv/app/foo/a.js".toList
    (by decide +kernel) with hroot | ⟨rest, -, he⟩
  · exact absurd hroot (by decide)
  · have hstatic : staticMount.mountPrefix = ['/', 's', 't', 'a', 't', 'i', 'c'] := by decide
    rw [hstatic] at he
    have hslash : "/staticfoo/a.js".toList[7]? = some '/' := by
      rw [he]
      rfl
    exact absurd hslash (by decide)

end JustApi.Core.StaticFiles
