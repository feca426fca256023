import Esql.Proofs.Files.Matching
import Esql.Proofs.Files.Walk
import Mathlib.Algebra.GroupWithZero.Nat

/-!
# `Proofs.Files.Resolution` — the files that match a pattern

The files for a pattern are those below the root of its walk whose path, as it is shown, matches. The walk goes
only so deep as a match can lie: a pattern without `**` has as many steps as its matches, so no match is cut off
(`length_le_walkDepth`). What is left to ask is whether every directory that is entered has a path that can be
opened; if so, the answer is the list of these files in the order of their names, and if not, there is none.

## Contents
- The root of a walk, which is always a directory.
- The walk from its root, the paths that it shows, and its depth.
- `matching`, the files for a pattern, and which files these are.
- `deepTree`, in which a directory has a path that is too long.
- What a pattern resolves to.
-/

namespace Esql.Files

open Glob (Piece)

variable {tree : Tree} {limits : Limits} {pattern : String} {pieces : List Piece} {spot : Spot} {root : WalkRoot}
  {names : List String}

/-! ## The root of a walk -/

theorem find_ok {path : String} (h : Except.toBool (tree.disk.find path) = true) :
    ∃ spot, tree.spot path = .ok spot := by
  cases hfind : tree.disk.find path with
  | error fault =>
      rw [hfind] at h
      contradiction
  | ok found =>
      obtain ⟨spot, hspot, -⟩ := spot_of_find hfind
      exact ⟨spot, hspot⟩

theorem walkRoot_eq (tree : Tree) (pattern : String) :
    walkRoot tree.disk pattern =
      ((Path.above pattern).find? fun path => Except.toBool (tree.disk.find path)).elim
        (if Path.isAbsolute pattern then ⟨"/", false⟩ else ⟨".", true⟩) (⟨·, false⟩) := by
  have hfind :
      ((Path.above pattern).findM? fun path => (return Except.toBool (← tree.disk.find path) : Id Bool)) =
        pure ((Path.above pattern).find? fun path => Except.toBool (tree.disk.find path)) :=
    List.findM?_pure ..
  unfold walkRoot
  rw [hfind, pure_bind]
  cases (Path.above pattern).find? fun path => Except.toBool (tree.disk.find path) <;> rfl

/-- A walk begins above the pattern where something stands, or else at the root or in the current directory. -/
theorem walkRoot_cases (tree : Tree) (pattern : String) :
    (∃ path ∈ Path.above pattern, (∃ spot, tree.spot path = .ok spot) ∧ walkRoot tree.disk pattern = ⟨path, false⟩) ∨
      (Path.isAbsolute pattern = true ∧ walkRoot tree.disk pattern = ⟨"/", false⟩) ∨
      walkRoot tree.disk pattern = ⟨".", true⟩ := by
  rw [walkRoot_eq]
  cases hfound : (Path.above pattern).find? fun path => Except.toBool (tree.disk.find path) with
  | some path =>
      have hfind := List.find?_some hfound
      exact .inl ⟨path, List.mem_of_find?_eq_some hfound, find_ok hfind, rfl⟩
  | none =>
      by_cases habsolute : Path.isAbsolute pattern = true
      · exact .inr (.inl ⟨habsolute, if_pos habsolute⟩)
      · exact .inr (.inr (if_neg habsolute))

/-- Where something stands at the nearest path above a pattern, its walk begins there. -/
theorem walkRoot_nearest {path : String} {others : List String} (habove : Path.above pattern = path :: others)
    (hspot : tree.spot path = .ok spot) : walkRoot tree.disk pattern = (⟨path, false⟩ : WalkRoot) := by
  have hfind : Except.toBool (tree.disk.find path) = true := by
    show Except.toBool ((tree.spot path).map Tree.found) = true
    rw [hspot]
    rfl
  have hfound : ((path :: others).find? fun path => Except.toBool (tree.disk.find path)) = some path :=
    List.find?_cons_of_pos hfind
  rw [walkRoot_eq, habove, hfound]
  rfl

theorem Tree.Sound.root_isDirectory (h : tree.Sound) : ∃ entries, tree.current.root.node = .directory entries := by
  unfold Spot.root
  split
  · exact h.isDirectory
  · rename_i step hstep
    exact (h.current.way _ (List.mem_of_getLast? hstep)).2

theorem spot_slash (h : tree.Sound) : tree.spot "/" = .ok tree.current.root := by
  obtain ⟨entries, hroot⟩ := h.root_isDirectory
  refine Tree.spot_ok_iff.mpr ⟨by decide, by decide, by decide, ?_⟩
  show Spot.walk _ tree.current.root [[], []] = _
  simp [Spot.walk, hroot, Path.isIdle]

theorem spot_dot (h : tree.Sound) : tree.spot "." = .ok tree.current := by
  obtain ⟨entries, hcurrent⟩ := h.isDirectory
  refine Tree.spot_ok_iff.mpr ⟨by decide, by decide, by decide, ?_⟩
  show Spot.walk _ tree.current [['.']] = _
  simp [Spot.walk, hcurrent, Path.isIdle]

/-- Something stands where a walk begins. -/
theorem exists_spot (h : tree.Sound) (pattern : String) :
    ∃ spot, tree.spot (walkRoot tree.disk pattern).path = .ok spot := by
  obtain ⟨path, -, hspot, hroot⟩ | ⟨-, hroot⟩ | hroot := walkRoot_cases tree pattern
  · rwa [hroot]
  · rw [hroot]
    exact ⟨_, spot_slash h⟩
  · rw [hroot]
    exact ⟨_, spot_dot h⟩

/-- The paths of a walk are shown without `./` only where the walk begins in the current directory. -/
theorem walkRoot_fallback (h : (walkRoot tree.disk pattern).isFallback = true) :
    walkRoot tree.disk pattern = ⟨".", true⟩ := by
  obtain ⟨path, -, -, hroot⟩ | ⟨-, hroot⟩ | hroot := walkRoot_cases tree pattern
  · simp [hroot] at h
  · simp [hroot] at h
  · exact hroot

theorem spot_fallback (h : tree.Sound) (hroot : (walkRoot tree.disk pattern).isFallback = true)
    (hspot : tree.spot (walkRoot tree.disk pattern).path = .ok spot) : spot = tree.current := by
  rw [walkRoot_fallback hroot, spot_dot h] at hspot
  exact (Except.ok.inj hspot).symm

/-! ## The walk from its root -/

/-- The path of what stands so many names below the root of a walk, as it is compared and shown. -/
def WalkRoot.pathOf (root : WalkRoot) (names : List String) : String := root.shown (Path.below root.path names)

theorem WalkRoot.pathOf_plain (path : String) (names : List String) :
    WalkRoot.pathOf ⟨path, false⟩ names = Path.below path names := rfl

section
variable {path : String} {depth : Nat} {followLinks : Bool}

theorem filesFrom_file {content : ByteArray} (hspot : tree.spot path = .ok spot) (hnode : spot.node = .file content) :
    filesFrom tree.disk followLinks depth path = pure [path] := by
  have hfind : tree.disk.find path = .ok .file := by
    show (tree.spot path).map Tree.found = _
    rw [hspot, Except.map, Tree.found, hnode]
  rw [filesFrom, hfind]
  rfl

theorem filesFrom_directory {entries : List (String × Node)} (hspot : tree.spot path = .ok spot)
    (hnode : spot.node = .directory entries) :
    filesFrom tree.disk followLinks depth path = filesBelow tree.disk followLinks depth [path] path := by
  have hfind : tree.disk.find path = .ok (.directory spot.place) := by
    show (tree.spot path).map Tree.found = _
    rw [hspot, Except.map, Tree.found, hnode]
  rw [filesFrom, hfind]
  rfl

theorem filesFrom_eq (htree : tree.Sound) (hspot : tree.spot path = .ok spot)
    (hlinks : followLinks = true → spot.node.HasNoLinks) (hopen : CanEnter path depth spot.node) :
    filesFrom tree.disk followLinks depth path =
      pure ((filesAt tree.disk depth path spot.node).map (Path.below path)) := by
  cases hnode : spot.node with
  | link target => exact absurd hnode ((htree.spot hspot).notLink target)
  | file content => simp [filesFrom_file hspot hnode, filesAt]
  | directory entries =>
      rw [filesFrom_directory hspot hnode, ← hnode, filesBelow_eq htree hspot hnode hlinks hopen]

theorem canEnter_of_filesFrom {files : List String} (htree : tree.Sound) (hspot : tree.spot path = .ok spot)
    (h : (filesFrom tree.disk followLinks depth path).run = .ok files) : CanEnter path depth spot.node := by
  cases hnode : spot.node with
  | file | link =>
      intro names entries hat
      cases names <;> simp [Node.entries] at hat
  | directory entries =>
      rw [filesFrom_directory hspot hnode] at h
      exact hnode ▸ canEnter_of_filesBelow htree hspot hnode h

end

/-! ## The depth of a walk -/

theorem WalkRoot.pathOf_fallback {name : String} (hnames : ∀ n ∈ name :: names, Path.IsName n) :
    WalkRoot.pathOf ⟨".", true⟩ (name :: names) = String.intercalate "/" (name :: names) := by
  refine String.toList_inj.mp ?_
  rw [WalkRoot.pathOf, WalkRoot.shown, if_pos rfl, String.toList_ofList, Path.below_toList (by decide) hnames,
    Path.intercalate_toList]
  rfl

/-- Every name below the root of a walk is a step of the path that is shown. -/
theorem depth_pathOf (hspot : tree.spot (walkRoot tree.disk pattern).path = .ok spot)
    (hnames : ∀ n ∈ names, Path.IsName n) :
    Path.depth ((walkRoot tree.disk pattern).pathOf names) =
      (if (walkRoot tree.disk pattern).isFallback then 0 else Path.depth (walkRoot tree.disk pattern).path) +
        names.length := by
  have hne := (Tree.spot_ok_iff.mp hspot).2.1
  by_cases hfallback : (walkRoot tree.disk pattern).isFallback = true
  · rw [walkRoot_fallback hfallback]
    cases names with
    | nil => rfl
    | cons name names =>
        rw [WalkRoot.pathOf_fallback hnames, Path.depth_intercalate (List.cons_ne_nil name names) hnames, if_pos rfl,
          Nat.zero_add]
  · rw [if_neg hfallback, ← Path.depth_below hne hnames, WalkRoot.pathOf, WalkRoot.shown, if_neg hfallback]

/-- What is shown below the root of a walk is told apart by its path. -/
theorem pathOf_inj {names' : List String} (hspot : tree.spot (walkRoot tree.disk pattern).path = .ok spot)
    (hnames : ∀ n ∈ names, Path.IsName n) (hnames' : ∀ n ∈ names', Path.IsName n)
    (h : (walkRoot tree.disk pattern).pathOf names = (walkRoot tree.disk pattern).pathOf names') :
    names = names' := by
  by_cases hfallback : (walkRoot tree.disk pattern).isFallback = true
  · have hlength : names.length = names'.length := by
      have hdepth := congrArg Path.depth h
      rwa [depth_pathOf hspot hnames, depth_pathOf hspot hnames', Nat.add_left_cancel_iff] at hdepth
    rw [walkRoot_fallback hfallback] at h
    cases names with
    | nil => exact (List.length_eq_zero_iff.mp hlength.symm).symm
    | cons name names =>
        obtain ⟨name', names', rfl⟩ : ∃ n ns, names' = n :: ns :=
          List.exists_cons_of_ne_nil fun hnil => by simp [hnil] at hlength
        rw [WalkRoot.pathOf_fallback hnames, WalkRoot.pathOf_fallback hnames'] at h
        have hpaths := congrArg Path.names h
        rw [Path.names_intercalate (List.cons_ne_nil _ _) hnames,
          Path.names_intercalate (List.cons_ne_nil _ _) hnames'] at hpaths
        exact List.map_injective_iff.mpr (fun _ _ => String.toList_inj.mp) hpaths
  · refine Path.below_inj (Tree.spot_ok_iff.mp hspot).2.1 hnames hnames' ?_
    rwa [WalkRoot.pathOf, WalkRoot.pathOf, WalkRoot.shown, WalkRoot.shown, if_neg hfallback, if_neg hfallback] at h

/-- Where a walk is cut off, nothing below can match. -/
theorem length_le_walkDepth {found : Node} (htree : tree.Sound)
    (hspot : tree.spot (walkRoot tree.disk pattern).path = .ok spot) (hparse : Glob.parse pattern = .ok pieces)
    (hat : spot.node.At names found) (hdepth : names.length ≤ limits.maxDepth)
    (haccepts : Glob.accepts pieces ((walkRoot tree.disk pattern).pathOf names) = true) :
    names.length ≤ walkDepth pattern (walkRoot tree.disk pattern) limits.maxDepth := by
  unfold walkDepth
  by_cases hstars : hasTwoStars pattern.toList = true
  · rwa [if_pos hstars]
  · have hle := Glob.depth_le_of_accepts hparse (by simpa using hstars) haccepts
    rw [depth_pathOf hspot (hat.isName (htree.spot hspot).node)] at hle
    rw [if_neg hstars]
    omega

/-! ## The files that match -/

/-- The files below the root of the walk for a pattern that match it, by their names. -/
def matching (tree : Tree) (limits : Limits) (pattern : String) (pieces : List Piece) (node : Node) :
    List (List String) :=
  let root : WalkRoot := walkRoot tree.disk pattern
  (filesAt tree.disk (walkDepth pattern root limits.maxDepth) root.path node).filter fun names =>
    Glob.accepts pieces (root.pathOf names)

theorem resolve_eq (hparse : Glob.parse pattern = .ok pieces) (disk : Disk Id) (limits : Limits) :
    resolve disk limits pattern =
      let root : WalkRoot := walkRoot disk pattern
      match (filesFrom disk limits.followLinks (walkDepth pattern root limits.maxDepth) root.path).run with
      | .error e => .error (.io e.path e.message)
      | .ok files => .ok ((files.map root.shown).filter (Glob.accepts pieces)) := by
  rw [resolve, hparse]
  rfl

/-- What a walk lists is filtered by the pattern. -/
theorem resolve_of_walk {disk : Disk Id} {root : WalkRoot} {depth : Nat} {listed files : List String}
    (hparse : Glob.parse pattern = .ok pieces) (hroot : walkRoot disk pattern = root)
    (hdepth : walkDepth pattern root limits.maxDepth = depth)
    (hwalk : (filesFrom disk limits.followLinks depth root.path).run = .ok listed)
    (hfiles : (listed.map root.shown).filter (Glob.accepts pieces) = files) :
    resolve disk limits pattern = .ok files := by
  rw [resolve_eq hparse, hroot]
  dsimp only
  rw [hdepth, hwalk, ← hfiles]

theorem resolve_ok (htree : tree.Sound) (hspot : tree.spot (walkRoot tree.disk pattern).path = .ok spot)
    (hlinks : limits.followLinks = true → spot.node.HasNoLinks) (hparse : Glob.parse pattern = .ok pieces)
    (hopen : CanEnter (walkRoot tree.disk pattern).path
      (walkDepth pattern (walkRoot tree.disk pattern) limits.maxDepth) spot.node) :
    resolve tree.disk limits pattern =
      .ok ((matching tree limits pattern pieces spot.node).map (walkRoot tree.disk pattern).pathOf) := by
  rw [resolve_eq hparse]
  dsimp only
  rw [filesFrom_eq htree hspot hlinks hopen]
  show Except.ok _ = _
  rw [List.map_map, List.filter_map]
  rfl

theorem canEnter_of_resolve {files : List String} (htree : tree.Sound)
    (hspot : tree.spot (walkRoot tree.disk pattern).path = .ok spot) (hparse : Glob.parse pattern = .ok pieces)
    (h : resolve tree.disk limits pattern = .ok files) :
    CanEnter (walkRoot tree.disk pattern).path (walkDepth pattern (walkRoot tree.disk pattern) limits.maxDepth)
      spot.node := by
  rw [resolve_eq hparse] at h
  cases hwalk : (filesFrom tree.disk limits.followLinks
    (walkDepth pattern (walkRoot tree.disk pattern) limits.maxDepth) (walkRoot tree.disk pattern).path).run with
  | error e => simp [hwalk] at h
  | ok files => exact canEnter_of_filesFrom htree hspot hwalk

theorem mem_matching (htree : tree.Sound) (hspot : tree.spot (walkRoot tree.disk pattern).path = .ok spot)
    (hparse : Glob.parse pattern = .ok pieces) :
    names ∈ matching tree limits pattern pieces spot.node ↔
      ∃ found, spot.node.At names found ∧ names.length ≤ limits.maxDepth ∧
        LeadsToFile tree.disk (Path.below (walkRoot tree.disk pattern).path names) found ∧
        Glob.accepts pieces ((walkRoot tree.disk pattern).pathOf names) = true := by
  rw [matching, List.mem_filter, mem_filesAt]
  constructor
  · rintro ⟨⟨found, hat, hdepth, hleads⟩, haccepts⟩
    refine ⟨found, hat, hdepth.trans ?_, hleads, haccepts⟩
    unfold walkDepth
    split
    · exact Nat.le_refl _
    · exact Nat.min_le_right _ _
  · rintro ⟨found, hat, hdepth, hleads, haccepts⟩
    exact ⟨⟨found, hat, length_le_walkDepth htree hspot hparse hat hdepth haccepts, hleads⟩, haccepts⟩

/-! ## Trees that are too deep -/

/-- The longest name of one letter. -/
def longName : String := String.ofList (List.replicate maxNameBytes 'a')

/-- So many directories with the longest name, each in the other, and a file in the last one. -/
def nested : Nat → Node
  | 0 => .directory [("x.q", .file .empty)]
  | levels + 1 => .directory [(longName, nested levels)]

/-- A tree in which the path of a directory has more bytes than a path may have. -/
def deepTree : Tree := ⟨⟨nested 17, []⟩⟩

theorem longName_toList : longName.toList = List.replicate maxNameBytes 'a' := String.toList_ofList

theorem longName_size : longName.utf8ByteSize = maxNameBytes := by decide +kernel

theorem longName_isName : Path.IsName longName := by
  have honly {c : Char} (hc : c ∈ longName.toList) : c = 'a' :=
    List.eq_of_mem_replicate (longName_toList ▸ hc)
  constructor
  · rw [longName_toList]
    decide +kernel
  · rw [longName_toList]
    decide +kernel
  · exact fun hc => absurd (honly hc) (by decide)
  · exact fun hc => absurd (honly hc) (by decide)
  · exact Nat.le_of_eq longName_size

theorem nested_sound (levels : Nat) : (nested levels).Sound := by
  induction levels with
  | zero =>
      have hname : Path.IsName "x.q" := by decide
      exact .directory (by simp) (by simpa using hname) (by simpa using .file)
  | succ levels ih => exact .directory (by simp) (by simpa using longName_isName) (by simpa using ih)

theorem nested_at (levels : Nat) :
    (nested levels).At (List.replicate levels longName) (.directory [("x.q", .file .empty)]) := by
  induction levels with
  | zero => exact .here
  | succ levels ih => exact .deeper List.mem_cons_self ih

theorem nested_hasNoLinks (levels : Nat) : (nested levels).HasNoLinks := by
  induction levels with
  | zero => exact Node.hasNoLinks_directory (by simpa using Node.hasNoLinks_file .empty)
  | succ levels ih => exact Node.hasNoLinks_directory (by simpa using ih)

theorem deepTree_sound : deepTree.Sound := Tree.sound_of_root (nested_sound 17)

theorem Path.size_below {root : String} (hroot : root.toList.getLast? ≠ some '/')
    (hnames : ∀ n ∈ names, Path.IsName n) :
    (Path.below root names).utf8ByteSize = root.utf8ByteSize + (names.map fun n => 1 + n.utf8ByteSize).sum := by
  induction names generalizing root with
  | nil => rfl
  | cons n names ih =>
      obtain ⟨hn, hnames⟩ := List.forall_mem_cons.mp hnames
      have hchild : Path.child root n = root ++ "/" ++ n := if_neg (by simpa using hroot)
      have hlast : (Path.child root n).toList.getLast? ≠ some '/' := by
        rw [Path.child_toList]
        exact hn.noSlash_last _
      have hslash : "/".utf8ByteSize = 1 := rfl
      rw [Path.below_cons, ih hlast hnames, hchild, String.utf8ByteSize_append, String.utf8ByteSize_append,
        List.map_cons, List.sum_cons, hslash]
      omega

theorem size_nested {root : String} (hroot : root.toList.getLast? ≠ some '/') (levels : Nat) :
    (Path.below root (List.replicate levels longName)).utf8ByteSize =
      root.utf8ByteSize + levels * (1 + maxNameBytes) := by
  have hnames : ∀ n ∈ List.replicate levels longName, Path.IsName n := by
    intro n hn
    exact List.eq_of_mem_replicate hn ▸ longName_isName
  rw [Path.size_below hroot hnames, List.map_replicate, List.sum_replicate_nat, longName_size]

theorem deepTree_root : walkRoot deepTree.disk "**/x.q" = (⟨".", true⟩ : WalkRoot) := by
  obtain ⟨path, habove, ⟨spot, hspot⟩, -⟩ | ⟨habsolute, -⟩ | hroot := walkRoot_cases deepTree "**/x.q"
  · obtain rfl : path = "**" := by simpa using (show path ∈ ["**"] from habove)
    have hat := Spot.follow_at (Tree.spot_ok_iff.mp hspot).2.2.2 (nested_hasNoLinks 17) (by decide)
    obtain ⟨next, hmem, -⟩ := Node.at_cons.mp hat
    change (String.ofList ['*', '*'], next) ∈ [(longName, nested 16)] at hmem
    have hname : ['*', '*'] = List.replicate maxNameBytes 'a' :=
      String.ofList_injective (congrArg Prod.fst (List.mem_singleton.mp hmem))
    have hstar : '*' ∈ List.replicate maxNameBytes 'a' := hname ▸ List.mem_cons_self
    exact absurd (List.eq_of_mem_replicate hstar) (by decide)
  · simp [Path.isAbsolute] at habsolute
  · exact hroot

/-- A walk that enters a directory whose path is too long fails. -/
theorem deepTree_not_ok (files : List String) : resolve deepTree.disk {} "**/x.q" ≠ .ok files := by
  intro h
  have hspot : deepTree.spot (walkRoot deepTree.disk "**/x.q").path = .ok deepTree.current :=
    deepTree_root ▸ spot_dot deepTree_sound
  have hopen := canEnter_of_resolve deepTree_sound hspot rfl h _ _ (nested_at 17)
  rw [deepTree_root] at hopen
  have hsize := hopen (by decide)
  rw [size_nested (by decide)] at hsize
  exact absurd hsize (by decide)

/-! ## What a pattern resolves to -/

/-- **A pattern resolves to the files below the root of its walk that match it.** For links that are not followed
to directories: the walk succeeds just if every directory that it enters has a path that can be opened. Then the
files are those entries, at most `maxDepth` steps below the root, that are files or links to files and whose paths
match. Each is there once, and they come in the order of the bytes of their names. -/
theorem resolve_exact (htree : tree.Sound) (hlinks : limits.followLinks = false)
    (hparse : Glob.parse pattern = .ok pieces) :
    let root : WalkRoot := walkRoot tree.disk pattern
    ∃ spot, tree.spot root.path = .ok spot ∧
      ((∃ files, resolve tree.disk limits pattern = .ok files) ↔
        CanEnter root.path (walkDepth pattern root limits.maxDepth) spot.node) ∧
      ∀ files, resolve tree.disk limits pattern = .ok files →
        ∃ rows : List (List String), files = rows.map root.pathOf ∧ files.Nodup ∧ rows.Pairwise Precedes ∧
          ∀ names, names ∈ rows ↔ ∃ found, spot.node.At names found ∧ names.length ≤ limits.maxDepth ∧
            LeadsToFile tree.disk (Path.below root.path names) found ∧
            Glob.accepts pieces (root.pathOf names) = true := by
  intro root
  obtain ⟨spot, hspot⟩ := exists_spot htree pattern
  have hlinks' : limits.followLinks = true → spot.node.HasNoLinks := by simp [hlinks]
  refine ⟨spot, hspot, ⟨fun ⟨files, h⟩ => ?_, fun hopen => ?_⟩, fun files h => ?_⟩
  · exact canEnter_of_resolve htree hspot hparse h
  · exact ⟨_, resolve_ok htree hspot hlinks' hparse hopen⟩
  · have hfiles := resolve_ok htree hspot hlinks' hparse (canEnter_of_resolve htree hspot hparse h)
    obtain rfl := Except.ok.inj (h.symm.trans hfiles)
    have hordered : (matching tree limits pattern pieces spot.node).Pairwise Precedes :=
      (filesAt_pairwise (htree.spot hspot).node).filter _
    refine ⟨_, rfl, ?_, hordered, fun names => mem_matching htree hspot hparse⟩
    rw [List.nodup_iff_pairwise_ne, List.pairwise_map]
    refine hordered.imp_of_mem fun {names names'} hmem hmem' hlt heq => ?_
    obtain ⟨found, hat, -⟩ := (mem_matching htree hspot hparse).mp hmem
    obtain ⟨found', hat', -⟩ := (mem_matching htree hspot hparse).mp hmem'
    have hsound := (htree.spot hspot).node
    obtain rfl := pathOf_inj hspot (hat.isName hsound) (hat'.isName hsound) heq
    exact List.lt_irrefl _ hlt

/-- A directory with a link and a file, seen from the directory that holds it. -/
def linkTree : Tree :=
  ⟨⟨.directory [("a", .directory [("y.q", .file .empty), ("x.q", .link "y.q")])], []⟩⟩

theorem linkTree_sound : linkTree.Sound := Tree.sound_of_root (by decide)

/-- The walk may enter the directory of the pattern, and the link in it is listed in front of the file. -/
theorem resolve_exact_linkTree :
    linkTree.Sound ∧ Limits.followLinks {} = false ∧
      Glob.parse "a/*.q" = .ok [.char 'a', .char '/', .anyRun, .char '.', .char 'q'] ∧
      let root : WalkRoot := walkRoot linkTree.disk "a/*.q"
      ∃ spot, linkTree.spot root.path = .ok spot ∧
        CanEnter root.path (walkDepth "a/*.q" root 64) spot.node ∧
        ∃ files, resolve linkTree.disk {} "a/*.q" = .ok files ∧ files = ["a/x.q", "a/y.q"] ∧
          ∃ rows : List (List String), files = rows.map root.pathOf ∧ files.Nodup ∧ rows.Pairwise Precedes ∧
            ∀ names, names ∈ rows ↔ ∃ found, spot.node.At names found ∧ names.length ≤ 64 ∧
              LeadsToFile linkTree.disk (Path.below root.path names) found ∧
              Glob.accepts [.char 'a', .char '/', .anyRun, .char '.', .char 'q'] (root.pathOf names) = true := by
  have hparse : Glob.parse "a/*.q" = .ok [.char 'a', .char '/', .anyRun, .char '.', .char 'q'] := by rfl
  have hlinks : Limits.followLinks {} = false := rfl
  have hroot : walkRoot linkTree.disk "a/*.q" = (⟨"a", false⟩ : WalkRoot) := rfl
  have hdepth : walkDepth "a/*.q" ⟨"a", false⟩ 64 = 1 := by decide +kernel
  have hentries : linkTree.disk.entries "a" = .ok [⟨"y.q", .file⟩, ⟨"x.q", .link⟩] := rfl
  have hwalk : (filesFrom linkTree.disk false 1 "a").run = .ok ["a/x.q", "a/y.q"] := by
    show (filesBelow linkTree.disk false 1 ["a"] "a").run = _
    rw [filesBelow_of_perm hentries (List.Perm.swap ..) (by decide)]
    rfl
  have hresolve : resolve linkTree.disk {} "a/*.q" = .ok ["a/x.q", "a/y.q"] :=
    resolve_of_walk hparse hroot hdepth hwalk rfl
  obtain ⟨spot, hspot, hopen, hexact⟩ := resolve_exact linkTree_sound hlinks hparse
  exact ⟨linkTree_sound, hlinks, hparse, spot, hspot, hopen.mp ⟨_, hresolve⟩, _, hresolve, rfl, hexact _ hresolve⟩

/-- Where a directory below the root has a path that is too long, a pattern may resolve to nothing at all. -/
theorem resolve_fails_when_deep :
    deepTree.Sound ∧ Glob.parse "**/x.q" = .ok [.anyNames, .char 'x', .char '.', .char 'q'] ∧
      ¬ ∃ files, resolve deepTree.disk {} "**/x.q" = .ok files :=
  ⟨deepTree_sound, rfl, fun ⟨files, h⟩ => deepTree_not_ok files h⟩

end Esql.Files
