import Esql.Proofs.Files.Resolution

/-!
# `Proofs.Files.Links` — what a walk meets when it follows links

What a walk meets on a tree is said by names alone (`Spot.Meets`): an entry of a directory, or what a link leads to from
the directory that holds it. The path of what is met leads there from the current directory as well, through all the
links that have been passed (`MeetsFile`), and the files are met in the order of their names
(`meetsInOrder_of_filesFrom`). So every path that is shown for a pattern leads to the file for which it is shown
(`shows_of_resolve`), however links are treated.

## Contents
- `Spot.Under` and `Spot.Meets`.
- The rows of names that a walk meets, in the order in which it does.
- The paths that are shown.
-/

namespace Esql.Files

open Glob (Piece)

variable {disk : Disk Id} {tree : Tree} {followLinks : Bool} {depth : Nat} {inside files : List String}
  {path : String}

/-! ## What a walk meets -/

namespace Spot

/-- What a walk meets under a name of a directory: the entry itself, or, over any number of further links, what the
    entry leads to from that directory if it is a link. A link that leads to a directory counts if it is followed. -/
inductive Under (followLinks : Bool) (here : Spot) (name : String) : Spot → Prop
  | entry {node : Node} : (name, node) ∈ here.node.entries → (∀ target, node ≠ .link target) →
      Under followLinks here name ⟨node, (name, here.node) :: here.way⟩
  | link {target : String} {links : Nat} {next : Spot} : (name, .link target) ∈ here.node.entries →
      (here.start target).follow links (Path.names target) = .ok next →
      (followLinks = true ∨ ∃ content, next.node = .file content) → Under followLinks here name next

/-- What a walk meets so many names below a spot. -/
inductive Meets (followLinks : Bool) : Spot → List String → Spot → Prop
  | here {spot : Spot} : Meets followLinks spot [] spot
  | deeper {spot next found : Spot} {name : String} {names : List String} : spot.Under followLinks name next →
      Meets followLinks next names found → Meets followLinks spot (name :: names) found

variable {spot next found : Spot} {name : String} {names : List String}

theorem Under.name_mem (h : spot.Under followLinks name next) : ∃ node, (name, node) ∈ spot.node.entries := by
  cases h with
  | entry hmem _ => exact ⟨_, hmem⟩
  | link hmem _ _ => exact ⟨_, hmem⟩

theorem Under.isName (h : spot.Under followLinks name next) (hspot : spot.Sound) : Path.IsName name := by
  obtain ⟨node, hmem⟩ := h.name_mem
  have hsound := hspot.node
  cases hnode : spot.node with
  | directory entries =>
      rw [hnode] at hmem hsound
      exact hsound.isName hmem
  | file | link => simp [hnode, Node.entries] at hmem

theorem Under.sound (h : spot.Under followLinks name next) (hspot : spot.Sound) : next.Sound := by
  cases h with
  | @entry node hmem hlink =>
      cases hnode : spot.node with
      | directory entries =>
          have hentry : Node.Sound node := (hnode ▸ hspot.node : (Node.directory entries).Sound).entry
            (by simpa [hnode, Node.entries] using hmem)
          exact ⟨hentry, hlink, List.forall_mem_cons.mpr ⟨⟨hnode ▸ hspot.node, entries, rfl⟩, hspot.way⟩⟩
      | file | link => simp [hnode, Node.entries] at hmem
  | link _ hfollow _ => exact follow_sound hfollow (hspot.start _)

theorem Meets.isName (h : spot.Meets followLinks names found) (hspot : spot.Sound) : ∀ n ∈ names, Path.IsName n := by
  induction h with
  | here => simp
  | deeper hunder _ ih => exact List.forall_mem_cons.mpr ⟨hunder.isName hspot, ih (hunder.sound hspot)⟩

end Spot

/-! ## The rows of a walk -/

/-- A file that a walk meets so many names below a spot, and to which these names lead behind the path of the spot. -/
def MeetsFile (tree : Tree) (followLinks : Bool) (path : String) (here : Spot) (names : List String) : Prop :=
  ∃ found content, here.Meets followLinks names found ∧ found.node = .file content ∧
    tree.Reaches (Path.below path names) found

/-- The paths of files that a walk meets below a spot, in the order of their names. -/
def MeetsInOrder (tree : Tree) (followLinks : Bool) (path : String) (here : Spot) (files : List String) : Prop :=
  ∃ rows : List (List String), files = rows.map (Path.below path) ∧ rows.Pairwise Precedes ∧
    ∀ names ∈ rows, MeetsFile tree followLinks path here names

variable {here next : Spot} {name : String} {entries : List (String × Node)}

theorem meetsInOrder_nil : MeetsInOrder tree followLinks path here [] := ⟨[], by simp⟩

theorem meetsInOrder_file {content : ByteArray} (hnode : here.node = .file content) (hhere : tree.Reaches path here) :
    MeetsInOrder tree followLinks path here [path] := by
  refine ⟨[[]], rfl, List.pairwise_singleton _ _, ?_⟩
  intro names hnames
  obtain rfl := List.mem_singleton.mp hnames
  exact ⟨here, content, .here, hnode, hhere⟩

theorem MeetsFile.deeper {names : List String} (hunder : here.Under followLinks name next)
    (h : MeetsFile tree followLinks (Path.child path name) next names) :
    MeetsFile tree followLinks path here (name :: names) := by
  obtain ⟨found, content, hmeets, hnode, hreaches⟩ := h
  exact ⟨found, content, .deeper hunder hmeets, hnode, hreaches⟩

/-- What is met below a name of a directory, if anything is. -/
def MeetsUnder (tree : Tree) (followLinks : Bool) (path : String) (here : Spot) (name : String)
    (files : List String) : Prop :=
  files = [] ∨ ∃ next, here.Under followLinks name next ∧
    MeetsInOrder tree followLinks (Path.child path name) next files

/-- What is met below the entries of a directory, one after the other in the order of their names, is in order. -/
theorem meetsInOrder_flatten {rows : List (List String)} (hsorted : entries.Pairwise fun a b => a.1 < b.1)
    (hrows : List.Forall₂ (fun entry row => MeetsUnder tree followLinks path here entry.1 row) entries rows) :
    ∃ all : List (List String), rows.flatten = all.map (Path.below path) ∧ all.Pairwise Precedes ∧
      ∀ names ∈ all, MeetsFile tree followLinks path here names ∧
        ∃ entry ∈ entries, ∃ behind, names = entry.1 :: behind := by
  induction hrows with
  | nil => exact ⟨[], by simp⟩
  | @cons entry row entries rows hrow _ ih =>
      obtain ⟨hfirst, hsorted⟩ := List.pairwise_cons.mp hsorted
      obtain ⟨all, hall, hordered, hall'⟩ := ih hsorted
      have hwider : ∀ names ∈ all, MeetsFile tree followLinks path here names ∧
          ∃ next ∈ entry :: entries, ∃ behind, names = next.1 :: behind := by
        intro names hnames
        obtain ⟨hfile, next, hnext, hbehind⟩ := hall' names hnames
        exact ⟨hfile, next, List.mem_cons_of_mem _ hnext, hbehind⟩
      obtain rfl | ⟨next, hunder, below, rfl, hordered', hbelow⟩ := hrow
      · exact ⟨all, by rwa [List.flatten_cons, List.nil_append], hordered, hwider⟩
      · refine ⟨below.map (entry.1 :: ·) ++ all, ?_, ?_, ?_⟩
        · rw [List.flatten_cons, hall, List.map_append, List.map_map]
          rfl
        · refine List.pairwise_append.mpr ⟨?_, hordered, ?_⟩
          · rw [List.pairwise_map]
            exact hordered'.imp fun hlt => List.cons_lt_cons_iff.mpr (.inr ⟨rfl, hlt⟩)
          · intro names hnames names' hnames'
            obtain ⟨behind, -, rfl⟩ := List.mem_map.mp hnames
            obtain ⟨-, later, hlater, behind', rfl⟩ := hall' names' hnames'
            exact List.cons_lt_cons_iff.mpr (.inl (Text.bytes_lt (hfirst later hlater)))
        · intro names hnames
          obtain hnames | hnames := List.mem_append.mp hnames
          · obtain ⟨behind, hbehind, rfl⟩ := List.mem_map.mp hnames
            exact ⟨(hbelow behind hbehind).deeper hunder, entry, List.mem_cons_self, behind, rfl⟩
          · exact hwider names hnames

theorem file_of_found (h : Tree.found next = .file) : ∃ content, next.node = .file content := by
  unfold Tree.found at h
  cases hnode : next.node with
  | file content => exact ⟨content, rfl⟩
  | directory | link => simp [hnode] at h

theorem directory_of_found {place : String} (h : Tree.found next = .directory place) :
    ∃ entries, next.node = .directory entries := by
  unfold Tree.found at h
  cases hnode : next.node with
  | directory entries => exact ⟨entries, rfl⟩
  | file | link => simp [hnode] at h

theorem spot_of_entries {listed : List Entry} (h : tree.disk.entries path = .ok listed)
    (hhere : tree.Reaches path here) : tree.spot path = .ok here := by
  obtain ⟨next, hspot⟩ := exists_spot_of_entries h
  have hnext := Tree.reaches_of_spot hspot
  rw [Tree.Reaches, hhere] at hnext
  exact hspot.trans hnext.symm

/-- What is found at the path of a link is what the link leads to from the directory that holds it. -/
theorem under_of_link {target : String} (htree : tree.Sound) (hhere : tree.Reaches path here) (hne : path ≠ "")
    (hnode : here.node = .directory entries) (hmem : (name, .link target) ∈ entries)
    (hspot : tree.spot (Path.child path name) = .ok next)
    (hfollowed : followLinks = true ∨ ∃ content, next.node = .file content) :
    here.Under followLinks name next := by
  have hsound := htree.reaches hhere
  have hname := (hnode ▸ hsound.node : (Node.directory entries).Sound).isName hmem
  obtain ⟨left, hchild⟩ := hhere.child hne hname.noSlash
  have hlink := (hchild next).mp (Tree.reaches_of_spot hspot)
  obtain ⟨links, hlinks⟩ := Spot.follow_link hsound hnode hmem hlink
  have hmem' : (name, .link target) ∈ here.node.entries := by rwa [hnode]
  exact .link hmem' hlinks hfollowed

/-- What a walk that succeeds makes of an entry is what is met below its name, if this is so one step deeper. -/
theorem meetsUnder_of_visited {node : Node} (htree : tree.Sound) (hhere : tree.Reaches path here) (hne : path ≠ "")
    (hnode : here.node = .directory entries) (hmem : (name, node) ∈ entries)
    (hdeeper : ∀ {next inner files}, tree.Reaches (Path.child path name) next → next.node = .directory inner →
      (filesBelow tree.disk followLinks depth (Path.child path name :: inside) (Path.child path name)).run = .ok files →
      MeetsInOrder tree followLinks (Path.child path name) next files)
    (h : Visited tree.disk followLinks depth inside (Path.child path name) (Tree.entryOf (name, node)).kind files) :
    MeetsUnder tree followLinks path here name files := by
  have hmem' : (name, node) ∈ here.node.entries := by rwa [hnode]
  cases node with
  | file content =>
      cases h with
      | file =>
          have hreaches := hhere.entry htree hne hnode hmem (by simp)
          exact .inr ⟨_, .entry hmem' (by simp), meetsInOrder_file rfl hreaches⟩
  | directory inner =>
      cases h with
      | directory hbelow =>
          have hreaches := hhere.entry htree hne hnode hmem (by simp)
          exact .inr ⟨_, .entry hmem' (by simp), hdeeper hreaches rfl hbelow⟩
  | link target =>
      cases h with
      | passed => exact .inl rfl
      | linkedFile hfind =>
          obtain ⟨next, hspot, hfound⟩ := spot_of_find hfind
          obtain ⟨content, hfile⟩ := file_of_found hfound
          have hunder : here.Under followLinks name next :=
            under_of_link htree hhere hne hnode hmem hspot (.inr ⟨content, hfile⟩)
          exact .inr ⟨next, hunder, meetsInOrder_file hfile (Tree.reaches_of_spot hspot)⟩
      | linkedDirectory hfollow hfind hbelow =>
          obtain ⟨next, hspot, hfound⟩ := spot_of_find hfind
          obtain ⟨inner, hdirectory⟩ := directory_of_found hfound
          have hunder : here.Under followLinks name next :=
            under_of_link htree hhere hne hnode hmem hspot (.inl hfollow)
          exact .inr ⟨next, hunder, hdeeper (Tree.reaches_of_spot hspot) hdirectory hbelow⟩

theorem entryOf_name (entry : String × Node) : (Tree.entryOf entry).name = entry.1 := by
  obtain ⟨name, node⟩ := entry
  cases node <;> rfl

/-- The files of a walk that succeeds are met in the order of their names, and their names lead to them. -/
theorem meetsInOrder_of_filesBelow (htree : tree.Sound) (hhere : tree.Reaches path here) (hne : path ≠ "")
    (hnode : here.node = .directory entries)
    (h : (filesBelow tree.disk followLinks depth inside path).run = .ok files) :
    MeetsInOrder tree followLinks path here files := by
  induction depth generalizing inside path here entries files with
  | zero =>
      obtain rfl := Except.ok.inj h
      exact meetsInOrder_nil
  | succ depth ih =>
      obtain ⟨listed, rows, hlisted, rfl, hrows⟩ := filesBelow_ok h
      rw [entries_eq (spot_of_entries hlisted hhere) hnode] at hlisted
      obtain rfl := Except.ok.inj hlisted
      rw [mergeSort_entryOf, List.forall₂_map_left_iff] at hrows
      have hsound : (Node.directory entries).Sound := hnode ▸ (htree.reaches hhere).node
      have hmet : List.Forall₂ (fun entry row => MeetsUnder tree followLinks path here entry.1 row)
          (entries.mergeSort fun a b => a.1 ≤ b.1) rows := by
        simp only [entryOf_name] at hrows
        obtain ⟨hlength, hvisited⟩ := List.forall₂_iff_zip.mp hrows
        refine List.forall₂_iff_zip.mpr ⟨hlength, fun {entry row} hzip => ?_⟩
        have hmem : entry ∈ entries := List.mem_mergeSort.mp (List.of_mem_zip hzip).1
        exact meetsUnder_of_visited htree hhere hne hnode hmem
          (fun hreaches => ih hreaches (Path.child_ne_empty path entry.1)) (hvisited hzip)
      obtain ⟨all, hall, hordered, hgood⟩ := meetsInOrder_flatten (sorted_entries hsound) hmet
      exact ⟨all, hall, hordered, fun names hnames => (hgood names hnames).1⟩

theorem meetsInOrder_of_filesFrom (htree : tree.Sound) (hspot : tree.spot path = .ok here)
    (h : (filesFrom tree.disk followLinks depth path).run = .ok files) :
    MeetsInOrder tree followLinks path here files := by
  cases hnode : here.node with
  | link target => exact absurd hnode ((htree.spot hspot).notLink target)
  | file content =>
      rw [filesFrom_file hspot hnode] at h
      obtain rfl := Except.ok.inj h
      exact meetsInOrder_file hnode (Tree.reaches_of_spot hspot)
  | directory entries =>
      rw [filesFrom_directory hspot hnode] at h
      exact meetsInOrder_of_filesBelow htree (Tree.reaches_of_spot hspot) (Tree.spot_ok_iff.mp hspot).2.1 hnode h

/-! ## The paths that are shown -/

section
variable {limits : Limits} {pattern : String} {names : List String} {found spot : Spot} {content : ByteArray}

/-- What a pattern resolves to is what a walk from its root meets and the pattern matches. -/
theorem met_of_resolve (h : resolve disk limits pattern = .ok files) :
    ∃ pieces met, Glob.parse pattern = .ok pieces ∧
      (filesFrom disk limits.followLinks (walkDepth pattern (walkRoot disk pattern) limits.maxDepth)
        (walkRoot disk pattern : WalkRoot).path).run = .ok met ∧
      files = (met.map (walkRoot disk pattern : WalkRoot).shown).filter (Glob.accepts pieces) := by
  cases hparse : Glob.parse pattern with
  | error cause =>
      rw [resolve, hparse] at h
      cases h
  | ok pieces =>
      rw [resolve_eq hparse] at h
      dsimp only at h
      cases hwalk : (filesFrom disk limits.followLinks
        (walkDepth pattern (walkRoot disk pattern) limits.maxDepth) (walkRoot disk pattern : WalkRoot).path).run with
      | error e =>
          rw [hwalk] at h
          cases h
      | ok met =>
          rw [hwalk] at h
          exact ⟨pieces, met, rfl, rfl, (Except.ok.inj h).symm⟩

/-- Files for a pattern are met below the root of its walk, in the order of their names. -/
theorem rows_of_resolve (htree : tree.Sound) (hspot : tree.spot (walkRoot tree.disk pattern).path = .ok spot)
    (h : resolve tree.disk limits pattern = .ok files) :
    ∃ rows : List (List String), files = rows.map (walkRoot tree.disk pattern).pathOf ∧ rows.Pairwise Precedes ∧
      ∀ names ∈ rows, MeetsFile tree limits.followLinks (walkRoot tree.disk pattern).path spot names := by
  obtain ⟨pieces, met, hparse, hwalk, rfl⟩ := met_of_resolve h
  obtain ⟨rows, rfl, hordered, hrows⟩ := meetsInOrder_of_filesFrom htree hspot hwalk
  refine ⟨rows.filter (Glob.accepts pieces ∘ (walkRoot tree.disk pattern).pathOf), ?_, hordered.filter _, ?_⟩
  · rw [List.map_map, List.filter_map]
    rfl
  · intro names hnames
    exact hrows names (List.mem_of_mem_filter hnames)

/-- No path is there twice among the files for a pattern. -/
theorem nodup_of_resolve (htree : tree.Sound) (h : resolve tree.disk limits pattern = .ok files) : files.Nodup := by
  obtain ⟨spot, hspot⟩ := exists_spot htree pattern
  obtain ⟨rows, rfl, hordered, hrows⟩ := rows_of_resolve htree hspot h
  have hnames {names : List String} (hmem : names ∈ rows) : ∀ n ∈ names, Path.IsName n := by
    obtain ⟨found, content, hmeets, -, -⟩ := hrows names hmem
    exact hmeets.isName (htree.spot hspot)
  rw [List.nodup_iff_pairwise_ne, List.pairwise_map]
  refine hordered.imp_of_mem fun {names names'} hmem hmem' hlt heq => ?_
  obtain rfl := pathOf_inj hspot (hnames hmem) (hnames hmem') heq
  exact List.lt_irrefl _ hlt

/-- In a directory a dot in front of a path leads nowhere else. -/
theorem reaches_dot {rest : List String} (htree : tree.Sound) (hnames : ∀ n ∈ name :: rest, Path.IsName n)
    (h : tree.Reaches (Path.below "." (name :: rest)) found) :
    tree.Reaches (String.intercalate "/" (name :: rest)) found := by
  obtain ⟨entries, hcurrent⟩ := htree.isDirectory
  have hwritten : Path.names (String.intercalate "/" (name :: rest)) = (name :: rest).map String.toList :=
    Path.names_intercalate (List.cons_ne_nil name rest) hnames
  have hdotted : Path.names (Path.below "." (name :: rest)) = ['.'] :: (name :: rest).map String.toList :=
    Path.names_below (List.cons_ne_nil name rest) hnames "."
  have hrelative : Path.isAbsolute (String.intercalate "/" (name :: rest)) = false := by
    refine Path.isAbsolute_eq_false fun n hn => ?_
    rw [hwritten] at hn
    obtain ⟨n, hmem, rfl⟩ := List.mem_map.mp hn
    exact (hnames n hmem).leads
  have hrelative' : Path.isAbsolute (Path.below "." (name :: rest)) = false := by
    rw [Path.isAbsolute, Path.below_toList (by decide) hnames]
    rfl
  have hdot : tree.current.follow maxLinks (['.'] :: (name :: rest).map String.toList) =
      tree.current.follow maxLinks ((name :: rest).map String.toList) := by
    show Spot.walk _ tree.current _ = Spot.walk _ tree.current _
    rw [Spot.walk, hcurrent]
    rfl
  rw [Tree.Reaches, Spot.start, hrelative', if_neg Bool.false_ne_true, hdotted, hdot] at h
  rwa [Tree.Reaches, Spot.start, hrelative, if_neg Bool.false_ne_true, hwritten]

/-- A path that is shown for a pattern: it is that of what the walk meets under some names below its root. -/
def Shows (tree : Tree) (followLinks : Bool) (pattern path : String) (found : Spot) : Prop :=
  let root : WalkRoot := walkRoot tree.disk pattern
  ∃ spot names, tree.spot root.path = .ok spot ∧ spot.Meets followLinks names found ∧ path = root.pathOf names

/-- The path that is shown of a file leads to it, unless it is too long. -/
theorem MeetsFile.shown (htree : tree.Sound) (hspot : tree.spot (walkRoot tree.disk pattern).path = .ok spot)
    (h : MeetsFile tree followLinks (walkRoot tree.disk pattern).path spot names) :
    ∃ found content, spot.Meets followLinks names found ∧ found.node = .file content ∧
      let path := (walkRoot tree.disk pattern).pathOf names
      (path.utf8ByteSize ≤ maxPathBytes → tree.spot path = .ok found) ∧
        (maxPathBytes < path.utf8ByteSize → tree.spot path = .error .tooLong) := by
  obtain ⟨found, content, hmeets, hnode, hreaches⟩ := h
  obtain ⟨hnull, hne, -, -⟩ := Tree.spot_ok_iff.mp hspot
  have hnames := hmeets.isName (htree.spot hspot)
  refine ⟨found, content, hmeets, hnode, ?_⟩
  intro path
  have hnull' : '\x00' ∉ (Path.below (walkRoot tree.disk pattern).path names).toList :=
    Path.noNull_below hnull hnames
  suffices h : '\x00' ∉ path.toList ∧ path ≠ "" ∧ tree.Reaches path found from
    ⟨h.2.2.spot h.1 h.2.1, Tree.spot_tooLong h.1 h.2.1⟩
  by_cases hfallback : (walkRoot tree.disk pattern).isFallback = true
  · have hcurrent := spot_fallback htree hfallback hspot
    have hpath : path = WalkRoot.pathOf ⟨".", true⟩ names := by
      show (walkRoot tree.disk pattern).pathOf names = _
      rw [walkRoot_fallback hfallback]
    rw [walkRoot_fallback hfallback] at hreaches hnull'
    cases names with
    | nil =>
        obtain ⟨entries, hdirectory⟩ := htree.isDirectory
        cases hmeets
        rw [hcurrent, hdirectory] at hnode
        cases hnode
    | cons name rest =>
        rw [hpath]
        refine ⟨?_, ?_, ?_⟩
        · rw [WalkRoot.pathOf, WalkRoot.shown, if_pos rfl, String.toList_ofList]
          exact fun hmem => hnull' (List.mem_of_mem_drop hmem)
        · rw [WalkRoot.pathOf_fallback hnames, Path.ne_empty_iff, Path.intercalate_toList]
          exact List.append_ne_nil_of_left_ne_nil (hnames name List.mem_cons_self).ne_nil _
        · rw [WalkRoot.pathOf_fallback hnames]
          exact reaches_dot htree hnames hreaches
  · have hpath : path = Path.below (walkRoot tree.disk pattern).path names := if_neg hfallback
    rw [hpath]
    exact ⟨hnull', Path.below_ne_empty hne names, hreaches⟩

/-- Every path for a pattern is shown for a file, and leads to this file unless it is too long. -/
theorem shows_of_resolve (htree : tree.Sound) (h : resolve tree.disk limits pattern = .ok files) (hmem : path ∈ files) :
    ∃ found content, Shows tree limits.followLinks pattern path found ∧ found.node = .file content ∧
      (path.utf8ByteSize ≤ maxPathBytes → tree.spot path = .ok found) ∧
      (maxPathBytes < path.utf8ByteSize → tree.spot path = .error .tooLong) := by
  obtain ⟨spot, hspot⟩ := exists_spot htree pattern
  obtain ⟨rows, rfl, -, hrows⟩ := rows_of_resolve htree hspot h
  obtain ⟨names, hnames, rfl⟩ := List.mem_map.mp hmem
  obtain ⟨found, content, hmeets, hnode, hpath⟩ := (hrows names hnames).shown htree hspot
  exact ⟨found, content, ⟨spot, names, hspot, hmeets, rfl⟩, hnode, hpath⟩

end

end Esql.Files
