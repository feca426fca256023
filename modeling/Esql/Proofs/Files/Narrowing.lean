import Esql.Proofs.Files.Resolution

/-!
# `Proofs.Files.Narrowing` — what is lost by not walking from the current directory

A walk for a relative pattern begins in the deepest directory above the pattern that exists, and that directory
is looked up by the text of the pattern, in which a `*` is a name like any other. If no wildcard is in the path of
the directory, every match begins with that path, and nothing is lost; if one is, the matches in other
directories are lost (`resolve_keeps_matches`, `resolve_loses_match`).
-/

namespace Esql.Files

open Glob (Piece)

variable {tree : Tree} {limits : Limits} {pattern : String} {pieces : List Piece} {spot : Spot}
  {names : List String}

/-- The names of a pattern all lead downwards. -/
def LeadsDown (pattern : String) : Prop := ∀ n ∈ Path.names pattern, Path.isIdle n = false ∧ n ≠ ['.', '.']

instance (pattern : String) : Decidable (LeadsDown pattern) :=
  inferInstanceAs (Decidable (∀ n ∈ Path.names pattern, Path.isIdle n = false ∧ n ≠ ['.', '.']))

/-- A walk begins below the current directory: where a few names of the pattern lead as they are written. -/
structure BeginsAt (tree : Tree) (pattern : String) (spot : Spot) (names : List String) : Prop where
  nonempty : names ≠ []
  at_root : tree.current.node.At names spot.node
  pattern_eq : ∃ rest, pattern.toList = (String.intercalate "/" names).toList ++ '/' :: rest

theorem walkRoot_beginsAt (hlinks : tree.current.node.HasNoLinks) (hpattern : LeadsDown pattern)
    (hspot : tree.spot (walkRoot tree.disk pattern).path = .ok spot)
    (hroot : (walkRoot tree.disk pattern).isFallback = false) :
    ∃ names, (walkRoot tree.disk pattern).path = String.intercalate "/" names ∧ BeginsAt tree pattern spot names := by
  obtain ⟨path, habove, -, hwalk⟩ | ⟨habsolute, -⟩ | hwalk := walkRoot_cases tree pattern
  · rw [hwalk] at hspot ⊢
    obtain ⟨xs, ys, hxs, hys, hnames, rfl⟩ := Path.mem_above (fun n hn => (hpattern n hn).1) habove
    have hmem {x} (hx : x ∈ xs) : x ∈ Path.names pattern := hnames ▸ List.mem_append_left ys hx
    have hjoined : Path.names (Path.joined xs) = xs :=
      Path.names_joined hxs fun x hx => Path.noSlash_of_mem_names (hmem hx)
    have hdown : ∀ n ∈ Path.names (Path.joined xs), Path.isIdle n = false ∧ n ≠ ['.', '.'] := fun n hn =>
      hpattern n (hmem (hjoined ▸ hn))
    have hfollow := (Tree.spot_ok_iff.mp hspot).2.2.2
    rw [Spot.start, Path.isAbsolute_eq_false fun n hn => (hdown n hn).1, if_neg Bool.false_ne_true] at hfollow
    have hat := Spot.follow_at hfollow hlinks hdown
    rw [hjoined] at hat
    refine ⟨xs.map String.ofList, Path.joined_eq_intercalate xs, by simpa using hxs, hat, (Path.joined ys).toList, ?_⟩
    rw [← Path.joined_eq_intercalate, ← Path.joined_append hxs hys, ← hnames, Path.joined_names]
  · simp [Path.isAbsolute_eq_false fun n hn => (hpattern n hn).1] at habsolute
  · simp [hwalk] at hroot

/-- A pattern matches only what stands below the root of its walk, if no wildcard is in the path of that root. -/
theorem BeginsAt.prefix_of_accepts {names' : List String} (h : BeginsAt tree pattern spot names)
    (hsound : tree.current.node.Sound) (hparse : Glob.parse pattern = .ok pieces)
    (hliteral : ∀ c ∈ (String.intercalate "/" names).toList, c ∉ ['?', '*', '['])
    (hne : names' ≠ []) (hnames' : ∀ n ∈ names', Path.IsName n)
    (haccepts : Glob.accepts pieces (String.intercalate "/" names') = true) :
    names.map String.toList <+: names'.map String.toList := by
  obtain ⟨rest, hrest⟩ := h.pattern_eq
  have hfront : ∀ c ∈ (String.intercalate "/" names).toList ++ ['/'], c ∉ ['?', '*', '['] := by
    intro c hc
    obtain hc | hc := List.mem_append.mp hc
    · exact hliteral c hc
    · simp [List.mem_singleton.mp hc]
  obtain ⟨rest', hpath⟩ := Glob.accepts_literal hparse (by rw [hrest, List.append_cons]) hfront haccepts
  have hpaths : Path.names (String.intercalate "/" names') =
      Path.names (String.intercalate "/" names) ++ rest'.splitOn '/' := by
    rw [Path.names, hpath, List.append_assoc, List.singleton_append, List.splitOn_append_cons_self, Path.names]
  rw [Path.names_intercalate hne hnames', Path.names_intercalate h.nonempty (h.at_root.isName hsound)] at hpaths
  exact hpaths ▸ List.prefix_append _ _

/-- Every file below the current directory is met by a walk that begins there. -/
theorem mem_of_fallback {content : ByteArray} (htree : tree.Sound)
    (hspot : tree.spot (walkRoot tree.disk pattern).path = .ok spot) (hparse : Glob.parse pattern = .ok pieces)
    (hroot : (walkRoot tree.disk pattern).isFallback = true) (hat : tree.current.node.At names (.file content))
    (hdepth : names.length ≤ limits.maxDepth)
    (haccepts : Glob.accepts pieces (String.intercalate "/" names) = true) :
    String.intercalate "/" names ∈
      (matching tree limits pattern pieces spot.node).map (walkRoot tree.disk pattern).pathOf := by
  have hwalk := walkRoot_fallback hroot
  have hcurrent := spot_fallback htree hroot hspot
  have hpath : (walkRoot tree.disk pattern).pathOf names = String.intercalate "/" names := by
    rw [hwalk]
    cases names with
    | nil => exact absurd rfl (htree.ne_nil_of_file hat)
    | cons name names => exact WalkRoot.pathOf_fallback (hat.isName htree.current.node)
  refine List.mem_map.mpr ⟨names, (mem_matching htree hspot hparse).mpr ?_, hpath⟩
  exact ⟨.file content, hcurrent ▸ hat, hdepth, trivial, hpath ▸ haccepts⟩

/-- A walk that begins below the current directory meets the files that are below its root. -/
theorem BeginsAt.mem_iff {rs : List String} {content : ByteArray} (h : BeginsAt tree pattern spot rs)
    (htree : tree.Sound) (hspot : tree.spot (walkRoot tree.disk pattern).path = .ok spot)
    (hparse : Glob.parse pattern = .ok pieces) (hroot : (walkRoot tree.disk pattern).isFallback = false)
    (hpath : (walkRoot tree.disk pattern).path = String.intercalate "/" rs)
    (hat : tree.current.node.At names (.file content)) (hdepth : names.length ≤ limits.maxDepth)
    (haccepts : Glob.accepts pieces (String.intercalate "/" names) = true) :
    String.intercalate "/" names ∈
        (matching tree limits pattern pieces spot.node).map (walkRoot tree.disk pattern).pathOf ↔ rs <+: names := by
  have hsound := htree.current.node
  have hrs := h.at_root.isName hsound
  have hpathOf {ms : List String} (hms : ∀ n ∈ ms, Path.IsName n) :
      (walkRoot tree.disk pattern).pathOf ms = String.intercalate "/" (rs ++ ms) := by
    rw [WalkRoot.pathOf, WalkRoot.shown, if_neg (by simp [hroot]), hpath, Path.below_intercalate h.nonempty hrs hms]
  constructor
  · intro hmem
    obtain ⟨ms, hms, heq⟩ := List.mem_map.mp hmem
    obtain ⟨found, hfound, -⟩ := (mem_matching htree hspot hparse).mp hms
    have hnames := (h.at_root.append hfound).isName hsound
    rw [hpathOf (hfound.isName (htree.spot hspot).node)] at heq
    have heq := congrArg Path.names heq
    rw [Path.names_intercalate (by simp [h.nonempty]) hnames,
      Path.names_intercalate (htree.ne_nil_of_file hat) (hat.isName hsound)] at heq
    obtain rfl := List.map_injective_iff.mpr (fun _ _ => String.toList_inj.mp) heq
    exact List.prefix_append rs ms
  · rintro ⟨ms, rfl⟩
    obtain ⟨between, hbetween, hfile⟩ := hat.split
    obtain rfl := hbetween.unique hsound h.at_root
    have hms := hpathOf (hfile.isName (htree.spot hspot).node)
    rw [List.length_append] at hdepth
    refine List.mem_map.mpr ⟨ms, (mem_matching htree hspot hparse).mpr ?_, hms⟩
    exact ⟨.file content, hfile, by omega, trivial, hms ▸ haccepts⟩

/-- **Nothing is lost where the root of a walk is no wildcard.** In a directory without links below, a pattern whose
names all lead downwards resolves to every file there that matches and is not too deep, if the walk begins in a
directory in whose path no wildcard stands. In any case it resolves to those of them that are below the directory in
which the walk begins. -/
theorem resolve_keeps_matches (htree : tree.Sound) (hlinks : tree.current.node.HasNoLinks) (limits : Limits)
    (hparse : Glob.parse pattern = .ok pieces) (hpattern : LeadsDown pattern) :
    let root : WalkRoot := walkRoot tree.disk pattern
    ∃ spot, tree.spot root.path = .ok spot ∧
      (CanEnter root.path (walkDepth pattern root limits.maxDepth) spot.node →
        ∃ files, resolve tree.disk limits pattern = .ok files ∧
          ∀ names content, tree.current.node.At names (.file content) → names.length ≤ limits.maxDepth →
            Glob.accepts pieces (String.intercalate "/" names) = true →
              ((∀ c ∈ root.path.toList, c ∉ ['?', '*', '[']) → String.intercalate "/" names ∈ files) ∧
              (String.intercalate "/" names ∈ files ↔
                root.isFallback = true ∨ Path.names root.path <+: names.map String.toList)) := by
  intro root
  obtain ⟨spot, hspot⟩ := exists_spot htree pattern
  refine ⟨spot, hspot, fun hopen => ?_⟩
  by_cases hroot : root.isFallback = true
  · have hcurrent := spot_fallback htree hroot hspot
    refine ⟨_, resolve_ok htree hspot (fun _ => hcurrent ▸ hlinks) hparse hopen, ?_⟩
    intro names content hat hdepth haccepts
    have hmem := mem_of_fallback htree hspot hparse hroot hat hdepth haccepts
    exact ⟨fun _ => hmem, iff_of_true hmem (.inl hroot)⟩
  · rw [Bool.not_eq_true] at hroot
    obtain ⟨rs, hpath, hbegins⟩ := walkRoot_beginsAt hlinks hpattern hspot hroot
    refine ⟨_, resolve_ok htree hspot (fun _ => hlinks.at hbegins.at_root) hparse hopen, ?_⟩
    intro names content hat hdepth haccepts
    have hmem := hbegins.mem_iff htree hspot hparse hroot hpath hat hdepth haccepts
    have hinjective : Function.Injective String.toList := fun _ _ => String.toList_inj.mp
    have hrs := Path.names_intercalate hbegins.nonempty (hbegins.at_root.isName htree.current.node)
    have hprefix : Path.names root.path <+: names.map String.toList ↔ rs <+: names := by
      rw [hpath, hrs, List.prefix_map_iff_of_injective hinjective]
    refine ⟨fun hliteral => hmem.mpr ?_, ?_⟩
    · rw [← List.prefix_map_iff_of_injective hinjective]
      exact hbegins.prefix_of_accepts htree.current.node hparse (hpath ▸ hliteral) (htree.ne_nil_of_file hat)
        (hat.isName htree.current.node) haccepts
    · rw [hmem, hprefix, hroot]
      simp

/-- A directory whose name is a star, and one with another name, each with a file. -/
def starTree : Tree :=
  ⟨⟨.directory [("*", .directory [("y.q", .file .empty)]), ("a", .directory [("x.q", .file .empty)])], []⟩⟩

theorem starTree_sound : starTree.Sound := Tree.sound_of_root (by decide)

theorem starTree_hasNoLinks : starTree.current.node.HasNoLinks := by
  have hdirectory (name : String) : (Node.directory [(name, .file .empty)]).HasNoLinks :=
    Node.hasNoLinks_directory (by simpa using Node.hasNoLinks_file .empty)
  exact Node.hasNoLinks_directory (by simpa using ⟨hdirectory "y.q", hdirectory "x.q"⟩)

/-- The walk may enter the directory of the pattern, and the file in it is listed. -/
theorem resolve_keeps_matches_starTree :
    starTree.Sound ∧ starTree.current.node.HasNoLinks ∧
      Glob.parse "a/*.q" = .ok [.char 'a', .char '/', .anyRun, .char '.', .char 'q'] ∧ LeadsDown "a/*.q" ∧
      let root : WalkRoot := walkRoot starTree.disk "a/*.q"
      ∃ spot, starTree.spot root.path = .ok spot ∧
        CanEnter root.path (walkDepth "a/*.q" root 64) spot.node ∧
        ∃ files, resolve starTree.disk {} "a/*.q" = .ok files ∧ files = ["a/x.q"] ∧
          ∀ names content, starTree.current.node.At names (.file content) → names.length ≤ 64 →
            Glob.accepts [.char 'a', .char '/', .anyRun, .char '.', .char 'q'] (String.intercalate "/" names) = true →
              ((∀ c ∈ root.path.toList, c ∉ ['?', '*', '[']) → String.intercalate "/" names ∈ files) ∧
              (String.intercalate "/" names ∈ files ↔
                root.isFallback = true ∨ Path.names root.path <+: names.map String.toList) := by
  have hparse : Glob.parse "a/*.q" = .ok [.char 'a', .char '/', .anyRun, .char '.', .char 'q'] := by rfl
  have hpattern : LeadsDown "a/*.q" := by decide +kernel
  have hresolve : resolve starTree.disk {} "a/*.q" = .ok ["a/x.q"] := by
    show (_ : Except Failure (List String)) = _
    decide +kernel
  obtain ⟨spot, hspot, hkeeps⟩ := resolve_keeps_matches starTree_sound starTree_hasNoLinks {} hparse hpattern
  have hopen := canEnter_of_resolve starTree_sound hspot hparse hresolve
  obtain ⟨files, hfiles, hmem⟩ := hkeeps hopen
  refine ⟨starTree_sound, starTree_hasNoLinks, hparse, hpattern, spot, hspot, hopen, files, hfiles, ?_, hmem⟩
  exact Except.ok.inj (hfiles.symm.trans hresolve)

/-- The directory whose name is a star is taken for the one in which the files of a pattern are, and a match in
another directory is lost. Where the path of a directory is too long, all matches are. -/
theorem resolve_loses_match :
    (starTree.Sound ∧ starTree.current.node.HasNoLinks ∧ LeadsDown "*/x.q" ∧
      Glob.parse "*/x.q" = .ok [.anyRun, .char '/', .char 'x', .char '.', .char 'q'] ∧
      starTree.current.node.At ["a", "x.q"] (.file .empty) ∧
      Glob.accepts [.anyRun, .char '/', .char 'x', .char '.', .char 'q'] (String.intercalate "/" ["a", "x.q"]) = true ∧
      resolve starTree.disk {} "*/x.q" = .ok []) ∧
    (deepTree.Sound ∧ deepTree.current.node.HasNoLinks ∧ LeadsDown "**/x.q" ∧
      ¬ ∃ files, resolve deepTree.disk {} "**/x.q" = .ok files) := by
  refine ⟨⟨starTree_sound, starTree_hasNoLinks, by decide +kernel, rfl, ?_, by decide +kernel, ?_⟩,
    deepTree_sound, nested_hasNoLinks 17, by decide +kernel, fun ⟨files, h⟩ => deepTree_not_ok files h⟩
  · simp [starTree, Node.entries]
  · show (_ : Except Failure (List String)) = _
    decide +kernel

end Esql.Files
