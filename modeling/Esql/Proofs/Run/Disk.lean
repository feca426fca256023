import Esql.Proofs.Files.Links
import Esql.Proofs.Run.Sources

/-!
# `Proofs.Run.Disk` — a run on a disk that does not change

What a pattern resolves to can be read: the path that is shown of a file leads to this file, over all the links that
the walk has passed (`Files.shows_of_resolve`), so its content is read, or it is too large. The one exception is a path
with more bytes than a path may have. A walk meets such a file, since it opens only the directory above.

A run over files fails while a pattern is resolved, at a file that is read, at its extraction or at a line that is
refused (`run_failsWith`). So on a disk that does not change, the system refuses such a run only while it looks for
files, or at a path that is too long (`refused_by_system`).

## Contents
- Reading a file.
- Where the failure of a run over files comes from.
- Files for a pattern are read.
- A file whose path is too long.
-/

namespace Esql

open Esql.Files (Fault Limits Tree maxPathBytes)

/-! ## Reading a file -/

namespace Files

variable {tree : Tree} {path : String} {found : Spot} {content : ByteArray}

theorem readFile_eq (disk : Disk Id) (limit : UInt64) (path : String) : readFile disk limit path =
    bounded path limit (Except.mapError Fault.message (disk.read path (bytesToTake limit))) := rfl

theorem readFile_found (hspot : tree.spot path = .ok found) (hnode : found.node = .file content) (limit : UInt64) :
    readFile tree.disk limit path = withinLimit path limit (content.extract 0 (bytesToTake limit)) := by
  have hread : tree.disk.read path (bytesToTake limit) = .ok (content.extract 0 (bytesToTake limit)) := by
    show (tree.spot path).bind (Tree.take (bytesToTake limit)) = _
    rw [hspot]
    show Tree.take (bytesToTake limit) found = _
    rw [Tree.take, hnode]
  rw [readFile_eq, hread, Except.mapError, bounded]

theorem readFile_tooLong (hspot : tree.spot path = .error .tooLong) (limit : UInt64) :
    readFile tree.disk limit path = .error (.io path Fault.tooLong.message) := by
  have hread : tree.disk.read path (bytesToTake limit) = .error .tooLong := by
    show (tree.spot path).bind (Tree.take (bytesToTake limit)) = _
    rw [hspot]
    rfl
  rw [readFile_eq, hread, Except.mapError, bounded]

/-- What is taken of a content tells whether the whole is too large, and is the whole if it is not. Where the limit is
    the last word, this is so for all contents whose size is a word. -/
theorem withinLimit_taken {limit : UInt64} (h : content.size < UInt64.size ∨ limit.toNat + 1 < UInt64.size) :
    withinLimit path limit (content.extract 0 (bytesToTake limit)) =
      if limit.toNat < content.size then .error (.tooLarge path limit) else .ok content := by
  have hlimit := limit.toNat_lt
  have hsize : (content.extract 0 (bytesToTake limit)).size = min (bytesToTake limit) content.size := by
    rw [ByteArray.size_extract, Nat.sub_zero]
  have htaken : bytesToTake limit = min (limit.toNat + 1) (UInt64.size - 1) := rfl
  have hwords : UInt64.size = 2 ^ 64 := rfl
  rw [withinLimit, hsize]
  by_cases hlarge : limit.toNat < content.size
  · rw [if_pos hlarge, if_pos (by omega)]
  · have hall : content.size ≤ bytesToTake limit := by omega
    rw [if_neg hlarge, if_neg (by omega), extract_of_size_le hall]

/-- A content is never refused by the system. -/
theorem withinLimit_ne_io (input : String) (limit : UInt64) (bytes : ByteArray) (path reason : String) :
    withinLimit input limit bytes ≠ .error (.io path reason) := by
  unfold withinLimit
  split <;> simp

end Files

/-! ## Where a failure comes from -/

variable {files : FileSource} {config : Config} {session : Session} {e : Failure}

/-- What a run over files can fail with. -/
inductive FailsWith (files : FileSource) (config : Config) : Failure → Prop
  | unresolved {pattern : String} {e : Failure} : pattern ∈ config.patterns → files.resolve pattern = .error e →
      FailsWith files config e
  | unread {pattern path : String} {paths : List String} {e : Failure} : pattern ∈ config.patterns →
      files.resolve pattern = .ok paths → path ∈ paths → files.read path = .error e → FailsWith files config e
  | unextracted {path : String} {cause : ExtractionError} : FailsWith files config (.extraction path cause)
  | unwritten {reason : String} : FailsWith files config (.unexpected reason)

theorem exists_pattern {resolved : List (String × List String)} {path : String} (hresolved : Resolves files resolved)
    (hpath : path ∈ (resolved.map Prod.snd).flatten) :
    ∃ pattern paths, pattern ∈ resolved.map Prod.fst ∧ files.resolve pattern = .ok paths ∧ path ∈ paths := by
  obtain ⟨paths, hpaths, hpath⟩ := List.mem_flatten.mp hpath
  obtain ⟨⟨pattern, paths⟩, hmem, rfl⟩ := List.mem_map.mp hpaths
  exact ⟨pattern, paths, List.mem_map_of_mem hmem, hresolved _ hmem, hpath⟩

theorem Course.failsWith [Diagnostics] {after : Session} (h : Course files config session (.error e, after)) :
    FailsWith files config e := by
  cases h with
  | unresolved hsplit _ hpattern => exact .unresolved (by simp [hsplit]) hpattern
  | @unread resolved seen path others _ hall hresolved hpaths _ hread =>
      have hmem : path ∈ (resolved.map Prod.snd).flatten := by simp [hpaths]
      obtain ⟨pattern, paths, hpattern, hresolve, hpath⟩ := exists_pattern hresolved hmem
      exact .unread (hall ▸ hpattern) hresolve hpath hread
  | unextracted => exact .unextracted

/-- The failure of a run is the one of the run whose sinks keep everything, or a line is refused. -/
theorem run_failsWith [Diagnostics] (hliteral : config.literal = none) (hpatterns : config.patterns ≠ [])
    (h : (session.run files config).1 = .error e) : FailsWith files config e := by
  let fresh : Session := { stdin := session.stdin }
  have hsinks : fresh.Unbounded := ⟨rfl, rfl⟩
  obtain ⟨⟨ending, after⟩, hcourse⟩ := exists_course fresh files config
  have hfresh : fresh.run files config = (ending, after) := hcourse.run_eq hliteral hpatterns hsinks
  rw [run_enacts, Session.enact_unbounded hsinks] at hfresh
  have hending : (config.acts files session.stdin).1 = ending := congrArg Prod.fst hfresh
  rw [run_enacts, Session.enact, hending] at h
  rcases hperform : session.perform (config.acts files session.stdin).2 with ⟨reason | _, behind⟩
  · rw [hperform] at h
    obtain rfl := Except.error.inj h
    exact .unwritten
  · rw [hperform] at h
    obtain rfl : ending = .error e := h
    exact hcourse.failsWith

/-! ## Files for a pattern are read -/

variable {tree : Tree} {limits : Limits}

/-- A file that is listed for a pattern is read if its path is not too long, and else it is refused. -/
theorem read_listed {pattern path : String} {listed : List String} (htree : tree.Sound)
    (hresolve : Files.resolve tree.disk limits pattern = .ok listed) (hpath : path ∈ listed) :
    ∃ found content, Files.Shows tree limits.followLinks pattern path found ∧ found.node = .file content ∧
      (path.utf8ByteSize ≤ maxPathBytes → tree.spot path = .ok found ∧
        Files.readFile tree.disk limits.maxFileSize path = Files.withinLimit path limits.maxFileSize
          (content.extract 0 (Files.bytesToTake limits.maxFileSize))) ∧
      (maxPathBytes < path.utf8ByteSize →
        Files.readFile tree.disk limits.maxFileSize path = .error (.io path Fault.tooLong.message)) := by
  obtain ⟨found, content, hshows, hnode, hshort, hlong⟩ := Files.shows_of_resolve htree hresolve hpath
  refine ⟨found, content, hshows, hnode, ?_, ?_⟩
  · intro hsize
    exact ⟨hshort hsize, Files.readFile_found (hshort hsize) hnode limits.maxFileSize⟩
  · intro hsize
    exact Files.readFile_tooLong (hlong hsize) limits.maxFileSize

/-- What the system refuses in a run over files is refused while a pattern is resolved, or it is a path that is too
    long. -/
theorem refused_by_system [Diagnostics] {input reason : String} (htree : tree.Sound) (hpatterns : config.patterns ≠ [])
    (h : (session.run (.ofDisk tree.disk limits) config).1 = .error (.io input reason)) :
    ∃ pattern ∈ config.patterns, Files.resolve tree.disk limits pattern = .error (.io input reason) ∨
      ∃ listed, Files.resolve tree.disk limits pattern = .ok listed ∧ input ∈ listed ∧
        maxPathBytes < input.utf8ByteSize ∧ reason = Fault.tooLong.message := by
  cases hliteral : config.literal with
  | some literal =>
      -- Such a run is ambiguous, and fails before anything is looked at.
      obtain ⟨pattern, patterns, hcons⟩ := List.exists_cons_of_ne_nil hpatterns
      have hsource : config.source = .error (.ambiguous literal) := by rw [Config.source, hliteral, hcons]
      rw [Session.run, run, hsource] at h
      cases h
  | none =>
      cases run_failsWith hliteral hpatterns h with
      | @unresolved pattern _ hpattern hresolve => exact ⟨pattern, hpattern, .inl hresolve⟩
      | @unread pattern path listed _ hpattern hresolve hpath hread =>
          refine ⟨pattern, hpattern, .inr ⟨listed, hresolve, ?_⟩⟩
          change Files.readFile tree.disk limits.maxFileSize path = .error (.io input reason) at hread
          obtain ⟨found, content, -, -, hshort, hlong⟩ := read_listed htree hresolve hpath
          by_cases hsize : path.utf8ByteSize ≤ maxPathBytes
          · rw [(hshort hsize).2] at hread
            exact absurd hread (Files.withinLimit_ne_io path _ _ input reason)
          · have hsize' : maxPathBytes < path.utf8ByteSize := Nat.lt_of_not_le hsize
            rw [hlong hsize'] at hread
            obtain ⟨rfl, rfl⟩ := Failure.io.inj (Except.error.inj hread)
            exact ⟨hpath, hsize', rfl⟩

/-- **What a pattern resolves to can be read.** On a disk that does not change, every path for a pattern is shown for
    a file that the walk meets. If the path is not too long, it leads to this file, and to read it gives the whole
    content, or that it is too large, just if it is; the system refuses nothing. If the path is too long, it is
    refused. So in a run over files the system refuses an input only while a pattern is resolved, or for such a path. -/
theorem listed_files_read [Diagnostics] (htree : tree.Sound) (limits : Limits) :
    (∀ pattern listed, Files.resolve tree.disk limits pattern = .ok listed → ∀ path ∈ listed,
      ∃ found content, Files.Shows tree limits.followLinks pattern path found ∧ found.node = .file content ∧
        (path.utf8ByteSize ≤ maxPathBytes → tree.spot path = .ok found ∧
          (∀ reason, Files.readFile tree.disk limits.maxFileSize path ≠ .error (.io path reason)) ∧
          (content.size < UInt64.size ∨ limits.maxFileSize.toNat + 1 < UInt64.size →
            Files.readFile tree.disk limits.maxFileSize path =
              if limits.maxFileSize.toNat < content.size then .error (.tooLarge path limits.maxFileSize)
              else .ok content)) ∧
        (maxPathBytes < path.utf8ByteSize →
          Files.readFile tree.disk limits.maxFileSize path = .error (.io path Fault.tooLong.message))) ∧
    ∀ (session : Session) (config : Config) (input reason : String), config.patterns ≠ [] →
      (session.run (.ofDisk tree.disk limits) config).1 = .error (.io input reason) →
      ∃ pattern ∈ config.patterns, Files.resolve tree.disk limits pattern = .error (.io input reason) ∨
        ∃ listed, Files.resolve tree.disk limits pattern = .ok listed ∧ input ∈ listed ∧
          maxPathBytes < input.utf8ByteSize ∧ reason = Fault.tooLong.message := by
  constructor
  · intro pattern listed hresolve path hpath
    obtain ⟨found, content, hshows, hnode, hshort, hlong⟩ := read_listed htree hresolve hpath
    refine ⟨found, content, hshows, hnode, ?_, hlong⟩
    intro hsize
    obtain ⟨hspot, hread⟩ := hshort hsize
    refine ⟨hspot, ?_, ?_⟩
    · intro reason
      rw [hread]
      exact Files.withinLimit_ne_io path _ _ path reason
    · intro hwords
      rw [hread, Files.withinLimit_taken hwords]
  · intro session config input reason hpatterns h
    exact refused_by_system htree hpatterns h

/-- A directory with a file and a link to it, beside one with a link that leads nowhere. -/
def danglingTree : Tree :=
  ⟨⟨.directory [("a", .directory [("x.q", .link "y.q"), ("y.q", .file .empty)]),
    ("b", .directory [("z.q", .link "gone")])], []⟩⟩

theorem danglingTree_sound : danglingTree.Sound := Tree.sound_of_root (by decide)

theorem danglingTree_refused :
    Files.resolve danglingTree.disk { followLinks := true } "b/*" =
      .error (.io "b/z.q" (Files.WalkError.unreadable "b/z.q" .notFound).message) := by
  have hroot : Files.walkRoot danglingTree.disk "b/*" = (⟨"b", false⟩ : Files.WalkRoot) := rfl
  have hwalk : (Files.filesFrom danglingTree.disk true 1 "b").run = .error (.unreadable "b/z.q" .notFound) := by
    show (_ : Except Files.WalkError (List String)) = _
    decide +kernel
  have hdepth : Files.walkDepth "b/*" ⟨"b", false⟩ 64 = 1 := by decide +kernel
  have hparse : Files.Glob.parse "b/*" = .ok [.char 'b', .char '/', .anyRun] := rfl
  rw [Files.resolve_eq hparse, hroot]
  dsimp only
  rw [hdepth, hwalk]
  rfl

/-- A link leads to the file that is read, and a link that leads nowhere ends the search for files. -/
theorem listed_files_read_danglingTree :
    let limits : Limits := { followLinks := true }
    let config : Config := { patterns := ["a/*.q", "b/*"] }
    let session : Session := { stdin := ⟨[], none⟩ }
    let reason := (Files.WalkError.unreadable "b/z.q" .notFound).message
    (danglingTree.Sound ∧ Files.resolve danglingTree.disk limits "a/*.q" = .ok ["a/x.q", "a/y.q"] ∧
      (session.run (.ofDisk danglingTree.disk limits) config).1 = .error (.io "b/z.q" reason)) ∧
    (∃ found content, Files.Shows danglingTree true "a/*.q" "a/x.q" found ∧ found.node = .file content ∧
      danglingTree.spot "a/x.q" = .ok found ∧
      Files.readFile danglingTree.disk limits.maxFileSize "a/x.q" =
        if limits.maxFileSize.toNat < content.size then .error (.tooLarge "a/x.q" limits.maxFileSize)
        else .ok content) ∧
    ∃ pattern ∈ config.patterns, Files.resolve danglingTree.disk limits pattern = .error (.io "b/z.q" reason) ∨
      ∃ listed, Files.resolve danglingTree.disk limits pattern = .ok listed ∧ "b/z.q" ∈ listed ∧
        maxPathBytes < "b/z.q".utf8ByteSize ∧ reason = Fault.tooLong.message := by
  intro limits config session reason
  obtain ⟨hread, hrun⟩ := listed_files_read danglingTree_sound limits
  have hresolve : Files.resolve danglingTree.disk limits "a/*.q" = .ok ["a/x.q", "a/y.q"] := by
    have hparse : Files.Glob.parse "a/*.q" = .ok [.char 'a', .char '/', .anyRun, .char '.', .char 'q'] := rfl
    have hroot : Files.walkRoot danglingTree.disk "a/*.q" = (⟨"a", false⟩ : Files.WalkRoot) := rfl
    have hdepth : Files.walkDepth "a/*.q" ⟨"a", false⟩ limits.maxDepth = 1 := by decide +kernel
    have hentries : danglingTree.disk.entries "a" = .ok [⟨"x.q", .link⟩, ⟨"y.q", .file⟩] := rfl
    have hwalk : (Files.filesFrom danglingTree.disk true 1 "a").run = .ok ["a/x.q", "a/y.q"] := by
      show (Files.filesBelow danglingTree.disk true 1 ["a"] "a").run = _
      rw [Files.filesBelow_of_perm hentries .rfl (by decide)]
      rfl
    exact Files.resolve_of_walk hparse hroot hdepth hwalk rfl
  have hfails : (session.run (.ofDisk danglingTree.disk limits) config).1 = .error (.io "b/z.q" reason) := by
    have hfirst : Resolves (.ofDisk danglingTree.disk limits) [("a/*.q", ["a/x.q", "a/y.q"])] := by
      intro r hr
      obtain rfl := List.mem_singleton.mp hr
      exact hresolve
    have hsplit : config.patterns = [("a/*.q", ["a/x.q", "a/y.q"])].map Prod.fst ++ "b/*" :: [] := rfl
    have hsinks : session.Unbounded := ⟨rfl, rfl⟩
    rw [(Course.unresolved hsplit hfirst danglingTree_refused).run_eq rfl (by decide) hsinks]
  obtain ⟨found, content, hshows, hnode, hshort, -⟩ := hread _ _ hresolve "a/x.q" (by simp)
  obtain ⟨hspot, -, hwhole⟩ := hshort (by decide)
  exact ⟨⟨danglingTree_sound, hresolve, hfails⟩, ⟨found, content, hshows, hnode, hspot, hwhole (.inr (by decide))⟩,
    hrun session config "b/z.q" reason (by decide) hfails⟩

/-! ## A file whose path is too long -/

open Files (longName nested)

/-- A tree in which the path of every directory can be opened, but not that of the file in the last one. -/
def longTree : Tree := ⟨⟨nested 16, []⟩⟩

/-- The pattern for all that is below the first directory. -/
def longPattern : String := longName ++ "/**"

/-- The names of the file below the first directory. -/
def longNames : List String := List.replicate 15 longName ++ ["x.q"]

theorem longTree_sound : longTree.Sound := Tree.sound_of_root (Files.nested_sound 16)

theorem longNames_isName : ∀ n ∈ longNames, Files.Path.IsName n := by
  intro n hn
  obtain hn | hn := List.mem_append.mp hn
  · exact List.eq_of_mem_replicate hn ▸ Files.longName_isName
  · exact List.mem_singleton.mp hn ▸ by decide

theorem longName_last : longName.toList.getLast? ≠ some '/' := fun hlast =>
  Files.longName_isName.noSlash (List.mem_of_getLast? hlast)

/-- The directories in a row of directories are those that lead to the last one. -/
theorem nested_at_directory {levels : Nat} {names : List String} {entries : List (String × Files.Node)}
    (h : (nested levels).At names (.directory entries)) :
    names.length ≤ levels ∧ names = List.replicate names.length longName := by
  induction levels generalizing names with
  | zero =>
      cases h with
      | here => simp
      | deeper hmem hat =>
          simp only [List.mem_singleton, Prod.mk.injEq] at hmem
          obtain ⟨rfl, rfl⟩ := hmem
          cases hat
  | succ levels ih =>
      cases h with
      | here => simp
      | deeper hmem hat =>
          simp only [List.mem_singleton, Prod.mk.injEq] at hmem
          obtain ⟨rfl, rfl⟩ := hmem
          obtain ⟨hlength, hnames⟩ := ih hat
          exact ⟨Nat.succ_le_succ hlength, by rw [List.length_cons, List.replicate_succ, ← hnames]⟩

theorem longTree_spot : longTree.spot longName = .ok ⟨nested 15, [(longName, nested 16)]⟩ := by
  have hnames : Files.Path.names longName = [longName.toList] :=
    List.splitOn_eq_singleton Files.longName_isName.noSlash
  have hrelative : Files.Path.isAbsolute longName = false := by
    refine Files.Path.isAbsolute_eq_false fun n hn => ?_
    rw [hnames] at hn
    exact List.mem_singleton.mp hn ▸ Files.longName_isName.leads
  have hsize : longName.utf8ByteSize ≤ maxPathBytes := by
    rw [Files.longName_size]
    decide
  refine Tree.spot_ok_iff.mpr ⟨Files.longName_isName.noNull, ?_, hsize, ?_⟩
  · exact Files.Path.ne_empty_iff.mpr Files.longName_isName.ne_nil
  · rw [Files.Spot.start, hrelative, if_neg Bool.false_ne_true, hnames]
    exact Files.Spot.follow_entry longTree_sound.current rfl List.mem_cons_self (by simp [nested])

theorem longTree_root : Files.walkRoot longTree.disk longPattern = (⟨longName, false⟩ : Files.WalkRoot) := by
  have hnames : Files.Path.names longPattern = [longName.toList, ['*', '*']] := by
    have htext : longPattern.toList = longName.toList ++ '/' :: ['*', '*'] := by simp [longPattern]
    rw [Files.Path.names, htext, List.splitOn_append_cons_self, List.splitOn_eq_singleton Files.longName_isName.noSlash]
    rfl
  have habove : Files.Path.above longPattern = [longName] := by
    rw [Files.Path.above_pair hnames Files.longName_isName.ne_nil (by decide), String.ofList_toList]
  exact Files.walkRoot_nearest habove longTree_spot

theorem longTree_canEnter (depth : Nat) : Files.CanEnter longName depth (nested 15) := by
  intro names entries hat _
  obtain ⟨hlength, hnames⟩ := nested_at_directory hat
  rw [hnames, Files.size_nested longName_last, Files.longName_size]
  show 255 + names.length * (1 + 255) ≤ 4095
  omega

theorem longTree_size : maxPathBytes < (Files.Path.below longName longNames).utf8ByteSize := by
  have hsum : (longNames.map fun n => 1 + n.utf8ByteSize).sum = 15 * (1 + Files.maxNameBytes) + 4 := by
    rw [longNames, List.map_append, List.sum_append, List.map_replicate, List.sum_replicate_nat, Files.longName_size]
    rfl
  rw [Files.Path.size_below longName_last longNames_isName, hsum, Files.longName_size]
  decide

theorem longTree_listed :
    ∃ listed, Files.resolve longTree.disk {} longPattern = .ok listed ∧
      Files.Path.below longName longNames ∈ listed := by
  have hliteral : ∀ c ∈ longName.toList, c ∉ ['?', '*', '['] := by
    intro c hc
    rw [Files.longName_toList] at hc
    exact List.eq_of_mem_replicate hc ▸ by decide
  obtain ⟨pieces, hparse, hmatches⟩ := Files.Glob.matches_below hliteral
  have hspot : longTree.spot (Files.walkRoot longTree.disk longPattern : Files.WalkRoot).path =
      .ok ⟨nested 15, [(longName, nested 16)]⟩ := longTree_root ▸ longTree_spot
  have hpath : (Files.walkRoot longTree.disk longPattern : Files.WalkRoot).pathOf longNames =
      Files.Path.below longName longNames := by
    rw [longTree_root, Files.WalkRoot.pathOf_plain]
  have hopen : Files.CanEnter (Files.walkRoot longTree.disk longPattern : Files.WalkRoot).path
      (Files.walkDepth longPattern (Files.walkRoot longTree.disk longPattern) 64) (nested 15) := by
    rw [longTree_root]
    exact longTree_canEnter _
  have haccepts : Files.Glob.accepts pieces (Files.Path.below longName longNames) = true := by
    obtain ⟨name, names, hcons⟩ : ∃ name names, longNames = name :: names := ⟨_, _, rfl⟩
    have htext := Files.Path.below_toList longName_last longNames_isName
    rw [hcons, List.flatMap_cons, List.cons_append, ← hcons] at htext
    exact hmatches _ _ htext
  have hat : (nested 15).At longNames (.file .empty) :=
    (Files.nested_at 15).append (.deeper List.mem_cons_self .here)
  have hlength : longNames.length ≤ 64 := by simp [longNames]
  have hlinks : Limits.followLinks {} = true → (nested 15).HasNoLinks := fun _ => Files.nested_hasNoLinks 15
  have hmatching : longNames ∈ Files.matching longTree {} longPattern pieces (nested 15) :=
    (Files.mem_matching longTree_sound hspot hparse).mpr ⟨.file .empty, hat, hlength, trivial, hpath ▸ haccepts⟩
  exact ⟨_, Files.resolve_ok longTree_sound hspot hlinks hparse hopen, List.mem_map.mpr ⟨longNames, hmatching, hpath⟩⟩

/-- A file is listed for a pattern, and cannot be read. -/
theorem listed_file_refused :
    longTree.Sound ∧ ∃ listed path, Files.resolve longTree.disk {} longPattern = .ok listed ∧ path ∈ listed ∧
      Files.readFile longTree.disk 10485760 path = .error (.io path "File name too long (os error 36)") := by
  obtain ⟨listed, hresolve, hpath⟩ := longTree_listed
  obtain ⟨-, -, -, -, -, hlong⟩ := read_listed longTree_sound hresolve hpath
  exact ⟨longTree_sound, listed, _, hresolve, hpath, hlong longTree_size⟩

end Esql
