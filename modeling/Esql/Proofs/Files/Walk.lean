import Esql.Files.Resolve
import Esql.Proofs.Files.Lookup
import Esql.Proofs.Text.ByteOrder
import Mathlib.Data.List.Forall2

/-!
# `Proofs.Files.Walk` — the files that a walk meets

A walk sees a disk, which answers for paths. On a tree it meets just the files below a node: `filesAt` lists
them by the node alone, and `filesBelow_eq` says that the walk returns the paths of that list, if every directory
that is entered has a path that is not too long. If one has not, the walk fails (`canEnter_of_filesBelow`).

A walk that succeeds is taken apart entry by entry: `Visited` lists what it may have made of an entry, and
`filesBelow_ok` says that it made one of these of each, on any disk and whether or not links are followed.

## Contents
- `LeadsToFile` and `filesAt`, the files at and below a node.
- Which files these are, and in which order they stand.
- `visit` and the order of visits; `Visited`, and a walk that succeeds.
- `CanEnter`, the directories of a walk can be entered; the walk on a tree.
-/

namespace Esql.Files

open Node (At)

/-! ## Files below a node -/

/-- A path leads to a file. -/
def findsFile (disk : Disk Id) (path : String) : Bool :=
  match (disk.find path).run with
  | .ok .file => true
  | _ => false

/-- A file, or a link at a path that leads to one. -/
def LeadsToFile (disk : Disk Id) (path : String) : Node → Prop
  | .file _ => True
  | .link _ => findsFile disk path = true
  | .directory _ => False

/-- The files at most so many steps below what stands at a path, by their names below it. -/
def filesAt (disk : Disk Id) : Nat → String → Node → List (List String)
  | _, _, .file _ => [[]]
  | _, path, .link _ => if findsFile disk path then [[]] else []
  | 0, _, .directory _ => []
  | depth + 1, path, .directory entries =>
    (entries.mergeSort fun a b => a.1 ≤ b.1).flatMap fun entry =>
      (filesAt disk depth (Path.child path entry.1) entry.2).map (entry.1 :: ·)

variable {disk : Disk Id} {tree : Tree} {followLinks : Bool} {depth : Nat} {path : String} {node : Node}
  {names : List String} {entries : List (String × Node)}

theorem mem_filesAt :
    names ∈ filesAt disk depth path node ↔
      ∃ found, node.At names found ∧ names.length ≤ depth ∧ LeadsToFile disk (Path.below path names) found := by
  fun_induction filesAt disk depth path node generalizing names with
  | case1 | case4 => cases names <;> simp [LeadsToFile, Node.entries]
  | case2 _ _ _ h | case3 _ _ _ h => cases names <;> simp [LeadsToFile, Node.entries, h]
  | case5 depth path entries ih =>
      cases names with
      | nil => simp [LeadsToFile]
      | cons name names =>
          simp only [List.mem_flatMap, List.mem_mergeSort, List.mem_map, List.cons.injEq, Node.at_cons, Node.entries,
            List.length_cons, Path.below_cons, Nat.succ_eq_add_one, Nat.add_le_add_iff_right]
          constructor
          · rintro ⟨⟨name', next⟩, hmem, names', hnames, rfl, rfl⟩
            obtain ⟨found, hat, hlength, hleads⟩ := (ih _).mp hnames
            exact ⟨found, ⟨next, hmem, hat⟩, hlength, hleads⟩
          · rintro ⟨found, ⟨next, hmem, hat⟩, hlength, hleads⟩
            exact ⟨(name, next), hmem, names, (ih _).mpr ⟨found, hat, hlength, hleads⟩, rfl, rfl⟩

/-- Files come in the order of the bytes of their names, compared name by name. -/
def Precedes (names names' : List String) : Prop := names.map Text.bytes < names'.map Text.bytes

/-- What is sorted by names that differ is in the strict order of these names. -/
theorem mergeSort_pairwise {α : Type} {name : α → String} {xs : List α} (h : (xs.map name).Nodup) :
    (xs.mergeSort fun a b => name a ≤ name b).Pairwise fun a b => name a < name b := by
  have hsorted : (xs.mergeSort fun a b => name a ≤ name b).Pairwise fun a b => decide (name a ≤ name b) = true :=
    List.pairwise_mergeSort (by simpa using fun _ _ _ => String.le_trans) (by simp [String.le_total]) xs
  have hnodup : ((xs.mergeSort fun a b => name a ≤ name b).map name).Nodup :=
    ((List.mergeSort_perm xs _).map name).nodup_iff.mpr h
  refine (hsorted.and (List.pairwise_map.mp hnodup)).imp fun ⟨hle, hne⟩ => ?_
  exact lt_of_le_of_ne (by simpa using hle) hne

/-- The entries of a directory in the order of their names, which differ. -/
theorem sorted_entries {entries : List (String × Node)} (h : (Node.directory entries).Sound) :
    (entries.mergeSort fun a b => a.1 ≤ b.1).Pairwise fun a b => a.1 < b.1 :=
  mergeSort_pairwise h.nodup

theorem filesAt_pairwise (hnode : node.Sound) : (filesAt disk depth path node).Pairwise Precedes := by
  fun_induction filesAt disk depth path node with
  | case1 | case4 => simp
  | case2 => simp
  | case3 => simp
  | case5 path depth entries ih =>
      rw [List.pairwise_flatMap]
      refine ⟨fun entry hentry => ?_, ?_⟩
      · rw [List.pairwise_map]
        refine (ih entry (hnode.entry (List.mem_mergeSort.mp hentry))).imp fun hlt => ?_
        exact List.cons_lt_cons_iff.mpr (.inr ⟨rfl, hlt⟩)
      · refine (sorted_entries hnode).imp fun hlt => ?_
        simp only [List.mem_map]
        rintro _ ⟨names, -, rfl⟩ _ ⟨names', -, rfl⟩
        exact List.cons_lt_cons_iff.mpr (.inl (Text.bytes_lt hlt))

/-! ## The walk -/

/-- What a walk makes of an entry of a directory. -/
def visit (disk : Disk Id) (followLinks : Bool) (depth : Nat) (inside : List String) (directory : String)
    (entry : Entry) : ExceptT WalkError Id (List String) := do
  let path := Path.child directory entry.name
  match entry.kind with
  | .file => pure [path]
  | .special => pure []
  | .directory => filesBelow disk followLinks depth (path :: inside) path
  | .link =>
    match ← disk.find path with
    | .ok .file => pure [path]
    | .ok .special => pure []
    | .ok (.directory place) =>
      if followLinks then
        match ← (ancestorAt? disk place inside : Id (Option String)) with
        | some ancestor => throw (.cycle path ancestor)
        | none => filesBelow disk followLinks depth (path :: inside) path
      else pure []
    | .error fault => if followLinks then throw (.unreadable path fault) else pure []

theorem filesBelow_succ (disk : Disk Id) (followLinks : Bool) (depth : Nat) (inside : List String)
    (directory : String) :
    filesBelow disk followLinks (depth + 1) inside directory =
      match (disk.entries directory).run with
      | .error fault => throw (.unreadable directory fault)
      | .ok entries => do
        let files ← (entries.mergeSort fun a b => a.name ≤ b.name).mapM
          (visit disk followLinks depth inside directory)
        return files.flatten := rfl

/-- Entries are visited in the order of their names, in whatever order the disk lists them. -/
theorem filesBelow_of_perm {disk : Disk Id} {directory : String} {entries listed : List Entry}
    (hentries : disk.entries directory = .ok entries) (hperm : listed.Perm entries)
    (hsorted : listed.Pairwise fun a b => a.name < b.name) (followLinks : Bool) (depth : Nat) (inside : List String) :
    filesBelow disk followLinks (depth + 1) inside directory = (do
      let files ← listed.mapM (visit disk followLinks depth inside directory)
      return files.flatten) := by
  have hnodup : (entries.map Entry.name).Nodup :=
    (hperm.map Entry.name).nodup_iff.mp (List.pairwise_map.mpr (hsorted.imp ne_of_lt))
  have hsame : (entries.mergeSort fun a b => a.name ≤ b.name) = listed :=
    List.Perm.eq_of_pairwise (fun _ _ _ _ h h' => absurd h (lt_asymm h')) (mergeSort_pairwise hnodup) hsorted
      ((List.mergeSort_perm entries _).trans hperm.symm)
  rw [filesBelow_succ, Id.run, hentries]
  dsimp only
  rw [hsame]

theorem mapM_eq_pure {m : Type → Type} [Monad m] [LawfulMonad m] {α β : Type} {f : α → m β} {g : α → β}
    {xs : List α} (h : ∀ x ∈ xs, f x = pure (g x)) : xs.mapM f = pure (xs.map g) := by
  induction xs with
  | nil => simp
  | cons x xs ih =>
      obtain ⟨hx, hxs⟩ := List.forall_mem_cons.mp h
      rw [List.mapM_cons, hx, ih hxs]
      simp

theorem bind_ok {ε α β : Type} {x : ExceptT ε Id α} {f : α → ExceptT ε Id β} {b : β}
    (h : (x >>= f).run = .ok b) : ∃ a, x.run = .ok a ∧ (f a).run = .ok b := by
  change ExceptT.bindCont f x.run = Except.ok b at h
  cases hx : x.run with
  | error e =>
      rw [hx] at h
      cases h
  | ok a =>
      rw [hx] at h
      exact ⟨a, rfl, h⟩

/-! ## A walk that succeeds -/

variable {inside files : List String} {here : Spot}

/-- What a walk that succeeds makes of an entry of this kind at a path. -/
inductive Visited (disk : Disk Id) (followLinks : Bool) (depth : Nat) (inside : List String) (path : String) :
    EntryKind → List String → Prop
  | file : Visited disk followLinks depth inside path .file [path]
  | special : Visited disk followLinks depth inside path .special []
  | directory {files : List String} :
      (filesBelow disk followLinks depth (path :: inside) path).run = .ok files →
      Visited disk followLinks depth inside path .directory files
  | linkedFile : disk.find path = .ok .file → Visited disk followLinks depth inside path .link [path]
  | linkedDirectory {place : String} {files : List String} : followLinks = true →
      disk.find path = .ok (.directory place) →
      (filesBelow disk followLinks depth (path :: inside) path).run = .ok files →
      Visited disk followLinks depth inside path .link files
  /-- A link that leads to no file and is not followed. -/
  | passed : findsFile disk path = false → (followLinks = true → disk.find path = .ok .special) →
      Visited disk followLinks depth inside path .link []

theorem visited_of_visit {directory : String} {entry : Entry}
    (h : (visit disk followLinks depth inside directory entry).run = .ok files) :
    Visited disk followLinks depth inside (Path.child directory entry.name) entry.kind files := by
  unfold visit at h
  cases hkind : entry.kind with
  | file =>
      rw [hkind] at h
      obtain rfl := Except.ok.inj h
      exact .file
  | special =>
      rw [hkind] at h
      obtain rfl := Except.ok.inj h
      exact .special
  | directory =>
      rw [hkind] at h
      exact .directory h
  | link =>
      rw [hkind] at h
      obtain ⟨answer, hanswer, h⟩ := bind_ok h
      obtain rfl : disk.find (Path.child directory entry.name) = answer := Except.ok.inj hanswer
      cases hfind : disk.find (Path.child directory entry.name) with
      | error fault =>
          rw [hfind] at h
          cases followLinks with
          | true => cases h
          | false =>
              obtain rfl := Except.ok.inj h
              exact .passed (by rw [findsFile, hfind]; rfl) (by simp)
      | ok found =>
          rw [hfind] at h
          cases found with
          | file =>
              obtain rfl := Except.ok.inj h
              exact .linkedFile hfind
          | special =>
              obtain rfl := Except.ok.inj h
              exact .passed (by rw [findsFile, hfind]; rfl) fun _ => hfind
          | directory place =>
              cases followLinks with
              | false =>
                  obtain rfl := Except.ok.inj h
                  exact .passed (by rw [findsFile, hfind]; rfl) (by simp)
              | true =>
                  obtain ⟨ancestor, -, h⟩ := bind_ok h
                  cases ancestor with
                  | some ancestor => cases h
                  | none => exact .linkedDirectory rfl hfind h

theorem forall₂_of_mapM_ok {ε α β : Type} {f : α → ExceptT ε Id β} {xs : List α} {ys : List β}
    (h : (xs.mapM f).run = .ok ys) : List.Forall₂ (fun x y => (f x).run = .ok y) xs ys := by
  induction xs generalizing ys with
  | nil =>
      rw [List.mapM_nil] at h
      obtain rfl := Except.ok.inj h
      exact .nil
  | cons x xs ih =>
      rw [List.mapM_cons] at h
      obtain ⟨y, hy, h⟩ := bind_ok h
      obtain ⟨ys', hys, h⟩ := bind_ok h
      obtain rfl := Except.ok.inj h
      exact .cons hy (ih hys)

/-- A walk that succeeds has made something of every entry of its directory, in the order of their names. -/
theorem filesBelow_ok {directory : String}
    (h : (filesBelow disk followLinks (depth + 1) inside directory).run = .ok files) :
    ∃ entries rows, disk.entries directory = .ok entries ∧ files = rows.flatten ∧
      List.Forall₂ (fun entry row =>
          Visited disk followLinks depth inside (Path.child directory entry.name) entry.kind row)
        (entries.mergeSort fun a b => a.name ≤ b.name) rows := by
  rw [filesBelow_succ] at h
  cases hentries : disk.entries directory with
  | error fault =>
      rw [hentries] at h
      cases h
  | ok entries =>
      rw [hentries] at h
      obtain ⟨rows, hrows, h⟩ := bind_ok h
      obtain rfl := Except.ok.inj h
      exact ⟨entries, rows, rfl, rfl, (forall₂_of_mapM_ok hrows).imp fun _ _ => visited_of_visit⟩

theorem exists_of_forall₂ {α β : Type} {R : α → β → Prop} {xs : List α} {ys : List β} {x : α}
    (h : List.Forall₂ R xs ys) (hmem : x ∈ xs) : ∃ y, R x y := by
  induction h with
  | nil => cases hmem
  | cons hfirst _ ih =>
      obtain rfl | hmem := List.mem_cons.mp hmem
      · exact ⟨_, hfirst⟩
      · exact ih hmem

/-! ## The walk on a tree -/

/-- The directories less than so many steps below a path have paths that can be opened. -/
def CanEnter (path : String) (depth : Nat) (node : Node) : Prop :=
  ∀ names entries, node.At names (.directory entries) → names.length < depth →
    (Path.below path names).utf8ByteSize ≤ maxPathBytes

theorem entries_eq (hhere : tree.spot path = .ok here) (hnode : here.node = .directory entries) :
    tree.disk.entries path = .ok (entries.map Tree.entryOf) := by
  show (tree.spot path).bind Tree.list = _
  rw [hhere]
  show Tree.list here = _
  rw [Tree.list, hnode]

theorem mergeSort_entryOf (entries : List (String × Node)) :
    ((entries.map Tree.entryOf).mergeSort fun a b => a.name ≤ b.name) =
      (entries.mergeSort fun a b => a.1 ≤ b.1).map Tree.entryOf := by
  refine (List.map_mergeSort fun a _ b _ => ?_).symm
  rcases a with ⟨name, _ | _ | _⟩ <;> rcases b with ⟨name', _ | _ | _⟩ <;> rfl

theorem visit_link (disk : Disk Id) (depth : Nat) (inside : List String) (path name target : String) :
    visit disk false depth inside path (Tree.entryOf (name, .link target)) =
      pure ((filesAt disk depth (Path.child path name) (.link target)).map (Path.below (Path.child path name))) := by
  change (match disk.find (Path.child path name) with
    | .ok .file => pure [Path.child path name]
    | .ok .special | .ok (.directory _) | .error _ => pure []) = _
  rw [filesAt, findsFile]
  cases disk.find (Path.child path name) with
  | error fault => rfl
  | ok found => cases found <;> rfl

theorem CanEnter.entry {name : String} {next : Node} (h : CanEnter path (depth + 1) (.directory entries))
    (hmem : (name, next) ∈ entries) : CanEnter (Path.child path name) depth next :=
  fun names entries hat hlength => h (name :: names) entries (.deeper hmem hat) (Nat.succ_lt_succ hlength)

theorem filesBelow_eq (htree : tree.Sound) (hhere : tree.spot path = .ok here)
    (hnode : here.node = .directory entries) (hlinks : followLinks = true → here.node.HasNoLinks)
    (hopen : CanEnter path depth here.node) :
    filesBelow tree.disk followLinks depth inside path =
      pure ((filesAt tree.disk depth path here.node).map (Path.below path)) := by
  induction depth generalizing inside path here entries with
  | zero => simp [filesBelow, hnode, filesAt]
  | succ depth ih =>
      have hvisit : ∀ entry ∈ entries.mergeSort fun a b => a.1 ≤ b.1,
          (visit tree.disk followLinks depth inside path ∘ Tree.entryOf) entry =
            pure ((filesAt tree.disk depth (Path.child path entry.1) entry.2).map
              (Path.below (Path.child path entry.1))) := by
        rintro ⟨name, next⟩ hmem
        rw [List.mem_mergeSort] at hmem
        cases next with
        | file content => simp [visit, Tree.entryOf, filesAt]
        | link target =>
            have hlinks : followLinks = false := by
              by_contra hfollow
              exact hlinks (by simpa using hfollow) [name] target (hnode ▸ .deeper hmem .here)
            rw [hlinks]
            exact visit_link tree.disk depth inside path name target
        | directory entries' =>
            have hopen' := (hnode ▸ hopen).entry hmem
            cases depth with
            | zero => simp [visit, Tree.entryOf, filesBelow, filesAt]
            | succ depth =>
                have hchild := Tree.spot_entry htree hhere hnode hmem (by simp)
                  (hopen' [] entries' .here (Nat.succ_pos depth))
                exact ih hchild rfl (fun hfollow => (hnode ▸ hlinks hfollow).entry hmem) hopen'
      rw [filesBelow_succ, entries_eq hhere hnode, Id.run]
      dsimp only
      rw [mergeSort_entryOf, List.mapM_map, mapM_eq_pure hvisit, pure_bind, hnode, filesAt, List.map_flatMap,
        List.flatMap_def]
      congr 3
      simp [Function.comp_def]

theorem spot_of_find {found : Found} (h : tree.disk.find path = .ok found) :
    ∃ here, tree.spot path = .ok here ∧ Tree.found here = found := by
  change (tree.spot path).map Tree.found = _ at h
  cases hspot : tree.spot path with
  | error fault =>
      rw [hspot] at h
      cases h
  | ok here =>
      rw [hspot] at h
      exact ⟨here, rfl, Except.ok.inj h⟩

theorem exists_spot_of_entries {listed : List Entry} (h : tree.disk.entries path = .ok listed) :
    ∃ here, tree.spot path = .ok here := by
  change (tree.spot path).bind Tree.list = _ at h
  cases hspot : tree.spot path with
  | error fault =>
      rw [hspot] at h
      cases h
  | ok here => exact ⟨here, rfl⟩

/-- A walk that succeeds has opened the directory in which it begins. -/
theorem short_of_filesBelow
    (h : (filesBelow tree.disk followLinks (depth + 1) inside path).run = .ok files) :
    path.utf8ByteSize ≤ maxPathBytes := by
  obtain ⟨listed, -, hlisted, -⟩ := filesBelow_ok h
  obtain ⟨here, hspot⟩ := exists_spot_of_entries hlisted
  exact (Tree.spot_ok_iff.mp hspot).2.2.1

/-- A walk that succeeds has entered every directory that is not too deep. -/
theorem canEnter_of_filesBelow (htree : tree.Sound) (hhere : tree.spot path = .ok here)
    (hnode : here.node = .directory entries)
    (h : (filesBelow tree.disk followLinks depth inside path).run = .ok files) :
    CanEnter path depth here.node := by
  induction depth generalizing inside path here entries files with
  | zero => exact fun _ _ _ hlength => absurd hlength (Nat.not_lt_zero _)
  | succ depth ih =>
      intro names entries' hat hlength
      cases names with
      | nil => exact (Tree.spot_ok_iff.mp hhere).2.2.1
      | cons name names =>
          obtain ⟨next, hmem, hat⟩ := Node.at_cons.mp hat
          rw [hnode, Node.entries] at hmem
          obtain ⟨listed, rows, hlisted, -, hrows⟩ := filesBelow_ok h
          rw [entries_eq hhere hnode] at hlisted
          obtain rfl := Except.ok.inj hlisted
          rw [mergeSort_entryOf, List.forall₂_map_left_iff] at hrows
          obtain ⟨row, hvisited⟩ := exists_of_forall₂ hrows (List.mem_mergeSort.mpr hmem)
          cases next with
          | file | link => cases names <;> simp [Node.entries] at hat
          | directory entries =>
              cases hvisited with
              | directory hbelow =>
                  have hlength : names.length < depth := Nat.lt_of_succ_lt_succ hlength
                  cases depth with
                  | zero => contradiction
                  | succ depth =>
                      have hchild := Tree.spot_entry htree hhere hnode hmem (by simp) (short_of_filesBelow hbelow)
                      exact ih hchild rfl hbelow names entries' hat hlength

end Esql.Files
