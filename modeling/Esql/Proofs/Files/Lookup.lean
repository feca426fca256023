import Esql.Proofs.Files.Paths

/-!
# `Proofs.Files.Lookup` — what stands at a path

The path of an entry leads to the entry of the directory to which the path of the directory leads
(`Tree.spot_entry`): names are followed one after the other, so what is found at the first ones can be taken as
the start of the others (`Spot.follow_append`). This needs a tree whose entries have names that a path can hold
(`Tree.Sound`), and paths that are not too long.

## Contents
- `Node.At`, what stands below a node, and trees without links.
- Sound nodes, spots and trees; names lead from sound spots to sound spots.
- Names behind names, and the path of an entry.
-/

namespace Esql.Files

/-! ## Below a node -/

namespace Node

/-- What stands so many names below a node when no link is followed. -/
inductive At : Node → List String → Node → Prop
  | here {node} : At node [] node
  | deeper {entries name next names node} : (name, next) ∈ entries → At next names node →
      At (.directory entries) (name :: names) node

/-- No link stands below a node. -/
def HasNoLinks (node : Node) : Prop := ∀ names target, ¬ node.At names (.link target)

/-- The names in a directory can all be written in a path, and no name is there twice; the same holds below. -/
inductive Sound : Node → Prop
  | file {content} : Sound (.file content)
  | link {target} : Sound (.link target)
  | directory {entries} : (entries.map Prod.fst).Nodup → (∀ entry ∈ entries, Path.IsName entry.1) →
      (∀ entry ∈ entries, Sound entry.2) → Sound (.directory entries)

variable {node next : Node} {entries : List (String × Node)} {name : String} {names : List String}

theorem Sound.nodup (h : (Node.directory entries).Sound) : (entries.map Prod.fst).Nodup := by
  cases h
  assumption

theorem Sound.isName (h : (Node.directory entries).Sound) (hmem : (name, node) ∈ entries) : Path.IsName name := by
  cases h with
  | directory _ hnames _ => exact hnames _ hmem

theorem Sound.entry (h : (Node.directory entries).Sound) (hmem : (name, node) ∈ entries) : node.Sound := by
  cases h with
  | directory _ _ hentries => exact hentries _ hmem

mutual

/-- The test whether a node is sound. -/
def isSound : Node → Bool
  | file _ | link _ => true
  | directory entries => decide ((entries.map Prod.fst).Nodup) && areSound entries

/-- The test whether entries have names that can be written in a path, and are sound. -/
def areSound : List (String × Node) → Bool
  | [] => true
  | (name, node) :: entries => decide (Path.IsName name) && isSound node && areSound entries

end

mutual

theorem isSound_iff (node : Node) : isSound node = true ↔ node.Sound := by
  cases node with
  | file content => exact iff_of_true rfl .file
  | link target => exact iff_of_true rfl .link
  | directory entries =>
      rw [isSound, Bool.and_eq_true, decide_eq_true_eq, areSound_iff entries]
      constructor
      · rintro ⟨hnodup, hentries⟩
        exact .directory hnodup (fun entry hentry => (hentries entry hentry).1) fun entry hentry =>
          (hentries entry hentry).2
      · intro h
        exact ⟨h.nodup, fun entry hentry => ⟨h.isName hentry, h.entry hentry⟩⟩

theorem areSound_iff (entries : List (String × Node)) :
    areSound entries = true ↔ ∀ entry ∈ entries, Path.IsName entry.1 ∧ entry.2.Sound := by
  cases entries with
  | nil => simp [areSound]
  | cons entry entries =>
      obtain ⟨name, node⟩ := entry
      rw [areSound, Bool.and_eq_true, Bool.and_eq_true, decide_eq_true_eq, isSound_iff node, areSound_iff entries,
        List.forall_mem_cons]

end

instance (node : Node) : Decidable node.Sound := decidable_of_iff _ (isSound_iff node)

@[simp] theorem at_nil : next.At [] node ↔ node = next :=
  ⟨fun h => by cases h; rfl, fun h => h ▸ .here⟩

@[simp] theorem at_cons :
    next.At (name :: names) node ↔ ∃ between, (name, between) ∈ next.entries ∧ between.At names node := by
  refine ⟨fun h => ?_, fun ⟨between, hmem, hat⟩ => ?_⟩
  · cases h with
    | deeper hmem hat => exact ⟨_, hmem, hat⟩
  · cases next with
    | directory => exact .deeper hmem hat
    | file | link => simp [Node.entries] at hmem

theorem At.sound (h : next.At names node) (hnext : next.Sound) : node.Sound := by
  induction h with
  | here => exact hnext
  | deeper hmem _ ih => exact ih (hnext.entry hmem)

theorem At.isName (h : next.At names node) (hnext : next.Sound) : ∀ n ∈ names, Path.IsName n := by
  induction h with
  | here => simp
  | deeper hmem _ ih => exact List.forall_mem_cons.mpr ⟨hnext.isName hmem, ih (hnext.entry hmem)⟩

theorem hasNoLinks_file (content : ByteArray) : (Node.file content).HasNoLinks := by
  intro names target hat
  cases names <;> simp [Node.entries] at hat

theorem hasNoLinks_directory (h : ∀ entry ∈ entries, entry.2.HasNoLinks) : (Node.directory entries).HasNoLinks := by
  intro names target hat
  cases names with
  | nil => simp at hat
  | cons name names =>
      obtain ⟨next, hmem, hat⟩ := at_cons.mp hat
      exact h (name, next) hmem names target hat

theorem HasNoLinks.entry (h : (Node.directory entries).HasNoLinks) (hmem : (name, node) ∈ entries) :
    node.HasNoLinks :=
  fun _ _ hat => h _ _ (.deeper hmem hat)

theorem mem_of_get? (h : (Node.directory entries).get? name = some node) : (name, node) ∈ entries := by
  obtain ⟨⟨name', node'⟩, hfind, rfl⟩ := Option.map_eq_some_iff.mp h
  obtain rfl : name' = name := by simpa using List.find?_some hfind
  exact List.mem_of_find?_eq_some hfind

theorem Sound.get?_of_mem (h : (Node.directory entries).Sound) (hmem : (name, node) ∈ entries) :
    (Node.directory entries).get? name = some node := by
  have hnodup := h.nodup
  unfold get? Node.entries
  dsimp only
  clear h
  induction entries with
  | nil => simp at hmem
  | cons entry entries ih =>
      rw [List.map_cons, List.nodup_cons] at hnodup
      obtain rfl | hmem := List.mem_cons.mp hmem
      · simp
      · have hne : entry.1 ≠ name := fun heq => hnodup.1 (heq ▸ List.mem_map_of_mem (f := Prod.fst) hmem)
        rw [List.find?_cons_of_neg (by simpa using hne)]
        exact ih hmem hnodup.2

/-- Names lead to one node only. -/
theorem At.unique {node' : Node} (hnext : next.Sound) (h : next.At names node) (h' : next.At names node') :
    node = node' := by
  induction h with
  | here =>
      cases h'
      rfl
  | deeper hmem _ ih =>
      cases h' with
      | deeper hmem' hat' =>
          obtain rfl := Option.some.inj ((hnext.get?_of_mem hmem).symm.trans (hnext.get?_of_mem hmem'))
          exact ih (hnext.entry hmem) hat'

theorem At.append {names' : List String} {between : Node} (h : next.At names between) (h' : between.At names' node) :
    next.At (names ++ names') node := by
  induction h with
  | here => exact h'
  | deeper hmem _ ih => exact .deeper hmem (ih h')

theorem HasNoLinks.at {between : Node} (h : next.HasNoLinks) (hat : next.At names between) : between.HasNoLinks :=
  fun _ _ hlink => h _ _ (hat.append hlink)

theorem At.split {names' : List String} (h : next.At (names ++ names') node) :
    ∃ between, next.At names between ∧ between.At names' node := by
  induction names generalizing next with
  | nil => exact ⟨next, .here, h⟩
  | cons name names ih =>
      cases h with
      | deeper hmem hat =>
          obtain ⟨between, hbetween, hrest⟩ := ih hat
          exact ⟨between, .deeper hmem hbetween, hrest⟩

end Node

/-! ## Sound spots -/

namespace Spot

/-- A spot at which no link stands, in a tree whose names can all be written in a path. -/
structure Sound (spot : Spot) : Prop where
  node : spot.node.Sound
  notLink : ∀ target, spot.node ≠ .link target
  way : ∀ step ∈ spot.way, step.2.Sound ∧ ∃ entries, step.2 = .directory entries

variable {spot next : Spot} {name : String} {names : List (List Char)}

theorem Sound.up (h : spot.Sound) : spot.up.Sound := by
  unfold Spot.up
  split
  · exact h
  · rename_i name directory way hway
    obtain ⟨hdirectory, hrest⟩ := List.forall_mem_cons.mp (hway ▸ h.way)
    obtain ⟨hsound, entries, hentries⟩ := hdirectory
    exact ⟨hsound, fun _ hlink => by simp_all, hrest⟩

theorem Sound.root (h : spot.Sound) : spot.root.Sound := by
  unfold Spot.root
  split
  · exact h
  · rename_i name directory hway
    obtain ⟨hsound, entries, hentries⟩ := h.way _ (List.mem_of_getLast? hway)
    exact ⟨hsound, fun _ hlink => by simp_all, by simp⟩

theorem Sound.start (h : spot.Sound) (path : String) : (spot.start path).Sound := by
  unfold Spot.start
  split
  · exact h.root
  · exact h

theorem enter_ok (h : spot.enter name = .ok next) :
    ∃ node, spot.node.get? name = some node ∧ next = ⟨node, (name, spot.node) :: spot.way⟩ := by
  unfold enter at h
  split at h
  · cases h
  · split at h
    · rename_i next' hchild
      cases h
      obtain ⟨node, hnode, rfl⟩ := Option.map_eq_some_iff.mp hchild
      exact ⟨node, hnode, rfl⟩
    · cases h

theorem Sound.enter {entries : List (String × Node)} (h : spot.Sound) (hnode : spot.node = .directory entries)
    (henter : spot.enter name = .ok next) (hnext : ∀ target, next.node ≠ .link target) : next.Sound := by
  obtain ⟨node, hget, rfl⟩ := enter_ok henter
  have hmem := Node.mem_of_get? (hnode ▸ hget)
  refine ⟨(hnode ▸ h.node).entry hmem, hnext, List.forall_mem_cons.mpr ⟨⟨h.node, entries, hnode⟩, h.way⟩⟩

theorem follow_zero : follow 0 = walk fun _ _ _ => .error .tooManyLinks := rfl

theorem follow_succ (links : Nat) :
    follow (links + 1) = walk fun spot target names =>
      follow links (spot.start target) (Path.names target ++ names) := rfl

section
variable {expand : Spot → String → List (List Char) → Except Fault Spot}

theorem walk_sound
    (hexpand : ∀ {spot target names next}, spot.Sound → expand spot target names = .ok next → next.Sound)
    (h : walk expand spot names = .ok next) (hspot : spot.Sound) : next.Sound := by
  fun_induction walk expand spot names with
  | case1 =>
      cases h
      exact hspot
  | case2 | case3 | case6 => cases h
  | case4 _ _ _ _ _ _ ih => exact ih h hspot
  | case5 _ _ _ _ _ ih => exact ih h hspot.up
  | case7 => exact hexpand hspot h
  | case8 _ _ _ _ hnode _ _ _ henter _ hnext ih | case9 _ _ _ _ hnode _ _ _ henter _ hnext ih =>
      exact ih h (hspot.enter hnode henter fun target hlink => by simp [hnext] at hlink)

theorem walk_append {links : Nat} (hwalk : walk expand = follow links)
    (hexpand : ∀ spot target names, ∃ left, ∀ more, expand spot target (names ++ more) =
      (expand spot target names).bind fun next => follow left next more)
    (spot : Spot) (names : List (List Char)) : ∃ left, ∀ more, walk expand spot (names ++ more) =
      (walk expand spot names).bind fun next => follow left next more := by
  fun_induction walk expand spot names with
  | case1 spot => exact ⟨links, fun more => congrFun (congrFun hwalk spot) more⟩
  | case2 _ _ _ _ hnode | case3 _ _ _ _ hnode => exact ⟨0, fun more => by simp [walk, hnode, Except.bind]⟩
  | case4 _ _ _ _ hnode hidle ih =>
      obtain ⟨left, hleft⟩ := ih
      exact ⟨left, fun more => by simp [walk, hnode, hidle, hleft more]⟩
  | case5 _ _ _ hnode hidle ih =>
      obtain ⟨left, hleft⟩ := ih
      exact ⟨left, fun more => by simp [walk, hnode, hidle, hleft more]⟩
  | case6 _ _ _ _ hnode hidle hup _ henter =>
      exact ⟨0, fun more => by simp [walk, hnode, hidle, hup, henter, Except.bind]⟩
  | case7 spot _ names _ hnode hidle hup _ henter target hnext =>
      obtain ⟨left, hleft⟩ := hexpand spot target names
      exact ⟨left, fun more => by simp [walk, hnode, hidle, hup, henter, hnext, hleft more]⟩
  | case8 _ _ _ _ hnode hidle hup _ henter _ hnext ih | case9 _ _ _ _ hnode hidle hup _ henter _ hnext ih =>
      obtain ⟨left, hleft⟩ := ih
      exact ⟨left, fun more => by simp [walk, hnode, hidle, hup, henter, hnext, hleft more]⟩

theorem walk_at (h : walk expand spot names = .ok next) (hlinks : spot.node.HasNoLinks)
    (hnames : ∀ n ∈ names, Path.isIdle n = false ∧ n ≠ ['.', '.']) :
    spot.node.At (names.map String.ofList) next.node := by
  fun_induction walk expand spot names with
  | case1 =>
      cases h
      exact .here
  | case2 | case3 | case6 => cases h
  | case4 _ _ _ _ _ hidle => simp_all
  | case5 => simp_all
  | case7 spot name _ _ hnode _ _ _ henter target hnext =>
      obtain ⟨node, hget, rfl⟩ := enter_ok henter
      rw [hnode] at hget hlinks
      exact absurd (.deeper (Node.mem_of_get? hget) (hnext ▸ .here)) (hlinks [String.ofList name] target)
  | case8 spot _ _ _ hnode _ _ _ henter _ _ ih | case9 spot _ _ _ hnode _ _ _ henter _ _ ih =>
      obtain ⟨node, hget, rfl⟩ := enter_ok henter
      rw [hnode] at hget hlinks ⊢
      have hmem := Node.mem_of_get? hget
      exact .deeper hmem (ih h (hlinks.entry hmem) fun n hn => hnames n (List.mem_cons_of_mem _ hn))

end

/-- Names lead from a sound spot to a sound spot. -/
theorem follow_sound {links : Nat} (h : follow links spot names = .ok next) (hspot : spot.Sound) : next.Sound := by
  induction links generalizing spot names next with
  | zero => exact walk_sound (fun _ h => by cases h) h hspot
  | succ links ih => exact walk_sound (fun hspot h => ih h (hspot.start _)) h hspot

/-- Where there are no links, names that all lead downwards lead to what stands below. -/
theorem follow_at {links : Nat} (h : follow links spot names = .ok next) (hlinks : spot.node.HasNoLinks)
    (hnames : ∀ n ∈ names, Path.isIdle n = false ∧ n ≠ ['.', '.']) :
    spot.node.At (names.map String.ofList) next.node := by
  cases links with
  | zero => exact walk_at h hlinks hnames
  | succ links => exact walk_at h hlinks hnames

/-- What names lead to is where the names behind them begin, though fewer links are left. -/
theorem follow_append (links : Nat) (spot : Spot) (names : List (List Char)) :
    ∃ left, ∀ more, follow links spot (names ++ more) =
      (follow links spot names).bind fun next => follow left next more := by
  induction links generalizing spot names with
  | zero => exact walk_append follow_zero.symm (fun _ _ _ => ⟨0, fun _ => rfl⟩) spot names
  | succ links ih =>
      refine walk_append (follow_succ links).symm (fun spot target names => ?_) spot names
      obtain ⟨left, hleft⟩ := ih (spot.start target) (Path.names target ++ names)
      exact ⟨left, fun more => by rw [← List.append_assoc, hleft more]⟩

/-- An empty name stays where it is, which has to be a directory. -/
theorem follow_empty {links : Nat} (h : follow links spot [[]] = .ok next) : next = spot := by
  have hwalk {expand} (h : walk expand spot [[]] = .ok next) : next = spot := by
    rw [walk] at h
    cases hnode : spot.node with
    | file | link =>
        rw [hnode] at h
        cases h
    | directory entries =>
        rw [hnode] at h
        exact (Except.ok.inj h).symm
  cases links with
  | zero => exact hwalk h
  | succ links => exact hwalk h

theorem follow_entry {links : Nat} {entries : List (String × Node)} {node : Node} (hspot : spot.Sound)
    (hnode : spot.node = .directory entries) (hmem : (name, node) ∈ entries) (hlink : ∀ target, node ≠ .link target) :
    follow links spot [name.toList] = .ok ⟨node, (name, spot.node) :: spot.way⟩ := by
  have hsound : (Node.directory entries).Sound := hnode ▸ hspot.node
  have hname := hsound.isName hmem
  have henter : spot.enter name = .ok ⟨node, (name, spot.node) :: spot.way⟩ := by
    rw [Spot.enter, if_neg (Nat.not_lt.mpr hname.short), child?, hnode, hsound.get?_of_mem hmem]
    rfl
  have hwalk (expand) : walk expand spot [name.toList] = .ok ⟨node, (name, spot.node) :: spot.way⟩ := by
    cases node with
    | file | directory => simp [walk, hnode, hname.leads, hname.notUp, henter]
    | link target => exact absurd rfl (hlink target)
  cases links with
  | zero => exact hwalk _
  | succ links => exact hwalk _

/-- The name of a link leads where its target leads from the directory that holds the link. -/
theorem follow_link {links : Nat} {entries : List (String × Node)} {target : String} (hspot : spot.Sound)
    (hnode : spot.node = .directory entries) (hmem : (name, .link target) ∈ entries)
    (h : follow links spot [name.toList] = .ok next) :
    ∃ left, (spot.start target).follow left (Path.names target) = .ok next := by
  have hsound : (Node.directory entries).Sound := hnode ▸ hspot.node
  have hname := hsound.isName hmem
  have henter : spot.enter name = .ok ⟨.link target, (name, spot.node) :: spot.way⟩ := by
    rw [Spot.enter, if_neg (Nat.not_lt.mpr hname.short), child?, hnode, hsound.get?_of_mem hmem]
    rfl
  have hwalk (expand) : walk expand spot [name.toList] = expand spot target [] := by
    simp [walk, hnode, hname.leads, hname.notUp, henter]
  cases links with
  | zero =>
      rw [follow_zero, hwalk] at h
      cases h
  | succ links =>
      rw [follow_succ, hwalk, List.append_nil] at h
      exact ⟨links, h⟩

end Spot

/-! ## The path of an entry -/

namespace Tree

/-- A tree whose names can all be written in a path, looked at from one of its directories. -/
structure Sound (tree : Tree) : Prop where
  current : tree.current.Sound
  isDirectory : ∃ entries, tree.current.node = .directory entries

variable {tree : Tree} {path name : String} {here : Spot} {entries : List (String × Node)} {node : Node}

theorem spot_ok_iff : tree.spot path = .ok here ↔ '\x00' ∉ path.toList ∧ path ≠ "" ∧
    path.utf8ByteSize ≤ maxPathBytes ∧
    (tree.current.start path).follow maxLinks (Path.names path) = .ok here := by
  rw [Tree.spot, List.contains_eq_mem]
  by_cases hnull : '\x00' ∈ path.toList
  · simp [hnull]
  · by_cases hempty : path = ""
    · subst hempty
      simp
    · by_cases hlong : maxPathBytes < path.utf8ByteSize
      · simp [hnull, hempty, hlong, Nat.not_le.mpr hlong]
      · simp [hnull, hempty, hlong, Nat.le_of_not_lt hlong]

/-- A tree that is seen from its root is sound if its root is. -/
theorem sound_of_root (h : (Node.directory entries).Sound) : Tree.Sound ⟨⟨.directory entries, []⟩⟩ where
  current := ⟨h, by simp, by simp⟩
  isDirectory := ⟨entries, rfl⟩

theorem Sound.ne_nil_of_file {names : List String} {content : ByteArray} (h : tree.Sound)
    (hat : tree.current.node.At names (.file content)) : names ≠ [] := by
  rintro rfl
  obtain ⟨entries, hentries⟩ := h.isDirectory
  simp [hentries] at hat

theorem Sound.spot (h : tree.Sound) (hhere : tree.spot path = .ok here) : here.Sound :=
  Spot.follow_sound (spot_ok_iff.mp hhere).2.2.2 (h.current.start path)

/-- The names of a path lead to a spot, however long the path is. -/
def Reaches (tree : Tree) (path : String) (here : Spot) : Prop :=
  (tree.current.start path).follow maxLinks (Path.names path) = .ok here

theorem Sound.reaches (h : tree.Sound) (hhere : tree.Reaches path here) : here.Sound :=
  Spot.follow_sound hhere (h.current.start path)

/-- What the path of a directory leads to is where the name of an entry is followed, over the links that are left. -/
theorem Reaches.child (hhere : tree.Reaches path here) (hne : path ≠ "") (hslash : '/' ∉ name.toList) :
    ∃ left, ∀ next, tree.Reaches (Path.child path name) next ↔ here.follow left [name.toList] = .ok next := by
  obtain ⟨left, hleft⟩ :=
    Spot.follow_append maxLinks (tree.current.start path) ((Path.stem path).splitOn '/')
  have hstem : (tree.current.start path).follow maxLinks ((Path.stem path).splitOn '/') = .ok here := by
    unfold Reaches at hhere
    obtain hnames | hnames := Path.names_eq_stem path
    · exact hnames ▸ hhere
    · rw [hnames, hleft] at hhere
      cases hfound : (tree.current.start path).follow maxLinks ((Path.stem path).splitOn '/') with
      | error fault =>
          rw [hfound] at hhere
          cases hhere
      | ok found =>
          rw [hfound] at hhere
          rw [Spot.follow_empty hhere]
  refine ⟨left, fun next => ?_⟩
  unfold Reaches
  rw [Spot.start, Path.isAbsolute_child hne, ← Spot.start, Path.names_child hslash, hleft, hstem]
  rfl

theorem Reaches.entry (h : tree.Sound) (hhere : tree.Reaches path here) (hne : path ≠ "")
    (hnode : here.node = .directory entries) (hmem : (name, node) ∈ entries)
    (hlink : ∀ target, node ≠ .link target) :
    tree.Reaches (Path.child path name) ⟨node, (name, here.node) :: here.way⟩ := by
  have hsound := h.reaches hhere
  have hname := (hnode ▸ hsound.node : (Node.directory entries).Sound).isName hmem
  obtain ⟨left, hchild⟩ := hhere.child hne hname.noSlash
  exact (hchild _).mpr (Spot.follow_entry hsound hnode hmem hlink)

theorem Reaches.spot (h : tree.Reaches path here) (hnull : '\x00' ∉ path.toList) (hne : path ≠ "")
    (hshort : path.utf8ByteSize ≤ maxPathBytes) : tree.spot path = .ok here :=
  spot_ok_iff.mpr ⟨hnull, hne, hshort, h⟩

theorem reaches_of_spot (h : tree.spot path = .ok here) : tree.Reaches path here := (spot_ok_iff.mp h).2.2.2

theorem spot_tooLong (hnull : '\x00' ∉ path.toList) (hne : path ≠ "") (hlong : maxPathBytes < path.utf8ByteSize) :
    tree.spot path = .error .tooLong := by
  rw [Tree.spot, List.contains_eq_mem, if_neg (by simpa using hnull), if_neg (by simpa using hne), if_pos hlong]

/-- A directory is found at a path just if its entries are found behind the path. -/
theorem spot_entry (h : tree.Sound) (hhere : tree.spot path = .ok here) (hnode : here.node = .directory entries)
    (hmem : (name, node) ∈ entries) (hlink : ∀ target, node ≠ .link target)
    (hshort : (Path.child path name).utf8ByteSize ≤ maxPathBytes) :
    tree.spot (Path.child path name) = .ok ⟨node, (name, here.node) :: here.way⟩ := by
  have hname := (hnode ▸ (h.spot hhere).node : (Node.directory entries).Sound).isName hmem
  obtain ⟨hnull, hne, -, -⟩ := spot_ok_iff.mp hhere
  have hreaches := (reaches_of_spot hhere).entry h hne hnode hmem hlink
  exact hreaches.spot (Path.noNull_child hnull hname.noNull) (Path.child_ne_empty path name) hshort

end Tree

end Esql.Files
