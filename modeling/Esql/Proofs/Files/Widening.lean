import Esql.Proofs.Files.Links

/-!
# `Proofs.Files.Widening` — wider limits

A walk that may go deeper, or follow links, meets every file that it met before, between others: what it makes of an
entry under wider limits has what it makes of it under narrower ones as a part (`sublist_of_visited`), and the entries
are visited in one order under both. This is so on any disk, if both walks succeed.

A walk under wider limits enters more directories, so it may fail where the other one succeeds.

## Contents
- The walk under two limits, entry by entry and then by induction on the depth.
- What a pattern resolves to under two limits.
-/

namespace Esql.Files

open Glob (Piece)

variable {disk : Disk Id} {tree : Tree} {pattern : String} {pieces : List Piece}

/-! ## The walk under two limits -/

/-- Rows for the same entries, each of which is a part of the other. -/
theorem flatten_sublist {α β : Type} {xs : List α} {rows rows' : List (List β)} {made made' : α → List β → Prop}
    (hrows : List.Forall₂ made xs rows) (hrows' : List.Forall₂ made' xs rows')
    (h : ∀ x row row', made x row → made' x row' → row.Sublist row') : rows.flatten.Sublist rows'.flatten := by
  induction hrows generalizing rows' with
  | nil =>
      cases hrows'
      exact List.Sublist.refl _
  | cons hrow _ ih =>
      cases hrows' with
      | cons hrow' hrows' =>
          rw [List.flatten_cons, List.flatten_cons]
          exact (h _ _ _ hrow hrow').append (ih hrows')

section
variable {followLinks followLinks' : Bool} {depth depth' : Nat} {inside inside' files files' : List String}
  {path : String}

/-- What is made of an entry under narrower limits is a part of what is made of it under wider ones, if this is so
    one step deeper. -/
theorem sublist_of_visited {kind : EntryKind} (hfollow : followLinks = true → followLinks' = true)
    (hdeeper : ∀ {files files'}, (filesBelow disk followLinks depth (path :: inside) path).run = .ok files →
      (filesBelow disk followLinks' depth' (path :: inside') path).run = .ok files' → files.Sublist files')
    (h : Visited disk followLinks depth inside path kind files)
    (h' : Visited disk followLinks' depth' inside' path kind files') : files.Sublist files' := by
  cases h with
  | file =>
      cases h'
      exact List.Sublist.refl _
  | special => exact List.nil_sublist _
  | passed => exact List.nil_sublist _
  | directory hbelow =>
      cases h' with
      | directory hbelow' => exact hdeeper hbelow hbelow'
  | linkedFile hfind =>
      cases h' with
      | linkedFile => exact List.Sublist.refl _
      | linkedDirectory _ hfind' _ =>
          rw [hfind] at hfind'
          cases hfind'
      | passed hnoFile _ =>
          rw [findsFile, hfind] at hnoFile
          cases hnoFile
  | linkedDirectory hlinks hfind hbelow =>
      cases h' with
      | linkedFile hfind' =>
          rw [hfind] at hfind'
          cases hfind'
      | linkedDirectory _ _ hbelow' => exact hdeeper hbelow hbelow'
      | passed _ hspecial =>
          -- A link to a directory is passed over only by a walk that follows none.
          have hfind' := hspecial (hfollow hlinks)
          rw [hfind] at hfind'
          cases hfind'

/-- By induction on the depth of the narrower walk: both visit the entries of a directory in the same order. -/
theorem filesBelow_widens (hfollow : followLinks = true → followLinks' = true) (hdepth : depth ≤ depth')
    (h : (filesBelow disk followLinks depth inside path).run = .ok files)
    (h' : (filesBelow disk followLinks' depth' inside' path).run = .ok files') : files.Sublist files' := by
  induction depth generalizing depth' inside inside' path files files' with
  | zero =>
      obtain rfl := Except.ok.inj h
      exact List.nil_sublist _
  | succ depth ih =>
      obtain ⟨depth', rfl⟩ := Nat.exists_eq_add_one_of_ne_zero (Nat.ne_zero_of_lt hdepth)
      obtain ⟨entries, rows, hentries, rfl, hrows⟩ := filesBelow_ok h
      obtain ⟨entries', rows', hentries', rfl, hrows'⟩ := filesBelow_ok h'
      obtain rfl := Except.ok.inj (hentries.symm.trans hentries')
      apply flatten_sublist hrows hrows'
      intro entry row row' hrow hrow'
      exact sublist_of_visited hfollow (ih (Nat.le_of_succ_le_succ hdepth)) hrow hrow'

theorem filesFrom_widens (hfollow : followLinks = true → followLinks' = true) (hdepth : depth ≤ depth')
    (h : (filesFrom disk followLinks depth path).run = .ok files)
    (h' : (filesFrom disk followLinks' depth' path).run = .ok files') : files.Sublist files' := by
  rw [filesFrom] at h h'
  obtain ⟨found, hfound, h⟩ := bind_ok h
  obtain ⟨found', hfound', h'⟩ := bind_ok h'
  obtain rfl : found = found' := Except.ok.inj (hfound.symm.trans hfound')
  cases found with
  | error fault => cases h
  | ok found =>
      cases found with
      | directory place => exact filesBelow_widens hfollow hdepth h h'
      | file | special =>
          obtain rfl := Except.ok.inj (h.symm.trans h')
          exact List.Sublist.refl _

end

/-! ## A pattern under two limits -/

theorem walkDepth_mono {depth depth' : Nat} (h : depth ≤ depth') (pattern : String) (root : WalkRoot) :
    walkDepth pattern root depth ≤ walkDepth pattern root depth' := by
  unfold walkDepth
  split
  · exact h
  · exact min_le_min_left _ h

/-- What is made of the files that a walk meets does not depend on the limits. -/
theorem resolve_sublist {narrow wide : Limits} {files files' : List String} (hdepth : narrow.maxDepth ≤ wide.maxDepth)
    (hfollow : narrow.followLinks = true → wide.followLinks = true)
    (h : resolve disk narrow pattern = .ok files) (h' : resolve disk wide pattern = .ok files') :
    files.Sublist files' := by
  obtain ⟨pieces, met, hparse, hmet, rfl⟩ := met_of_resolve h
  obtain ⟨pieces', met', hparse', hmet', rfl⟩ := met_of_resolve h'
  obtain rfl := Except.ok.inj (hparse.symm.trans hparse')
  have hmore := filesFrom_widens hfollow (walkDepth_mono hdepth pattern (walkRoot disk pattern)) hmet hmet'
  exact (hmore.map _).filter _

/-- **Wider limits lose no file.** If a pattern resolves under two limits, of which the second ones allow at least the
    depth and the links of the first ones, then the files under the first are found in the same order among those
    under the second, and no path is there twice. Where links are not followed, a valid pattern resolves just if every
    directory that the walk enters has a path that can be opened. -/
theorem resolve_widens {narrow wide : Limits} (htree : tree.Sound) (hdepth : narrow.maxDepth ≤ wide.maxDepth)
    (hfollow : narrow.followLinks = true → wide.followLinks = true) :
    (∀ files files', resolve tree.disk narrow pattern = .ok files → resolve tree.disk wide pattern = .ok files' →
        files.Sublist files' ∧ files.Nodup ∧ files'.Nodup) ∧
      (narrow.followLinks = false → ∀ pieces, Glob.parse pattern = .ok pieces →
        let root : WalkRoot := walkRoot tree.disk pattern
        ∃ spot, tree.spot root.path = .ok spot ∧
          ((∃ files, resolve tree.disk narrow pattern = .ok files) ↔
            CanEnter root.path (walkDepth pattern root narrow.maxDepth) spot.node)) := by
  constructor
  · intro files files' h h'
    exact ⟨resolve_sublist hdepth hfollow h h', nodup_of_resolve htree h, nodup_of_resolve htree h'⟩
  · intro hlinks pieces hparse root
    obtain ⟨spot, hspot⟩ := exists_spot htree pattern
    have hlinks' : narrow.followLinks = true → spot.node.HasNoLinks := by simp [hlinks]
    refine ⟨spot, hspot, ?_, ?_⟩
    · rintro ⟨files, h⟩
      exact canEnter_of_resolve htree hspot hparse h
    · intro hopen
      exact ⟨_, resolve_ok htree hspot hlinks' hparse hopen⟩

/-- A directory with a file and a link to it, beside a file that is one step deeper. -/
def aliasTree : Tree :=
  ⟨⟨.directory [("a", .directory [("x.q", .file .empty)]), ("b", .link "a"),
    ("c", .directory [("d", .directory [("x.q", .file .empty)])])], []⟩⟩

theorem aliasTree_sound : aliasTree.Sound := Tree.sound_of_root (by decide)

theorem resolve_widens_aliasTree :
    let narrow : Limits := { maxDepth := 2 }
    let wide : Limits := { maxDepth := 3, followLinks := true }
    let root : WalkRoot := walkRoot aliasTree.disk "**/x.q"
    (aliasTree.Sound ∧ narrow.maxDepth ≤ wide.maxDepth ∧ (narrow.followLinks = true → wide.followLinks = true)) ∧
      resolve aliasTree.disk narrow "**/x.q" = .ok ["a/x.q"] ∧
      resolve aliasTree.disk wide "**/x.q" = .ok ["a/x.q", "b/x.q", "c/d/x.q"] ∧
      (["a/x.q"].Sublist ["a/x.q", "b/x.q", "c/d/x.q"] ∧ ["a/x.q"].Nodup ∧ ["a/x.q", "b/x.q", "c/d/x.q"].Nodup) ∧
      ∃ spot, aliasTree.spot root.path = .ok spot ∧
        ((∃ files, resolve aliasTree.disk narrow "**/x.q" = .ok files) ↔
          CanEnter root.path (walkDepth "**/x.q" root narrow.maxDepth) spot.node) := by
  intro narrow wide root
  have hdepth : narrow.maxDepth ≤ wide.maxDepth := by decide
  have hfollow : narrow.followLinks = true → wide.followLinks = true := by decide
  have hparse : Glob.parse "**/x.q" = .ok [.anyNames, .char 'x', .char '.', .char 'q'] := rfl
  have hroot : walkRoot aliasTree.disk "**/x.q" = (⟨".", true⟩ : WalkRoot) := rfl
  have hdeep : walkDepth "**/x.q" ⟨".", true⟩ = id := rfl
  have hentries : aliasTree.disk.entries "." = .ok [⟨"a", .directory⟩, ⟨"b", .link⟩, ⟨"c", .directory⟩] := rfl
  have hwalk : (filesFrom aliasTree.disk false 2 ".").run = .ok ["./a/x.q"] := by
    show (filesBelow aliasTree.disk false 2 ["."] ".").run = _
    rw [filesBelow_of_perm hentries .rfl (by decide)]
    show (_ : Except WalkError (List String)) = _
    decide +kernel
  have hwalk' : (filesFrom aliasTree.disk true 3 ".").run = .ok ["./a/x.q", "./b/x.q", "./c/d/x.q"] := by
    show (filesBelow aliasTree.disk true 3 ["."] ".").run = _
    rw [filesBelow_of_perm hentries .rfl (by decide)]
    show (_ : Except WalkError (List String)) = _
    decide +kernel
  have hnarrow : resolve aliasTree.disk narrow "**/x.q" = .ok ["a/x.q"] :=
    resolve_of_walk hparse hroot (congrFun hdeep _) hwalk (by decide +kernel)
  have hwide : resolve aliasTree.disk wide "**/x.q" = .ok ["a/x.q", "b/x.q", "c/d/x.q"] :=
    resolve_of_walk hparse hroot (congrFun hdeep _) hwalk' (by decide +kernel)
  obtain ⟨hfiles, hsucceeds⟩ := resolve_widens aliasTree_sound hdepth hfollow
  exact ⟨⟨aliasTree_sound, hdepth, hfollow⟩, hnarrow, hwide, hfiles _ _ hnarrow hwide, hsucceeds rfl _ rfl⟩

/-- A valid pattern that resolves under narrow limits need not resolve under wider ones, though no link is followed:
    the deeper walk enters a directory whose path is too long. -/
theorem resolve_narrow_only :
    deepTree.Sound ∧ Glob.parse "**/x.q" = .ok [.anyNames, .char 'x', .char '.', .char 'q'] ∧
      (∃ files, resolve deepTree.disk { maxDepth := 1 } "**/x.q" = .ok files) ∧
      ¬ ∃ files, resolve deepTree.disk { maxDepth := 64 } "**/x.q" = .ok files := by
  refine ⟨deepTree_sound, rfl, ?_, fun ⟨files, h⟩ => deepTree_not_ok files h⟩
  have hspot : deepTree.spot (walkRoot deepTree.disk "**/x.q").path = .ok deepTree.current :=
    deepTree_root ▸ spot_dot deepTree_sound
  refine ⟨_, resolve_ok deepTree_sound hspot (by simp) rfl ?_⟩
  intro names entries _ hlength
  have hdepth : walkDepth "**/x.q" (walkRoot deepTree.disk "**/x.q") 1 = 1 := if_pos (by decide)
  rw [hdepth] at hlength
  obtain rfl : names = [] := List.length_eq_zero_iff.mp (by omega)
  rw [deepTree_root]
  decide

end Esql.Files
