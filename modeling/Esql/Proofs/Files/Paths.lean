import Esql.Files.Tree
import Mathlib.Data.List.Basic
import Mathlib.Data.List.Induction

/-!
# `Proofs.Files.Paths` — the names and the steps of a path

A path is its names with slashes between them (`names_joined`). The path of an entry is the path of its
directory and one name more, whether or not the directory is written with a slash at its end (`names_child`), so
every level below a root adds one step to a path (`depth_below`).

Steps are counted by `busy`, which counts the names of a text that lead somewhere. It can be read from left to
right: all that has to be known of what has been read is the name that is still open (`busy_split`).

## Contents
- `busy`, and the depth of a path in terms of it.
- `IsName`, what can stand in a directory, and the path of an entry.
- `below`, the path of what stands below a root; its names, its depth and its text.
- The paths above a path whose names all lead somewhere.
-/

namespace Esql.Files.Path

variable {path root name : String} {ns : List String}

/-! ## Names and steps -/

/-- The number of names in a text that lead somewhere. -/
def busy (cs : List Char) : Nat := (cs.splitOn '/').countP fun name => !isIdle name

theorem names_joined {xs : List (List Char)} (hne : xs ≠ []) (h : ∀ x ∈ xs, '/' ∉ x) :
    names (joined xs) = xs := by
  rw [names, joined, String.toList_ofList]
  exact List.splitOn_intercalate '/' h hne

theorem noSlash_of_mem_names {x : List Char} (h : x ∈ names path) : '/' ∉ x := by
  unfold names at h
  generalize path.toList = cs at h
  induction cs generalizing x with
  | nil =>
      obtain rfl : x = [] := by simpa using h
      simp
  | cons c cs ih =>
      obtain ⟨first, others, hnames⟩ := List.exists_cons_of_ne_nil (List.splitOn_ne_nil '/' cs)
      rw [List.splitOn_cons_eq_if_modifyHead, hnames] at h
      by_cases hc : c = '/'
      · rw [if_pos (by simpa using hc)] at h
        obtain rfl | h := List.mem_cons.mp h
        · simp
        · exact ih (hnames ▸ h)
      · rw [if_neg (by simpa using hc), List.modifyHead_cons] at h
        obtain rfl | h := List.mem_cons.mp h
        · have hfirst : '/' ∉ first := ih (hnames ▸ List.mem_cons_self)
          simp [hfirst, Ne.symm hc]
        · exact ih (hnames ▸ List.mem_cons_of_mem _ h)

theorem nil_mem_names_of_isAbsolute (h : isAbsolute path = true) : [] ∈ names path := by
  unfold isAbsolute at h
  unfold names
  cases hpath : path.toList with
  | nil => simp
  | cons c cs =>
      obtain rfl : c = '/' := by simpa [hpath] using h
      simp [List.splitOn_cons_eq_if_modifyHead]

/-- A path whose names all lead somewhere begins where it is followed from. -/
theorem isAbsolute_eq_false (h : ∀ n ∈ names path, isIdle n = false) : isAbsolute path = false := by
  by_contra habsolute
  have hempty := nil_mem_names_of_isAbsolute (by simpa using habsolute)
  exact absurd (h [] hempty) (by decide)

theorem joined_names (path : String) : joined (names path) = path := by
  rw [names, joined, List.intercalate_splitOn, String.ofList_toList]

theorem joined_append {xs ys : List (List Char)} (hxs : xs ≠ []) (hys : ys ≠ []) :
    (joined (xs ++ ys)).toList = (joined xs).toList ++ '/' :: (joined ys).toList := by
  simp only [joined, String.toList_ofList]
  induction xs with
  | nil => contradiction
  | cons x xs ih =>
      by_cases hne : xs = []
      · subst hne
        rw [List.singleton_append, List.intercalate_cons_of_ne_nil hys, List.intercalate_singleton,
          List.append_assoc, List.singleton_append]
      · rw [List.cons_append, List.intercalate_cons_of_ne_nil (by simp [hne]), ih hne,
          List.intercalate_cons_of_ne_nil hne]
        simp

theorem busy_name {cs : List Char} (h : '/' ∉ cs) : busy cs = if isIdle cs then 0 else 1 := by
  rw [busy, List.splitOn_eq_singleton h]
  by_cases hidle : isIdle cs <;> simp [hidle]

theorem busy_slash (front rest : List Char) : busy (front ++ '/' :: rest) = busy front + busy rest := by
  rw [busy, List.splitOn_append_cons_self, List.countP_append, busy, busy]

/-- In front of a text, all that matters of another is its last name and a number of steps. -/
theorem busy_split (cs : List Char) :
    ∃ steps last, '/' ∉ last ∧ ∀ rest, busy (cs ++ rest) = steps + busy (last ++ rest) := by
  by_cases h : '/' ∈ cs
  · obtain ⟨back, front, hcs, hback⟩ := List.eq_append_cons_of_mem (List.mem_reverse.mpr h)
    have hcs : cs = front.reverse ++ '/' :: back.reverse := by
      rw [← List.reverse_reverse cs, hcs]
      simp
    refine ⟨busy front.reverse, back.reverse, by simpa using hback, fun rest => ?_⟩
    rw [hcs, List.append_assoc, List.cons_append, busy_slash]
  · exact ⟨0, cs, h, fun rest => (Nat.zero_add _).symm⟩

theorem isIdle_append_one {cs : List Char} {c : Char} (h : isIdle (cs ++ [c]) = true) : cs = [] ∧ c = '.' := by
  cases cs <;> simp_all [isIdle]

theorem length_trailFrom (first : List Char) (others : List (List Char)) :
    (trailFrom first others).length = 1 + others.countP fun name => !isIdle name := by
  induction others with
  | nil => rfl
  | cons last others ih =>
      unfold trailFrom
      by_cases hlast : isIdle last = true
      · rw [if_pos hlast, ih, List.countP_cons_of_neg (by simp [hlast])]
      · rw [if_neg hlast, List.length_cons, ih, List.countP_cons_of_pos (by simp [hlast]), Nat.add_assoc]

/-- A path has the steps of its names, of which the first one counts whatever it is: a letter in front of it
makes it one that leads somewhere. -/
theorem depth_eq_busy (h : path ≠ "") : depth path = busy ('x' :: path.toList) := by
  obtain ⟨first, others, hnames⟩ := List.exists_cons_of_ne_nil (List.splitOn_ne_nil '/' path.toList)
  have hnames' : names path = first :: others := hnames
  have hbusy : busy ('x' :: path.toList) = 1 + others.countP fun name => !isIdle name := by
    rw [busy, List.splitOn_cons_eq_if_modifyHead, if_neg (by decide), hnames, List.modifyHead_cons,
      List.countP_cons_of_pos (by simp [isIdle]), Nat.add_comm]
  rw [hbusy, depth, trail, hnames']
  split
  · contradiction
  · rename_i heq
    rw [← hnames'] at heq
    refine absurd ?_ h
    rw [← joined_names path, heq]
    rfl
  · rename_i heq
    obtain ⟨rfl, rfl⟩ := List.cons.inj heq
    rw [length_trailFrom, List.countP_reverse]

/-! ## Entries of a directory -/

/-- A text that can stand in a directory as the name of an entry. -/
structure IsName (name : String) : Prop where
  leads : isIdle name.toList = false
  notUp : name.toList ≠ ['.', '.']
  noSlash : '/' ∉ name.toList
  noNull : '\x00' ∉ name.toList
  short : name.utf8ByteSize ≤ maxNameBytes

theorem isName_iff : IsName name ↔ isIdle name.toList = false ∧ name.toList ≠ ['.', '.'] ∧ '/' ∉ name.toList ∧
    '\x00' ∉ name.toList ∧ name.utf8ByteSize ≤ maxNameBytes :=
  ⟨fun h => ⟨h.leads, h.notUp, h.noSlash, h.noNull, h.short⟩,
    fun ⟨leads, notUp, noSlash, noNull, short⟩ => ⟨leads, notUp, noSlash, noNull, short⟩⟩

instance (name : String) : Decidable (IsName name) := decidable_of_iff' _ isName_iff

theorem IsName.ne_nil (h : IsName name) : name.toList ≠ [] := by
  intro hnil
  have := h.leads
  rw [hnil] at this
  contradiction

theorem IsName.noSlash_last (h : IsName name) (front : List Char) :
    (front ++ '/' :: name.toList).getLast? ≠ some '/' := by
  rw [List.getLast?_append_cons, List.getLast?_cons_of_ne_nil h.ne_nil]
  exact fun hlast => h.noSlash (List.mem_of_getLast? hlast)

/-- The text in front of the slash that stands before an entry of a directory. -/
def stem (root : String) : List Char :=
  if root.toList.getLast? = some '/' then root.toList.dropLast else root.toList

theorem toList_of_last (h : root.toList.getLast? = some '/') : root.toList = stem root ++ ['/'] := by
  rw [stem, if_pos h]
  exact (List.dropLast_append_getLast? '/' h).symm

theorem stem_of_last (h : root.toList.getLast? ≠ some '/') : stem root = root.toList := if_neg h

theorem mem_stem {c : Char} (h : c ∈ stem root) : c ∈ root.toList := by
  unfold stem at h
  split at h
  · exact List.dropLast_subset _ h
  · exact h

theorem child_toList (root name : String) : (child root name).toList = stem root ++ '/' :: name.toList := by
  unfold child
  by_cases h : root.toList.getLast? = some '/'
  · rw [if_pos (by simpa using h), String.toList_append, toList_of_last h, List.append_assoc]
    rfl
  · rw [if_neg (by simpa using h), String.toList_append, String.toList_append, stem_of_last h, List.append_assoc]
    rfl

theorem IsName.stem_child (h : IsName name) (root : String) :
    stem (child root name) = (child root name).toList := by
  refine stem_of_last ?_
  rw [child_toList]
  exact h.noSlash_last _

theorem names_child (h : '/' ∉ name.toList) (root : String) :
    names (child root name) = (stem root).splitOn '/' ++ [name.toList] := by
  rw [names, child_toList, List.splitOn_append_cons_self, List.splitOn_eq_singleton h]

/-- A directory is written with or without a slash at its end. -/
theorem names_eq_stem (root : String) :
    names root = (stem root).splitOn '/' ∨ names root = (stem root).splitOn '/' ++ [[]] := by
  by_cases h : root.toList.getLast? = some '/'
  · refine .inr ?_
    rw [names, toList_of_last h, List.splitOn_append_cons_self]
    rfl
  · rw [stem_of_last h]
    exact .inl rfl

theorem ne_empty_iff : path ≠ "" ↔ path.toList ≠ [] := by
  rw [Ne, ← String.toList_inj]
  rfl

theorem child_ne_empty (root name : String) : child root name ≠ "" := by
  rw [ne_empty_iff, child_toList]
  simp

theorem isAbsolute_child (h : root ≠ "") (name : String) : isAbsolute (child root name) = isAbsolute root := by
  unfold isAbsolute
  rw [child_toList]
  by_cases hlast : root.toList.getLast? = some '/'
  · rw [toList_of_last hlast]
    cases stem root <;> rfl
  · rw [stem_of_last hlast]
    obtain ⟨c, cs, hcs⟩ := List.exists_cons_of_ne_nil (ne_empty_iff.mp h)
    rw [hcs]
    rfl

theorem depth_child (hroot : root ≠ "") (h : IsName name) : depth (child root name) = depth root + 1 := by
  have hname : busy name.toList = 1 := by
    rw [busy_name h.noSlash, h.leads]
    rfl
  have hstem : busy ('x' :: root.toList) = busy ('x' :: stem root) := by
    by_cases hlast : root.toList.getLast? = some '/'
    · rw [toList_of_last hlast, ← List.cons_append, busy_slash]
      rfl
    · rw [stem_of_last hlast]
  rw [depth_eq_busy (child_ne_empty root name), depth_eq_busy hroot, child_toList, ← List.cons_append, busy_slash,
    hname, hstem]

/-! ## What stands below a root -/

/-- The path of what stands so many names below a root. -/
def below (root : String) (ns : List String) : String := ns.foldl child root

@[simp] theorem below_nil (root : String) : below root [] = root := rfl

@[simp] theorem below_cons (root name : String) (ns : List String) :
    below root (name :: ns) = below (child root name) ns := rfl

theorem below_ne_empty (h : root ≠ "") (ns : List String) : below root ns ≠ "" := by
  induction ns generalizing root with
  | nil => exact h
  | cons n ns ih => exact ih (child_ne_empty root n)

theorem noNull_child (hroot : '\x00' ∉ root.toList) (h : '\x00' ∉ name.toList) :
    '\x00' ∉ (child root name).toList := by
  rw [child_toList]
  simp only [List.mem_append, List.mem_cons, not_or]
  exact ⟨fun hstem => hroot (mem_stem hstem), by decide, h⟩

theorem noNull_below (hroot : '\x00' ∉ root.toList) (hns : ∀ n ∈ ns, IsName n) :
    '\x00' ∉ (below root ns).toList := by
  induction ns generalizing root with
  | nil => exact hroot
  | cons n ns ih =>
      obtain ⟨hn, hns⟩ := List.forall_mem_cons.mp hns
      exact ih (noNull_child hroot hn.noNull) hns

theorem depth_below (hroot : root ≠ "") (hns : ∀ n ∈ ns, IsName n) :
    depth (below root ns) = depth root + ns.length := by
  induction ns generalizing root with
  | nil => rfl
  | cons n ns ih =>
      obtain ⟨hn, hns⟩ := List.forall_mem_cons.mp hns
      rw [below_cons, ih (child_ne_empty root n) hns, depth_child hroot hn, List.length_cons]
      omega

theorem below_toList (hroot : root.toList.getLast? ≠ some '/') (hns : ∀ n ∈ ns, IsName n) :
    (below root ns).toList = root.toList ++ ns.flatMap fun n => '/' :: n.toList := by
  induction ns generalizing root with
  | nil => simp
  | cons n ns ih =>
      obtain ⟨hn, hns⟩ := List.forall_mem_cons.mp hns
      have hchild : (child root n).toList = root.toList ++ '/' :: n.toList := by
        rw [child_toList, stem_of_last hroot]
      rw [below_cons, ih (hchild ▸ hn.noSlash_last _) hns, hchild, List.flatMap_cons, List.append_assoc]

theorem intercalate_toList (name : String) (ns : List String) :
    (String.intercalate "/" (name :: ns)).toList = name.toList ++ ns.flatMap fun n => '/' :: n.toList := by
  rw [String.toList_intercalate, List.map_cons]
  induction ns generalizing name with
  | nil => simp
  | cons n ns ih =>
      rw [List.map_cons, List.intercalate_cons_cons, ih n, List.flatMap_cons, List.append_assoc]
      rfl

theorem joined_eq_intercalate (xs : List (List Char)) :
    joined xs = String.intercalate "/" (xs.map String.ofList) := by
  refine String.toList_inj.mp ?_
  rw [joined, String.toList_ofList, String.toList_intercalate, List.map_map]
  simp [Function.comp_def]

theorem names_intercalate (hne : ns ≠ []) (hns : ∀ n ∈ ns, IsName n) :
    names (String.intercalate "/" ns) = ns.map String.toList := by
  rw [names, String.toList_intercalate]
  refine List.splitOn_intercalate '/' (fun cs hcs => ?_) (by simpa using hne)
  obtain ⟨n, hn, rfl⟩ := List.mem_map.mp hcs
  exact (hns n hn).noSlash

theorem below_intercalate {rs : List String} (hne : rs ≠ []) (hrs : ∀ n ∈ rs, IsName n) (hns : ∀ n ∈ ns, IsName n) :
    below (String.intercalate "/" rs) ns = String.intercalate "/" (rs ++ ns) := by
  obtain ⟨r, rs, rfl⟩ := List.exists_cons_of_ne_nil hne
  have hlast : (String.intercalate "/" (r :: rs)).toList.getLast? ≠ some '/' := by
    rw [intercalate_toList]
    induction rs using List.reverseRecOn with
    | nil =>
        rw [List.flatMap_nil, List.append_nil]
        exact fun hlast => (hrs r (by simp)).noSlash (List.mem_of_getLast? hlast)
    | append_singleton rs n =>
        rw [List.flatMap_append, List.flatMap_singleton, ← List.append_assoc]
        exact (hrs n (by simp)).noSlash_last _
  refine String.toList_inj.mp ?_
  rw [below_toList hlast hns, List.cons_append, intercalate_toList, intercalate_toList, List.flatMap_append,
    List.append_assoc]

theorem depth_name (h : IsName name) : depth name = 1 := by
  have hslash : '/' ∉ 'x' :: name.toList := by simp [h.noSlash]
  rw [depth_eq_busy (ne_empty_iff.mpr h.ne_nil), busy_name hslash]
  simp [isIdle]

theorem depth_intercalate (hne : ns ≠ []) (hns : ∀ n ∈ ns, IsName n) :
    depth (String.intercalate "/" ns) = ns.length := by
  obtain ⟨n, ns, rfl⟩ := List.exists_cons_of_ne_nil hne
  obtain ⟨hn, hns⟩ := List.forall_mem_cons.mp hns
  have hbelow : below (String.intercalate "/" [n]) ns = String.intercalate "/" ([n] ++ ns) :=
    below_intercalate (List.cons_ne_nil n []) (by simpa using hn) hns
  have hname : String.intercalate "/" [n] = n := by simp
  rw [hname] at hbelow
  rw [← List.singleton_append, ← hbelow, depth_below (ne_empty_iff.mpr hn.ne_nil) hns, depth_name hn,
    List.length_append, List.length_singleton]

theorem names_below (hne : ns ≠ []) (hns : ∀ n ∈ ns, IsName n) (root : String) :
    names (below root ns) = (stem root).splitOn '/' ++ ns.map String.toList := by
  induction ns generalizing root with
  | nil => contradiction
  | cons n ns ih =>
      obtain ⟨hn, hns⟩ := List.forall_mem_cons.mp hns
      rw [below_cons, List.map_cons]
      cases ns with
      | nil => exact names_child hn.noSlash root
      | cons n' ns =>
          rw [ih (List.cons_ne_nil n' ns) hns, hn.stem_child, List.append_cons, ← names_child hn.noSlash root, names]

/-- What stands below a root is told apart by its path. -/
theorem below_inj {ns' : List String} (hroot : root ≠ "") (hns : ∀ n ∈ ns, IsName n) (hns' : ∀ n ∈ ns', IsName n)
    (h : below root ns = below root ns') : ns = ns' := by
  have hlength : ns.length = ns'.length := by
    have hdepth := congrArg depth h
    rwa [depth_below hroot hns, depth_below hroot hns', Nat.add_left_cancel_iff] at hdepth
  by_cases hne : ns = []
  · subst hne
    exact (List.length_eq_zero_iff.mp hlength.symm).symm
  · have hne' : ns' ≠ [] := fun hnil => hne (List.length_eq_zero_iff.mp (by rw [hlength, hnil]; rfl))
    have hnames := congrArg names h
    rw [names_below hne hns, names_below hne' hns', List.append_cancel_left_eq] at hnames
    exact List.map_injective_iff.mpr (fun _ _ => String.toList_inj.mp) hnames

/-! ## The paths above a path -/

theorem mem_trailFrom {first : List Char} {others : List (List Char)} (hfirst : first ≠ [])
    (h : root ∈ trailFrom first others) : ∃ back, back <:+ others ∧ root = joined (first :: back.reverse) := by
  induction others with
  | nil =>
      rw [trailFrom, List.isEmpty_eq_false_iff.mpr hfirst] at h
      exact ⟨[], List.nil_suffix, by simpa [joined] using h⟩
  | cons last others ih =>
      unfold trailFrom at h
      have hbelow (h : root ∈ trailFrom first others) :
          ∃ back, back <:+ last :: others ∧ root = joined (first :: back.reverse) := by
        obtain ⟨back, hback, hroot⟩ := ih h
        exact ⟨back, hback.trans (List.suffix_cons last others), hroot⟩
      split at h
      · exact hbelow h
      · obtain rfl | h := List.mem_cons.mp h
        · exact ⟨last :: others, List.suffix_refl _, rfl⟩
        · exact hbelow h

/-- Above a path whose names all lead somewhere stand the paths of fewer of its names. -/
theorem mem_above (hpath : ∀ n ∈ names path, isIdle n = false) (h : root ∈ above path) :
    ∃ xs ys, xs ≠ [] ∧ ys ≠ [] ∧ names path = xs ++ ys ∧ root = joined xs := by
  obtain ⟨first, others, hnames⟩ := List.exists_cons_of_ne_nil (List.splitOn_ne_nil '/' path.toList)
  change names path = first :: others at hnames
  rw [hnames] at hpath ⊢
  obtain ⟨hfirst, hothers⟩ := List.forall_mem_cons.mp hpath
  have hne : first ≠ [] := by
    rintro rfl
    contradiction
  induction others using List.reverseRecOn with
  | nil => simp [above, trail, hnames, hne, trailFrom] at h
  | append_singleton others last =>
      have hlast : ¬ isIdle last = true := by simp [hothers last (by simp)]
      have htrail : trail path = joined (first :: (others ++ [last])) :: trailFrom first others.reverse := by
        simp [trail, hnames, hne, trailFrom, hlast]
      rw [above, htrail, List.tail_cons] at h
      obtain ⟨back, ⟨front, hfront⟩, rfl⟩ := mem_trailFrom hne h
      refine ⟨first :: back.reverse, front.reverse ++ [last], List.cons_ne_nil _ _, by simp, ?_, rfl⟩
      rw [← List.reverse_reverse others, ← hfront]
      simp

theorem above_pair {name last : List Char} (h : names path = [name, last]) (hname : name ≠ [])
    (hlast : isIdle last = false) : above path = [String.ofList name] := by
  simp [above, trail, h, trailFrom, hname, hlast]

end Esql.Files.Path
