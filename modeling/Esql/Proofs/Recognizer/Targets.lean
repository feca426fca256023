import Esql.Proofs.Grammar.Unfolding

/-!
# `Proofs.Recognizer.Targets` — what the scan for an assignment target finds

A field may begin with a name and `=`. The recognizer scans for them, token by token; `Targets` is what it
scans. The scan finds every target, and nothing else, however it is limited by the length of the text
(`target?_eq_some_iff`); and a target is the phrase that the grammar says (`targets_iff_derives`).
-/

namespace Esql.Syntax

variable {mode : Mode} {wanted : List Terminal} {a b c d : Cursor}

/-! ## What is taken is not nothing -/

/-- A token of which the end of the text is no instance. -/
theorem text_ne_nil {token : Token} (h : a.next mode = .ok token) (hamong : token.isAmong wanted = true)
    (hend : wanted.contains (.kind .endOfText) = false) : token.text ≠ [] := by
  intro htext
  have hkind := (kind_eq_endOfText_iff h).mpr htext
  obtain ⟨t, ht, haccepts⟩ := List.any_eq_true.mp hamong
  cases t with
  | kind k =>
      obtain rfl : token.kind = k := by simpa [Terminal.accepts] using haccepts
      rw [hkind] at ht
      rw [List.contains_iff_mem.mpr ht] at hend
      cases hend
  | word w =>
      have hword := isWord_of_keyword h (w := w) (by simpa [Terminal.accepts] using haccepts)
      rw [hkind] at hword
      cases hword
  | name => simp [Terminal.accepts, hkind] at haccepts

theorem finish_length_lt {token : Token} (h : a.next mode = .ok token) (htext : token.text ≠ []) :
    token.finish.rest.length < a.rest.length := by
  obtain ⟨gap, hgap⟩ := next_ok h
  have hpos : 0 < token.text.length := List.length_pos_iff.mpr htext
  rw [hgap.text]
  change token.rest.length < _
  simp only [List.length_append]
  omega

theorem Takes.length_lt (h : Takes mode wanted a b) (hend : wanted.contains (.kind .endOfText) = false) :
    b.rest.length < a.rest.length := by
  obtain ⟨token, hnext, hamong, rfl⟩ := h
  exact finish_length_lt hnext (text_ne_nil hnext hamong hend)

/-! ## Targets -/

/-- A name, part by part, and the `=` behind it. -/
inductive Targets : Cursor → Cursor → Prop where
  | last {a b c : Cursor} : Takes .expression [.name, .kind .quotedIdentifier] a b →
      Takes .expression [.kind .assign] b c → Targets a c
  | more {a b c d : Cursor} : Takes .expression [.name, .kind .quotedIdentifier] a b →
      Takes .expression [.kind .dot] b c → Targets c d → Targets a d

theorem Targets.length_lt (h : Targets a d) : d.rest.length < a.rest.length := by
  induction h with
  | last hname hassign =>
      have := hname.length_lt rfl
      have := hassign.length_lt rfl
      omega
  | more hname hdot _ ih =>
      have := hname.length_lt rfl
      have := hdot.length_lt rfl
      omega

theorem takes_kind_iff {k : Kind} :
    Takes mode [.kind k] a b ↔ ∃ token, a.next mode = .ok token ∧ token.kind = k ∧ token.finish = b := by
  simp [Takes, Token.isAmong, Terminal.accepts]

theorem targets_of_scan {chars : List Char} (h : Cursor.target? chars a = some d) : Targets a d := by
  induction chars generalizing a with
  | nil => cases h
  | cons _ chars ih =>
      unfold Cursor.target? at h
      cases hpart : a.next .expression with
      | error e => simp [hpart] at h
      | ok part =>
          simp only [hpart] at h
          by_cases hname : part.isAmong [.name, .kind .quotedIdentifier] = true
          · rw [if_pos hname] at h
            have htakes : Takes .expression [.name, .kind .quotedIdentifier] a part.finish :=
              ⟨part, hpart, hname, rfl⟩
            cases htoken : part.finish.next .expression with
            | error e => simp [htoken] at h
            | ok token =>
                simp only [htoken] at h
                by_cases hdot : token.kind = .dot
                · rw [if_pos hdot] at h
                  exact .more htakes (takes_kind_iff.mpr ⟨token, htoken, hdot, rfl⟩) (ih h)
                · rw [if_neg hdot] at h
                  by_cases hassign : token.kind = .assign
                  · rw [if_pos hassign] at h
                    cases h
                    exact .last htakes (takes_kind_iff.mpr ⟨token, htoken, hassign, rfl⟩)
                  · rw [if_neg hassign] at h
                    cases h
          · rw [if_neg hname] at h
            cases h

/-- The scan is long enough where it may read as many parts as characters follow. -/
theorem scan_of_targets {chars : List Char} (h : Targets a d) (hlength : a.rest.length ≤ chars.length) :
    Cursor.target? chars a = some d := by
  induction h generalizing chars with
  | @last a b c hname hassign =>
      have hlt := hname.length_lt rfl
      obtain ⟨part, hpart, hamong, rfl⟩ := hname
      obtain ⟨token, htoken, hkind, rfl⟩ := takes_kind_iff.mp hassign
      cases chars with
      | nil => exact absurd hlength (by simp only [List.length_nil]; omega)
      | cons _ chars => simp [Cursor.target?, hpart, hamong, htoken, hkind]
  | @more a b c d hname hdot htargets ih =>
      have hlt := hname.length_lt rfl
      have hlt' := hdot.length_lt rfl
      obtain ⟨part, hpart, hamong, rfl⟩ := hname
      obtain ⟨token, htoken, hkind, rfl⟩ := takes_kind_iff.mp hdot
      cases chars with
      | nil => exact absurd hlength (by simp only [List.length_nil]; omega)
      | cons _ chars =>
          have hrest : Cursor.target? chars token.finish = some d :=
            ih (by simp only [List.length_cons] at hlength; omega)
          simp [Cursor.target?, hpart, hamong, htoken, hkind, hrest]

/-- **What the scan finds.** -/
theorem target?_eq_some_iff : Cursor.target? a.rest a = some d ↔ Targets a d :=
  ⟨targets_of_scan, fun h => scan_of_targets h (Nat.le_refl _)⟩

theorem identifier_iff {n : Nat} :
    Derives n (.part .identifier) a b ↔ Takes .expression [.name, .kind .quotedIdentifier] a b := by
  rw [derives_part_iff, Category.production, derives_token_iff]

theorem targets_of_parts {n : Nat} {phrase : Phrase} (h : Derives n phrase b c)
    (hphrase : phrase = .many (.both (.mark .dot) (.part .identifier)))
    (hname : Takes .expression [.name, .kind .quotedIdentifier] a b)
    (hassign : Takes .expression [.kind .assign] c d) : Targets a d := by
  induction h generalizing a with
  | done => exact .last hname hassign
  | more hpart _ _ ih =>
      obtain ⟨rfl⟩ := Phrase.many.inj hphrase
      obtain ⟨e, hdot, hpart⟩ := derives_token_both_iff.mp hpart
      exact .more hname hdot (ih rfl (identifier_iff.mp hpart) hassign)
  | _ => cases hphrase

/-- A target is a name and `=`. -/
theorem targets_iff_derives {n : Nat} :
    Targets a d ↔ ∃ c, Derives n (.part .name) a c ∧ Takes .expression [.kind .assign] c d := by
  constructor
  · intro h
    induction h with
    | last hname hassign =>
        refine ⟨_, ?_, hassign⟩
        rw [derives_part_iff, Category.production, derives_list_iff]
        exact .both (identifier_iff.mpr hname) (.other .empty)
    | more hname hdot _ ih =>
        obtain ⟨c, hrest, hassign⟩ := ih
        refine ⟨c, ?_, hassign⟩
        rw [derives_part_iff, Category.production, derives_list_iff]
        refine .both (identifier_iff.mpr hname) (.one ?_)
        exact derives_token_both_iff.mpr ⟨_, hdot, (derives_part_iff _ _).mp hrest⟩
  · rintro ⟨c, hname, hassign⟩
    rw [derives_part_iff, Category.production] at hname
    obtain ⟨b, hfirst, hparts⟩ := derives_both_iff.mp hname
    exact targets_of_parts hparts rfl (identifier_iff.mp hfirst) hassign

/-! ## No condition is a target

Where a target stands, a condition can be read no further than some part of the name: what follows it is a
dot or the `=`, and these stand in front of nothing that a condition goes on with. -/

/-- What follows a part of a name in a target. -/
def joints : List Terminal := [.kind .dot, .kind .assign]

theorem Targets.split (h : Targets a d) :
    ∃ b, Takes .expression [.name, .kind .quotedIdentifier] a b ∧ Sees .expression joints b ∧
      ∀ c, Takes .expression [.kind .dot] b c → Targets c d := by
  cases h with
  | last hname hassign =>
      refine ⟨_, hname, hassign.sees.mono (by decide), fun c hdot => ?_⟩
      exact absurd hassign.sees (hdot.not_sees (by decide))
  | more hname hdot hrest =>
      refine ⟨_, hname, hdot.sees.mono (by decide), fun c hdot' => ?_⟩
      obtain ⟨token, hnext, -, rfl⟩ := hdot
      obtain ⟨token', hnext', -, rfl⟩ := hdot'
      obtain rfl : token' = token := Except.ok.inj (hnext'.symm.trans hnext)
      exact hrest

/-- No phrase of the category is read beyond a part of a name in a target. -/
def Category.StaysInTarget (category : Category) : Prop :=
  ∀ ⦃n a b d⦄, Targets a d → Derives n (.part category) a b → Sees .expression joints b

theorem Targets.name_sees (h : Targets a d) : Sees .expression [.name, .kind .quotedIdentifier] a := by
  obtain ⟨b, hname, -⟩ := h.split
  exact hname.sees

theorem takes_unique (h : Takes mode wanted a b) {others : List Terminal} (h' : Takes mode others a c) :
    c = b := by
  obtain ⟨token, hnext, -, rfl⟩ := h
  obtain ⟨token', hnext', -, rfl⟩ := h'
  obtain rfl : token' = token := Except.ok.inj (hnext'.symm.trans hnext)
  rfl

theorem name_parts_stay {n : Nat} {phrase : Phrase} (h : Derives n phrase b c)
    (hphrase : phrase = .many (.both (.mark .dot) (.part .identifier))) (hsees : Sees .expression joints b)
    (hrest : ∀ c, Takes .expression [.kind .dot] b c → Targets c d) : Sees .expression joints c := by
  induction h with
  | done => exact hsees
  | more hpart _ _ ih =>
      obtain ⟨rfl⟩ := Phrase.many.inj hphrase
      obtain ⟨e, hdot, hpart⟩ := derives_token_both_iff.mp hpart
      obtain ⟨f, hname, hsees', hrest'⟩ := (hrest e hdot).split
      obtain rfl := takes_unique hname (identifier_iff.mp hpart)
      exact ih rfl hsees' hrest'
  | _ => cases hphrase

theorem name_stays : Category.name.StaysInTarget := by
  intro n a b d htarget h
  obtain ⟨c, hfirst, hparts⟩ := derives_both_iff.mp ((derives_part_iff _ _).mp h)
  obtain ⟨e, hname, hsees, hrest⟩ := htarget.split
  obtain rfl := takes_unique hname (identifier_iff.mp hfirst)
  exact name_parts_stay hparts rfl hsees hrest

/-- A list of phrases that stay in a target stays there, since it does not go on behind the first. -/
theorem list_stays {category element : Category} {separators : List Terminal}
    (hproduction : category.production = .list (.part element) (.token .expression separators))
    (hexcludes : ∀ t ∈ separators, ∀ u ∈ joints, t.excludes u = true) (helement : element.StaysInTarget) :
    category.StaysInTarget := by
  intro n a b d htarget h
  rw [derives_part_iff, hproduction, derives_list_iff] at h
  simp only [Phrase.optional, derives_part_both_iff, derives_either_iff, derives_token_both_iff,
    derives_empty_iff] at h
  obtain ⟨c, hfirst, ⟨e, hseparator, -⟩ | rfl⟩ := h
  · exact absurd (helement htarget hfirst) (hseparator.not_sees hexcludes)
  · exact helement htarget hfirst

theorem primary_stays : Category.primary.StaysInTarget := by
  intro n a b d htarget h
  have hsees := htarget.name_sees
  simp [derives_part_iff .primary a, Category.production, identifier_iff] at h
  rcases h with ⟨c, hparen, -⟩ | h | ⟨c, hname, e, hparen, -⟩ | h
  · exact absurd hsees (hparen.not_sees (by decide))
  · exact absurd hsees ((literal_sees h).not_sees (by decide))
  · obtain ⟨f, hname', hjoint, -⟩ := htarget.split
    obtain rfl := takes_unique hname' hname
    exact absurd hjoint (hparen.not_sees (by decide))
  · exact name_stays htarget h

theorem unary_stays : Category.unary.StaysInTarget := by
  intro n a b d htarget h
  simp [derives_part_iff .unary a, Category.production] at h
  rcases h with ⟨c, hsign, -⟩ | ⟨c, hprimary, hcasts⟩
  · exact absurd htarget.name_sees (hsign.not_sees (by decide))
  · have hjoint := primary_stays htarget hprimary
    rw [derives_many_iff] at hcasts
    simp at hcasts
    rcases hcasts with rfl | ⟨e, hcast, -⟩
    · exact hjoint
    · exact absurd hjoint (hcast.not_sees (by decide))

theorem value_stays : Category.value.StaysInTarget := by
  intro n a b d htarget h
  have hproduct : Category.product.StaysInTarget := list_stays rfl (by decide) unary_stays
  have hsum : Category.sum.StaysInTarget := list_stays rfl (by decide) hproduct
  simp [derives_part_iff .value a, Category.production] at h
  obtain ⟨c, hfirst, ⟨e, hcompares, -⟩ | rfl⟩ := h
  · exact absurd (hsum htarget hfirst) (hcompares.not_sees (by decide))
  · exact hsum htarget hfirst

theorem predicate_stays : Category.predicate.StaysInTarget := by
  intro n a b d htarget h
  simp [derives_part_iff .predicate a, Category.production] at h
  obtain ⟨c, hvalue, h⟩ := h
  have hjoint := value_stays htarget hvalue
  rcases h with ((⟨e, h, -⟩ | ⟨e, h, -⟩) | (⟨e, h, -⟩ | ⟨e, h, -⟩) | ⟨e, h, -⟩ | ⟨e, h, -⟩) | rfl
  case inr => exact hjoint
  all_goals exact absurd hjoint (h.not_sees (by decide))

theorem boolean_stays : Category.boolean.StaysInTarget := by
  have hnegation : Category.negation.StaysInTarget := by
    intro n a b d htarget h
    simp [derives_part_iff .negation a, Category.production] at h
    rcases h with ⟨c, hnot, -⟩ | h
    · exact absurd htarget.name_sees (hnot.not_sees (by decide))
    · exact predicate_stays htarget h
  have hconjunction : Category.conjunction.StaysInTarget := list_stays rfl (by decide) hnegation
  exact list_stays rfl (by decide) hconjunction

end Esql.Syntax
