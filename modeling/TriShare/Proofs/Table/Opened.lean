import TriShare.Proofs.Record.Leaves
import TriShare.Proofs.Table.Opening
import TriShare.Table.Open
/-!
What is opened from the views of a table does not depend on the randomness with which it was shared:
`exists_openTables?` gives what it opens to before the views are known.
-/

namespace TriShare

variable {schema : Schema} {outer : List String}

/-! ### Single values -/

theorem halves?_of_readsAs {n : Nat} {text : String} {t s : List UInt8}
    (h : PartyShare.ReadsAs n text t s) : Opened.halves? text = some (t, s) := by
  obtain ⟨share, hparse, -, -, ht, hs⟩ := h
  simp only [Opened.halves?, hparse, ht, hs]

theorem gather?_of_readAs {n : Nat} {texts : Triple String} {t s : Triple (List UInt8)}
    (h : Replicated.ReadAs n texts t s) : Opened.gather? texts = some (t, s) := by
  have h1 : Opened.halves? texts.p1 = some (t.p1, s.p1) := halves?_of_readsAs (h .first)
  have h2 : Opened.halves? texts.p2 = some (t.p2, s.p2) := halves?_of_readsAs (h .second)
  have h3 : Opened.halves? texts.p3 = some (t.p3, s.p3) := halves?_of_readsAs (h .third)
  simp only [Opened.gather?, h1, h2, h3]

/-- What the parties hold twice is what the components give. -/
theorem Replicated.Opens.eq_redundant {α : Type} {combine : α → α → α} {value : α} {t s : Triple α}
    (h : Opens combine value t s) : t = redundant combine s := by
  obtain ⟨t1, t2, t3⟩ := t
  have h1 : t1 = combine s.p1 s.p3 := h.first
  have h2 : t2 = combine s.p1 s.p2 := h.second
  have h3 : t3 = combine s.p2 s.p3 := h.third
  rw [redundant, h1, h2, h3]

theorem exists_ofTexts? (precision : Nat) {c : ColumnClass} {x : Scalar} {content : Content}
    (h : c.content x = .ok content) : ∃ opened, ∀ texts, content.OpensTo precision texts →
      Opened.ofTexts? precision c texts = some opened := by
  cases content with
  | numeric text =>
    cases hencode : FixedPoint.encode precision text with
    | error e =>
      refine ⟨.plain "" true, ?_⟩
      rintro texts ⟨num, hnum, -⟩
      cases hencode.symm.trans hnum
    | ok num =>
      refine ⟨.number num (FixedPoint.decode precision num) true, ?_⟩
      rintro texts ⟨num', hnum', t, s, hopens, hread⟩
      rw [hencode, Except.ok.injEq] at hnum'
      subst hnum'
      have hsum : Additive.reconstruct (s.map Bytes.toWord) = num := hopens.components
      have hsame : t.map Bytes.toWord = Additive.redundant (s.map Bytes.toWord) :=
        hopens.eq_redundant
      rw [ColumnClass.eq_of_content h]
      simp [Content.columnClass, Opened.ofTexts?, gather?_of_readAs hread, hsum, hsame]
  | passthrough text =>
    refine ⟨.plain text true, ?_⟩
    rintro texts rfl
    rw [ColumnClass.eq_of_content h]
    simp [Content.columnClass, Opened.ofTexts?, Triple.all]
  | bytes text =>
    cases hencode : Latin1.encode text with
    | error e =>
      refine ⟨.plain "" true, ?_⟩
      rintro texts ⟨plain, hplain, -⟩
      cases hencode.symm.trans hplain
    | ok plain =>
      refine ⟨.text (Latin1.decode (Bytewise.shown plain)) true, ?_⟩
      rintro texts ⟨plain', hplain', t, s, hopens, hread⟩
      rw [hencode, Except.ok.injEq] at hplain'
      subst hplain'
      have hplain : Bytewise.reconstruct s = Bytewise.shown plain := hopens.components
      have hsame : t = Bytewise.redundant s := hopens.eq_redundant
      rw [ColumnClass.eq_of_content h]
      simp [Content.columnClass, Opened.ofTexts?, gather?_of_readAs hread, hplain, hsame]

/-! ### Records -/

mutual

theorem exists_openValue? (schema : Schema) : ∀ (outer : List String) (name : String) (v : Value),
    ∃ opened, ∀ views, ValueViews (LeafOpens schema) outer name v views →
      openValue? schema (joinPath (pathOf outer) name) (schema.classAt (pathOf outer) name)
        views.p1 views.p2 views.p3 = some opened
  | outer, name, .leaf x => by
    cases hcontent : (schema.classAt (pathOf outer) name).content x with
    | error e =>
      refine ⟨.node [], fun views hviews => ?_⟩
      rw [ValueViews] at hviews
      obtain ⟨texts, -, content, hcontent', -⟩ := hviews
      cases hcontent.symm.trans hcontent'
    | ok content =>
      obtain ⟨opened, hopened⟩ := exists_ofTexts? schema.precision hcontent
      refine ⟨.leaf opened, fun views hviews => ?_⟩
      rw [ValueViews] at hviews
      obtain ⟨texts, rfl, content', hcontent', hopens⟩ := hviews
      rw [hcontent, Except.ok.injEq] at hcontent'
      subst hcontent'
      have htexts := hopened texts hopens
      simp only [Triple.map, openValue?]
      rw [htexts, Option.map_some]
  | outer, name, .node fields => by
    obtain ⟨opened, hopened⟩ := exists_openFields? schema (outer ++ [name]) fields
    refine ⟨.node opened, fun views hviews => ?_⟩
    rw [ValueViews] at hviews
    obtain ⟨inner, rfl, hinner⟩ := hviews
    have hfields := hopened inner hinner
    rw [pathOf_concat] at hfields
    simp only [Triple.map, openValue?]
    rw [hfields, Option.map_some]

/-- What a record opens to is known before it is shared. -/
theorem exists_openFields? (schema : Schema) : ∀ (outer : List String)
    (fields : List (String × Value)), ∃ opened, ∀ views,
      FieldViews (LeafOpens schema) outer fields views →
        openFields? schema (pathOf outer) views.p1 views.p2 views.p3 = some opened
  | _, [] => by
    refine ⟨[], fun views hviews => ?_⟩
    rw [FieldViews] at hviews
    rw [hviews, Triple.all, openFields?]
  | outer, (name, v) :: rest => by
    obtain ⟨first, hfirst⟩ := exists_openValue? schema outer name v
    obtain ⟨others, hothers⟩ := exists_openFields? schema outer rest
    refine ⟨(name, first) :: others, fun views hviews => ?_⟩
    rw [FieldViews] at hviews
    obtain ⟨view, inner, rfl, hview, hinner⟩ := hviews
    simp only [Triple.zipWith, openFields?, hfirst view hview, hothers inner hinner, and_self,
      if_true]

end

/-- What a table opens to is known before it is shared. -/
theorem exists_openTables? (schema : Schema) (records : List Record) : ∃ opened,
    ∀ rows, List.Forall₂ (FieldViews (LeafOpens schema) []) records rows →
      openTables? schema (rows.map Triple.p1) (rows.map Triple.p2) (rows.map Triple.p3) =
        some opened := by
  induction records with
  | nil =>
    refine ⟨[], fun rows hrows => ?_⟩
    cases hrows
    rfl
  | cons record records ih =>
    obtain ⟨first, hfirst⟩ := exists_openFields? schema [] record
    obtain ⟨others, hothers⟩ := ih
    refine ⟨first :: others, fun rows hrows => ?_⟩
    cases hrows with
    | cons hrow hrest =>
      have hfields : openFields? schema "" _ _ _ = some first := hfirst _ hrow
      simp only [List.map_cons, openTables?, hfields, hothers _ hrest]

end TriShare
