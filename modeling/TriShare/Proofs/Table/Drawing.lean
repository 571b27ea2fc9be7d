import TriShare.Proofs.Table.Flaws
/-!
Which random bytes go into which value (`shareTable_drawsInOrder`). Every value is made of the next
bytes of the source, as many as it needs, and no byte is left out or used again; a bad value draws
nothing. Two tables are therefore shared one after the other as the table of both.
-/

namespace TriShare

/-! ### The bytes of a single value -/

/-- The first two parties' own components, as they are read from their texts. -/
def OwnComponents (n : Nat) (texts : Triple String) (s1 s2 : List UInt8) : Prop :=
  ∃ t s : Triple (List UInt8), Replicated.ReadAs n texts t s ∧ s.p1 = s1 ∧ s.p2 = s2

/-- The texts of a value whose random bytes are `drawn`: those of the first component and then those
of the second one, which the first two parties have for their own. The bytes of a number are drawn
in reverse. The empty text and text in the clear have none. -/
def Content.MadeOf (precision : Nat) (drawn : List UInt8) : Content → Triple String → Prop
  | .numeric text, texts => OwnComponents 8 texts (drawn.take 8).reverse (drawn.drop 8).reverse ∧
    ∃ num, FixedPoint.encode precision text = .ok num ∧
    texts = (Additive.shares (Additive.split num (UInt64.ofNat (Bytes.value (drawn.take 8)))
      (UInt64.ofNat (Bytes.value (drawn.drop 8))))).map PartyShare.text
  | .passthrough text, texts => texts = Triple.all text
  | .bytes text, texts =>
    (text ≠ "" → OwnComponents text.length texts (drawn.take text.length)
      (drawn.drop text.length)) ∧
    (text = "" → OwnComponents 1 texts [0] [0]) ∧ ∃ plain, Latin1.encode text = .ok plain ∧
    texts = (Bytewise.shares (if plain = [] then Bytewise.empty
      else Bytewise.split plain (drawn.take text.length) (drawn.drop text.length))).map
        PartyShare.text

theorem ownComponents_numeric (num : UInt64) {s1 s2 : List UInt8} (h1 : s1.length = 8)
    (h2 : s2.length = 8) :
    OwnComponents 8 ((Additive.shares (Additive.split num (UInt64.ofNat (Bytes.value s1))
      (UInt64.ofNat (Bytes.value s2)))).map PartyShare.text) s1.reverse s2.reverse :=
  ⟨_, _, Additive.readAs_shares _, Bytes.ofWord_ofNat_value h1, Bytes.ofWord_ofNat_value h2⟩

theorem Bytewise.Components.ownComponents {plain : List UInt8} {s : Triple (List UInt8)}
    (h : Components plain s) (hne : plain ≠ []) :
    OwnComponents plain.length ((shares s).map PartyShare.text) s.p1 s.p2 :=
  ⟨_, _, h.readAs hne, rfl, rfl⟩

theorem Content.madeOf_bytes {precision : Nat} {text : String} {plain s1 s2 : List UInt8}
    (h : Latin1.encode text = .ok plain) (h1 : s1.length = text.length)
    (h2 : s2.length = text.length) :
    (bytes text).MadeOf precision (s1 ++ s2) ((Bytewise.shares (if plain = [] then Bytewise.empty
      else Bytewise.split plain s1 s2)).map PartyShare.text) := by
  have hlength := Latin1.length_encode h
  have hempty : text = "" ↔ plain = [] := by
    rw [← String.length_eq_zero_iff, ← hlength, List.length_eq_zero_iff]
  rw [MadeOf, List.take_left' h1, List.drop_left' h1]
  refine ⟨fun htext => ?_, fun htext => ?_, plain, h, rfl⟩
  · have hne : plain ≠ [] := mt hempty.mpr htext
    rw [← hlength] at h1 h2 ⊢
    rw [if_neg hne]
    exact (Bytewise.components_split h1 h2).ownComponents hne
  · rw [if_pos (hempty.mp htext)]
    exact Bytewise.components_empty.ownComponents (List.cons_ne_nil _ _)

theorem Content.share_eq_ok {precision : Nat} {content : Content} {source rest : Source}
    {texts : Triple String} (h : content.share precision source = (.ok texts, rest)) :
    content.MadeOf precision (source.peek content.cost) texts ∧
      rest = source.skip content.cost := by
  cases content with
  | numeric text =>
    rw [share] at h
    cases hencode : FixedPoint.encode precision text with
    | error e => simp [hencode] at h
    | ok num =>
      simp only [hencode, Prod.mk.injEq, Except.ok.injEq] at h
      obtain ⟨rfl, rfl⟩ := h
      refine ⟨?_, rfl⟩
      rw [MadeOf, cost, source.take_peek 8 8, source.drop_peek 8 8]
      exact ⟨ownComponents_numeric num (source.length_peek 8) ((source.skip 8).length_peek 8), num,
        hencode, rfl⟩
  | passthrough text =>
    rw [share, Prod.mk.injEq, Except.ok.injEq] at h
    obtain ⟨rfl, rfl⟩ := h
    exact ⟨rfl, rfl⟩
  | bytes text =>
    rw [share] at h
    cases hencode : Latin1.encode text with
    | error found => simp [hencode] at h
    | ok plain =>
      simp only [hencode, Prod.mk.injEq, Except.ok.injEq] at h
      obtain ⟨rfl, rfl⟩ := h
      refine ⟨?_, draw_bytes hencode source⟩
      rw [cost, Nat.two_mul, source.peek_add, Bytewise.draw, Latin1.length_encode hencode]
      have hmade := @madeOf_bytes precision text plain _ _ hencode (source.length_peek _)
        ((source.skip text.length).length_peek _)
      cases plain <;> exact hmade

/-! ### The values of a table -/

namespace SharedLeaf

/-- The value of the table. -/
def spot (leaf : SharedLeaf) : Spot := ⟨leaf.outer, leaf.name, .leaf leaf.value.1⟩

end SharedLeaf

namespace Schema

variable (schema : Schema)

/-- How many bytes are drawn for values that are all shared. -/
def costOf (list : List Spot) : Nat := (list.map (Spot.cost schema)).sum

/-- The values that are shared of a table, record by record. -/
def tableSpots (table : List Record) : List Spot := table.flatMap (schema.spots [])

theorem costOf_append (list rest : List Spot) :
    schema.costOf (list ++ rest) = schema.costOf list + schema.costOf rest := by
  rw [costOf, List.map_append, List.sum_append, costOf, costOf]

end Schema

/-- Values are made of the bytes of a source in turn, each of the next ones. -/
inductive HandedOut (schema : Schema) : Source → List SharedLeaf → Source → Prop
  | nil {source : Source} : HandedOut schema source [] source
  | cons {source rest : Source} {leaf : SharedLeaf} {leaves : List SharedLeaf} {content : Content}
    (hcontent : (leaf.columnClass schema).content leaf.value.1 = .ok content)
    (hmade : content.MadeOf schema.precision (source.peek content.cost) leaf.value.2)
    (h : HandedOut schema (source.skip content.cost) leaves rest) :
    HandedOut schema source (leaf :: leaves) rest

namespace HandedOut

variable {schema : Schema} {source middle rest : Source} {leaves leaves' : List SharedLeaf}

theorem append (h : HandedOut schema source leaves middle)
    (h' : HandedOut schema middle leaves' rest) :
    HandedOut schema source (leaves ++ leaves') rest := by
  induction h with
  | nil => exact h'
  | cons hcontent hmade _ ih => exact .cons hcontent hmade (ih h')

/-- Nothing else is drawn. -/
theorem rest_eq (h : HandedOut schema source leaves rest) :
    rest = source.skip (schema.costOf (leaves.map SharedLeaf.spot)) := by
  induction h with
  | nil => rfl
  | @cons source rest leaf leaves content hcontent _ _ ih =>
    have hcost : leaf.spot.cost schema = content.cost := by
      have hspot : leaf.spot.content schema = .ok content := hcontent
      rw [Spot.cost, hspot]
    rw [ih, Source.skip_skip, List.map_cons, Schema.costOf, Schema.costOf, List.map_cons,
      List.sum_cons, hcost]

end HandedOut

/-! ### The leaves of a table and of its views -/

/-- Leaves side by side, whose texts are made of the bytes between two states of the source. -/
structure Dealt (schema : Schema) (source rest : Source) (plain : List (Leaf Scalar))
    (seen : Party → List (Leaf String)) (leaves : List SharedLeaf) : Prop where
  plain : plain = leaves.map SharedLeaf.plain
  seenBy : ∀ p, seen p = leaves.map (SharedLeaf.seenBy p)
  handedOut : HandedOut schema source leaves rest

variable {schema : Schema}

theorem Dealt.append {source middle rest : Source} {plain plain' : List (Leaf Scalar)}
    {seen seen' : Party → List (Leaf String)} {leaves leaves' : List SharedLeaf}
    (h : Dealt schema source middle plain seen leaves)
    (h' : Dealt schema middle rest plain' seen' leaves') :
    Dealt schema source rest (plain ++ plain') (fun p => seen p ++ seen' p)
      (leaves ++ leaves') where
  plain := by rw [h.plain, h'.plain, List.map_append]
  seenBy p := by rw [h.seenBy, h'.seenBy, List.map_append]
  handedOut := h.handedOut.append h'.handedOut

theorem shareScalar_dealt {outer : List String} {name : String} {x : Scalar} {source rest : Source}
    {views : Triple PartyValue}
    (h : shareScalar schema (joinPath (pathOf outer) name) (schema.classAt (pathOf outer) name) x
      source = (.ok views, rest)) :
    ∃ leaves, Dealt schema source rest [⟨outer, name, x⟩]
      (fun p => Tree.leavesAt outer name (views.get p)) leaves := by
  obtain ⟨content, texts, hcontent, hshare, rfl⟩ := shareScalar_ok.mp h
  obtain ⟨hmade, rfl⟩ := Content.share_eq_ok hshare
  refine ⟨[⟨outer, name, x, texts⟩], rfl, fun p => ?_, .cons hcontent hmade .nil⟩
  rw [Triple.get_map, Tree.leavesAt]
  rfl

mutual

theorem shareValue_dealt : ∀ {outer : List String} {name : String} {v : Value}
    {source rest : Source} {views : Triple PartyValue},
    shareValue schema (joinPath (pathOf outer) name) (schema.classAt (pathOf outer) name) v
      source = (.ok views, rest) →
    ∃ leaves, Dealt schema source rest (Tree.leavesAt outer name v)
      (fun p => Tree.leavesAt outer name (views.get p)) leaves
  | outer, name, .leaf x, source, rest, views, h => by
    rw [shareValue] at h
    rw [Tree.leavesAt]
    exact shareScalar_dealt h
  | outer, name, .node fields, source, rest, views, h => by
    obtain ⟨-, inner, hinner, rfl⟩ := shareValue_node.mp h
    rw [← pathOf_concat] at hinner
    obtain ⟨leaves, hdealt⟩ := shareFields_dealt hinner
    refine ⟨leaves, ?_⟩
    simp only [Triple.get_map, Tree.leavesAt]
    exact hdealt

/-- The leaves of a record get their bytes in order. -/
theorem shareFields_dealt : ∀ {outer : List String} {fields : List (String × Value)}
    {source rest : Source} {views : Triple PartyRecord},
    shareFields schema (pathOf outer) fields source = (.ok views, rest) →
    ∃ leaves, Dealt schema source rest (Fields.leaves outer fields)
      (fun p => Fields.leaves outer (views.get p)) leaves
  | outer, [], source, rest, views, h => by
    rw [shareFields, Prod.mk.injEq, Except.ok.injEq] at h
    obtain ⟨rfl, rfl⟩ := h
    refine ⟨[], ?_, fun p => ?_, .nil⟩
    · rw [Fields.leaves, List.map_nil]
    · rw [Triple.get_all, Fields.leaves, List.map_nil]
  | outer, (name, v) :: fields, source, rest, views, h => by
    obtain ⟨view, inner, middle, hview, hinner, rfl⟩ := shareFields_cons.mp h
    obtain ⟨leaves, hdealt⟩ := shareValue_dealt hview
    obtain ⟨leaves', hdealt'⟩ := shareFields_dealt hinner
    refine ⟨leaves ++ leaves', ?_⟩
    simp only [Triple.get_zipWith, Fields.leaves]
    exact hdealt.append hdealt'

end

theorem shareRecords_dealt : ∀ {index : Nat} {table : List Record} {source rest : Source}
    {views : Triple PartyTable}, shareRecords schema index table source = (.ok views, rest) →
    ∃ leaves, Dealt schema source rest (tableLeaves table) (fun p => tableLeaves (views.get p))
      leaves
  | _, [], source, rest, views, h => by
    rw [shareRecords, Prod.mk.injEq, Except.ok.injEq] at h
    obtain ⟨rfl, rfl⟩ := h
    refine ⟨[], rfl, fun p => ?_, .nil⟩
    rw [Triple.get_all]
    rfl
  | index, record :: table, source, rest, views, h => by
    obtain ⟨view, inner, middle, hrecord, hrecords, rfl⟩ := shareRecords_cons.mp h
    obtain ⟨leaves, hdealt⟩ := shareFields_dealt (shareRecord_ok.mp hrecord)
    obtain ⟨leaves', hdealt'⟩ := shareRecords_dealt hrecords
    refine ⟨leaves ++ leaves', ?_⟩
    simp only [Triple.get_zipWith, tableLeaves, List.flatMap_cons]
    exact hdealt.append hdealt'

/-! ### The bytes before a bad value -/

theorem Schema.drawnFor_of_none {list : List Spot} (h : schema.firstRejection list = none) :
    schema.drawnFor list = schema.costOf list := by
  induction list with
  | nil => rfl
  | cons spot list ih =>
    rw [firstRejection_cons, Option.or_eq_none_iff] at h
    rw [drawnFor, h.1, ih h.2, costOf, costOf, List.map_cons, List.sum_cons, Option.isSome_none,
      if_neg (by decide)]

/-- The first bad value of a table, with the records before its own and the values before it in its
own record. -/
structure FirstBadAfter (schema : Schema) (table done : List Record) (before : List Spot)
    (spot : Spot) (cause : FieldError) : Prop where
  split : ∃ record others after, table = done ++ record :: others ∧
    schema.spots [] record = before ++ spot :: after
  good : ∀ earlier ∈ schema.tableSpots done ++ before, ∀ cause', ¬earlier.Bad schema cause'
  bad : spot.Bad schema cause

theorem FirstBadAfter.cons {record : Record} {table done : List Record} {before : List Spot}
    {spot : Spot} {cause : FieldError} (h : FirstBadAfter schema table done before spot cause)
    (hflawless : Flawless schema record) :
    FirstBadAfter schema (record :: table) (record :: done) before spot cause where
  split := by
    obtain ⟨record', others, after, rfl, hspots⟩ := h.split
    exact ⟨record', others, after, rfl, hspots⟩
  good := by
    rw [Schema.tableSpots, List.flatMap_cons, List.append_assoc, List.forall_mem_append]
    exact ⟨hflawless, h.good⟩
  bad := h.bad

variable {index : Nat} {record : Record} {source rest : Source}

theorem shareRecord_ok_rest {views : Triple PartyRecord}
    (h : shareRecord schema index record source = (.ok views, rest)) :
    Flawless schema record ∧ rest = source.skip (schema.costOf (schema.spots [] record)) := by
  have hsound := sound_of_shareRecord h
  obtain ⟨views', hshare, -⟩ := shareRecord_of_sound hsound index source
  rw [h, Prod.mk.injEq] at hshare
  exact ⟨firstRejection_eq_none_iff.mp hsound, by rw [hshare.2, schema.drawnFor_of_none hsound]⟩

theorem shareRecord_error {error : Error}
    (h : shareRecord schema index record source = (.error error, rest)) :
    ∃ before spot cause, FirstBadAfter schema [record] [] before spot cause ∧
      error = .field index spot.path cause ∧ rest = source.skip (schema.costOf before) := by
  obtain ⟨r, hfirst, rfl⟩ := firstRejection_of_error h
  obtain ⟨spot, cause, ⟨before, after, hspots, hbefore, hbad⟩, rfl⟩ :=
    firstRejection_eq_some_iff.mp hfirst
  -- Whatever stands before the first bad value is shared, so that all it costs is drawn.
  have hsound : schema.firstRejection before = none :=
    List.findSome?_eq_none_iff.mpr fun earlier hearlier =>
      (rejection?_eq_none_iff (hspots ▸ List.mem_append_left _ hearlier)).mpr
        (hbefore earlier hearlier)
  have hmem : spot ∈ schema.spots [] record :=
    hspots ▸ List.mem_append_right _ List.mem_cons_self
  have hspot : spot.rejection? schema = some ⟨spot.path, cause⟩ :=
    (rejection?_eq_some_iff hmem).mpr ⟨cause, hbad, rfl⟩
  rw [shareRecord_of_rejected hfirst, Prod.mk.injEq] at h
  refine ⟨before, spot, cause, ⟨⟨record, [], after, rfl, hspots⟩, hbefore, hbad⟩, rfl, ?_⟩
  rw [← h.2, hspots, schema.drawnFor_append_of_none hsound, schema.drawnFor_of_none hsound,
    Schema.drawnFor, hspot, Option.isSome_some, if_pos rfl, Nat.add_zero]

/-- A bad value ends the sharing with what the values before it have drawn. -/
theorem shareRecords_error : ∀ {index : Nat} {table : List Record} {source rest : Source}
    {error : Error}, shareRecords schema index table source = (.error error, rest) →
    ∃ done before spot cause, FirstBadAfter schema table done before spot cause ∧
      error = .field (index + done.length) spot.path cause ∧
        rest = source.skip (schema.costOf (schema.tableSpots done ++ before))
  | _, [], _, _, _, h => by simp [shareRecords] at h
  | index, record :: table, source, rest, error, h => by
    rw [shareRecords] at h
    cases hrecord : shareRecord schema index record source with
    | mk result middle =>
      cases result with
      | error e =>
        simp only [hrecord, Prod.mk.injEq, Except.error.injEq] at h
        obtain ⟨rfl, rfl⟩ := h
        obtain ⟨before, spot, cause, hfirst, rfl, rfl⟩ := shareRecord_error hrecord
        obtain ⟨record', others, after, hsplit, hspots⟩ := hfirst.split
        obtain ⟨rfl, -⟩ := List.cons.inj hsplit
        exact ⟨[], before, spot, cause, ⟨⟨record, table, after, rfl, hspots⟩, hfirst.good,
          hfirst.bad⟩, rfl, rfl⟩
      | ok view =>
        -- The record is one of those before the first bad value.
        obtain ⟨hflawless, rfl⟩ := shareRecord_ok_rest hrecord
        simp only [hrecord] at h
        split at h
        · next e last hrecords =>
          simp only [Prod.mk.injEq, Except.error.injEq] at h
          obtain ⟨rfl, rfl⟩ := h
          obtain ⟨done, before, spot, cause, hfirst, rfl, rfl⟩ := shareRecords_error hrecords
          refine ⟨record :: done, before, spot, cause, hfirst.cons hflawless, ?_, ?_⟩
          · rw [List.length_cons, Nat.add_assoc, Nat.add_comm 1]
          · rw [Source.skip_skip, ← schema.costOf_append, Schema.tableSpots, Schema.tableSpots,
              List.flatMap_cons, List.append_assoc]
        · simp at h

/-! ### One table after another -/

/-- The error of a record that stands this many records later. -/
def Error.later (n : Nat) : Error → Error
  | .field record path cause => .field (record + n) path cause
  | e => e

theorem shareRecord_later (n : Nat) : shareRecord schema (index + n) record source =
    ((shareRecord schema index record source).1.mapError (Error.later n),
      (shareRecord schema index record source).2) := by
  rw [shareRecord, shareRecord]
  cases shareFields schema "" record source with
  | mk result next => cases result <;> rfl

/-- The index of the first record is in the errors only. -/
theorem shareRecords_later (n : Nat) : ∀ (table : List Record) (index : Nat) (source : Source),
    shareRecords schema (index + n) table source =
      ((shareRecords schema index table source).1.mapError (Error.later n),
        (shareRecords schema index table source).2)
  | [], _, _ => rfl
  | record :: table, index, source => by
    rw [shareRecords, shareRecords, shareRecord_later]
    cases shareRecord schema index record source with
    | mk result next =>
      cases result with
      | error e => rfl
      | ok view =>
        have ih := shareRecords_later n table (index + 1) next
        simp only [Except.mapError, Nat.add_right_comm index n 1, ih]
        cases shareRecords schema (index + 1) table next with
        | mk result last => cases result <;> rfl

/-- The records after some others are shared from what these leave of the source. -/
theorem shareRecords_append (more : List Record) : ∀ (table : List Record) (index : Nat)
    (source : Source), shareRecords schema index (table ++ more) source =
      match shareRecords schema index table source with
      | (.error e, rest) => (.error e, rest)
      | (.ok views, rest) =>
        let result := shareRecords schema (index + table.length) more rest
        (result.1.map (Triple.zipWith List.append views), result.2)
  | [], index, source => by
    rw [List.nil_append, shareRecords]
    cases h : shareRecords schema index more source with
    | mk result last => cases result <;> simp [h, Except.map, Triple.zipWith, Triple.all]
  | record :: table, index, source => by
    rw [List.cons_append, shareRecords, shareRecords]
    cases shareRecord schema index record source with
    | mk result next =>
      cases result with
      | error e => rfl
      | ok view =>
        have ih := shareRecords_append more table (index + 1) next
        simp only [ih, List.length_cons, Nat.add_assoc, Nat.add_comm 1]
        cases shareRecords schema (index + 1) table next with
        | mk result middle =>
          cases result with
          | error e => rfl
          | ok views =>
            simp only
            cases shareRecords schema (index + (table.length + 1)) more middle with
            | mk result last => cases result <;> rfl

/-! ### Tables -/

/-- Sharing a table draws for its values in their order, and for nothing else. -/
structure DrawsInOrder (schema : Schema) (table : List Record) (source : Source) : Prop where
  /-- Where the table is shared, each leaf in turn is made of the next bytes, and what all of them
  cost is drawn. -/
  shared : ∀ views rest, shareTable schema table source = (.ok views, rest) → ∃ leaves,
    Dealt schema source rest (tableLeaves table) (fun p => tableLeaves (views.get p)) leaves ∧
      rest = source.skip (schema.costOf (leaves.map SharedLeaf.spot))
  /-- Where it is not, what the values before the first bad one cost is drawn. -/
  rejected : ∀ error rest, shareTable schema table source = (.error error, rest) →
    ∃ done before spot cause, FirstBadAfter schema table done before spot cause ∧
      error = .field done.length spot.path cause ∧
        rest = source.skip (schema.costOf (schema.tableSpots done ++ before))
  /-- More records are shared from the rest of the source, as a table of their own, and each party's
  views are put after those before them. Their error says how many records there are before them. -/
  appended : ∀ more, shareTable schema (table ++ more) source =
    match shareTable schema table source with
    | (.error error, rest) => (.error error, rest)
    | (.ok views, rest) =>
      match shareTable schema more rest with
      | (.error error, last) => (.error (error.later table.length), last)
      | (.ok views', last) => (.ok (Triple.zipWith List.append views views'), last)

/-- Every byte of the source is drawn for one value only, and tables can be shared in parts. -/
theorem shareTable_drawsInOrder (schema : Schema) (table : List Record) (source : Source) :
    DrawsInOrder schema table source where
  shared views rest h := by
    obtain ⟨leaves, hdealt⟩ := shareRecords_dealt h
    exact ⟨leaves, hdealt, hdealt.handedOut.rest_eq⟩
  rejected error rest h := by
    obtain ⟨done, before, spot, cause, hfirst, herror, hrest⟩ := shareRecords_error h
    rw [Nat.zero_add] at herror
    exact ⟨done, before, spot, cause, hfirst, herror, hrest⟩
  appended more := by
    rw [shareTable, shareTable, shareRecords_append]
    cases shareRecords schema 0 table source with
    | mk result rest =>
      cases result with
      | error error => rfl
      | ok views =>
        simp only [shareTable, shareRecords_later table.length more 0 rest]
        cases shareRecords schema 0 more rest with
        | mk result last => cases result <;> rfl

/-- Four bytes are drawn for the code, and nothing for the date. -/
example : (shareTable receiptSchema
    [[("code", .leaf (.text "ab"))], [("date", .leaf .null), ("note", .leaf (.text "ab"))]]
    (.ofTape receiptTape)).2 = ⟨receiptTape, 4⟩ := rfl

end TriShare
