import Tilbo.Index.Search
import Tilbo.Lib.Prepared

/-! # The text of a search

The statements that `Search` puts together, with their arguments. The text depends on the shape of a query alone:
names, keys, values and search words are arguments, each in the place that is meant for it. -/

namespace Tilbo.Index.SearchText

open Tilbo.Index.Search Tilbo.Lib.Prepared Tilbo.Lib.Strings

/-- A query, with the vector of a semantic search. -/
structure Query extends SearchParams where
  vectorQuery : List UInt32 := []

/-- An argument, by what it stands for. -/
inductive Arg where
  | fts (query : String)
  | tag (name : String)
  | mtime (since : ℤ)
  | path (path : String)
  | key (key : String)
  | value (value : String)
  | pattern (pattern : String)
  | number (value : String)
  | limit (n : ℕ)
  | offset (n : ℕ)
  | vector (v : List UInt32)
  | neighbours (k : ℕ)
deriving DecidableEq, Repr

/-! ### The `WHERE` clause -/

/-- The columns, the tables and the full-text query. -/
def fromClause (p : SearchParams) : Stmt Arg :=
  if p.ftsQuery ≠ "" then
    ⟨"SELECT f.id, f.path, f.mtime, f.size_bytes, fts.rank FROM files f" ++
      " JOIN metadata m ON m.file_id = f.id\n" ++
      "\t\t\tJOIN metadata_fts fts ON fts.rowid = m.rowid\n" ++
      "\t\t\tWHERE fts.value MATCH ?",
      [.fts p.ftsQuery]⟩
  else ⟨"SELECT f.id, f.path, f.mtime, f.size_bytes, 0.0 as rank FROM files f WHERE 1=1", []⟩

/-- `Tags`. -/
def tagInclude (p : SearchParams) : Stmt Arg :=
  if p.tags = [] then .empty
  else if p.tagsAny then
    ⟨" AND f.id IN (\n" ++
      "\t\t\t\tSELECT DISTINCT ft.file_id FROM file_tags ft\n" ++
      "\t\t\t\tJOIN tags t ON t.id = ft.tag_id\n" ++
      "\t\t\t\tWHERE t.name IN (" ++
      placeholders p.tags.length ++ "))", p.tags.map .tag⟩
  else
    ⟨" AND f.id IN (\n" ++
      "\t\t\t\tSELECT ft.file_id FROM file_tags ft\n" ++
      "\t\t\t\tJOIN tags t ON t.id = ft.tag_id\n" ++
      "\t\t\t\tWHERE t.name IN (" ++
      placeholders p.tags.length ++ (")\n" ++
      "\t\t\t\tGROUP BY ft.file_id\n" ++
      "\t\t\t\tHAVING COUNT(DISTINCT t.name) = " ++
      toString p.tags.length ++ ")"), p.tags.map .tag⟩

/-- `TagExclude`. -/
def tagExclude (p : SearchParams) : Stmt Arg :=
  if p.tagExclude = [] then .empty
  else
    ⟨" AND NOT EXISTS (\n" ++
      "\t\t\tSELECT 1 FROM file_tags ft JOIN tags t ON t.id = ft.tag_id\n" ++
      "\t\t\tWHERE ft.file_id = f.id AND t.name IN (" ++
      placeholders p.tagExclude.length ++ "))", p.tagExclude.map .tag⟩

/-- `MtimeSince`. -/
def mtimeSince (p : SearchParams) : Stmt Arg :=
  if p.mtimeSince > 0 then ⟨" AND f.mtime >= ?", [.mtime p.mtimeSince]⟩ else .empty

/-- `Untagged`. -/
def untagged (p : SearchParams) : Stmt Arg :=
  if p.untagged then ⟨" AND NOT EXISTS (SELECT 1 FROM file_tags ft WHERE ft.file_id = f.id)", []⟩ else .empty

/-- The pseudo-filter `__path__`. -/
def pathFilter (p : SearchParams) : Stmt Arg :=
  match p.metaFilters.get? "__path__" with
  | some pf => ⟨" AND f.path = ?", [.path (cut ':' pf).2.1]⟩
  | none => .empty

/-- `sqlOp`. -/
def sqlOp (op : String) : String :=
  if op = "gt" then ">" else if op = "gte" then ">=" else if op = "lt" then "<" else "<="

/-- The condition of a metadata filter, with the argument for its value; an unknown operator is skipped. -/
def condition (op val : String) : Option (String × Arg) :=
  if op = "eq" ∨ op = "" then
    some ("AND EXISTS (SELECT 1 FROM metadata WHERE file_id = f.id AND key = ? AND value = ?)", .value val)
  else if op = "contains" then
    some ("AND EXISTS (SELECT 1 FROM metadata WHERE file_id = f.id AND key = ? AND value LIKE ?)",
      .pattern ("%" ++ val ++ "%"))
  else if op = "gt" ∨ op = "gte" ∨ op = "lt" ∨ op = "lte" then
    some ("AND EXISTS (SELECT 1 FROM metadata WHERE file_id = f.id AND key = ? AND CAST(value AS REAL) " ++
      sqlOp op ++ " ?)", .number val)
  else none

/-- One iteration of `applyMetaFilters`. -/
def metaFilter (kv : String × String) : Stmt Arg :=
  if kv.1 = "__path__" then .empty
  else match condition (cut ':' kv.2).1 (cut ':' kv.2).2.1 with
    | some (cond, arg) => ⟨" " ++ cond, [.key kv.1, arg]⟩
    | none => .empty

/-- `applyMetaFilters`; the filters come in the order in which the range over the map visits them. -/
def applyMetaFilters (filters : List (String × String)) : Stmt Arg :=
  (filters.map metaFilter).foldr Stmt.followedBy .empty

/-- What comes before the metadata filters. -/
def base (p : SearchParams) : Stmt Arg :=
  ((((fromClause p).followedBy (tagInclude p)).followedBy (tagExclude p)).followedBy (mtimeSince p)).followedBy
    (untagged p) |>.followedBy (pathFilter p)

/-- Everything before the order. -/
def selection (p : SearchParams) (filters : List (String × String)) : Stmt Arg :=
  (base p).followedBy (applyMetaFilters filters)

/-! ### The order -/

/-- The direction of a sort specification. -/
def direction (dir : String) : String :=
  let dir := if dir = "" then "asc" else dir
  let dir := String.ofList (dir.toList.map upperChar)
  if dir ≠ "ASC" ∧ dir ≠ "DESC" then "ASC" else dir

/-- One sort specification; an unknown column is dropped. -/
def orderClause (spec : String) : Option String :=
  let (col, dir, _) := cut ':' spec
  if col = "mtime" then some ("f.mtime " ++ direction dir)
  else if col = "name" then some ("f.path " ++ direction dir)
  else if col = "size" then some ("f.size_bytes " ++ direction dir)
  else none

/-- `buildOrderClauses`. -/
def buildOrderClauses (sortBy : List String) : List String := sortBy.filterMap orderClause

/-- The text after `ORDER BY`. -/
def orderBy (p : SearchParams) : String :=
  if buildOrderClauses p.sortBy ≠ [] then ", ".intercalate (buildOrderClauses p.sortBy)
  else if p.ftsQuery ≠ "" then "fts.rank" else "f.mtime DESC"

/-! ### The statements -/

/-- `countQuery`. -/
def countQuery (p : SearchParams) (filters : List (String × String)) : Stmt Arg :=
  ⟨"SELECT COUNT(*) FROM (" ++ (selection p filters).text ++ ")", (selection p filters).args⟩

/-- No limit means 50. -/
def limitOf (p : SearchParams) : ℕ := if p.limit = 0 then 50 else p.limit

/-- The query for the page. -/
def pageQuery (p : SearchParams) (filters : List (String × String)) : Stmt Arg :=
  ⟨(selection p filters).text ++ " ORDER BY " ++ orderBy p ++ " LIMIT ? OFFSET ?",
    (selection p filters).args ++ [.limit (limitOf p), .offset p.offset]⟩

/-- `KNNSearch`. -/
def knnQuery (vec : List UInt32) (k : ℕ) (filterTags : List String) : Stmt Arg :=
  if filterTags = [] then
    ⟨"SELECT fe.file_id, f.path, fe.distance\n" ++
      "\t\t\tFROM file_embeddings fe\n" ++
      "\t\t\tJOIN files f ON f.id = fe.file_id\n" ++
      "\t\t\tWHERE fe.embedding MATCH ? AND k = ?\n" ++
      "\t\t\tORDER BY fe.distance",
      [.vector vec, .neighbours k]⟩
  else
    ⟨"SELECT fe.file_id, f.path, fe.distance\n" ++
      "\t\t\tFROM file_embeddings fe\n" ++
      "\t\t\tJOIN files f ON f.id = fe.file_id\n" ++
      "\t\t\tWHERE fe.embedding MATCH ? AND k = ? AND fe.file_id IN (\n" ++
      ("\t\t\t\tSELECT ft.file_id\n" ++
      "\t\t\t\tFROM file_tags ft\n" ++
      "\t\t\t\tJOIN tags t ON t.id = ft.tag_id\n" ++
      "\t\t\t\tWHERE t.name IN (" ++
      placeholders filterTags.length ++ (")\n" ++
      "\t\t\t\tGROUP BY ft.file_id\n" ++
      "\t\t\t\tHAVING COUNT(DISTINCT t.name) = " ++
      toString filterTags.length ++ "\n" ++
      "\t\t\t)\n" ++
      "\t\t\tORDER BY fe.distance")),
      [.vector vec, .neighbours (k * 10)] ++ filterTags.map .tag⟩

/-- The tags a semantic search asks for: none if anything else is asked for. -/
def filterTags (p : SearchParams) : List String :=
  if p.tagsAny = false ∧ p.tagExclude = [] ∧ p.metaFilters.pairs = [] ∧ p.ftsQuery = "" ∧ p.mtimeSince = 0 ∧
    p.untagged = false then p.tags else []

/-- The statements of a search, before those for each of its results. -/
def statements (q : Query) (filters : List (String × String)) : List (Stmt Arg) :=
  if q.vectorQuery ≠ [] then
    -- A vector of another dimension is an error.
    if q.vectorQuery.length = 384 then
      [knnQuery q.vectorQuery (limitOf q.toSearchParams + q.offset) (filterTags q.toSearchParams)]
    else []
  else [countQuery q.toSearchParams filters, pageQuery q.toSearchParams filters]

/-! ### The places of the arguments -/

/-- What stands right before the placeholder of an argument. -/
def contexts : Arg → List String
  | .fts _ => ["fts.value MATCH "]
  | .tag _ => ["t.name IN (", ","]
  | .mtime _ => ["f.mtime >= "]
  | .path _ => ["f.path = "]
  | .key _ => ["key = "]
  | .value _ => ["value = "]
  | .pattern _ => ["value LIKE "]
  | .number _ =>
    ["CAST(value AS REAL) > ", "CAST(value AS REAL) >= ", "CAST(value AS REAL) < ", "CAST(value AS REAL) <= "]
  | .limit _ => [" LIMIT "]
  | .offset _ => [" OFFSET "]
  | .vector _ => ["fe.embedding MATCH "]
  | .neighbours _ => ["k = "]

/-- The argument belongs after the text. -/
def Fits (s : List Char) (a : Arg) : Prop := ∃ ctx ∈ contexts a, ctx.toList <:+ s

/-- The placeholders of the statement are those of its arguments, in order. -/
def Stmt.Fitting (s : Stmt Arg) : Prop := Bound Fits s.text.toList s.args

theorem fits_after {r s : List Char} {a : Arg} (h : Fits s a) : Fits (r ++ s) a := by
  obtain ⟨ctx, hctx, hs⟩ := h
  exact ⟨ctx, hctx, hs.trans (List.suffix_append r s)⟩

theorem fitting_empty : Stmt.Fitting .empty := .rest (by decide)

theorem Stmt.Fitting.followedBy {s s' : Stmt Arg} (h : Stmt.Fitting s) (h' : Stmt.Fitting s') :
    Stmt.Fitting (s.followedBy s') := by
  unfold Stmt.Fitting Lib.Prepared.Stmt.followedBy
  rw [String.toList_append]
  exact Bound.append fits_after h h'

/-- A text up to its first placeholder, and its argument. -/
theorem bound_place (s ctx r : String) {text : String} {a : Arg} {args : List Arg}
    (htext : text.toList = s.toList ++ '?' :: r.toList) (hs : '?' ∉ s.toList) (hctx : ctx ∈ contexts a)
    (hsuffix : ctx.toList <:+ s.toList) (h : Bound Fits r.toList args) : Bound Fits text.toList (a :: args) := by
  rw [htext]
  exact .place hs ⟨ctx, hctx, hsuffix⟩ h

theorem not_mem_append {s t : String} (hs : '?' ∉ s.toList) (ht : '?' ∉ t.toList) : '?' ∉ (s ++ t).toList := by
  rw [String.toList_append, List.mem_append]
  exact fun h => h.elim hs ht

theorem not_mem_toString (n : ℕ) : '?' ∉ (toString n).toList := by
  intro h
  have hdigit := Nat.isDigit_of_mem_toDigits (b := 10) (n := n) (by decide) (by decide)
    (by simpa [toString, Nat.repr] using h)
  exact absurd hdigit (by decide)

/-- A list of tags. -/
theorem bound_tags {s t r : String} {tags : List String} (hne : tags ≠ []) (hs : '?' ∉ s.toList) (ht : '?' ∉ t.toList)
    (hr : '?' ∉ r.toList) (hctx : "t.name IN (".toList <:+ t.toList) :
    Bound Fits (s ++ t ++ placeholders tags.length ++ r).toList (tags.map .tag) := by
  rw [String.toList_append, String.toList_append]
  have h := @Bound.list _ Fits (s ++ t).toList (tags.map Arg.tag) r.toList (by simpa using hne)
    (not_mem_append hs ht) hr
  rw [List.length_map] at h
  refine h (fun a ha => ?_) fun a ha => ?_
  · obtain ⟨name, -, rfl⟩ := List.mem_map.mp ha
    rw [String.toList_append]
    exact fits_after ⟨"t.name IN (", List.mem_cons_self, hctx⟩
  · obtain ⟨name, -, rfl⟩ := List.mem_map.mp ha
    exact ⟨",", List.mem_cons_of_mem _ List.mem_cons_self, by decide⟩

theorem fitting_fromClause (p : SearchParams) : Stmt.Fitting (fromClause p) := by
  unfold fromClause
  split_ifs
  · refine Bound.prepend fits_after (not_mem_append (not_mem_append ?_ ?_) ?_) (bound_place
      "\t\t\tWHERE fts.value MATCH " "fts.value MATCH " "" (split_literal _ _ _ rfl rfl rfl rfl) ?_ List.mem_cons_self
      (suffix_literal _ _ rfl rfl (by decide)) (.rest (by decide)))
    all_goals exact not_mem_literal _ rfl (by decide)
  · exact .rest (not_mem_literal _ rfl (by decide))

theorem fitting_tagInclude (p : SearchParams) : Stmt.Fitting (tagInclude p) := by
  unfold tagInclude
  split_ifs with hne hany
  · exact fitting_empty
  · refine bound_tags hne (not_mem_append (not_mem_append ?_ ?_) ?_) ?_ ?_ (suffix_literal _ _ rfl rfl (by decide))
    all_goals exact not_mem_literal _ rfl (by decide)
  · refine bound_tags hne (not_mem_append (not_mem_append ?_ ?_) ?_) ?_ (not_mem_append (not_mem_append (not_mem_append
      (not_mem_append ?_ ?_) ?_) (not_mem_toString _)) ?_) (suffix_literal _ _ rfl rfl (by decide))
    all_goals exact not_mem_literal _ rfl (by decide)

theorem fitting_tagExclude (p : SearchParams) : Stmt.Fitting (tagExclude p) := by
  unfold tagExclude
  split_ifs with hne
  · exact fitting_empty
  · refine bound_tags hne (not_mem_append ?_ ?_) ?_ ?_ (suffix_literal _ _ rfl rfl (by decide))
    all_goals exact not_mem_literal _ rfl (by decide)

theorem fitting_mtimeSince (p : SearchParams) : Stmt.Fitting (mtimeSince p) := by
  unfold mtimeSince
  split_ifs
  · exact bound_place " AND f.mtime >= " "f.mtime >= " "" (split_literal _ _ _ rfl rfl rfl rfl)
      (not_mem_literal _ rfl (by decide)) List.mem_cons_self (suffix_literal _ _ rfl rfl (by decide))
        (.rest (by decide))
  · exact fitting_empty

theorem fitting_untagged (p : SearchParams) : Stmt.Fitting (untagged p) := by
  unfold untagged
  split_ifs
  · exact .rest (not_mem_literal _ rfl (by decide))
  · exact fitting_empty

theorem fitting_pathFilter (p : SearchParams) : Stmt.Fitting (pathFilter p) := by
  unfold pathFilter
  split
  · exact bound_place " AND f.path = " "f.path = " "" (split_literal _ _ _ rfl rfl rfl rfl)
      (not_mem_literal _ rfl (by decide)) List.mem_cons_self (suffix_literal _ _ rfl rfl (by decide))
        (.rest (by decide))
  · exact fitting_empty

/-- A condition has a place for the key, and one for the value. -/
theorem bound_condition {op val cond : String} {arg : Arg} (h : condition op val = some (cond, arg)) (key : String) :
    Bound Fits cond.toList [.key key, arg] := by
  have hkey : '?' ∉ "AND EXISTS (SELECT 1 FROM metadata WHERE file_id = f.id AND key = ".toList :=
    not_mem_literal _ rfl (by decide)
  have hctx : "key = ".toList <:+ "AND EXISTS (SELECT 1 FROM metadata WHERE file_id = f.id AND key = ".toList :=
    suffix_literal _ _ rfl rfl (by decide)
  unfold condition at h
  split_ifs at h with heq hcontains hnumber
  · cases h
    exact bound_place _ "key = " " AND value = ?)" (split_literal _ _ _ rfl rfl rfl rfl) hkey List.mem_cons_self hctx
      (bound_place " AND value = " "value = " ")" (split_literal _ _ _ rfl rfl rfl rfl)
        (not_mem_literal _ rfl (by decide)) List.mem_cons_self (suffix_literal _ _ rfl rfl (by decide))
        (.rest (by decide)))
  · cases h
    exact bound_place _ "key = " " AND value LIKE ?)" (split_literal _ _ _ rfl rfl rfl rfl) hkey List.mem_cons_self hctx
      (bound_place " AND value LIKE " "value LIKE " ")" (split_literal _ _ _ rfl rfl rfl rfl)
        (not_mem_literal _ rfl (by decide)) List.mem_cons_self (suffix_literal _ _ rfl rfl (by decide))
        (.rest (by decide)))
  · cases h
    have hrest : ∀ o ∈ [">", ">=", "<", "<="], Bound Fits (" AND CAST(value AS REAL) " ++ o ++ " ?)").toList
      [.number val] := by
      intro o ho
      refine bound_place (" AND CAST(value AS REAL) " ++ o ++ " ") ("CAST(value AS REAL) " ++ o ++ " ") ")" ?_ ?_ ?_ ?_
        (.rest (by decide))
      all_goals
        simp only [List.mem_cons, List.not_mem_nil, or_false] at ho
        rcases ho with rfl | rfl | rfl | rfl
      all_goals first | decide | exact List.mem_of_elem_eq_true rfl
    have hop : sqlOp op ∈ [">", ">=", "<", "<="] := by
      unfold sqlOp
      split_ifs <;> decide
    refine bound_place _ "key = " (" AND CAST(value AS REAL) " ++ sqlOp op ++ " ?)") ?_ hkey List.mem_cons_self hctx
      (hrest _ hop)
    have hsplit : "AND EXISTS (SELECT 1 FROM metadata WHERE file_id = f.id AND key = ? AND CAST(value AS REAL) ".toList =
        "AND EXISTS (SELECT 1 FROM metadata WHERE file_id = f.id AND key = ".toList ++
          '?' :: " AND CAST(value AS REAL) ".toList := split_literal _ _ _ rfl rfl rfl rfl
    rw [String.toList_append, String.toList_append, String.toList_append, String.toList_append, hsplit]
    simp only [List.append_assoc, List.cons_append]

theorem fitting_metaFilter (kv : String × String) : Stmt.Fitting (metaFilter kv) := by
  unfold metaFilter
  split_ifs
  · exact fitting_empty
  · split
    · exact Bound.prepend fits_after (by decide) (bound_condition ‹_› kv.1)
    · exact fitting_empty

theorem fitting_applyMetaFilters (filters : List (String × String)) : Stmt.Fitting (applyMetaFilters filters) := by
  unfold applyMetaFilters
  induction filters with
  | nil => exact fitting_empty
  | cons kv filters ih => exact (fitting_metaFilter kv).followedBy ih

theorem fitting_selection (p : SearchParams) (filters : List (String × String)) :
    Stmt.Fitting (selection p filters) := by
  unfold selection base
  exact ((((((fitting_fromClause p).followedBy (fitting_tagInclude p)).followedBy (fitting_tagExclude p)).followedBy
    (fitting_mtimeSince p)).followedBy (fitting_untagged p)).followedBy (fitting_pathFilter p)).followedBy
      (fitting_applyMetaFilters filters)

/-! ### The text of the order -/

/-- A term of the order as text. -/
def termText (t : OrderTerm) : String :=
  (match t.col with
    | .mtime => "f.mtime"
    | .path => "f.path"
    | .sizeBytes => "f.size_bytes"
    | .rank => "fts.rank") ++ " " ++ if t.desc then "DESC" else "ASC"

theorem direction_eq (dir : String) :
    direction dir = if dir.toList.map upperChar = ['D', 'E', 'S', 'C'] then "DESC" else "ASC" := by
  unfold direction
  by_cases hempty : dir = ""
  · subst hempty
    decide
  · dsimp only
    rw [if_neg hempty]
    split_ifs with hother hdesc hdesc
    · exact absurd (by rw [hdesc]) hother.2
    · rfl
    · rw [hdesc]
    · have hasc : String.ofList (dir.toList.map upperChar) ≠ "DESC" := fun h => by
        have hl := congrArg String.toList h
        rw [String.toList_ofList] at hl
        exact hdesc hl
      by_contra hne
      exact hother ⟨hne, hasc⟩

/-- A specification is a term, or nothing. -/
theorem orderClause_eq (spec : String) : orderClause spec = (orderTerm spec).map termText := by
  unfold orderClause orderTerm
  simp only [direction_eq]
  split_ifs <;> simp [termText, *]

/-- The rank, or fixed columns, each with `ASC` or `DESC`. -/
def OrderText (text : String) : Prop :=
  text = "fts.rank" ∨ ∃ terms : List OrderTerm, terms ≠ [] ∧ (∀ t ∈ terms, t.col ≠ .rank) ∧
    text = ", ".intercalate (terms.map termText)

theorem buildOrderClauses_eq (sortBy : List String) :
    buildOrderClauses sortBy = (Search.buildOrderClauses sortBy).map termText := by
  unfold buildOrderClauses Search.buildOrderClauses
  rw [List.map_filterMap]
  exact congrArg (List.filterMap · sortBy) (funext orderClause_eq)

theorem orderTerm_col {spec : String} {t : OrderTerm} (h : orderTerm spec = some t) : t.col ≠ .rank := by
  unfold orderTerm at h
  dsimp only at h
  split_ifs at h <;> cases h <;> exact Column.noConfusion

theorem orderText_orderBy (p : SearchParams) : OrderText (orderBy p) := by
  unfold orderBy
  rw [buildOrderClauses_eq]
  split_ifs with hclauses
  · refine .inr ⟨Search.buildOrderClauses p.sortBy, fun h => hclauses (by rw [h]; rfl), fun t ht => ?_, rfl⟩
    obtain ⟨spec, -, hspec⟩ := List.mem_filterMap.mp ht
    exact orderTerm_col hspec
  · exact .inl rfl
  · exact .inr ⟨[⟨.mtime, true⟩], by simp, by simp, by decide⟩

theorem not_mem_intercalate {sep : String} {l : List String} (hsep : '?' ∉ sep.toList) (hl : ∀ t ∈ l, '?' ∉ t.toList) :
    '?' ∉ (sep.intercalate l).toList := by
  induction l with
  | nil => simp
  | cons t l ih =>
    have ht := hl t List.mem_cons_self
    have hrest := ih fun u hu => hl u (List.mem_cons_of_mem t hu)
    cases l with
    | nil => simpa using ht
    | cons u l =>
      rw [String.intercalate_cons_cons]
      exact not_mem_append (not_mem_append ht hsep) hrest

theorem not_mem_termText : ∀ t : OrderTerm, '?' ∉ (termText t).toList
  | ⟨col, desc⟩ => by cases col <;> cases desc <;> decide

theorem not_mem_orderText {text : String} (h : OrderText text) : '?' ∉ text.toList := by
  rcases h with rfl | ⟨terms, -, -, rfl⟩
  · decide
  · refine not_mem_intercalate (by decide) fun t ht => ?_
    obtain ⟨term, -, rfl⟩ := List.mem_map.mp ht
    exact not_mem_termText term

theorem fitting_countQuery (p : SearchParams) (filters : List (String × String)) :
    Stmt.Fitting (countQuery p filters) :=
  Bound.concat fits_after (Bound.prepend fits_after (not_mem_literal _ rfl (by decide)) (fitting_selection p filters))
    (by decide)

theorem fitting_pageQuery (p : SearchParams) (filters : List (String × String)) :
    Stmt.Fitting (pageQuery p filters) := by
  have horder := Bound.concat fits_after (Bound.concat fits_after (fitting_selection p filters)
    (r := " ORDER BY ") (by decide)) (not_mem_orderText (orderText_orderBy p))
  have hlimit : Bound Fits " LIMIT ? OFFSET ?".toList [.limit (limitOf p), .offset p.offset] :=
    bound_place " LIMIT " " LIMIT " " OFFSET ?" (by decide) (by decide) List.mem_cons_self (by decide)
      (bound_place " OFFSET " " OFFSET " "" (by decide) (by decide) List.mem_cons_self (by decide) (.rest (by decide)))
  unfold pageQuery Stmt.Fitting
  rw [String.toList_append]
  exact horder.append fits_after hlimit

theorem fitting_knnQuery (vec : List UInt32) (k : ℕ) (names : List String) : Stmt.Fitting (knnQuery vec k names) := by
  have hmatch : ∀ (k : ℕ) (line rest : String), line.toList = "\t\t\tWHERE fe.embedding MATCH ".toList ++ '?' ::
      (" AND k = ?" ++ rest).toList → '?' ∉ rest.toList → Bound Fits line.toList [.vector vec, .neighbours k] := by
    intro k line rest hline hrest
    refine bound_place _ "fe.embedding MATCH " _ hline (not_mem_literal _ rfl (by decide)) List.mem_cons_self
      (suffix_literal _ _ rfl rfl (by decide)) (bound_place " AND k = " "k = " rest ?_ (by decide) List.mem_cons_self
        (by decide) (.rest hrest))
    rw [String.toList_append, split_literal (s := " AND k = ?") (a := " AND k = ") (b := "") _ _ _ rfl rfl rfl rfl]
    simp
  have htables : '?' ∉ ("SELECT fe.file_id, f.path, fe.distance\n" ++ "\t\t\tFROM file_embeddings fe\n" ++
      "\t\t\tJOIN files f ON f.id = fe.file_id\n").toList := by
    refine not_mem_append (not_mem_append ?_ ?_) ?_
    all_goals exact not_mem_literal _ rfl (by decide)
  unfold knnQuery
  split_ifs with hne
  · exact Bound.concat fits_after (Bound.prepend fits_after htables (hmatch k _ "\n" (by decide) (by decide)))
      (not_mem_literal _ rfl (by decide))
  · have hfirst := Bound.prepend fits_after htables (hmatch (k * 10)
      "\t\t\tWHERE fe.embedding MATCH ? AND k = ? AND fe.file_id IN (\n" " AND fe.file_id IN (\n" (by decide)
        (by decide))
    unfold Stmt.Fitting
    rw [String.toList_append]
    refine hfirst.append fits_after (bound_tags hne (not_mem_append (not_mem_append ?_ ?_) ?_) ?_
      (not_mem_append (not_mem_append (not_mem_append (not_mem_append (not_mem_append (not_mem_append ?_ ?_) ?_)
        (not_mem_toString _)) ?_) ?_) ?_) (suffix_literal _ _ rfl rfl (by decide)))
    all_goals exact not_mem_literal _ rfl (by decide)

/-- **Every argument has its place.** -/
theorem fitting_statements (q : Query) (filters : List (String × String)) {s : Stmt Arg}
    (hs : s ∈ statements q filters) : Stmt.Fitting s := by
  unfold statements at hs
  split_ifs at hs
  · rw [List.mem_singleton.mp hs]
    exact fitting_knnQuery _ _ _
  · cases hs
  · rcases List.mem_cons.mp hs with rfl | hs
    · exact fitting_countQuery _ _
    · rw [List.mem_singleton.mp hs]
      exact fitting_pageQuery _ _

/-! ### The shape of a query -/

/-- The operators of the metadata filters. -/
def operators (filters : List (String × String)) : List String :=
  (filters.filter fun kv => kv.1 ≠ "__path__").map fun kv => (cut ':' kv.2).1

/-- What two queries agree on: lengths, flags, operators, the presence of `__path__` and the order. -/
structure Alike (q q' : Query) : Prop where
  tags : q.tags.length = q'.tags.length
  tagsAny : q.tagsAny = q'.tagsAny
  tagExclude : q.tagExclude.length = q'.tagExclude.length
  operators : (operators q.metaFilters.pairs).Perm (operators q'.metaFilters.pairs)
  path : (q.metaFilters.get? "__path__").isSome = (q'.metaFilters.get? "__path__").isSome
  mtimeSince : q.mtimeSince.sign = q'.mtimeSince.sign
  untagged : q.untagged = q'.untagged
  sortBy : q.sortBy = q'.sortBy
  vectorQuery : q.vectorQuery.length = q'.vectorQuery.length

/-- Besides, either both ask for a text or neither does. -/
structure SameShape (q q' : Query) : Prop extends Alike q q' where
  ftsQuery : q.ftsQuery = "" ↔ q'.ftsQuery = ""

/-- The text of a metadata condition. -/
def conditionText (op : String) : Option String := (condition op "").map fun c => " " ++ c.1

/-- The same text, up to the order of metadata conditions. -/
def SameText (s s' : Stmt Arg) : Prop :=
  ∃ before conds conds' after, s.text = before ++ String.join conds ++ after ∧
    s'.text = before ++ String.join conds' ++ after ∧ conds.Perm conds' ∧ ∀ c ∈ conds, ∃ op, conditionText op = some c

theorem SameText.of_eq {s s' : Stmt Arg} (h : s.text = s'.text) : SameText s s' :=
  ⟨s.text, [], [], "", by simp, by simp [h], .refl _, by simp⟩

theorem condition_text (op val : String) : (condition op val).map (fun c => " " ++ c.1) = conditionText op := by
  unfold conditionText condition
  split_ifs <;> rfl

theorem metaFilter_text (kv : String × String) : (metaFilter kv).text =
    if kv.1 = "__path__" then "" else (conditionText (cut ':' kv.2).1).getD "" := by
  unfold metaFilter
  split_ifs
  · rfl
  · rw [← condition_text (cut ':' kv.2).1 (cut ':' kv.2).2.1]
    cases condition (cut ':' kv.2).1 (cut ':' kv.2).2.1 <;> rfl

/-- The metadata conditions are those of the operators. -/
theorem applyMetaFilters_text (filters : List (String × String)) :
    (applyMetaFilters filters).text = String.join ((operators filters).filterMap conditionText) := by
  unfold applyMetaFilters operators
  induction filters with
  | nil => rfl
  | cons kv filters ih =>
    rw [List.map_cons, List.foldr_cons, Stmt.followedBy, ih, metaFilter_text]
    by_cases hpath : kv.1 = "__path__"
    · simp [hpath]
    · cases hcond : conditionText (cut ':' kv.2).1 <;> simp [hpath, hcond]

theorem operators_perm {l l' : List (String × String)} (h : l.Perm l') : (operators l).Perm (operators l') :=
  (h.filter _).map _

section Shape
variable {q q' : Query}

theorem eq_nil_iff {l l' : List String} (h : l.length = l'.length) : l = [] ↔ l' = [] := by
  rw [← List.length_eq_zero_iff, h, List.length_eq_zero_iff]

theorem Alike.positive (h : Alike q q') : q.mtimeSince > 0 ↔ q'.mtimeSince > 0 := by
  rw [gt_iff_lt, gt_iff_lt, ← Int.sign_eq_one_iff_pos, h.mtimeSince, Int.sign_eq_one_iff_pos]

theorem Alike.zero (h : Alike q q') : q.mtimeSince = 0 ↔ q'.mtimeSince = 0 := by
  rw [← Int.sign_eq_zero_iff_zero, h.mtimeSince, Int.sign_eq_zero_iff_zero]

/-- The map is empty if it has no operators and no path. -/
theorem pairs_eq_nil_iff (p : SearchParams) : p.metaFilters.pairs = [] ↔
    operators p.metaFilters.pairs = [] ∧ (p.metaFilters.get? "__path__").isSome = false := by
  constructor
  · intro h
    simp [operators, StringMap.get?, h]
  · rintro ⟨hops, hpath⟩
    by_contra hne
    obtain ⟨kv, hkv⟩ := List.exists_mem_of_ne_nil _ hne
    by_cases hk : kv.1 = "__path__"
    · have hget := StringMap.get?_eq_some.mpr (show ("__path__", kv.2) ∈ p.metaFilters.pairs from hk ▸ hkv)
      rw [hget] at hpath
      cases hpath
    · have hmem : (cut ':' kv.2).1 ∈ operators p.metaFilters.pairs :=
        List.mem_map.mpr ⟨kv, List.mem_filter.mpr ⟨hkv, by simpa using hk⟩, rfl⟩
      rw [hops] at hmem
      cases hmem

theorem Alike.noFilters (h : Alike q q') : q.metaFilters.pairs = [] ↔ q'.metaFilters.pairs = [] := by
  rw [pairs_eq_nil_iff, pairs_eq_nil_iff, eq_nil_iff h.operators.length_eq, h.path]

/-- What comes before the metadata conditions depends on the shape alone. -/
theorem base_text (h : SameShape q q') : (base q.toSearchParams).text = (base q'.toSearchParams).text := by
  have hfrom : (fromClause q.toSearchParams).text = (fromClause q'.toSearchParams).text := by
    unfold fromClause
    simp only [ne_eq, h.ftsQuery]
    split_ifs <;> rfl
  have hinclude : (tagInclude q.toSearchParams).text = (tagInclude q'.toSearchParams).text := by
    unfold tagInclude
    simp only [eq_nil_iff h.tags, h.tagsAny, h.tags]
    split_ifs <;> rfl
  have hexclude : (tagExclude q.toSearchParams).text = (tagExclude q'.toSearchParams).text := by
    unfold tagExclude
    simp only [eq_nil_iff h.tagExclude, h.tagExclude]
    split_ifs <;> rfl
  have hmtime : (mtimeSince q.toSearchParams).text = (mtimeSince q'.toSearchParams).text := by
    unfold mtimeSince
    simp only [h.positive]
    split_ifs <;> rfl
  have huntagged : (untagged q.toSearchParams).text = (untagged q'.toSearchParams).text := by
    unfold untagged
    rw [h.untagged]
  have hpath : (pathFilter q.toSearchParams).text = (pathFilter q'.toSearchParams).text := by
    have hsome := h.path
    unfold pathFilter
    cases hq : q.metaFilters.get? "__path__" <;> cases hq' : q'.metaFilters.get? "__path__" <;>
      simp_all [Stmt.empty]
  simp only [base, Stmt.followedBy, hfrom, hinclude, hexclude, hmtime, huntagged, hpath]

theorem orderBy_text (h : SameShape q q') : orderBy q.toSearchParams = orderBy q'.toSearchParams := by
  unfold orderBy
  simp only [h.sortBy, ne_eq, h.ftsQuery]

theorem knnQuery_text {vec vec' : List UInt32} {k k' : ℕ} {names names' : List String}
    (h : names.length = names'.length) :
    (knnQuery vec k names).text = (knnQuery vec' k' names').text := by
  unfold knnQuery
  simp only [eq_nil_iff h, h]
  split_ifs <;> rfl

theorem filterTags_length (h : SameShape q q') :
    (filterTags q.toSearchParams).length = (filterTags q'.toSearchParams).length := by
  unfold filterTags
  simp only [h.tagsAny, eq_nil_iff h.tagExclude, h.noFilters, h.ftsQuery, h.zero, h.untagged]
  split_ifs
  · exact h.tags
  · rfl

theorem selection_text (p : SearchParams) (filters : List (String × String)) : (selection p filters).text =
    (base p).text ++ String.join ((operators filters).filterMap conditionText) := by
  rw [selection, Stmt.followedBy, applyMetaFilters_text]

theorem countQuery_text (p : SearchParams) (filters : List (String × String)) : (countQuery p filters).text =
    "SELECT COUNT(*) FROM (" ++ (base p).text ++ String.join ((operators filters).filterMap conditionText) ++ ")" := by
  show _ ++ (selection p filters).text ++ _ = _
  rw [selection_text, ← String.append_assoc]

theorem pageQuery_text (p : SearchParams) (filters : List (String × String)) : (pageQuery p filters).text =
    (base p).text ++ String.join ((operators filters).filterMap conditionText) ++
      (" ORDER BY " ++ orderBy p ++ " LIMIT ? OFFSET ?") := by
  show (selection p filters).text ++ _ ++ _ ++ _ = _
  rw [selection_text]
  generalize " ORDER BY " = a, " LIMIT ? OFFSET ?" = b
  simp only [String.append_assoc]

/-- Queries of one shape have the same statements, up to the order of metadata conditions. -/
theorem statements_sameText (h : SameShape q q') {filters filters' : List (String × String)}
    (hf : filters.Perm q.metaFilters.pairs) (hf' : filters'.Perm q'.metaFilters.pairs) :
    List.Forall₂ SameText (statements q filters) (statements q' filters') := by
  have hvec : q.vectorQuery = [] ↔ q'.vectorQuery = [] := by
    rw [← List.length_eq_zero_iff, h.vectorQuery, List.length_eq_zero_iff]
  have hops : ((operators filters).filterMap conditionText).Perm ((operators filters').filterMap conditionText) :=
    (((operators_perm hf).trans h.operators).trans (operators_perm hf').symm).filterMap _
  have hconds : ∀ c ∈ (operators filters).filterMap conditionText, ∃ op, conditionText op = some c := by
    intro c hc
    obtain ⟨op, -, hop⟩ := List.mem_filterMap.mp hc
    exact ⟨op, hop⟩
  have hcount : SameText (countQuery q.toSearchParams filters) (countQuery q'.toSearchParams filters') := by
    refine ⟨_, _, _, _, countQuery_text _ _, ?_, hops, hconds⟩
    rw [base_text h]
    exact countQuery_text _ _
  have hpage : SameText (pageQuery q.toSearchParams filters) (pageQuery q'.toSearchParams filters') := by
    refine ⟨_, _, _, _, pageQuery_text _ _, ?_, hops, hconds⟩
    rw [base_text h, orderBy_text h]
    exact pageQuery_text _ _
  unfold statements
  simp only [ne_eq, hvec, h.vectorQuery]
  split_ifs
  · exact .cons hcount (.cons hpage .nil)
  · exact .cons (.of_eq (knnQuery_text (filterTags_length h))) .nil
  · exact .nil

end Shape

/-- **The text of a search depends on the shape of its query.** Two queries of one shape have the same statements, up to
the order of metadata conditions; the placeholders of each statement are those of its arguments, in order; and the order
is the rank, or fixed columns with `ASC` or `DESC`. -/
theorem search_text :
    (∀ (q q' : Query) (filters filters' : List (String × String)), SameShape q q' →
      filters.Perm q.metaFilters.pairs → filters'.Perm q'.metaFilters.pairs →
      List.Forall₂ SameText (statements q filters) (statements q' filters')) ∧
    (∀ (q : Query) (filters : List (String × String)), ∀ s ∈ statements q filters,
      Stmt.Fitting s ∧ s.text.toList.count '?' = s.args.length) ∧
    ∀ q : Query, OrderText (orderBy q.toSearchParams) :=
  ⟨fun _ _ _ _ h hf hf' => statements_sameText h hf hf',
    fun q filters _ hs => ⟨fitting_statements q filters hs, (fitting_statements q filters hs).count⟩,
    fun q => orderText_orderBy q.toSearchParams⟩

/-! ### With a text and without -/

/-- Two queries that differ in the tag, in the key and in the value. -/
theorem search_text_filters : List.Forall₂ SameText
    (statements { tags := ["a"], metaFilters := ⟨[("k", "eq:v"), ("l", "gt:1")], by decide⟩ }
      [("l", "gt:1"), ("k", "eq:v")])
    (statements { tags := ["b"], metaFilters := ⟨[("m", "eq:w"), ("n", "gt:2")], by decide⟩ }
      [("m", "eq:w"), ("n", "gt:2")]) := by
  refine search_text.1 _ _ _ _ ⟨⟨rfl, rfl, rfl, ?_, rfl, rfl, rfl, rfl, rfl⟩, by decide⟩ (.swap _ _ _) (.refl _)
  decide

/-- Two queries that agree on everything but the full-text query: one of them has one. -/
theorem text_or_none :
    Alike {} { ftsQuery := "x" } ∧ ¬ List.Forall₂ SameText (statements {} []) (statements { ftsQuery := "x" } []) ∧
      orderBy { ftsQuery := "x" } = "fts.rank" := by
  refine ⟨⟨rfl, rfl, rfl, .refl _, rfl, rfl, rfl, rfl, rfl⟩, fun h => ?_, rfl⟩
  obtain ⟨⟨before, conds, conds', after, htext, htext', hperm, -⟩, -⟩ := List.forall₂_cons.mp h
  have hlen : (String.join conds).length = (String.join conds').length := by
    rw [String.length_join, String.length_join]
    exact (hperm.map _).sum_eq
  have hlens := congrArg String.length htext
  have hlens' := congrArg String.length htext'
  rw [String.length_append] at hlens hlens'
  have hne : (countQuery (Query.toSearchParams {}) []).text.length ≠
      (countQuery (Query.toSearchParams { ftsQuery := "x" }) []).text.length := by decide +kernel
  rw [String.length_append] at hlens hlens'
  exact hne (by rw [hlens, hlens', hlen])

end Tilbo.Index.SearchText
