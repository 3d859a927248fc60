import Tilbo.Index.SearchFts
import Tilbo.Index.SearchTags
import Tilbo.Index.SearchText
import Tilbo.Index.Store

/-! # Semantic search

A query with a vector takes another path through `Search`: the nearest embedded files, of which a page is cut out. The
tags are handed down only if nothing else is asked for, and what is asked for besides is not looked at.

What `vec0` decides is a parameter, `Vec0`: how the embeddings rank for a vector, and whether a condition on the id
narrows them down before the nearest are taken or after. -/

namespace Tilbo.Index.VectorSearch

open Tilbo.Lib.Rows Tilbo.Index.Schema Tilbo.Index.Schema.Tables Tilbo.Index.Search Tilbo.Index.SearchTags
open Tilbo.Index.SearchText (Query filterTags limitOf)
open Tilbo.Index.SearchFts (hasMatch)
open Tilbo.Index.Store (Error fileTagsOrdered)

/-- The virtual table `file_embeddings`. -/
structure Vec0 (R : Type) where
  /-- The ids, the nearest first. -/
  ranking : List UInt32 → Tables → List ℕ
  ranking_perm : ∀ vec T, (ranking vec T).Perm (T.fileEmbeddings.map EmbeddingRow.fileId)
  distance : List UInt32 → Tables → ℕ → R
  /-- Is `file_id IN (…)` applied before the `k` nearest are taken? -/
  narrows : Bool

/-- A table in which the embeddings rank as they are stored. -/
def Vec0.plain (narrows : Bool) : Vec0 ℤ where
  ranking _ T := T.fileEmbeddings.map EmbeddingRow.fileId
  ranking_perm _ _ := List.Perm.refl _
  distance _ _ _ := 0
  narrows := narrows

section Model
variable {R : Type} (v : Vec0 R) (T : Tables)

/-- `embedding MATCH ? AND k = ?`, with a condition on the id. -/
def Vec0.nearest (vec : List UInt32) (k : ℕ) (among : ℕ → Bool) : List ℕ :=
  if v.narrows then ((v.ranking vec T).filter among).take k else ((v.ranking vec T).take k).filter among

/-- The subquery for the files that carry all the tags. -/
def carriesAll (names : List String) (i : ℕ) : Bool :=
  ((T.fileTagNames i).filter (· ∈ names)).dedup.length = names.length

/-- The ids that the query selects, before the join with `files`. -/
def selected (vec : List UInt32) (k : ℕ) (names : List String) : List ℕ :=
  if names = [] then v.nearest T vec k fun _ => true else v.nearest T vec (k * 10) (carriesAll T names)

variable [LinearOrder R] [Zero R]

end Model

/-! ### What is asked for -/

/-- The part of the query that speaks of tags and times. -/
def tagQuery (p : SearchParams) : TagQuery where
  tags := p.tags
  tagsAny := p.tagsAny
  tagExclude := p.tagExclude
  mtimeSince := p.mtimeSince
  untagged := p.untagged

/-- There is an embedding for the file. -/
def Embedded (T : Tables) (f : FileRow) : Prop := ∃ r ∈ T.fileEmbeddings, r.fileId = f.id

/-- There is a file for the id. -/
def HasFile (T : Tables) (i : ℕ) : Prop := ∃ f ∈ T.files, f.id = i

section Promise
variable {R : Type} [LinearOrder R] [Zero R] (v : Vec0 R) (e : Sqlite R) (db : DB) (q : Query)

/-- What the query asks of a file besides that it be near. -/
structure Satisfies (f : FileRow) : Prop extends Meets db.toTables (tagQuery q.toSearchParams) f where
  filters : pathFilter q.toSearchParams f = true ∧ applyMetaFilters e db.toTables q.toSearchParams f = true
  text : q.ftsQuery ≠ "" → hasMatch e db.toTables q.ftsQuery f = true

/-- What has to hold for that. The tags that are handed down are `names`. -/
structure Fits (names : List String) : Prop where
  /-- If no tags are handed down, nothing is sorted out. -/
  nothingIgnored : names = [] → ∀ f ∈ db.files, Embedded db.toTables f → Satisfies e db q f
  /-- An embedding without a file takes a place among the nearest. -/
  straysLast : names = [] → (v.ranking q.vectorQuery db.toTables).Pairwise fun i j =>
    HasFile db.toTables j → HasFile db.toTables i
  /-- With a repeated tag the query finds nothing. -/
  noRepeat : names ≠ [] → names.Nodup ∨ ∀ f ∈ db.files, Embedded db.toTables f → ¬ Satisfies e db q f
  /-- If the tags are looked at afterwards, ten times as many have to be enough. -/
  reached : names ≠ [] → v.narrows = false → ∀ n, 0 < n →
    (((v.ranking q.vectorQuery db.toTables).take (n * 10)).filter (carriesAll db.toTables names)).length < n →
    ∀ i ∈ (v.ranking q.vectorQuery db.toTables).drop (n * 10), carriesAll db.toTables names i = false

end Promise

/-! ### The pages -/

section Pages
variable {R : Type} {v : Vec0 R} {db : DB} {q : Query} {f : FileRow} {ids : List ℕ} {i k : ℕ} {names : List String}

/-- The files with these ids. -/
def filesOf (T : Tables) (ids : List ℕ) : List FileRow := ids.filterMap (lookup FileRow.id T.files)

/-- The files on the page. -/
def shown (v : Vec0 R) (T : Tables) (q : Query) : List FileRow :=
  let k := limitOf q.toSearchParams + q.offset
  (((filesOf T (selected v T q.vectorQuery k (filterTags q.toSearchParams))).take k).drop q.offset).take
    (limitOf q.toSearchParams)

/-- All that could be selected, however many are asked for. -/
def candidates (v : Vec0 R) (T : Tables) (vec : List UInt32) (names : List String) : List ℕ :=
  if names = [] then v.ranking vec T else (v.ranking vec T).filter (carriesAll T names)

variable [LinearOrder R] [Zero R] {e : Sqlite R}

end Pages

/-! ### The first page -/

section First
variable {R : Type} {v : Vec0 R} {db : DB} {q : Query} {f : FileRow} {ids : List ℕ} {i k : ℕ} {names : List String}

variable [LinearOrder R] [Zero R] {e : Sqlite R}

end First

/-! ### With tags -/

section Tagged
variable {R : Type} {v : Vec0 R} {db : DB} {q : Query} {f : FileRow} {i k : ℕ} {names : List String}

variable [LinearOrder R] {e : Sqlite R}

variable [Zero R]

end Tagged

/-! ### A tag that must not be there -/

end Tilbo.Index.VectorSearch
