import Tilbo.Index.Store

/-! # What the operations of the index do

One specification for each method of `Store`, over all faults: what it changes when it succeeds, and
what may have changed when it fails. `Frame p s s'` is the frame condition they share: between `s` and
`s'` only the tags of the files in `p` may differ. -/

namespace Tilbo.Index.StoreSpec

open Tilbo.Lib.Rows Tilbo.Lib.Txn Tilbo.Index.Schema Tilbo.Index.Statements Tilbo.Index.Store
open Tilbo.Index.Schema.Tables Tilbo.Lib.Txn.Prog

/-! ### Statements -/

section Statements
variable {α : Type} {s : DB} {E : Error → DB → Prop}

theorem wp_query {f : Tables → α} {Q : α → DB → Prop} (hQ : Q (f s.toTables) s)
    (hE : E .driver s) : wp (query f) Q E s := wp_stmt hE hQ

theorem wp_queryRow {f : Tables → Option α} {Q : α → DB → Prop}
    (hQ : ∀ a, f s.toTables = some a → Q a s) (hno : f s.toTables = none → E .noRows s)
    (hE : E .driver s) : wp (queryRow f) Q E s := by
  refine wp_stmt hE ?_
  cases hf : f s.toTables with
  | some a => exact hQ a hf
  | none => exact hno hf

theorem wp_exec {f : Tables → Tables} {h : ∀ T, T.Valid → (f T).Valid}
    {Q : Unit → DB → Prop} (hQ : Q () ⟨f s.toTables, h _ s.valid⟩) (hE : E .driver s) :
    wp (exec f h) Q E s := wp_stmt hE hQ

theorem wp_execFk {f : Tables → Option Tables}
    {h : ∀ T U, T.Valid → f T = some U → U.Valid} {Q : Unit → DB → Prop}
    (hQ : ∀ U (hU : f s.toTables = some U), Q () ⟨U, h _ _ s.valid hU⟩)
    (hfk : f s.toTables = none → E .foreignKey s) (hE : E .driver s) :
    wp (execFk f h) Q E s := by
  refine wp_stmt hE ?_
  split
  · rename_i heq
    split at heq
    · rename_i U hU
      cases heq
      exact hQ U hU
    · simp at heq
  · rename_i heq
    split at heq
    · simp at heq
    · rename_i hn
      cases heq
      exact hfk hn

theorem wp_errorf {m : Sql α} {Q : α → DB → Prop} {format : String} {args : List String}
    (h : wp m Q (fun e => E (.wrapped format args e)) s) : wp (errorf format args m) Q E s :=
  wp_wrap h

theorem wp_tx {m : Sql α} {Q : α → DB → Prop} (h : wp m Q (fun _ _ => True) s) :
    wp (tx m) Q (fun _ s' => s' = s) s := wp_atomically h

end Statements

/-! ### The frame condition -/

/-- Only the tags of the files in `p` may differ; tag names may have been added. -/
structure Frame (p : ℕ → Prop) (s s' : DB) : Prop where
  files : s'.files = s.files
  metadata : s'.metadata = s.metadata
  embeddings : s'.fileEmbeddings = s.fileEmbeddings
  names : ∀ t n, s.NameOf t n → s'.NameOf t n
  tagged : ∀ j n, ¬ p j → (s'.Tagged j n ↔ s.Tagged j n)
  overridden : ∀ j n r, s'.Overridden j n r ↔ s.Overridden j n r
  hasProvenance : ∀ j n r, s'.HasProvenance j n r ↔ s.HasProvenance j n r

/-- Nothing about the files differs. -/
abbrev Same (s s' : DB) : Prop := Frame (fun _ => False) s s'

section Frame
variable {p : ℕ → Prop} {s s' s'' : DB}

theorem Frame.refl (p : ℕ → Prop) (s : DB) : Frame p s s :=
  ⟨rfl, rfl, rfl, fun _ _ h => h, fun _ _ _ => Iff.rfl, fun _ _ _ => Iff.rfl, fun _ _ _ => Iff.rfl⟩

theorem Frame.trans (h : Frame p s s') (h' : Frame p s' s'') : Frame p s s'' where
  files := h'.files.trans h.files
  metadata := h'.metadata.trans h.metadata
  embeddings := h'.embeddings.trans h.embeddings
  names t n ht := h'.names t n (h.names t n ht)
  tagged j n hj := (h'.tagged j n hj).trans (h.tagged j n hj)
  overridden j n r := (h'.overridden j n r).trans (h.overridden j n r)
  hasProvenance j n r := (h'.hasProvenance j n r).trans (h.hasProvenance j n r)

theorem Frame.weaken (h : Same s s') : Frame p s s' :=
  { h with tagged := fun j n _ => h.tagged j n (fun h => h) }

theorem Frame.fileId (h : Frame p s s') (path : String) : s'.fileId path = s.fileId path := by
  simp only [Tables.fileId, h.files]

end Frame

variable {s : DB} {i t : ℕ} {name path : String} {E : Error → DB → Prop}

/-! ### Tag names -/

theorem frame_insertTag (h : (insertTag s.toTables name).Valid) :
    Same s ⟨insertTag s.toTables name, h⟩ where
  files := rfl
  metadata := rfl
  embeddings := rfl
  names _ _ ht := nameOf_insertTag_of_nameOf ht
  tagged _ _ _ := tagged_insertTag s.valid
  overridden _ _ _ := overridden_insertTag s.valid
  hasProvenance _ _ _ := hasProvenance_insertTag s.valid

theorem wp_resolveTagIDTx {op label : String} {Q : ℕ → DB → Prop}
    (hQ : ∀ t s', Same s s' → s'.NameOf t name → Q t s') (hE : ∀ e s', Same s s' → E e s') :
    wp (resolveTagIDTx name op label) Q E s := by
  have hs : Same s ⟨insertTag s.toTables name, Valid.insertTag s.valid⟩ := frame_insertTag _
  refine wp_andThen (wp_errorf (wp_exec ?_ (hE _ _ (Frame.refl _ _))))
  refine wp_errorf (wp_queryRow (fun t ht => ?_) (fun _ => hE _ _ hs) (hE _ _ hs))
  exact hQ t _ hs ((Valid.insertTag s.valid).tagId_iff.mp ht)

theorem wp_upsertTag {Q : ℕ → DB → Prop} (hQ : ∀ t s', Same s s' → s'.NameOf t name → Q t s')
    (hE : ∀ e, E e s) : wp (upsertTag name) Q E s := by
  have hs : Same s ⟨insertTag s.toTables name, Valid.insertTag s.valid⟩ := frame_insertTag _
  refine wp_errorf (wp_stmt (hE _) ?_)
  cases ht : (insertTag s.toTables name).tagId name with
  | some t => 
    simp only [ht]
    exact hQ t _ hs ((Valid.insertTag s.valid).tagId_iff.mp ht)
  | none =>
    simp only [ht]
    exact hE _

/-! ### Tags of one file -/

theorem frame_deleteFileTags (q : FileTagRow → Bool) (hq : ∀ r, q r = true → r.fileId = i)
    (h : (deleteFileTags s.toTables q).Valid) :
    Frame (· = i) s ⟨deleteFileTags s.toTables q, h⟩ where
  files := rfl
  metadata := rfl
  embeddings := rfl
  names _ _ ht := nameOf_addCardinality.mpr ht
  tagged j n hj := by
    refine tagged_addCardinality.trans ⟨?_, ?_⟩
    · rintro ⟨r, hr, rfl, hn⟩
      exact ⟨r, List.mem_of_mem_filter hr, rfl, hn⟩
    · rintro ⟨r, hr, rfl, hn⟩
      refine ⟨r, List.mem_filter.mpr ⟨hr, ?_⟩, rfl, hn⟩
      cases hqr : q r with
      | false => rfl
      | true => exact absurd (hq r hqr) hj
  overridden _ _ _ := exists_congr fun _ => and_congr_right fun _ => and_congr_right fun _ =>
    and_congr_right fun _ => nameOf_addCardinality
  hasProvenance _ _ _ := exists_congr fun _ => and_congr_right fun _ => and_congr_right fun _ =>
    and_congr_right fun _ => nameOf_addCardinality

theorem frame_insertFileTag {U : Tables} (hU : insertFileTag s.toTables i t = some U) (h : U.Valid) :
    Frame (· = i) s ⟨U, h⟩ := by
  have htag : ∀ j n, j ≠ i → (U.Tagged j n ↔ s.Tagged j n) := fun j n hj => by
    rw [tagged_insertFileTag hU]
    simp [hj]
  have hcopy := hU
  unfold insertFileTag at hcopy
  split_ifs at hcopy
  · cases hcopy
    exact Frame.refl _ _
  · cases hcopy
    exact ⟨rfl, rfl, rfl, fun _ _ hn => nameOf_addCardinality.mpr hn, htag,
      fun _ _ _ => exists_congr fun _ => and_congr_right fun _ => and_congr_right fun _ =>
        and_congr_right fun _ => nameOf_addCardinality,
      fun _ _ _ => exists_congr fun _ => and_congr_right fun _ => and_congr_right fun _ =>
        and_congr_right fun _ => nameOf_addCardinality⟩

/-- **Replacing the tags of a file.** Afterwards it has exactly the names given. -/
theorem wp_replaceFileTagsTx {names : List String} {op : String} :
    wp (replaceFileTagsTx i names op)
      (fun _ s' => Frame (· = i) s s' ∧ ∀ n, s'.Tagged i n ↔ n ∈ names) (fun _ _ => True) s := by
  refine wp_andThen (wp_errorf (wp_exec ?_ trivial))
  refine wp_each (fun done s' => Frame (· = i) s s' ∧ ∀ n, s'.Tagged i n ↔ n ∈ done) ?_ ?_
  · rintro done name _ s' - ⟨hf, ht⟩
    refine wp_andThen (wp_resolveTagIDTx (fun t s₁ hs₁ hn => ?_) fun _ _ _ => trivial)
    refine wp_errorf (wp_execFk (fun U hU => ⟨?_, fun n => ?_⟩) (fun _ => trivial) trivial)
    · exact (hf.trans hs₁.weaken).trans (frame_insertFileTag hU _)
    · show U.Tagged i n ↔ _
      rw [tagged_insertFileTag hU, hs₁.tagged i n (fun h => h), ht n, List.mem_append,
        List.mem_singleton]
      refine or_congr_right ⟨fun h => s₁.valid.nameOf_unique h.2 hn, fun h => ⟨rfl, h ▸ hn⟩⟩
  · exact ⟨frame_deleteFileTags _ (fun r hr => by simpa using hr) _,
      fun n => by rw [tagged_deleteFileTags_file]; simp⟩

/-- **`SetFileTags`** is all or nothing. -/
theorem wp_setFileTags {names : List String} :
    wp (setFileTags i names) (fun _ s' => Frame (· = i) s s' ∧ ∀ n, s'.Tagged i n ↔ n ∈ names)
      (fun _ s' => s' = s) s := wp_tx wp_replaceFileTagsTx

/-! ### `SyncFileApply` -/

/-- The value a loop over the pairs leaves under `k`: that of the last pair with that key. -/
def lastValue (l : List (String × String)) (k : String) : Option String := l.reverse.lookup k

/-- The relation `old`, with the keys of `l` reassigned. -/
def overlay (l : List (String × String)) (old : String → String → Prop) (k v : String) : Prop :=
  match lastValue l k with
  | some w => v = w
  | none => old k v

theorem overlay_append (l : List (String × String)) (kv : String × String)
    (old : String → String → Prop) (k v : String) :
    overlay (l ++ [kv]) old k v ↔ if k = kv.1 then v = kv.2 else overlay l old k v := by
  obtain ⟨k', v'⟩ := kv
  unfold overlay lastValue
  rw [List.reverse_append, List.reverse_singleton, List.singleton_append, List.lookup_cons]
  by_cases hk : k = k'
  · simp [hk]
  · have : (k == k') = false := by simpa using hk
    simp [this, hk]

/-- What a committed `SyncFileApply` did; `i` is the id of the row. -/
structure Applied (path : String) (st : FileStat) (tagNames : List String)
    (metadata sourceMap : List (String × String)) (now : ℤ) (i : ℕ) (s s' : DB) : Prop where
  id : i = upsertId s.toTables path
  files : ∀ f, f ∈ s'.files ↔ (f ∈ s.files ∧ f.path ≠ path) ∨
    f = ⟨i, path, st.inode, st.device, st.mtime, st.size, now⟩
  embeddings : s'.fileEmbeddings = s.fileEmbeddings
  tagged : ∀ n, s'.Tagged i n ↔ n ∈ tagNames
  taggedOther : ∀ j n, j ≠ i → (s'.Tagged j n ↔ s.Tagged j n)
  hasMeta : ∀ k v, s'.HasMeta i k v ↔ overlay metadata (s.HasMeta i) k v
  hasMetaOther : ∀ j k v, j ≠ i → (s'.HasMeta j k v ↔ s.HasMeta j k v)
  hasProvenance : ∀ n r, s'.HasProvenance i n r ↔ overlay sourceMap (s.HasProvenance i) n r
  hasProvenanceOther : ∀ j n r, j ≠ i → (s'.HasProvenance j n r ↔ s.HasProvenance j n r)
  overridden : ∀ j n r, s'.Overridden j n r ↔ s.Overridden j n r

section Apply
variable {st : FileStat} {tagNames : List String} {metadata sourceMap : List (String × String)}
  {now : ℤ} {s' s'' : DB}

theorem applied_upsert_replace {h : (upsertFile s.toTables path st.inode st.device st.mtime st.size now).Valid}
    (hi : i = upsertId s.toTables path) (hf : Frame (· = i) ⟨_, h⟩ s')
    (ht : ∀ n, s'.Tagged i n ↔ n ∈ tagNames) : Applied path st tagNames [] [] now i s s' where
  id := hi
  files f := by rw [hf.files, hi]; exact mem_upsertFile s.valid
  embeddings := hf.embeddings
  tagged := ht
  taggedOther j n hj := hf.tagged j n hj
  hasMeta k v := by
    show (∃ r ∈ s'.metadata, _) ↔ _
    rw [hf.metadata]
    rfl
  hasMetaOther j k v _ := by
    show (∃ r ∈ s'.metadata, _) ↔ _
    rw [hf.metadata]
    rfl
  hasProvenance n r := hf.hasProvenance i n r
  hasProvenanceOther j n r _ := hf.hasProvenance j n r
  overridden j n r := hf.overridden j n r

theorem Applied.meta_step (ha : Applied path st tagNames metadata [] now i s s') {kv : String × String}
    {U : Tables} (hU : upsertMeta s'.toTables i kv.1 kv.2 "manual" = some U) (h : U.Valid) :
    Applied path st tagNames (metadata ++ [kv]) [] now i s ⟨U, h⟩ := by
  have hm := fun j k v => hasMeta_upsertMeta (j := j) hU (l := k) (w := v)
  obtain ⟨m, fts, rfl⟩ := upsertMeta_shape hU
  refine { ha with hasMeta := fun k v => ?_, hasMetaOther := fun j k v hj => ?_ }
  · refine (hm i k v).trans ?_
    rw [overlay_append]
    split_ifs with h₁ h₂ h₂
    · rfl
    · exact absurd h₁.2 h₂
    · exact absurd ⟨rfl, h₂⟩ h₁
    · exact ha.hasMeta k v
  · refine (hm j k v).trans ?_
    rw [if_neg fun hc => hj hc.1]
    exact ha.hasMetaOther j k v hj

theorem Applied.names_step (ha : Applied path st tagNames metadata sourceMap now i s s')
    (hs : Same s' s'') : Applied path st tagNames metadata sourceMap now i s s'' where
  id := ha.id
  files f := by rw [hs.files]; exact ha.files f
  embeddings := hs.embeddings.trans ha.embeddings
  tagged n := (hs.tagged i n fun h => h).trans (ha.tagged n)
  taggedOther j n hj := (hs.tagged j n fun h => h).trans (ha.taggedOther j n hj)
  hasMeta k v := by
    show (∃ r ∈ s''.metadata, _) ↔ _
    rw [hs.metadata]
    exact ha.hasMeta k v
  hasMetaOther j k v hj := by
    show (∃ r ∈ s''.metadata, _) ↔ _
    rw [hs.metadata]
    exact ha.hasMetaOther j k v hj
  hasProvenance n r := (hs.hasProvenance i n r).trans (ha.hasProvenance n r)
  hasProvenanceOther j n r hj := (hs.hasProvenance j n r).trans (ha.hasProvenanceOther j n r hj)
  overridden j n r := (hs.overridden j n r).trans (ha.overridden j n r)

theorem Applied.provenance_step (ha : Applied path st tagNames metadata sourceMap now i s s')
    {ts : String × String} (ht : s'.NameOf t ts.1) {U : Tables}
    (hU : setTagProvenance s'.toTables i t ts.2 now = some U) (h : U.Valid) :
    Applied path st tagNames metadata (sourceMap ++ [ts]) now i s ⟨U, h⟩ := by
  have hm := fun j n r => hasProvenance_setTagProvenance (j := j) s'.valid hU ht (n := n) (s := r)
  obtain ⟨p, rfl⟩ := setTagProvenance_shape hU
  refine { ha with hasProvenance := fun n r => ?_, hasProvenanceOther := fun j n r hj => ?_ }
  · refine (hm i n r).trans ?_
    rw [overlay_append]
    split_ifs with h₁ h₂ h₂
    · rfl
    · exact absurd h₁.2 h₂
    · exact absurd ⟨rfl, h₂⟩ h₁
    · exact ha.hasProvenance n r
  · refine (hm j n r).trans ?_
    rw [if_neg fun hc => hj hc.1]
    exact ha.hasProvenanceOther j n r hj

/-- **`SyncFileApply`** is all or nothing, and gives the file exactly the row, the tags, and the values
under the keys of its arguments. -/
theorem wp_syncFileApply :
    wp (syncFileApply path st tagNames metadata sourceMap now)
      (fun i s' => Applied path st tagNames metadata sourceMap now i s s') (fun _ s' => s' = s) s := by
  refine wp_tx (wp_andThen (wp_errorf (wp_stmt trivial ?_)))
  simp only [fileId_upsertFile s.valid]
  refine wp_andThen (wp_replaceFileTagsTx.mono (fun _ s₁ h₁ => ?_) fun _ _ _ => trivial)
  have h₁ : Applied path st tagNames [] [] now _ s s₁ := applied_upsert_replace rfl h₁.1 h₁.2
  refine wp_andThen ((wp_each (fun done s' => Applied path st tagNames done [] now _ s s')
    (fun done kv _ s₂ _ h₂ => ?_) h₁).mono (fun _ s₂ h₂ => ?_) fun _ _ h => h)
  · exact wp_errorf (wp_execFk (fun U hU => h₂.meta_step hU _) (fun _ => trivial) trivial)
  refine wp_andThen ((wp_each (fun done s' => Applied path st tagNames metadata done now _ s s')
    (fun done ts _ s₃ _ h₃ => ?_) h₂).mono (fun _ s₃ h₃ => wp_ret h₃) fun _ _ h => h)
  refine wp_andThen (wp_resolveTagIDTx (fun t s₄ hs₄ hn => ?_) fun _ _ _ => trivial)
  exact wp_errorf (wp_execFk (fun U hU => (h₃.names_step hs₄).provenance_step hn hU _)
    (fun _ => trivial) trivial)

theorem Applied.fileId (ha : Applied path st tagNames metadata sourceMap now i s s') :
    s'.fileId path = some i :=
  s'.valid.fileId_iff.mpr ⟨_, (ha.files _).mpr (Or.inr rfl), rfl, rfl⟩

theorem Applied.fileId_other (ha : Applied path st tagNames metadata sourceMap now i s s') {q : String}
    (hq : q ≠ path) : s'.fileId q = s.fileId q := by
  refine Option.ext fun j => ?_
  rw [s'.valid.fileId_iff, s.valid.fileId_iff]
  refine ⟨?_, ?_⟩
  · rintro ⟨f, hf, rfl, rfl⟩
    rcases (ha.files f).mp hf with ⟨hf, -⟩ | rfl
    · exact ⟨f, hf, rfl, rfl⟩
    · exact absurd rfl hq
  · rintro ⟨f, hf, rfl, rfl⟩
    exact ⟨f, (ha.files f).mpr (Or.inl ⟨hf, hq⟩), rfl, rfl⟩

end Apply

/-! ### `ModifyFileTags` -/

/-- The tags of a file after an operation that goes through. -/
def afterModify (op : String) (tags : List String) (old : String → Prop) (n : String) : Prop :=
  if op = "add" then old n ∨ n ∈ tags
  else if op = "remove" then old n ∧ n ∉ tags
  else n ∈ tags

theorem afterModify_add {tags : List String} {old : String → Prop} {n : String} :
    afterModify "add" tags old n ↔ old n ∨ n ∈ tags := Iff.rfl

theorem afterModify_remove {tags : List String} {old : String → Prop} {n : String} :
    afterModify "remove" tags old n ↔ old n ∧ n ∉ tags := Iff.rfl

theorem afterModify_set {tags : List String} {old : String → Prop} {n : String} :
    afterModify "set" tags old n ↔ n ∈ tags := Iff.rfl

/-- What a failed `ModifyFileTags` leaves behind: nothing, or the work of its first iterations. -/
def PartlyModified (op : String) (tags : List String) (i : ℕ) (s s' : DB) : Prop :=
  Frame (· = i) s s' ∧ ∃ done rest, rest ≠ [] ∧ tags = done ++ rest ∧
    ∀ n, s'.Tagged i n ↔ afterModify op done (s.Tagged i) n

section Modify
variable {tags : List String} {s' : DB}

theorem wp_modifyAdd {Q : Unit → DB → Prop}
    (hQ : ∀ s', Frame (· = i) s s' → (∀ n, s'.Tagged i n ↔ s.Tagged i n ∨ n = name) → Q () s')
    (hE : ∀ e s', Same s s' → E e s') : wp (modifyAdd i name) Q E s := by
  refine wp_andThen (wp_upsertTag (fun t s₁ hs₁ hn => ?_) fun e => hE e s (Frame.refl _ _))
  refine wp_errorf (wp_execFk (fun U hU => hQ _ ?_ fun n => ?_) (fun _ => hE _ _ hs₁) (hE _ _ hs₁))
  · exact hs₁.weaken.trans (frame_insertFileTag hU _)
  · show U.Tagged i n ↔ _
    rw [tagged_insertFileTag hU, hs₁.tagged i n fun h => h]
    exact or_congr_right ⟨fun h => s₁.valid.nameOf_unique h.2 hn, fun h => ⟨rfl, h ▸ hn⟩⟩

theorem wp_modifyRemove {Q : Unit → DB → Prop}
    (hQ : ∀ s', Frame (· = i) s s' → (∀ n, s'.Tagged i n ↔ s.Tagged i n ∧ n ≠ name) → Q () s')
    (hE : ∀ e, E e s) : wp (modifyRemove i name) Q E s := by
  refine wp_andThen (wp_attempt (wp_queryRow (fun t ht => ?_) (fun hno => ?_) ?_))
  · have hn := s.valid.tagId_iff.mp ht
    refine wp_errorf (wp_exec (hQ _ (frame_deleteFileTags _ (fun r hr => ?_) _) fun n => ?_) (hE _))
    · simp only [Bool.and_eq_true, decide_eq_true_eq] at hr
      exact hr.1
    · refine (tagged_deleteFileTags_one s.valid hn).trans ?_
      simp
  · refine wp_ret (hQ s (Frame.refl _ _) fun n => (and_iff_left_of_imp ?_).symm)
    rintro ⟨r, -, -, hn⟩ rfl
    exact tagId_none_iff.mp hno _ hn
  · exact wp_fail (hE _)

/-- **`ModifyFileTags`.** The file must be in the index. `"set"` is all or nothing; `"add"` and
`"remove"` go tag by tag, and an error leaves the tags already done. -/
theorem wp_modifyFileTags {op : String} :
    wp (modifyFileTags path tags op)
      (fun _ s' => (op = "add" ∨ op = "remove" ∨ op = "set") ∧ ∃ i, s.fileId path = some i ∧
        Frame (· = i) s s' ∧ ∀ n, s'.Tagged i n ↔ afterModify op tags (s.Tagged i) n)
      (fun _ s' => s' = s ∨ (op = "add" ∨ op = "remove") ∧ ∃ i, s.fileId path = some i ∧
        PartlyModified op tags i s s') s := by
  refine wp_andThen (wp_errorf (wp_errorf (wp_queryRow (fun i hi => ?_) (fun _ => Or.inl rfl)
    (Or.inl rfl))))
  by_cases hadd : op = "add"
  · subst hadd
    rw [if_pos rfl]
    refine (wp_each (fun done s' => Frame (· = i) s s' ∧
      ∀ n, s'.Tagged i n ↔ afterModify "add" done (s.Tagged i) n) ?_ ⟨Frame.refl _ _, ?_⟩).mono
        (fun _ s' h => ⟨Or.inl rfl, i, hi, h⟩) fun _ _ h => h
    · rintro done name rest s' hl ⟨hf, ht⟩
      refine wp_modifyAdd (fun s₁ hs₁ hn => ⟨hf.trans hs₁, fun n => ?_⟩) fun e s₁ hs₁ =>
        Or.inr ⟨Or.inl rfl, i, hi, hf.trans hs₁.weaken, done, name :: rest, by simp, hl, fun n => ?_⟩
      · simp [hn, ht, afterModify_add, or_assoc]
      · rw [hs₁.tagged i n fun h => h, ht]
    · simp [afterModify_add]
  by_cases hrem : op = "remove"
  · subst hrem
    rw [if_neg hadd, if_pos rfl]
    refine (wp_each (fun done s' => Frame (· = i) s s' ∧
      ∀ n, s'.Tagged i n ↔ afterModify "remove" done (s.Tagged i) n) ?_ ⟨Frame.refl _ _, ?_⟩).mono
        (fun _ s' h => ⟨Or.inr (Or.inl rfl), i, hi, h⟩) fun _ _ h => h
    · rintro done name rest s' hl ⟨hf, ht⟩
      refine wp_modifyRemove (fun s₁ hs₁ hn => ⟨hf.trans hs₁, fun n => ?_⟩) fun e =>
        Or.inr ⟨Or.inr rfl, i, hi, hf, done, name :: rest, by simp, hl, ht⟩
      simp [hn, ht, afterModify_remove, and_assoc]
    · simp [afterModify_remove]
  rw [if_neg hadd, if_neg hrem]
  by_cases hset : op = "set"
  · subst hset
    rw [if_pos rfl]
    exact wp_setFileTags.mono (fun _ s' h => ⟨Or.inr (Or.inr rfl), i, hi, h⟩) fun _ _ h => Or.inl h
  · rw [if_neg hset]
    exact wp_fail (Or.inl rfl)

/-- With at most one tag there is no partial work. -/
theorem PartlyModified.short {op : String} (h : PartlyModified op tags i s s') (hlen : tags.length ≤ 1)
    (hop : op = "add" ∨ op = "remove") (n : String) : s'.Tagged i n ↔ s.Tagged i n := by
  obtain ⟨-, done, rest, hrest, rfl, ht⟩ := h
  have hdone : done = [] := by
    have hpos := List.length_pos_iff.mpr hrest
    rw [List.length_append] at hlen
    exact List.eq_nil_of_length_eq_zero (by omega)
  rw [ht, hdone]
  rcases hop with rfl | rfl
  · simp [afterModify_add]
  · simp [afterModify_remove]

/-! ### The statements `ModifyFileTags` runs for one tag -/

theorem spends_queryRow {α : Type} {f : Tables → Option α} {a : α} (h : f s.toTables = some a)
    {Q : α → DB → Prop} (hQ : Q a s) : Spends (queryRow f) s 1 Q :=
  Spends.stmt (a := a) (by simp only [h]) hQ

theorem spends_exec {f : Tables → Tables} {h : ∀ T, T.Valid → (f T).Valid} {Q : Unit → DB → Prop}
    (hQ : Q () ⟨f s.toTables, h _ s.valid⟩) : Spends (exec f h) s 1 Q := Spends.stmt rfl hQ

theorem spends_execFk {f : Tables → Option Tables} {h : ∀ T U, T.Valid → f T = some U → U.Valid}
    {Q : Unit → DB → Prop} (hf : f s.toTables ≠ none)
    (hQ : ∀ U (hU : f s.toTables = some U), Q () ⟨U, h _ _ s.valid hU⟩) : Spends (execFk f h) s 1 Q := by
  obtain ⟨U, hU⟩ := Option.ne_none_iff_exists'.mp hf
  refine Spends.stmt (a := ()) ?_ (hQ U hU)
  split
  · rename_i V hV
    obtain rfl := Option.some.inj (hV.symm.trans hU)
    rfl
  · rename_i hnone
    exact absurd (hnone.symm.trans hU) (by simp)

theorem spends_upsertTag : Spends (upsertTag name) s 1 fun t s' =>
    s'.files = s.files ∧ has TagRow.id s'.tags t = true := by
  obtain ⟨t, g, hg, ht, hn⟩ := exists_nameOf_insertTag s.toTables name
  have htag := (Valid.insertTag s.valid).tagId_iff.mpr ⟨g, hg, ht, hn⟩
  refine Spends.wrap (Spends.stmt (show _ = Except.ok (t, (⟨insertTag s.toTables name,
    Valid.insertTag s.valid⟩ : DB)) from ?_) ⟨rfl, has_iff.mpr ⟨g, hg, ht⟩⟩)
  dsimp only
  rw [htag]

theorem spends_modifyAdd (hi : has FileRow.id s.files i = true) :
    Spends (modifyAdd i name) s 2 fun _ s' => s'.files = s.files := by
  show Spends (modifyAdd i name) s (1 + 1) _
  refine Spends.andThen (spends_upsertTag.mono fun t s' h => ?_)
  refine Spends.wrap (spends_execFk (insertFileTag_ne_none (h.1 ▸ hi) h.2) fun U hU => ?_)
  unfold insertFileTag at hU
  split_ifs at hU <;> (cases hU; exact h.1)

theorem modifyRemove_run {fs : List Bool} : modifyRemove i name ⟨s, fs⟩ = if fs.headD false
    then (.error (.wrapped "index: resolve tag %q: %w" [name] .driver), ⟨s, fs.tail⟩)
    else match s.tagId name with
      | some t => removeFileTag i t ⟨s, fs.tail⟩
      | none => (.ok (), ⟨s, fs.tail⟩) := by
  unfold modifyRemove
  simp only [bind, andThen, attempt, queryRow, stmt]
  cases fs.headD false <;> cases s.tagId name <;> rfl

theorem spends_modifyRemove : Spends (modifyRemove i name) s (1 + if s.tagId name = none then 0 else 1)
    fun _ s' => s'.files = s.files ∧ ∀ n, s'.tagId n = s.tagId n := by
  refine Spends.first (fun fs => modifyRemove_run) (p := fun c => match s.tagId name with
    | some t => removeFileTag i t c
    | none => (.ok (), c)) ?_
  cases ht : s.tagId name with
  | none => exact Spends.ret ⟨rfl, fun _ => rfl⟩
  | some t =>
    rw [if_neg (by simp)]
    refine Spends.wrap (spends_exec ⟨rfl, fun n => ?_⟩)
    refine Option.ext fun k => ?_
    rw [(Valid.deleteFileTags s.valid _).tagId_iff, s.valid.tagId_iff]
    exact nameOf_addCardinality

/-- The statements of one request: the path's id, the tag, and the row of `file_tags` if the tag is known. -/
def modifyStatements (s : DB) (name op : String) : ℕ :=
  if op = "remove" ∧ s.tagId name = none then 2 else 3

theorem spends_modifyFileTags {op : String} (hop : op = "add" ∨ op = "remove")
    (hi : s.fileId path = some i) :
    Spends (modifyFileTags path [name] op) s (modifyStatements s name op)
      fun _ s' => s'.fileId path = some i ∧ (op = "remove" → ∀ n, s'.tagId n = s.tagId n) := by
  have hfile : ∀ {s' : DB}, s'.files = s.files → s'.fileId path = some i := fun h => by
    rw [← hi, Tables.fileId, Tables.fileId, h]
  rcases hop with rfl | rfl
  · show Spends (modifyFileTags path [name] "add") s (1 + (2 + 0)) _
    refine Spends.andThen (Spends.wrap (Spends.wrap (spends_queryRow hi ?_)))
    obtain ⟨f, hf, -, hfi⟩ := s.valid.fileId_iff.mp hi
    refine Spends.andThen ((spends_modifyAdd (has_iff.mpr ⟨f, hf, hfi⟩)).mono fun _ s' h => ?_)
    exact Spends.ret ⟨hfile h, fun h => absurd h (by decide)⟩
  · have hcost : modifyStatements s name "remove" = 1 + ((1 + if s.tagId name = none then 0 else 1) + 0) := by
      unfold modifyStatements
      split_ifs <;> simp_all
    rw [hcost]
    refine Spends.andThen (Spends.wrap (Spends.wrap (spends_queryRow hi ?_)))
    refine Spends.andThen (spends_modifyRemove.mono fun _ s' h => ?_)
    exact Spends.ret ⟨hfile h.1, fun _ => h.2⟩

end Modify

/-! ### Deleting files -/

/-- What is left after the rows `p` picks are gone. -/
structure Removed (p : FileRow → Bool) (s s' : DB) : Prop where
  files : s'.files = s.files.filter fun f => !p f
  tagged : ∀ j n, s'.Tagged j n ↔ s.Tagged j n ∧ picks s.toTables p j = false
  hasMeta : ∀ j k v, s'.HasMeta j k v ↔ s.HasMeta j k v ∧ picks s.toTables p j = false
  hasProvenance : ∀ j n r,
    s'.HasProvenance j n r ↔ s.HasProvenance j n r ∧ picks s.toTables p j = false
  overridden : ∀ j n r, s'.Overridden j n r ↔ s.Overridden j n r ∧ picks s.toTables p j = false
  embeddings : ∀ r ∈ s.fileEmbeddings, picks s.toTables p r.fileId = false → r ∈ s'.fileEmbeddings

/-- The files that are left keep their ids. -/
theorem Removed.fileId_iff {p : FileRow → Bool} {s' : DB} (h : Removed p s s') {q : String} :
    s'.fileId q = some i ↔ s.fileId q = some i ∧ picks s.toTables p i = false := by
  rw [s'.valid.fileId_iff, s.valid.fileId_iff, h.files]
  refine ⟨?_, ?_⟩
  · rintro ⟨f, hf, rfl, rfl⟩
    obtain ⟨hf, hp⟩ := List.mem_filter.mp hf
    exact ⟨⟨f, hf, rfl, rfl⟩, picks_false_of_mem s.valid hf (by simpa using hp)⟩
  · rintro ⟨⟨f, hf, rfl, rfl⟩, hp⟩
    refine ⟨f, List.mem_filter.mpr ⟨hf, ?_⟩, rfl, rfl⟩
    by_contra hc
    rw [picks_of_mem hf (by simpa using hc)] at hp
    exact Bool.noConfusion hp

/-- One id, one path. -/
theorem fileId_inj {q q' : String} (h : s.fileId q = some i) (h' : s.fileId q' = some i) : q = q' := by
  obtain ⟨f, hf, rfl, hi⟩ := s.valid.fileId_iff.mp h
  obtain ⟨f', hf', rfl, hi'⟩ := s.valid.fileId_iff.mp h'
  rw [s.valid.filesId.eq_of_mem hf hf' (hi.trans hi'.symm)]

theorem removed_deleteFiles {p : FileRow → Bool} {emb : List EmbeddingRow}
    {h : (deleteFiles { s.toTables with fileEmbeddings := emb } p).Valid}
    (he : ∀ r ∈ s.fileEmbeddings, picks s.toTables p r.fileId = false → r ∈ emb) :
    Removed p s ⟨_, h⟩ where
  files := rfl
  tagged _ _ := tagged_deleteFiles
  hasMeta _ _ _ := hasMeta_deleteFiles
  hasProvenance _ _ _ := hasProvenance_deleteFiles
  overridden _ _ _ := overridden_deleteFiles
  embeddings := he

/-- **`DeleteFile`** removes the row of the path and what hangs on it, or nothing. -/
theorem wp_deleteFile :
    wp (deleteFile path) (fun _ s' => Removed (fun f => f.path = path) s s') (fun _ s' => s' = s) s := by
  refine wp_tx (wp_andThen (wp_attempt (wp_queryRow (fun i hi => ?_) (fun _ => ?_) ?_)))
  · obtain ⟨f, hf, hp, rfl⟩ := s.valid.fileId_iff.mp hi
    have hpick := picks_of_mem (p := fun f : FileRow => decide (f.path = path)) hf (by simpa using hp)
    refine wp_andThen (wp_attempt (wp_exec ?_ ?_))
    · refine (wp_errorf (wp_exec (removed_deleteFiles fun r hr hno => ?_) trivial))
      refine List.mem_filter.mpr ⟨hr, ?_⟩
      by_contra hc
      have hrf : r.fileId = f.id := by simpa using hc
      rw [hrf, hpick] at hno
      exact Bool.noConfusion hno
    · exact wp_errorf (wp_exec (removed_deleteFiles fun r hr _ => hr) trivial)
  · exact wp_errorf (wp_exec (removed_deleteFiles fun r hr _ => hr) trivial)
  · exact wp_errorf (wp_exec (removed_deleteFiles fun r hr _ => hr) trivial)

/-- **`DeleteStaleFiles`** removes the stale rows and what hangs on them, or nothing. -/
theorem wp_deleteStaleFiles {since : ℤ} :
    wp (deleteStaleFiles path since) (fun _ s' => Removed (stale path since) s s')
      (fun _ s' => s' = s) s := by
  refine wp_tx (wp_andThen (wp_errorf (wp_stmt trivial ?_)))
  refine wp_errorf (wp_exec (removed_deleteFiles fun r hr hno => ?_) trivial)
  exact List.mem_filter.mpr ⟨hr, by simp [hno]⟩

/-! ### What the other writers leave alone -/

/-- The files, their tags and their overrides are as before. -/
structure Keeps (s s' : DB) : Prop where
  files : s'.files = s.files
  tagged : ∀ j n, s'.Tagged j n ↔ s.Tagged j n
  overridden : ∀ j n r, s'.Overridden j n r ↔ s.Overridden j n r

theorem Keeps.refl (s : DB) : Keeps s s := ⟨rfl, fun _ _ => Iff.rfl, fun _ _ _ => Iff.rfl⟩

theorem Keeps.trans {s s' s'' : DB} (h : Keeps s s') (h' : Keeps s' s'') : Keeps s s'' where
  files := h'.files.trans h.files
  tagged j n := (h'.tagged j n).trans (h.tagged j n)
  overridden j n r := (h'.overridden j n r).trans (h.overridden j n r)

theorem Keeps.fileId {s s' : DB} (h : Keeps s s') (path : String) : s'.fileId path = s.fileId path := by
  simp only [Tables.fileId, h.files]

theorem Frame.keeps {s s' : DB} (h : Same s s') : Keeps s s' :=
  ⟨h.files, fun j n => h.tagged j n fun hf => hf, h.overridden⟩

theorem wp_upsertFileMeta {key value source : String} :
    wp (upsertFileMeta i key value source) (fun _ => Keeps s) (fun _ s' => s' = s) s := by
  refine wp_errorf (wp_execFk (fun U hU => ?_) (fun _ => rfl) rfl)
  obtain ⟨m, fts, rfl⟩ := upsertMeta_shape hU
  exact ⟨rfl, fun _ _ => Iff.rfl, fun _ _ _ => Iff.rfl⟩

theorem wp_setProvenance {source : String} {now : ℤ} :
    wp (setProvenance i t source now) (fun _ => Keeps s) (fun _ s' => s' = s) s := by
  refine wp_errorf (wp_execFk (fun U hU => ?_) (fun _ => rfl) rfl)
  obtain ⟨m, rfl⟩ := setTagProvenance_shape hU
  exact ⟨rfl, fun _ _ => Iff.rfl, fun _ _ _ => Iff.rfl⟩

theorem wp_upsertEmbedding {vec : List UInt32} :
    wp (upsertEmbedding i vec) (fun _ => Keeps s) (fun _ s' => s' = s) s := by
  unfold upsertEmbedding
  split_ifs
  · exact wp_fail rfl
  refine wp_tx (wp_andThen (wp_errorf (wp_exec ?_ trivial)))
  refine wp_errorf (wp_execFk (fun U hU => ?_) (fun _ => trivial) trivial)
  unfold insertEmbedding at hU
  split_ifs at hU
  cases hU
  exact ⟨rfl, fun _ _ => Iff.rfl, fun _ _ _ => Iff.rfl⟩

/-! ### Reading tags -/

theorem mem_fileTagsOrdered : name ∈ fileTagsOrdered s.toTables i ↔ s.Tagged i name := by
  rw [fileTagsOrdered, List.mem_insertionSort, s.valid.mem_fileTagNames]

theorem wp_getFileTags {Q : List String → DB → Prop}
    (hQ : ∀ i, s.fileId path = some i → Q (fileTagsOrdered s.toTables i) s)
    (hno : s.fileId path = none → Q [] s) (hE : ∀ e, E e s) : wp (getFileTags path) Q E s := by
  refine wp_andThen (wp_attempt (wp_queryRow (fun i hi => ?_) (fun hi => ?_) ?_))
  · exact wp_errorf (wp_query (hQ i hi) (hE _))
  · exact wp_ret (hno hi)
  · exact wp_fail (hE _)

/-- The pairs of `GetTagOverrides`. -/
theorem mem_tagOverridePairs {rule : String} :
    (name, rule) ∈ tagOverridePairs s.toTables i ↔ s.Overridden i name rule := by
  simp only [tagOverridePairs, List.mem_filterMap, List.mem_filter, decide_eq_true_eq,
    Option.map_eq_some_iff, s.valid.tagsId.lookup_iff, Prod.mk.injEq, Tables.Overridden, Tables.NameOf]
  refine exists_congr fun r => ⟨?_, ?_⟩
  · rintro ⟨⟨hr, hi⟩, g, ⟨hg, hgr⟩, hn, hrule⟩
    exact ⟨hr, hi, hrule, g, hg, hgr, hn⟩
  · rintro ⟨hr, hi, hrule, g, hg, hgr, hn⟩
    exact ⟨⟨hr, hi⟩, g, ⟨hg, hgr⟩, hn, hrule⟩

/-- The pairs of `ListFileTagPairs`. -/
theorem mem_fileTagPairs {q : String} :
    (q, name) ∈ fileTagPairs s.toTables ↔ ∃ i, s.fileId q = some i ∧ s.Tagged i name := by
  simp only [fileTagPairs, List.mem_filterMap, Option.bind_eq_some_iff, Option.map_eq_some_iff,
    s.valid.filesId.lookup_iff, s.valid.tagsId.lookup_iff, s.valid.fileId_iff, Prod.mk.injEq]
  refine ⟨?_, ?_⟩
  · rintro ⟨r, hr, f, ⟨hf, hfr⟩, g, ⟨hg, hgr⟩, rfl, rfl⟩
    exact ⟨f.id, ⟨f, hf, rfl, rfl⟩, r, hr, hfr.symm, g, hg, hgr, rfl⟩
  · rintro ⟨i, ⟨f, hf, rfl, rfl⟩, r, hr, hri, g, hg, hgr, rfl⟩
    exact ⟨r, hr, f, ⟨hf, hri.symm⟩, g, ⟨hg, hgr⟩, rfl, rfl⟩

end Tilbo.Index.StoreSpec
